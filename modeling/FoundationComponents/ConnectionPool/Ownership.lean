import Mathlib.Data.Multiset.Range
import Mathlib.Tactic.Abel
import FoundationComponents.ConnectionPool.Counters

/-!
# Where the connections are

Every connection the factory returned is in one place: in the deque of idle connections, behind a
borrowed handle, in the hands of a thread inside a pool operation, or closed. The places are
compared as multisets, so that one equation says both that no connection is lost and that none is in
two places; the positions of the threads enter it as a tally.

As in the accounting of the counters, `threadStep_owned` goes through the source once, and the rest
is about families of threads. The consequence used further on is that the open connections are
exactly those that are idle, borrowed or in hand.
-/

namespace FoundationComponents

namespace ConnectionPool

/-- The connections of some entries. -/
def connections (entries : List Entry) : Multiset ℕ := entries.map Entry.connection

/-- The connections a thread has in its hands. -/
def Pc.connections : Pc → Multiset ℕ
  | .acqCount _ entry | .acqExpiry _ entry | .acqPing _ entry | .acqFinish _ entry
  | .retireClose entry _ | .releaseStamp entry | .releaseReturn entry _ | .releaseClose entry
  | .warmPublish _ entry | .warmClose _ entry => {entry.connection}
  | .cleanerClose entries | .shutdownClose entries => ConnectionPool.connections entries
  | _ => 0

@[simp] theorem connections_nil : connections [] = 0 := rfl

@[simp] theorem connections_cons (entry : Entry) (entries : List Entry) :
    connections (entry :: entries) = {entry.connection} + connections entries := rfl

@[simp] theorem connections_append (entries entries' : List Entry) :
    connections (entries ++ entries') = connections entries + connections entries' := by
  rw [connections, List.map_append, ← Multiset.coe_add]
  rfl

private theorem connections_perm {entries entries' : List Entry} (h : entries.Perm entries') :
    connections entries = connections entries' :=
  Multiset.coe_eq_coe.mpr (h.map _)

@[simp] theorem card_connections (entries : List Entry) :
    (connections entries).card = entries.length :=
  List.length_map _

@[simp] theorem connections_home (b : Bool) : (home b).connections = 0 := by
  cases b <;> rfl

/-! ## One section

A section moves connections between the deque, the hands of its thread, a handle and the closed
ones. The four ways in which the source does it have a lemma each. -/

section Owned

variable {config : Config} {b : Bool} {env : Env} {p : Pool} {pc : Pc} {e : Effect}

/-- How a step moves connections: what was idle or in hand, and what the factory has just returned,
is afterwards idle, lent, in hand or closed. -/
structure Owned (env : Env) (p : Pool) (pc : Pc) (e : Effect) : Prop where
  places : connections e.pool.idle + connections e.lent.toList + e.next.connections +
      (closedIn e.events : Multiset ℕ) =
    connections p.idle + pc.connections + (madeIn e.events : Multiset ℕ)
  fresh : madeIn e.events = [] ∨ madeIn e.events = [env.made]

private theorem owned_quiet {A : Multiset ℕ} (hpc : pc.connections = A)
    (hnext : e.next.connections = A) (hidle : e.pool.idle = p.idle) (hlent : e.lent = none)
    (hclosed : closedIn e.events = [])
    (hmade : madeIn e.events = []) : Owned env p pc e := by
  refine ⟨?_, .inl hmade⟩
  rw [hpc, hnext, hidle, hlent, hclosed, hmade]
  simp

theorem owned_made {entry : Entry} (hentry : entry.connection = env.made)
    (hpc : pc.connections = 0) (hnext : e.next.connections = {entry.connection})
    (hidle : e.pool.idle = p.idle) (hlent : e.lent = none) (hclosed : closedIn e.events = [])
    (hmade : madeIn e.events = [env.made]) : Owned env p pc e := by
  refine ⟨?_, .inr hmade⟩
  rw [hpc, hnext, hidle, hlent, hclosed, hmade, hentry]
  simp

private theorem owned_closed {A : Multiset ℕ} {c : ℕ} (hpc : pc.connections = {c} + A)
    (hnext : e.next.connections = A) (hidle : e.pool.idle = p.idle) (hlent : e.lent = none)
    (hclosed : closedIn e.events = [c]) (hmade : madeIn e.events = []) : Owned env p pc e := by
  refine ⟨?_, .inl hmade⟩
  rw [hpc, hnext, hidle, hlent, hclosed, hmade, add_comm {c} A]
  simp [add_assoc]

theorem owned_returned {entry : Entry} (hpc : pc.connections = {entry.connection})
    (hnext : e.next.connections = 0) (hidle : e.pool.idle = p.idle ++ [entry])
    (hlent : e.lent = none) (hclosed : closedIn e.events = []) (hmade : madeIn e.events = []) :
    Owned env p pc e := by
  refine ⟨?_, .inl hmade⟩
  rw [hpc, hnext, hidle, hlent, hclosed, hmade]
  simp

theorem owned_taken (entries : List Entry) (hpc : pc.connections = 0)
    (hnext : e.next.connections = connections entries)
    (hidle : (e.pool.idle ++ entries).Perm p.idle)
    (hlent : e.lent = none) (hclosed : closedIn e.events = []) (hmade : madeIn e.events = []) :
    Owned env p pc e := by
  refine ⟨?_, .inl hmade⟩
  rw [hpc, hnext, ← connections_perm hidle, hlent, hclosed, hmade]
  simp

/-- **The places after one step.** -/
theorem threadStep_owned (htotal : p.idle.length ≤ p.total)
    (h : threadStep config b env p pc = some e) : Owned env p pc e := by
  have hhome := connections_home b
  cases pc with
  | outside | acqBlocked _ | cleanerBlocked _ | cleanerDone | shutdownBlocked => cases h
  | acqCheck deadline afterWait =>
    simp only [threadStep] at h
    split at h
    · obtain rfl := Option.some.inj h
      exact owned_quiet rfl hhome rfl rfl rfl rfl
    split at h
    · rename_i entry rest hidle
      obtain rfl := Option.some.inj h
      refine owned_taken [entry] rfl rfl ?_ rfl rfl rfl
      rw [hidle]
      exact List.perm_append_comm
    · split at h <;> obtain rfl := Option.some.inj h <;> exact owned_quiet rfl rfl rfl rfl rfl rfl
  | acqWoken deadline timedOut =>
    simp only [threadStep] at h
    split at h
    · obtain rfl := Option.some.inj h
      exact owned_quiet rfl rfl rfl rfl rfl rfl
    split at h <;> obtain rfl := Option.some.inj h
    · exact owned_quiet rfl hhome rfl rfl rfl rfl
    · exact owned_quiet rfl rfl rfl rfl rfl rfl
  | acqCreate deadline =>
    simp only [threadStep] at h
    split at h <;> obtain rfl := Option.some.inj h
    · exact owned_made rfl rfl rfl rfl rfl rfl rfl
    · exact owned_quiet rfl rfl rfl rfl rfl rfl
  | acqRollback =>
    obtain rfl := Option.some.inj h
    exact owned_quiet rfl hhome rfl rfl rfl rfl
  | acqCount deadline entry | releaseStamp entry =>
    obtain rfl := Option.some.inj h
    exact owned_quiet rfl rfl rfl rfl rfl rfl
  | acqExpiry deadline entry =>
    simp only [threadStep] at h
    split at h <;> obtain rfl := Option.some.inj h <;> exact owned_quiet rfl rfl rfl rfl rfl rfl
  | acqPing deadline entry =>
    obtain rfl := Option.some.inj h
    refine owned_quiet (A := {entry.connection}) rfl ?_ rfl rfl rfl rfl
    dsimp only
    split <;> rfl
  | acqFinish deadline entry =>
    simp only [threadStep] at h
    split at h <;> obtain rfl := Option.some.inj h
    · exact owned_quiet rfl rfl rfl rfl rfl rfl
    · refine ⟨?_, .inl rfl⟩
      rw [hhome]
      simp [Pc.connections, closedIn, madeIn]
  | retireClose entry resume =>
    obtain rfl := Option.some.inj h
    exact owned_closed (A := 0) rfl rfl rfl rfl rfl rfl
  | retireCount resume =>
    simp only [threadStep] at h
    split at h <;> obtain rfl := Option.some.inj h
    · exact owned_quiet rfl rfl rfl rfl rfl rfl
    · exact owned_quiet rfl hhome rfl rfl rfl rfl
  | releaseReturn entry reachedLifetime =>
    simp only [threadStep] at h
    split at h <;> obtain rfl := Option.some.inj h
    · exact owned_quiet rfl rfl rfl rfl rfl rfl
    · exact owned_returned rfl hhome rfl rfl rfl rfl
  | releaseClose entry =>
    obtain rfl := Option.some.inj h
    exact owned_closed (A := 0) rfl hhome rfl rfl rfl rfl
  | warmCheck warmed =>
    simp only [threadStep] at h
    split at h <;> obtain rfl := Option.some.inj h
    · exact owned_quiet rfl hhome rfl rfl rfl rfl
    · exact owned_quiet rfl rfl rfl rfl rfl rfl
  | warmCreate warmed =>
    simp only [threadStep] at h
    split at h <;> obtain rfl := Option.some.inj h
    · exact owned_made rfl rfl rfl rfl rfl rfl rfl
    · exact owned_quiet rfl rfl rfl rfl rfl rfl
  | warmRollback warmed =>
    obtain rfl := Option.some.inj h
    exact owned_quiet rfl hhome rfl rfl rfl rfl
  | warmPublish warmed entry =>
    simp only [threadStep] at h
    split at h <;> obtain rfl := Option.some.inj h
    · exact owned_quiet rfl rfl rfl rfl rfl rfl
    · exact owned_returned rfl rfl rfl rfl rfl rfl
  | warmClose warmed entry =>
    obtain rfl := Option.some.inj h
    exact owned_closed (A := 0) rfl rfl rfl rfl rfl rfl
  | cleanerWait =>
    simp only [threadStep] at h
    split at h <;> obtain rfl := Option.some.inj h <;> exact owned_quiet rfl rfl rfl rfl rfl rfl
  | cleanerWoken deadline timedOut =>
    simp only [threadStep] at h
    split at h
    · obtain rfl := Option.some.inj h
      exact owned_quiet rfl rfl rfl rfl rfl rfl
    split at h <;> obtain rfl := Option.some.inj h <;> exact owned_quiet rfl rfl rfl rfl rfl rfl
  | cleanerStamp | shutdownSet =>
    obtain rfl := Option.some.inj h
    exact owned_quiet rfl rfl rfl rfl rfl rfl
  | cleanerSweep now =>
    obtain rfl := Option.some.inj h
    obtain ⟨-, hperm, -⟩ := Pool.cleanupIdle_spec config now { p with idle := [] } htotal
    exact owned_taken _ rfl rfl hperm rfl rfl rfl
  | cleanerClose stale =>
    cases stale <;> obtain rfl := Option.some.inj h
    · exact owned_quiet rfl rfl rfl rfl rfl rfl
    · exact owned_closed rfl rfl rfl rfl rfl rfl
  | shutdownJoin =>
    simp only [threadStep] at h
    split at h
    · obtain rfl := Option.some.inj h
      exact owned_quiet rfl rfl rfl rfl rfl rfl
    · cases h
  | shutdownCheck =>
    simp only [threadStep] at h
    split at h <;> obtain rfl := Option.some.inj h
    · exact owned_taken _ rfl rfl (List.Perm.refl _) rfl rfl rfl
    · exact owned_quiet rfl rfl rfl rfl rfl rfl
  | shutdownClose idleToClose =>
    cases idleToClose <;> obtain rfl := Option.some.inj h
    · exact owned_quiet rfl hhome rfl rfl rfl rfl
    · exact owned_closed rfl rfl rfl rfl rfl rfl

end Owned

/-! ## Every reachable state -/

section Places

variable {n : ℕ} {config : Config}

@[simp] theorem madeIn_append (events events' : List Event) :
    madeIn (events ++ events') = madeIn events ++ madeIn events' := by
  rw [madeIn, List.filterMap_append]
  rfl

@[simp] theorem closedIn_append (events events' : List Event) :
    closedIn (events ++ events') = closedIn events ++ closedIn events' := by
  rw [closedIn, List.filterMap_append]
  rfl

theorem events_commit (s : System n) (t : Thread n) (e : Effect) (threads : Thread n → Pc) :
    (s.commit t e threads).events = s.events ++ e.events := by
  rw [System.events, System.commit, List.map_append, List.map_map]
  exact congrArg (s.events ++ ·) (List.map_id _)

/-- What is not closed: idle, borrowed or in the hands of a thread. -/
def System.held (s : System n) : Multiset ℕ :=
  connections s.pool.idle + connections s.handles + tally Pc.connections s.threads

/-- **Every connection is in one place.** -/
structure Placed (s : System n) : Prop where
  places : s.held + (closedIn s.events : Multiset ℕ) = Multiset.range s.made
  made_eq : madeIn s.events = List.range s.made

private theorem wakeInvariant_connections : WakeInvariant Pc.connections where
  available pc := by cases pc <;> rfl
  shutdownDone pc := by cases pc <;> rfl
  cleaner pc := by cases pc <;> rfl
  expire now pc := by
    cases pc <;> first | rfl | (rw [Pc.expire]; split <;> rfl)

theorem placed_commit {s : System n} (h : Placed s) (hbalanced : Balanced config s) {t : Thread n}
    {succeeds : Bool} {e : Effect} {waiter : Option (Thread n)} {threads : Thread n → Pc}
    (he : threadStep config t.isNone (s.env succeeds) s.pool (s.threads t) = some e)
    (hnotify : notifyAvailable (Function.update s.threads t e.next) e.available waiter
      = some threads) :
    Placed (s.commit t e threads) := by
  have hidle : s.pool.idle.length ≤ s.pool.total := by
    rw [hbalanced.total_eq]
    omega
  obtain ⟨hplaces, hfresh⟩ := threadStep_owned hidle he
  have htally := wakeInvariant_connections.tally_commit hnotify
  have hmade : Multiset.range s.made + (madeIn e.events : Multiset ℕ)
      = Multiset.range (s.made + (madeIn e.events).length) := by
    rcases hfresh with hnone | hone
    · simp [hnone]
    · rw [hone, List.length_singleton, Multiset.range_succ, ← Multiset.singleton_add, add_comm]
      rfl
  refine ⟨?_, ?_⟩
  · rw [events_commit, closedIn_append, ← Multiset.coe_add]
    -- the two exchanges are added up, and what the thread held before and holds after cancels
    refine add_right_cancel (b := e.next.connections + (s.threads t).connections) ?_
    calc (s.commit t e threads).held + (closedIn s.events + closedIn e.events : Multiset ℕ)
          + (e.next.connections + (s.threads t).connections)
        = (connections e.pool.idle + connections e.lent.toList + e.next.connections
              + (closedIn e.events : Multiset ℕ))
            + (tally Pc.connections (s.commit t e threads).threads + (s.threads t).connections)
            + connections s.handles + (closedIn s.events : Multiset ℕ) := by
          rw [System.held,
            show (s.commit t e threads).handles = s.handles ++ e.lent.toList from rfl,
            connections_append, show (s.commit t e threads).pool = e.pool from rfl]
          abel
      _ = (s.held + (closedIn s.events : Multiset ℕ)) + (madeIn e.events : Multiset ℕ)
            + (e.next.connections + (s.threads t).connections) := by
          rw [hplaces, htally, System.held]
          abel
      _ = Multiset.range (s.commit t e threads).made
            + (e.next.connections + (s.threads t).connections) := by
          rw [h.places, hmade]
          rfl
  · rw [events_commit, madeIn_append, h.made_eq]
    rcases hfresh with hnone | hone
    · rw [hnone, List.append_nil, System.commit, hnone]
      rfl
    · rw [hone, System.commit, hone, List.length_singleton, List.range_succ]
      rfl

theorem placed_goto {s : System n} (h : Placed s) {t : Thread n} {pc : Pc}
    (hpc : pc.connections = (s.threads t).connections) : Placed (s.goto t pc) := by
  refine ⟨?_, h.made_eq⟩
  have htally : tally Pc.connections (s.goto t pc).threads = tally Pc.connections s.threads :=
    tally_update_of_eq _ _ hpc
  rw [System.held, htally]
  exact h.places

theorem placed_release {s : System n} (h : Placed s) {t : Fin n} {k : ℕ} {entry : Entry}
    (houtside : s.threads (some t) = .outside) (hentry : s.handles[k]? = some entry) :
    Placed ({ s with handles := s.handles.eraseIdx k }.goto (some t) (.releaseStamp entry)) := by
  refine ⟨?_, h.made_eq⟩
  obtain ⟨hk, hget⟩ := List.getElem?_eq_some_iff.mp hentry
  have htally : tally Pc.connections (Function.update s.threads (some t) (.releaseStamp entry))
      = tally Pc.connections s.threads + {entry.connection} := by
    have htrade := tally_update Pc.connections s.threads (some t) (.releaseStamp entry)
    rwa [houtside, show Pc.outside.connections = 0 from rfl, add_zero] at htrade
  have hhandles : connections s.handles
      = {entry.connection} + connections (s.handles.eraseIdx k) := by
    rw [← connections_cons, ← hget]
    exact connections_perm (List.getElem_cons_eraseIdx_perm hk).symm
  have hplaces := h.places
  rw [System.held, hhandles] at hplaces
  calc connections s.pool.idle + connections (s.handles.eraseIdx k)
        + tally Pc.connections (Function.update s.threads (some t) (.releaseStamp entry))
        + (closedIn s.events : Multiset ℕ)
      = connections s.pool.idle + ({entry.connection} + connections (s.handles.eraseIdx k))
          + tally Pc.connections s.threads + (closedIn s.events : Multiset ℕ) := by
        rw [htally]
        abel
    _ = Multiset.range s.made := hplaces

theorem placed_step {s s' : System n} {a : Action n} (h : Placed s) (hbalanced : Balanced config s)
    (hstep : s.step config a = some s') : Placed s' := by
  cases stepped_of_step hstep with
  | start _ t pc houtside hpc =>
    refine placed_goto h ?_
    rw [houtside]
    rcases hpc with ⟨_, rfl⟩ | rfl | rfl <;> rfl
  | release t k entry houtside hentry => exact placed_release h houtside hentry
  | thread t succeeds waiter e threads he hnotify => exact placed_commit h hbalanced he hnotify
  | wake _ t pc hpc =>
    refine placed_goto h ?_
    rcases hpc with rfl | rfl
    · exact wakeInvariant_connections.spurious _
    · exact wakeInvariant_connections.expire _ _
  | tick nanoseconds => exact ⟨h.places, h.made_eq⟩

theorem placed_init (config : Config) (now : ℤ) (n : ℕ) :
    Placed (machine config now n).init := by
  have hzero : tally Pc.connections (machine config now n).init.threads = 0 :=
    tally_eq_zero _ _ fun t ↦ connections_home t.isNone
  refine ⟨?_, rfl⟩
  rw [System.held, hzero]
  rfl

theorem placed_of_reachable {now : ℤ} {s : System n} (h : (machine config now n).Reachable s) :
    Placed s := by
  have hboth : Balanced config s ∧ Placed s := by
    refine Machine.Leads.invariant (I := fun s ↦ Balanced config s ∧ Placed s) h
      ⟨balanced_init config now n, placed_init config now n⟩ ?_
    intro s a t hs _ hstep
    exact ⟨balanced_step hs.1 hstep, placed_step hs.2 hs.1 hstep⟩
  exact hboth.2

/-- The open connections are those that are idle, borrowed or in the hands of a thread. -/
theorem Placed.openConnections_eq {s : System n} (h : Placed s) :
    (s.openConnections : Multiset ℕ) = s.held := by
  have hnodup : (s.held + (closedIn s.events : Multiset ℕ)).Nodup := by
    rw [h.places]
    exact Multiset.nodup_range _
  have hdisjoint := (Multiset.nodup_add.mp hnodup).2.2
  have hkept : s.held.filter (fun c ↦ c ∉ closedIn s.events) = s.held :=
    Multiset.filter_eq_self.mpr fun c hc hclosed ↦ Multiset.disjoint_left.mp hdisjoint hc hclosed
  have hdropped : (closedIn s.events : Multiset ℕ).filter (fun c ↦ c ∉ closedIn s.events) = 0 :=
    Multiset.filter_eq_nil.mpr fun c hc hclosed ↦ hclosed hc
  calc (s.openConnections : Multiset ℕ)
      = (Multiset.range s.made).filter (fun c ↦ c ∉ closedIn s.events) := by
        rw [System.openConnections, h.made_eq, Multiset.range, Multiset.filter_coe]
    _ = s.held := by
        rw [← h.places, Multiset.filter_add, hkept, hdropped, add_zero]

end Places

end ConnectionPool

end FoundationComponents
