import FoundationComponents.ConnectionPool.Ownership

/-!
# Exclusive ownership

The one-place equation says where a connection is, not how it got there. To say what `tryAcquireFor`
checked before it handed a connection out, the system is run together with a log: each thread
records the findings of its current call, and each hand-out is recorded with the findings of the
call that made it. The log only watches. It is computed from the step that is taken and never
consulted, so every run has its log.
-/

namespace FoundationComponents

namespace ConnectionPool

/-! ## What a call finds out

A connection may be handed out when it has just been made, or when it was idle and has passed both
checks in this call. Which of them it has passed is in the position of the thread. -/

/-- What a call of `tryAcquireFor` finds out about a connection. -/
inductive Finding
  /-- the factory returned it to this call -/
  | created (connection : ℕ)
  /-- this call took it out of `idle` -/
  | taken (connection : ℕ)
  /-- `shouldRetire` was false -/
  | unexpired (connection : ℕ)
  /-- `ping()` was called and returned true -/
  | healthy (connection : ℕ)
  deriving Repr, DecidableEq

/-- The findings of the next step of a thread. -/
def findings (config : Config) (env : Env) (p : Pool) : Pc → List Finding
  | .acqCheck _ _ =>
      if p.shuttingDown then []
      else match p.idle with
        | entry :: _ => [.taken entry.connection]
        | [] => []
  | .acqCreate _ => if env.succeeds then [.created env.made] else []
  | .acqExpiry _ entry =>
      if shouldRetire config entry env.now then [] else [.unexpired entry.connection]
  | .acqPing _ entry => if env.succeeds then [.healthy entry.connection] else []
  | _ => []

/-- A call may hand the connection out: it has just created it, or it has taken it from `idle` and
found it not expired and healthy. -/
def Checked (c : ℕ) (found : List Finding) : Prop :=
  [.created c] <:+ found ∨ [.taken c, .unexpired c, .healthy c] <:+ found

/-- What the findings of a call are at each position with a connection in hand that may still be
handed out. -/
def Pc.Vouched : Pc → List Finding → Prop
  | .acqCount _ entry => fun found ↦ [.created entry.connection] <:+ found
  | .acqExpiry _ entry => fun found ↦ [.taken entry.connection] <:+ found
  | .acqPing _ entry => fun found ↦ [.taken entry.connection, .unexpired entry.connection] <:+ found
  | .acqFinish _ entry => Checked entry.connection
  | _ => fun _ ↦ True

/-- The connections handed out among some events, in order. -/
def acquiredIn (events : List Event) : List ℕ :=
  events.filterMap fun
    | .acquired (some c) => some c
    | _ => none

/-! ## One step -/

section Step

variable {config : Config} {b : Bool} {env : Env} {p : Pool} {pc : Pc} {e : Effect}

private theorem vouched_home (b : Bool) (found : List Finding) : (home b).Vouched found := by
  cases b <;> exact trivial

theorem suffix_append {known found : List Finding} (h : known <:+ found) (more : List Finding) :
    known ++ more <:+ found ++ more := by
  obtain ⟨earlier, rfl⟩ := h
  exact ⟨earlier, List.append_assoc .. |>.symm⟩

/-- How a step keeps to the checks: the next position is vouched for by the findings, and what is
handed out was in hand, was checked, and is not being closed. -/
structure Watched (config : Config) (env : Env) (p : Pool) (pc : Pc) (found : List Finding)
    (e : Effect) : Prop where
  vouched : e.next.Vouched (found ++ findings config env p pc)
  handsOut : ∀ c ∈ acquiredIn e.events,
    Checked c found ∧ c ∈ pc.connections ∧ closedIn e.events = []

private theorem watched_silent {found : List Finding}
    (hnext : e.next.Vouched (found ++ findings config env p pc))
    (hevents : acquiredIn e.events = []) :
    Watched config env p pc found e := by
  refine ⟨hnext, ?_⟩
  rw [hevents]
  exact nofun

/-- **The checks of one call.** A step that leads to a position with a connection in hand makes the
finding which that position stands for, and only the last section of `tryAcquireFor` hands out. -/
theorem threadStep_watched {found : List Finding} (hpc : pc.Vouched found)
    (h : threadStep config b env p pc = some e) : Watched config env p pc found e := by
  have hhome := vouched_home b
  cases pc with
  | outside | acqBlocked _ | cleanerBlocked _ | cleanerDone | shutdownBlocked => cases h
  | acqCheck deadline afterWait =>
    simp only [threadStep] at h
    split at h
    · obtain rfl := Option.some.inj h
      exact watched_silent (hhome _) rfl
    rename_i hopen
    split at h
    · rename_i entry rest hidle
      obtain rfl := Option.some.inj h
      refine watched_silent ?_ rfl
      rw [findings, if_neg hopen, hidle]
      exact List.suffix_append _ _
    · split at h <;> obtain rfl := Option.some.inj h <;> exact watched_silent trivial rfl
  | acqCreate deadline =>
    simp only [threadStep] at h
    split at h
    · rename_i hsucceeds
      obtain rfl := Option.some.inj h
      refine watched_silent ?_ rfl
      rw [findings, if_pos hsucceeds]
      exact List.suffix_append _ _
    · obtain rfl := Option.some.inj h
      exact watched_silent trivial rfl
  | acqCount deadline entry =>
    obtain rfl := Option.some.inj h
    refine watched_silent ?_ rfl
    simp only [findings, List.append_nil]
    exact Or.inl hpc
  | acqExpiry deadline entry =>
    simp only [threadStep] at h
    split at h
    · obtain rfl := Option.some.inj h
      exact watched_silent trivial rfl
    · rename_i hkeep
      obtain rfl := Option.some.inj h
      refine watched_silent ?_ rfl
      rw [findings, if_neg hkeep]
      exact suffix_append hpc _
  | acqPing deadline entry =>
    obtain rfl := Option.some.inj h
    refine watched_silent ?_ rfl
    dsimp only [findings]
    split
    · exact Or.inr (suffix_append hpc _)
    · exact trivial
  | acqWoken deadline timedOut =>
    simp only [threadStep] at h
    split at h
    · obtain rfl := Option.some.inj h
      exact watched_silent trivial rfl
    split at h <;> obtain rfl := Option.some.inj h
    · exact watched_silent (hhome _) rfl
    · exact watched_silent trivial rfl
  | acqFinish deadline entry =>
    simp only [threadStep] at h
    split at h <;> obtain rfl := Option.some.inj h
    · exact watched_silent trivial rfl
    · refine ⟨hhome _, fun c hc ↦ ?_⟩
      obtain rfl := List.mem_singleton.mp hc
      exact ⟨hpc, Multiset.mem_singleton_self _, rfl⟩
  | retireCount resume =>
    simp only [threadStep] at h
    split at h <;> obtain rfl := Option.some.inj h
    · exact watched_silent trivial rfl
    · exact watched_silent (hhome _) rfl
  | releaseReturn entry reachedLifetime =>
    simp only [threadStep] at h
    split at h <;> obtain rfl := Option.some.inj h
    · exact watched_silent trivial rfl
    · exact watched_silent (hhome _) rfl
  | warmCheck warmed =>
    simp only [threadStep] at h
    split at h <;> obtain rfl := Option.some.inj h
    · exact watched_silent (hhome _) rfl
    · exact watched_silent trivial rfl
  | warmCreate warmed | warmPublish warmed entry =>
    simp only [threadStep] at h
    split at h <;> obtain rfl := Option.some.inj h <;> exact watched_silent trivial rfl
  | cleanerWait =>
    simp only [threadStep] at h
    split at h <;> obtain rfl := Option.some.inj h <;> exact watched_silent trivial rfl
  | cleanerWoken deadline timedOut =>
    simp only [threadStep] at h
    split at h
    · obtain rfl := Option.some.inj h
      exact watched_silent trivial rfl
    split at h <;> obtain rfl := Option.some.inj h <;> exact watched_silent trivial rfl
  | shutdownJoin =>
    simp only [threadStep] at h
    split at h
    · obtain rfl := Option.some.inj h
      exact watched_silent trivial rfl
    · cases h
  | shutdownCheck =>
    simp only [threadStep] at h
    split at h <;> obtain rfl := Option.some.inj h <;> exact watched_silent trivial rfl
  | cleanerClose stale =>
    cases stale <;> obtain rfl := Option.some.inj h <;> exact watched_silent trivial rfl
  | shutdownClose idleToClose =>
    cases idleToClose <;> obtain rfl := Option.some.inj h
    · exact watched_silent (hhome _) rfl
    · exact watched_silent trivial rfl
  | acqRollback | releaseClose _ | warmRollback _ =>
    obtain rfl := Option.some.inj h
    exact watched_silent (hhome _) rfl
  | retireClose _ _ | releaseStamp _ | warmClose _ _ | cleanerStamp | cleanerSweep _
  | shutdownSet =>
    obtain rfl := Option.some.inj h
    exact watched_silent trivial rfl

end Step

/-! ## The log

The machine does not remember what a call has found. The log does, and it has no effect on the
run. -/

/-- The system with its log: the findings of the current call of each thread, and what was handed
out, with the findings of the call that handed it out. -/
structure Audited (n : ℕ) where
  system : System n
  found : Thread n → List Finding
  handedOut : List (ℕ × List Finding)

section Audited

variable {n : ℕ} {config : Config}

namespace Audited

/-- What the log of a thread becomes: a call starts with no findings. -/
def foundAfter (config : Config) (s : Audited n) : Action n → Thread n → List Finding
  | .tryAcquireFor t _ | .release t _ | .warmUp t | .shutdown t =>
      Function.update s.found (some t) []
  | .step t succeeds _ =>
      Function.update s.found t
        (s.found t ++ findings config (s.system.env succeeds) s.system.pool (s.system.threads t))
  | _ => s.found

/-- What a step hands out. -/
def handsOut (config : Config) (s : Audited n) : Action n → List (ℕ × List Finding)
  | .step t succeeds _ =>
      match threadStep config t.isNone (s.system.env succeeds) s.system.pool
          (s.system.threads t) with
      | some e => (acquiredIn e.events).map fun c ↦ (c, s.found t)
      | none => []
  | _ => []

/-- A step of the system, logged. -/
def step (config : Config) (s : Audited n) (a : Action n) : Option (Audited n) :=
  (s.system.step config a).map fun next ↦
    { system := next
      found := s.foundAfter config a
      handedOut := s.handedOut ++ s.handsOut config a }

end Audited

/-- The pool with its log. -/
def auditedMachine (config : Config) (now : ℤ) (n : ℕ) : Machine (Audited n) (Action n) where
  init :=
    { system := (machine config now n).init
      found := fun _ ↦ []
      handedOut := [] }
  step s := s.step config

theorem reachable_system {now : ℤ} {s : Audited n} (h : (auditedMachine config now n).Reachable s) :
    (machine config now n).Reachable s.system := by
  induction h with
  | refl => exact Machine.Leads.refl
  | step _ _ hstep ih =>
    obtain ⟨next, hnext, rfl⟩ := Option.map_eq_some_iff.mp hstep
    exact ih.step trivial hnext

theorem exists_audited {now : ℤ} {s : System n} (h : (machine config now n).Reachable s) :
    ∃ audited, (auditedMachine config now n).Reachable audited ∧ audited.system = s := by
  induction h with
  | refl => exact ⟨_, Machine.Leads.refl, rfl⟩
  | step _ _ hstep ih =>
    obtain ⟨audited, hreach, rfl⟩ := ih
    exact ⟨_, hreach.step trivial (Option.map_eq_some_iff.mpr ⟨_, hstep, rfl⟩), rfl⟩

/-! ## Every reachable state

That nothing is handed out after it was closed follows from the one-place equation: what is handed
out was in hand, and what is in hand is not closed. -/

/-- Nothing is handed out after it was closed. -/
def ClosedIsFinal (events : List Event) : Prop :=
  events.Pairwise fun earlier later ↦ ∀ c, earlier = .closed c → later ≠ .acquired (some c)

@[simp] theorem acquiredIn_append (events events' : List Event) :
    acquiredIn (events ++ events') = acquiredIn events ++ acquiredIn events' := by
  rw [acquiredIn, List.filterMap_append]
  rfl

private theorem mem_closedIn {events : List Event} {c : ℕ} :
    c ∈ closedIn events ↔ .closed c ∈ events := by
  rw [closedIn, List.mem_filterMap]
  constructor
  · rintro ⟨event, hevent, hc⟩
    split at hc
    · rwa [← Option.some.inj hc]
    · cases hc
  · exact fun h ↦ ⟨_, h, rfl⟩

private theorem mem_acquiredIn {events : List Event} {c : ℕ} :
    c ∈ acquiredIn events ↔ .acquired (some c) ∈ events := by
  rw [acquiredIn, List.mem_filterMap]
  constructor
  · rintro ⟨event, hevent, hc⟩
    split at hc
    · rwa [← Option.some.inj hc]
    · cases hc
  · exact fun h ↦ ⟨_, h, rfl⟩

/-- The log is in order: each thread is vouched for, and everything handed out was checked, in the
order in which it was handed out, and never after it was closed. -/
structure Watchful (s : Audited n) : Prop where
  vouched : ∀ t, (s.system.threads t).Vouched (s.found t)
  checked : ∀ c found, (c, found) ∈ s.handedOut → Checked c found
  acquired : s.handedOut.map Prod.fst = acquiredIn s.system.events
  final : ClosedIsFinal s.system.events

/-- What is in the hands of a thread is not closed. -/
theorem Placed.notMem_closedIn {s : System n} (h : Placed s) {t : Thread n} {c : ℕ}
    (hc : c ∈ (s.threads t).connections) : c ∉ closedIn s.events := by
  have hnodup : (s.held + (closedIn s.events : Multiset ℕ)).Nodup := by
    rw [h.places]
    exact Multiset.nodup_range _
  have hheld : c ∈ s.held := by
    rw [System.held, Multiset.mem_add]
    exact Or.inr (Multiset.mem_of_le (le_tally Pc.connections s.threads t) hc)
  exact Multiset.disjoint_left.mp (Multiset.nodup_add.mp hnodup).2.2 hheld

private theorem wakeInvariant_vouched : WakeInvariant Pc.Vouched where
  available pc := by cases pc <;> rfl
  shutdownDone pc := by cases pc <;> rfl
  cleaner pc := by cases pc <;> rfl
  expire now pc := by
    cases pc <;> first | rfl | (rw [Pc.expire]; split <;> rfl)

private theorem closedIsFinal_append {config : Config} {env : Env} {s : System n} {t : Thread n}
    {e : Effect} {found : List Finding} (h : ClosedIsFinal s.events) (hplaced : Placed s)
    (hwatched : Watched config env s.pool (s.threads t) found e) :
    ClosedIsFinal (s.events ++ e.events) := by
  rw [ClosedIsFinal, List.pairwise_append]
  refine ⟨h, ?_, ?_⟩
  · apply List.pairwise_of_forall_mem_list
    rintro earlier hearlier later hlater c rfl rfl
    obtain ⟨-, -, hnone⟩ := hwatched.handsOut c (mem_acquiredIn.mpr hlater)
    have hclosed := mem_closedIn.mpr hearlier
    rw [hnone] at hclosed
    cases hclosed
  · rintro earlier hearlier later hlater c rfl rfl
    obtain ⟨-, hhand, -⟩ := hwatched.handsOut c (mem_acquiredIn.mpr hlater)
    exact hplaced.notMem_closedIn hhand (mem_closedIn.mpr hearlier)

private theorem vouched_update {threads : Thread n → Pc} {found : Thread n → List Finding}
    (h : ∀ t, (threads t).Vouched (found t)) {t : Thread n} {pc : Pc} {found' : List Finding}
    (hpc : pc.Vouched found') (i : Thread n) :
    (Function.update threads t pc i).Vouched (Function.update found t found' i) := by
  by_cases hi : i = t
  · subst hi
    rwa [Function.update_self, Function.update_self]
  · rw [Function.update_of_ne hi, Function.update_of_ne hi]
    exact h i

theorem watchful_call {s : Audited n} (h : Watchful s) {next : System n} {t : Fin n} {pc : Pc}
    (hthreads : next.threads = Function.update s.system.threads (some t) pc)
    (hevents : next.events = s.system.events) (hpc : pc.Vouched []) :
    Watchful ⟨next, Function.update s.found (some t) [], s.handedOut ++ []⟩ := by
  rw [List.append_nil]
  refine ⟨?_, h.checked, ?_, ?_⟩
  · intro i
    rw [hthreads]
    exact vouched_update h.vouched hpc i
  · rw [hevents]
    exact h.acquired
  · rw [hevents]
    exact h.final

private theorem watchful_wake {s : Audited n} (h : Watchful s) {next : System n}
    (hthreads : ∀ t, (next.threads t).Vouched = (s.system.threads t).Vouched)
    (hevents : next.events = s.system.events) :
    Watchful ⟨next, s.found, s.handedOut ++ []⟩ := by
  rw [List.append_nil]
  refine ⟨?_, h.checked, ?_, ?_⟩
  · intro t
    rw [hthreads]
    exact h.vouched t
  · rw [hevents]
    exact h.acquired
  · rw [hevents]
    exact h.final

theorem watchful_commit {s : Audited n} (h : Watchful s) (hplaced : Placed s.system) {t : Thread n}
    {succeeds : Bool} {e : Effect} {waiter : Option (Thread n)} {threads : Thread n → Pc}
    (he : threadStep config t.isNone (s.system.env succeeds) s.system.pool (s.system.threads t)
      = some e)
    (hnotify : notifyAvailable (Function.update s.system.threads t e.next) e.available waiter
      = some threads) :
    Watchful
      { system := s.system.commit t e threads
        found := s.foundAfter config (.step t succeeds waiter)
        handedOut := s.handedOut ++ s.handsOut config (.step t succeeds waiter) } := by
  have hwatched := threadStep_watched (h.vouched t) he
  have hout : s.handsOut config (.step t succeeds waiter) =
      (acquiredIn e.events).map fun c ↦ (c, s.found t) := by
    rw [Audited.handsOut, he]
  rw [hout]
  refine ⟨?_, ?_, ?_, ?_⟩
  · intro i
    rw [System.commit, wakeInvariant_vouched.notifyOthers,
      wakeInvariant_vouched.notifyAvailable hnotify]
    exact vouched_update h.vouched hwatched.vouched i
  · intro c found hmem
    rw [List.mem_append, List.mem_map] at hmem
    rcases hmem with hold | ⟨c', hc', heq⟩
    · exact h.checked c found hold
    · obtain ⟨rfl, rfl⟩ := Prod.mk.inj heq
      exact (hwatched.handsOut c' hc').1
  · rw [events_commit, acquiredIn_append, List.map_append, h.acquired, List.map_map]
    exact congrArg _ (List.map_id _)
  · rw [events_commit]
    exact closedIsFinal_append h.final hplaced hwatched

theorem watchful_step {s s' : Audited n} {a : Action n} (h : Watchful s) (hplaced : Placed s.system)
    (hstep : s.step config a = some s') : Watchful s' := by
  obtain ⟨next, hnext, rfl⟩ := Option.map_eq_some_iff.mp hstep
  cases a with
  | tryAcquireFor t timeout =>
    obtain ⟨-, rfl⟩ := eq_goto_of_start hnext
    exact watchful_call h rfl rfl trivial
  | release t k =>
    obtain ⟨entry, -, hstart⟩ := Option.bind_eq_some_iff.mp hnext
    obtain ⟨-, rfl⟩ := eq_goto_of_start hstart
    exact watchful_call h rfl rfl trivial
  | warmUp t | shutdown t =>
    obtain ⟨-, rfl⟩ := eq_goto_of_start hnext
    exact watchful_call h rfl rfl trivial
  | step t succeeds waiter =>
    obtain ⟨e, he, hnotify⟩ := Option.bind_eq_some_iff.mp hnext
    obtain ⟨threads, hthreads, rfl⟩ := Option.map_eq_some_iff.mp hnotify
    exact watchful_commit h hplaced he hthreads
  | wakeSpuriously t =>
    obtain rfl := eq_goto_of_leaveWait hnext
    exact watchful_wake h (apply_update_eq _ _ (wakeInvariant_vouched.spurious _)) rfl
  | expire t =>
    obtain rfl := eq_goto_of_leaveWait hnext
    exact watchful_wake h (apply_update_eq _ _ (wakeInvariant_vouched.expire _ _)) rfl
  | tick nanoseconds =>
    obtain rfl := Option.some.inj hnext
    exact watchful_wake h (fun _ ↦ rfl) rfl

theorem watchful_init (config : Config) (now : ℤ) (n : ℕ) :
    Watchful (auditedMachine config now n).init :=
  ⟨fun t ↦ vouched_home t.isNone _, nofun, rfl, List.Pairwise.nil⟩

theorem watchful_of_reachable {now : ℤ} {s : Audited n}
    (h : (auditedMachine config now n).Reachable s) : Watchful s := by
  induction h with
  | refl => exact watchful_init config now n
  | step hreach _ hstep ih =>
    exact watchful_step ih (placed_of_reachable (reachable_system hreach)) hstep

/-- In how many places a connection is, each thread's hands being one. -/
theorem Placed.count_eq {s : System n} (h : Placed s) (c : ℕ) :
    (s.pool.idle.map Entry.connection).count c + (s.handles.map Entry.connection).count c +
      tally (fun pc : Pc ↦ pc.connections.count c) s.threads + (closedIn s.events).count c =
      (madeIn s.events).count c := by
  have hcount := congrArg (Multiset.count c) h.places
  rw [System.held, Multiset.count_add, Multiset.count_add, Multiset.count_add, connections,
    connections, Multiset.coe_count, Multiset.coe_count, Multiset.coe_count, Multiset.range,
    Multiset.coe_count, ← h.made_eq] at hcount
  rw [← hcount, tally, tally, Multiset.count_sum']

/-- **Exclusive ownership.** In every reachable state of a run and its log: a connection that the
factory returned is in one place (once in `idle`, behind one handle, in the hands of one thread, or
closed once), and no other connection is in any; nothing that was closed is handed out later; and
the call of `tryAcquireFor` that handed a connection out had just created it, or had taken it out of
`idle`, found it not expired, and seen `ping()` return true. -/
theorem exclusive_ownership {now : ℤ} {s : Audited n}
    (h : (auditedMachine config now n).Reachable s) :
    (∀ c, (s.system.pool.idle.map Entry.connection).count c +
      (s.system.handles.map Entry.connection).count c +
      tally (fun pc : Pc ↦ pc.connections.count c) s.system.threads +
      (closedIn s.system.events).count c = if c ∈ madeIn s.system.events then 1 else 0) ∧
    ClosedIsFinal s.system.events ∧
    s.handedOut.map Prod.fst = acquiredIn s.system.events ∧
    ∀ c found, (c, found) ∈ s.handedOut → Checked c found := by
  have hplaced := placed_of_reachable (reachable_system h)
  have hwatchful := watchful_of_reachable h
  refine ⟨?_, hwatchful.final, hwatchful.acquired, hwatchful.checked⟩
  intro c
  rw [hplaced.count_eq, hplaced.made_eq]
  by_cases hc : c ∈ List.range s.system.made
  · rw [if_pos hc]
    exact List.count_eq_one_of_mem List.nodup_range hc
  · rw [if_neg hc]
    exact List.count_eq_zero_of_not_mem hc

end Audited

/-- A borrower gets a new connection, returns it, and gets it again from `idle`. -/
def borrowTwice : List (Action 1) :=
  [.tryAcquireFor 0 1000, .step (some 0) true none, .step (some 0) true none,
    .step (some 0) true none, .step (some 0) true none, .release 0 0, .step (some 0) true none,
    .step (some 0) true none, .tryAcquireFor 0 1000, .step (some 0) true none,
    .step (some 0) true none, .step (some 0) true none, .step (some 0) true none]

theorem exclusive_ownership_borrowTwice :
    ∃ s, (auditedMachine {} 0 1).Reachable s ∧
      s.handedOut = [(0, [.created 0]), (0, [.taken 0, .unexpired 0, .healthy 0])] ∧
      ClosedIsFinal s.system.events ∧ acquiredIn s.system.events = [0, 0] := by
  obtain ⟨s, hs, hf⟩ := Machine.exists_reachable_of_run (M := auditedMachine {} 0 1)
    (fun s ↦ s.handedOut) borrowTwice
    (b := [(0, [.created 0]), (0, [.taken 0, .unexpired 0, .healthy 0])]) (by decide +kernel)
  obtain ⟨-, hfinal, hacquired, -⟩ := exclusive_ownership hs
  rw [hf] at hacquired
  exact ⟨s, hs, hf, hfinal, hacquired.symm⟩

end ConnectionPool

end FoundationComponents
