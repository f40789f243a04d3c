import FoundationComponents.ConnectionPool.Ownership

/-!
# The cap on open connections

`total` never exceeds `max_size`, but `total` is not the number of open connections. `retireActive`
closes a connection and then takes it out of the count. `release` and `cleanupIdle` do it the other
way round: they take expired connections out of the count, notify a waiter, and close them only
after the mutex has been released. In the gap another thread may reserve the freed slot and open a
connection of its own.

Connections that are out of the count and not closed yet are called *retired*. There are never more
open connections than `total` and the retired ones together. So the cap is kept in every run in
which a slot is reserved only while there is room for the retired connections as well, and there
are runs of an ordinary configuration, outside that condition, in which it is exceeded.
-/

namespace FoundationComponents

namespace ConnectionPool

/-- How many connections a thread has taken out of the count without having closed them. -/
def Pc.retired : Pc → ℕ
  | .releaseClose _ | .warmClose _ _ => 1
  | .cleanerClose entries | .shutdownClose entries => entries.length
  | _ => 0

/-- The step of a thread at `pc` reserves a slot for a new connection: it executes `++total`. -/
def reserves (config : Config) (p : Pool) : Pc → Bool
  | .acqCheck _ _ => !p.shuttingDown && p.idle.isEmpty && decide (p.total < config.maxSize)
  | .warmCheck _ =>
      !p.shuttingDown && decide (p.idle.length < config.minIdle) &&
        decide (p.total < config.maxSize)
  | _ => false

@[simp] theorem retired_home (b : Bool) : (home b).retired = 0 := by
  cases b <;> rfl

section Local

variable {config : Config} {b : Bool} {env : Env} {p : Pool} {pc : Pc} {e : Effect}

private theorem card_connections_le (pc : Pc) :
    pc.connections.card ≤ pc.held.active + pc.held.warming + pc.retired := by
  cases pc with
  | cleanerClose entries | shutdownClose entries =>
    rw [Pc.connections, card_connections]
    exact Nat.le_add_left _ _
  | _ => first | exact Nat.zero_le _ | exact Nat.le_refl 1

/-- Only a reservation adds to the counted and the retired connections together. -/
theorem threadStep_retired (hc : Covers config p pc)
    (h : threadStep config b env p pc = some e) :
    e.pool.total + e.next.retired ≤ p.total + pc.retired ∨
      reserves config p pc = true ∧ e.pool.total + e.next.retired = p.total + pc.retired + 1 := by
  obtain ⟨hactive, htotal, -, -⟩ := hc
  have hhome := retired_home b
  cases pc with
  | outside | acqBlocked _ | cleanerBlocked _ | cleanerDone | shutdownBlocked => cases h
  | acqCheck deadline afterWait =>
    simp only [threadStep] at h
    split at h
    · obtain rfl := Option.some.inj h
      exact .inl (by rw [hhome]; exact Nat.le_refl _)
    rename_i hopen
    split at h
    · obtain rfl := Option.some.inj h
      exact .inl (Nat.le_refl _)
    rename_i hidle
    split at h
    · rename_i hroom
      obtain rfl := Option.some.inj h
      exact .inr ⟨by simp [reserves, hopen, hidle, hroom], rfl⟩
    · obtain rfl := Option.some.inj h
      exact .inl (Nat.le_refl _)
  | acqWoken deadline timedOut =>
    simp only [threadStep] at h
    split at h
    · obtain rfl := Option.some.inj h
      exact .inl (Nat.le_refl _)
    split at h <;> obtain rfl := Option.some.inj h
    · exact .inl (by rw [hhome]; exact Nat.le_refl _)
    · exact .inl (Nat.le_refl _)
  | acqCreate deadline | acqExpiry deadline entry =>
    simp only [threadStep] at h
    split at h <;> obtain rfl := Option.some.inj h <;> exact .inl (Nat.le_refl _)
  | acqCount deadline entry | releaseStamp entry | retireClose entry resume =>
    obtain rfl := Option.some.inj h
    exact .inl (Nat.le_refl _)
  | acqPing deadline entry =>
    obtain rfl := Option.some.inj h
    refine .inl ?_
    dsimp only
    split <;> exact Nat.le_refl _
  | acqFinish deadline entry =>
    simp only [threadStep] at h
    split at h <;> obtain rfl := Option.some.inj h
    · exact .inl (Nat.le_refl _)
    · exact .inl (by rw [hhome]; exact Nat.le_refl _)
  | acqRollback =>
    have hone : 1 ≤ p.active := hactive
    obtain rfl := Option.some.inj h
    rw [Effect.slotFreed, Pool.subActive_subTotal hone (by omega), hhome]
    exact .inl (Nat.sub_le _ _)
  | retireCount resume =>
    have hone : 1 ≤ p.active := hactive
    simp only [threadStep, Pool.subActive_subTotal hone (show 1 ≤ p.total by omega)] at h
    split at h <;> obtain rfl := Option.some.inj h
    · exact .inl (Nat.sub_le _ _)
    · exact .inl (by rw [Effect.slotFreed, hhome]; exact Nat.sub_le _ _)
  | releaseReturn entry reachedLifetime =>
    have hone : 1 ≤ p.active := hactive
    simp only [threadStep] at h
    split at h
    · rw [Pool.subActive_subTotal hone (by omega)] at h
      obtain rfl := Option.some.inj h
      exact .inl (Nat.le_of_eq (Nat.sub_add_cancel (show 1 ≤ p.total by omega)))
    · obtain rfl := Option.some.inj h
      exact .inl (by rw [Effect.slotFreed, hhome]; exact Nat.le_refl _)
  | releaseClose entry =>
    obtain rfl := Option.some.inj h
    exact .inl (by rw [hhome]; exact Nat.le_succ _)
  | warmCheck warmed =>
    simp only [threadStep] at h
    split at h
    · obtain rfl := Option.some.inj h
      exact .inl (by rw [hhome]; exact Nat.le_refl _)
    · rename_i hroom
      obtain rfl := Option.some.inj h
      rw [not_or, not_or, Nat.not_le, Nat.not_le] at hroom
      exact .inr ⟨by simp [reserves, hroom], rfl⟩
  | warmCreate warmed =>
    simp only [threadStep] at h
    split at h <;> obtain rfl := Option.some.inj h <;> exact .inl (Nat.le_refl _)
  | warmRollback warmed =>
    have hone : p.idle.length + p.active + 1 ≤ p.total := htotal
    obtain rfl := Option.some.inj h
    rw [Pool.subTotal_of_le (show 1 ≤ p.total by omega), hhome]
    exact .inl (Nat.sub_le _ _)
  | warmPublish warmed entry =>
    have hone : p.idle.length + p.active + 1 ≤ p.total := htotal
    simp only [threadStep, Pool.subTotal_of_le (show 1 ≤ p.total by omega)] at h
    split at h <;> obtain rfl := Option.some.inj h
    · exact .inl (Nat.le_of_eq (Nat.sub_add_cancel (show 1 ≤ p.total by omega)))
    · exact .inl (Nat.le_refl _)
  | warmClose warmed entry =>
    obtain rfl := Option.some.inj h
    exact .inl (Nat.le_succ _)
  | cleanerWait =>
    simp only [threadStep] at h
    split at h <;> obtain rfl := Option.some.inj h <;> exact .inl (Nat.le_refl _)
  | cleanerWoken deadline timedOut =>
    simp only [threadStep] at h
    split at h
    · obtain rfl := Option.some.inj h
      exact .inl (Nat.le_refl _)
    · split at h <;> obtain rfl := Option.some.inj h <;> exact .inl (Nat.le_refl _)
  | cleanerStamp | shutdownSet =>
    obtain rfl := Option.some.inj h
    exact .inl (Nat.le_refl _)
  | cleanerSweep now =>
    -- every slot that is taken out of the count leaves a connection to be closed
    have hidle : p.idle.length ≤ p.total := by omega
    obtain rfl := Option.some.inj h
    obtain ⟨hpool, -, hlen⟩ := Pool.cleanupIdle_spec config now { p with idle := [] } hidle
    rw [hpool]
    exact .inl (Nat.le_of_eq (Nat.sub_add_cancel (hlen.trans hidle)))
  | cleanerClose stale =>
    cases stale <;> obtain rfl := Option.some.inj h
    · exact .inl (Nat.le_refl _)
    · exact .inl (Nat.le_succ _)
  | shutdownJoin =>
    simp only [threadStep] at h
    split at h
    · obtain rfl := Option.some.inj h
      exact .inl (Nat.le_refl _)
    · cases h
  | shutdownCheck =>
    have hidle : p.idle.length ≤ p.total := by omega
    simp only [threadStep, Pool.subTotal_of_le hidle] at h
    split at h <;> obtain rfl := Option.some.inj h
    · exact .inl (Nat.le_of_eq (Nat.sub_add_cancel hidle))
    · exact .inl (Nat.le_refl _)
  | shutdownClose idleToClose =>
    cases idleToClose <;> obtain rfl := Option.some.inj h
    · exact .inl (by rw [hhome]; exact Nat.le_refl _)
    · exact .inl (Nat.le_succ _)

end Local

/-! ## Runs in which reservations leave room for the retired connections

Counted and retired connections together bound the open ones. Only a reservation adds to their
number, so it is enough to look at the reservations. -/

section Runs

variable {n : ℕ} {config : Config}

/-- A slot is reserved only while the counted connections and the retired ones leave room for it. -/
def LeavesRoom (config : Config) (s : System n) : Action n → Prop
  | .step t _ _ => reserves config s.pool (s.threads t) = true →
      s.pool.total + tally Pc.retired s.threads < config.maxSize
  | _ => True

instance (s : System n) (a : Action n) : Decidable (LeavesRoom config s a) :=
  match a with
  | .step _ _ _ => inferInstanceAs (Decidable (_ = true → _ < _))
  | .tryAcquireFor _ _ | .release _ _ | .warmUp _ | .shutdown _ | .wakeSpuriously _ | .expire _
  | .tick _ => .isTrue trivial

private theorem wakeInvariant_retired : WakeInvariant Pc.retired where
  available pc := by cases pc <;> rfl
  shutdownDone pc := by cases pc <;> rfl
  cleaner pc := by cases pc <;> rfl
  expire now pc := by
    cases pc <;> first | rfl | (rw [Pc.expire]; split <;> rfl)

theorem retired_le_step {s s' : System n} {a : Action n} (hbalanced : Balanced config s)
    (hroom : s.pool.total + tally Pc.retired s.threads ≤ config.maxSize)
    (ha : LeavesRoom config s a) (hstep : s.step config a = some s') :
    s'.pool.total + tally Pc.retired s'.threads ≤ config.maxSize := by
  cases stepped_of_step hstep with
  | start _ t pc houtside hpc =>
    have hpc' : pc.retired = (s.threads (some t)).retired := by
      rw [houtside]
      rcases hpc with ⟨_, rfl⟩ | rfl | rfl <;> rfl
    rwa [System.goto, tally_update_of_eq _ _ hpc']
  | release t k entry houtside hentry =>
    have hpc' : (Pc.releaseStamp entry).retired = (s.threads (some t)).retired := by
      rw [houtside]
      rfl
    rwa [System.goto, tally_update_of_eq _ _ hpc']
  | thread t succeeds waiter e threads he hnotify =>
    have htally := wakeInvariant_retired.tally_commit hnotify
    change e.pool.total + _ ≤ _
    rcases threadStep_retired (hbalanced.covers t) he with hle | ⟨hreserves, heq⟩
    · omega
    · -- a reservation, which the guard allows only below the cap
      have hlt : s.pool.total + tally Pc.retired s.threads < config.maxSize := ha hreserves
      omega
  | wake _ t pc hpc =>
    rw [wakeInvariant_retired.tally_wake hpc]
    exact hroom
  | tick nanoseconds => exact hroom

/-- Open connections are counted or retired. -/
theorem length_openConnections_le {s : System n} (hbalanced : Balanced config s)
    (hplaced : Placed s) :
    s.openConnections.length ≤ s.pool.total + tally Pc.retired s.threads := by
  have hcard : s.openConnections.length = s.held.card := by
    rw [← hplaced.openConnections_eq, Multiset.coe_card]
  have hthreads : (tally Pc.connections s.threads).card
      ≤ count Pc.isActive s.threads + count Pc.isWarming s.threads
        + tally Pc.retired s.threads := by
    rw [tally, Multiset.card_sum]
    refine (Finset.sum_le_sum fun t _ ↦ card_connections_le (s.threads t)).trans ?_
    rw [Finset.sum_add_distrib, Finset.sum_add_distrib]
    exact Nat.le_refl _
  have htotal := hbalanced.total_eq
  have hactive := hbalanced.active_eq
  rw [hcard, System.held, Multiset.card_add, Multiset.card_add, card_connections,
    card_connections]
  omega

/-- **The cap, where reservations leave room.** In every run in which a slot is reserved only while
the connections in the count and those taken out of it but not closed yet number less than
`max_size`, there are never more than `max_size` open connections. -/
theorem openConnections_le_maxSize {now : ℤ} {s : System n}
    (h : (machine config now n).ReachableWhen (LeavesRoom config) s) :
    s.openConnections.length ≤ config.maxSize := by
  have hinv : s.pool.total + tally Pc.retired s.threads ≤ config.maxSize ∧ Balanced config s := by
    refine Machine.Leads.invariant (I := fun s ↦
      s.pool.total + tally Pc.retired s.threads ≤ config.maxSize ∧ Balanced config s) h ?_ ?_
    · have hzero : tally Pc.retired (machine config now n).init.threads = 0 :=
        tally_eq_zero _ _ fun t ↦ retired_home t.isNone
      refine ⟨?_, balanced_init config now n⟩
      rw [hzero]
      exact Nat.zero_le _
    · intro s a t hs ha hstep
      exact ⟨retired_le_step hs.2 hs.1 ha hstep, balanced_step hs.2 hstep⟩
  exact (length_openConnections_le hinv.2 (placed_of_reachable h.reachable)).trans hinv.1

/-- Room for one connection and two threads: the first acquires it, holds it for longer than
`max_lifetime` and releases it, closing it before the second acquires. -/
def closesInTime (t u : Fin n) : List (Action n) :=
  [.tryAcquireFor t 1000, .step (some t) true none, .step (some t) true none,
    .step (some t) true none, .step (some t) true none, .tick (300000 * 10 ^ 6),
    .release t 0, .step (some t) true none, .step (some t) true none, .step (some t) true none,
    .tryAcquireFor u 1000, .step (some u) true none, .step (some u) true none]

theorem openConnections_le_maxSize_closesInTime :
    ∃ s, (machine { maxSize := 1 } 0 2).ReachableWhen (LeavesRoom { maxSize := 1 }) s ∧
      s.openConnections = [1] ∧ s.openConnections.length ≤ 1 := by
  obtain ⟨s, hs, hopen⟩ := Machine.exists_reachableWhen_of_run (M := machine { maxSize := 1 } 0 2)
    (C := LeavesRoom { maxSize := 1 }) (fun s ↦ s.openConnections) (closesInTime 0 1)
    (b := [1]) (by decide +kernel)
  exact ⟨s, hs, hopen, openConnections_le_maxSize hs⟩

end Runs

/-! ## A run that exceeds the cap -/

/-- The same threads and times, but the first thread is stopped before it closes the connection it
has already taken out of the count. -/
def closesLate {n : ℕ} (t u : Fin n) : List (Action n) :=
  [.tryAcquireFor t 1000, .step (some t) true none, .step (some t) true none,
    .step (some t) true none, .step (some t) true none, .tick (300000 * 10 ^ 6),
    .release t 0, .step (some t) true none, .step (some t) true none,
    .tryAcquireFor u 1000, .step (some u) true none, .step (some u) true none]

/-- **The cap is not kept in general**, for a configuration that differs from the default only in
`max_size`. -/
theorem not_openConnections_le_maxSize :
    ¬ ∀ config : Config, validate true config = .ok config →
      ∀ (now : ℤ) (n : ℕ) (s : System n), (machine config now n).Reachable s →
        s.openConnections.length ≤ config.maxSize := by
  intro hcap
  obtain ⟨s, hs, hopen⟩ := Machine.exists_reachable_of_run (M := machine { maxSize := 1 } 0 2)
    (fun s ↦ s.openConnections) (closesLate 0 1) (b := [0, 1]) (by decide +kernel)
  have hle := hcap { maxSize := 1 } (by decide) 0 2 s hs
  rw [show s.openConnections = [0, 1] from hopen] at hle
  exact absurd hle (by decide)

end ConnectionPool

end FoundationComponents
