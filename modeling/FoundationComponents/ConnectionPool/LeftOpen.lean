import FoundationComponents.ConnectionPool.Shutdown

/-!
# What shutting down leaves open

When `shutdown` returns, a connection that is still open is in the hands of some thread, since
nothing is idle and nobody holds a handle. Of the positions with a connection in hand, most hold an
active slot, which `shutdown` waits for. The cleaner thread has been joined and a second `shutdown`
is excluded. What remains is the end of `release`, where the slot has been given up in the critical
section and the connection is closed after it.

So the connections are all closed at that moment exactly if no thread stands there. The run at the
end of the file has a thread there: it releases the last connection, `shutdown` is woken by the
counter and returns, and the connection is still open.
-/

namespace FoundationComponents

namespace ConnectionPool

/-! ## Positions -/

/-- A position of the cleaner thread only. -/
def Pc.isCleaner : Pc → Bool
  | .cleanerWait | .cleanerBlocked _ | .cleanerWoken _ _ | .cleanerStamp | .cleanerSweep _
  | .cleanerClose _ | .cleanerDone => true
  | _ => false

/-- Inside `warmUp`. -/
def Pc.inWarmUp : Pc → Bool
  | .warmCheck _ | .warmCreate _ | .warmRollback _ | .warmPublish _ _ | .warmClose _ _ => true
  | _ => false

/-- Inside `release`, with the slot given up and the connection not closed yet. -/
def Pc.closesReleased : Pc → Bool
  | .releaseClose _ => true
  | _ => false

theorem isCleaner_threadStep {config : Config} {env : Env} {p : Pool} {pc : Pc} {e : Effect}
    (hpc : pc.isCleaner = false) (h : threadStep config false env p pc = some e) :
    e.next.isCleaner = false := by
  cases pc with
  | outside | acqBlocked _ | shutdownBlocked => cases h
  | cleanerWait | cleanerBlocked _ | cleanerWoken _ _ | cleanerStamp | cleanerSweep _
  | cleanerClose _ | cleanerDone => cases hpc
  | acqCheck deadline afterWait =>
    simp only [threadStep] at h
    split at h
    · obtain rfl := Option.some.inj h
      rfl
    split at h
    · obtain rfl := Option.some.inj h
      rfl
    · split at h <;> obtain rfl := Option.some.inj h <;> rfl
  | acqWoken deadline timedOut =>
    simp only [threadStep] at h
    split at h
    · obtain rfl := Option.some.inj h
      rfl
    split at h <;> obtain rfl := Option.some.inj h <;> rfl
  | acqPing deadline entry =>
    obtain rfl := Option.some.inj h
    dsimp only
    split <;> rfl
  | acqCreate _ | acqExpiry _ _ | acqFinish _ _ | retireCount _ | releaseReturn _ _ | warmCheck _
  | warmCreate _ | warmPublish _ _ | shutdownCheck =>
    simp only [threadStep] at h
    split at h <;> obtain rfl := Option.some.inj h <;> rfl
  | shutdownJoin =>
    simp only [threadStep] at h
    split at h
    · obtain rfl := Option.some.inj h
      rfl
    · cases h
  | shutdownClose idleToClose => cases idleToClose <;> obtain rfl := Option.some.inj h <;> rfl
  | acqRollback | acqCount _ _ | retireClose _ _ | releaseStamp _ | releaseClose _ | warmRollback _
  | warmClose _ _ | shutdownSet =>
    obtain rfl := Option.some.inj h
    rfl

theorem wakeInvariant_isCleaner : WakeInvariant Pc.isCleaner where
  available pc := by cases pc <;> rfl
  shutdownDone pc := by cases pc <;> rfl
  cleaner pc := by cases pc <;> rfl
  expire now pc := by
    cases pc <;> first | rfl | (rw [Pc.expire]; split <;> rfl)

section Runs

variable {n : ℕ} {config : Config}

/-! ## One call of `shutdown`

A second call would take connections out of the deque and close them after the first one has
returned. With a single call at most one thread is in these positions. -/

/-- The step with which `shutdown` returns. -/
def Returns (s : System n) : Action n → Prop
  | .step t _ _ => s.threads t = .shutdownClose []
  | _ => False

/-- `shutdown` is called only if it has not been called before. -/
def OneShutdown (s : System n) : Action n → Prop
  | .shutdown _ => s.pool.shuttingDown = false ∧ ∀ t, s.threads t ≠ .shutdownSet
  | _ => True

/-- No user thread is inside `warmUp`. -/
def NoWarmUp (s : System n) : Prop := ∀ i : Fin n, (s.threads (some i)).inWarmUp = false

/-- No thread has given up the slot of a connection that it has yet to close. -/
def ReleasesClosed (s : System n) : Prop := ∀ t, (s.threads t).closesReleased = false

/-- `shutdown` is called once, and returns when no user thread is inside `warmUp`. -/
def Undisturbed (s : System n) (a : Action n) : Prop :=
  OneShutdown s a ∧ (Returns s a → NoWarmUp s)

instance (s : System n) (a : Action n) : Decidable (Returns s a) :=
  match a with
  | .step t _ _ => inferInstanceAs (Decidable (s.threads t = _))
  | .tryAcquireFor _ _ | .release _ _ | .warmUp _ | .shutdown _ | .wakeSpuriously _ | .expire _
  | .tick _ => .isFalse id

instance (s : System n) (a : Action n) : Decidable (OneShutdown s a) :=
  match a with
  | .shutdown _ => inferInstanceAs (Decidable (_ ∧ ∀ t, s.threads t ≠ _))
  | .tryAcquireFor _ _ | .release _ _ | .warmUp _ | .step _ _ _ | .wakeSpuriously _ | .expire _
  | .tick _ => .isTrue trivial

instance (s : System n) : Decidable (NoWarmUp s) :=
  inferInstanceAs (Decidable (∀ i : Fin n, (s.threads (some i)).inWarmUp = false))

instance (s : System n) : Decidable (ReleasesClosed s) :=
  inferInstanceAs (Decidable (∀ t, (s.threads t).closesReleased = false))

instance (s : System n) (a : Action n) : Decidable (Undisturbed s a) :=
  inferInstanceAs (Decidable (_ ∧ (_ → _)))

/-- The cleaner positions are left to the cleaner, and at most one thread is inside `shutdown`. -/
structure Lone (s : System n) : Prop where
  users : ∀ i : Fin n, (s.threads (some i)).isCleaner = false
  single : ∀ t u, (s.threads t).stage ≠ 0 → (s.threads u).stage ≠ 0 → t = u

/-- At most one thread is at a position of a kind, if one that moves comes to be there only if it
was, or if nobody was. -/
theorem single_update {P : Pc → Prop} {threads : Thread n → Pc}
    (h : ∀ t u, P (threads t) → P (threads u) → t = u) {t : Thread n} {pc : Pc}
    (hpc : P pc → P (threads t) ∨ ∀ u, ¬P (threads u)) (i j : Thread n)
    (hi : P (Function.update threads t pc i)) (hj : P (Function.update threads t pc j)) :
    i = j := by
  have hother : ∀ k, k ≠ t → P (Function.update threads t pc k) → P pc → k = t := by
    intro k hk hthere hnext
    rw [Function.update_of_ne hk] at hthere
    rcases hpc hnext with hmover | hnobody
    · exact h k t hthere hmover
    · exact absurd hthere (hnobody k)
  by_cases hit : i = t
  · subst hit
    rw [Function.update_self] at hi
    by_contra hji
    exact hji (hother j (Ne.symm hji) hj hi).symm
  · by_cases hjt : j = t
    · subst hjt
      rw [Function.update_self] at hj
      exact hother i hit hi hj
    · rw [Function.update_of_ne hit] at hi
      rw [Function.update_of_ne hjt] at hj
      exact h i j hi hj

theorem lone_goto {s : System n} (h : Lone s) {t : Thread n} {pc : Pc}
    (hcleaner : ∀ i : Fin n, t = some i → pc.isCleaner = false)
    (hstage : pc.stage ≠ 0 → (s.threads t).stage ≠ 0 ∨ ∀ u, (s.threads u).stage = 0) :
    Lone (s.goto t pc) := by
  refine ⟨fun i ↦ ?_, single_update (P := fun pc ↦ pc.stage ≠ 0) h.single fun hnext ↦
    (hstage hnext).imp_right fun hnone u ↦ not_not.mpr (hnone u)⟩
  by_cases hi : some i = t
  · rw [show (s.goto t pc).threads (some i) = pc from hi ▸ Function.update_self ..]
    exact hcleaner i hi.symm
  · rw [show (s.goto t pc).threads (some i) = s.threads (some i) from Function.update_of_ne hi ..]
    exact h.users i

theorem lone_start {s : System n} (h : Lone s) {t : Fin n} {pc : Pc}
    (hcleaner : pc.isCleaner = false) (hstage : pc.stage = 0) : Lone (s.goto (some t) pc) :=
  lone_goto h (fun _ _ ↦ hcleaner) fun hnext ↦ absurd hstage hnext

private theorem lone_wake {s : System n} (h : Lone s) {t : Thread n} {pc : Pc}
    (hpc : pc = (s.threads t).spurious ∨ pc = (s.threads t).expire s.clock) :
    Lone (s.goto t pc) := by
  have hcleaner : pc.isCleaner = (s.threads t).isCleaner := by
    rcases hpc with rfl | rfl
    · exact wakeInvariant_isCleaner.spurious _
    · exact wakeInvariant_isCleaner.expire _ _
  have hstage : pc.stage = (s.threads t).stage := by
    rcases hpc with rfl | rfl
    · exact wakeInvariant_stage.spurious _
    · exact wakeInvariant_stage.expire _ _
  refine lone_goto h ?_ fun hnext ↦ Or.inl (hstage ▸ hnext)
  rintro i rfl
  rw [hcleaner]
  exact h.users i

theorem stage_eq_zero_of_oneShutdown {s : System n} (horderly : Orderly s) {t : Fin n}
    (h : OneShutdown s (.shutdown t)) (u : Thread n) : (s.threads u).stage = 0 := by
  obtain ⟨hflag, hset⟩ := h
  have hpassed := horderly.stages u
  have hnot := hset u
  generalize s.threads u = pc at hpassed hnot ⊢
  by_contra hstage
  have hlow : ¬ 2 ≤ pc.stage := fun htwo ↦ by simp [hpassed.shuttingDown htwo] at hflag
  cases pc <;> simp [Pc.stage] at hstage hlow hnot

theorem lone_step {s s' : System n} {a : Action n} (hbalanced : Balanced config s)
    (horderly : Orderly s) (h : Lone s) (ha : OneShutdown s a)
    (hstep : s.step config a = some s') : Lone s' := by
  cases a with
  | tryAcquireFor t timeout =>
    obtain ⟨-, rfl⟩ := eq_goto_of_start hstep
    exact lone_start h rfl rfl
  | warmUp t =>
    obtain ⟨-, rfl⟩ := eq_goto_of_start hstep
    exact lone_start h rfl rfl
  | release t k =>
    obtain ⟨entry, -, hstart⟩ := Option.bind_eq_some_iff.mp hstep
    obtain ⟨-, rfl⟩ := eq_goto_of_start hstart
    exact lone_start (s := { s with handles := s.handles.eraseIdx k }) ⟨h.1, h.2⟩ rfl rfl
  | shutdown t =>
    obtain ⟨-, rfl⟩ := eq_goto_of_start hstep
    exact lone_goto h (fun _ _ ↦ rfl) fun _ ↦ Or.inr (stage_eq_zero_of_oneShutdown horderly ha)
  | step t succeeds waiter =>
    obtain ⟨e, he, hnotify⟩ := Option.bind_eq_some_iff.mp hstep
    obtain ⟨threads, hthreads, rfl⟩ := Option.map_eq_some_iff.mp hnotify
    have hstaged := threadStep_staged (by rw [hbalanced.total_eq]; omega) he
    have hmoved : Lone (s.goto t e.next) := by
      refine lone_goto h ?_ fun hnext ↦ Or.inl ?_
      · rintro i rfl
        exact isCleaner_threadStep (h.users i) he
      · rcases hstaged.stage with hle | ⟨hinside, -⟩
        · omega
        · exact hinside
    refine ⟨fun i ↦ ?_, fun i j ↦ ?_⟩
    · rw [wakeInvariant_isCleaner.commit hthreads]
      exact hmoved.users i
    · rw [wakeInvariant_stage.commit hthreads, wakeInvariant_stage.commit hthreads]
      exact hmoved.single i j
  | wakeSpuriously t =>
    obtain rfl := eq_goto_of_leaveWait hstep
    exact lone_wake h (Or.inl rfl)
  | expire t =>
    obtain rfl := eq_goto_of_leaveWait hstep
    exact lone_wake h (Or.inr rfl)
  | tick nanoseconds =>
    obtain rfl := Option.some.inj hstep
    exact ⟨h.1, h.2⟩

theorem lone_init (config : Config) (now : ℤ) (n : ℕ) : Lone (machine config now n).init := by
  refine ⟨fun _ ↦ rfl, fun t u ht _ ↦ absurd ?_ ht⟩
  exact stage_home t.isNone

/-! ## The moment of return

When `shutdown` returns nothing is active and nothing idle. What may still be in hand is counted in
no slot: a warm-up, which the condition excludes, or a connection that `release` has let go. -/

/-- All that is known of the states of the runs at hand. -/
structure Settled (config : Config) (s : System n) : Prop where
  balanced : Balanced config s
  placed : Placed s
  orderly : Orderly s
  lone : Lone s

theorem settled_of_reachableWhen {now : ℤ} {C : System n → Action n → Prop} {s : System n}
    (hC : ∀ s a, C s a → OneShutdown s a) (h : (machine config now n).ReachableWhen C s) :
    Settled config s := by
  refine Machine.Leads.invariant (I := Settled config) h ⟨balanced_init config now n,
    placed_init config now n, orderly_init config now n, lone_init config now n⟩ ?_
  rintro s a s' ⟨hbalanced, hplaced, horderly, hlone⟩ ha hstep
  exact ⟨balanced_step hbalanced hstep, placed_step hplaced hbalanced hstep,
    orderly_step hbalanced horderly hstep, lone_step hbalanced horderly hlone (hC _ _ ha) hstep⟩

/-- A thread with a connection in hand holds an active slot, is the cleaner, is inside `warmUp` or
`shutdown`, or closes what it has released. -/
theorem connections_eq_zero_of {pc : Pc} (hactive : pc.isActive = false)
    (hcleaner : pc.isCleaner = false) (hwarm : pc.inWarmUp = false) (hstage : pc.stage = 0)
    (hclosed : pc.closesReleased = false) : pc.connections = 0 := by
  cases pc with
  | acqCount _ _ | acqExpiry _ _ | acqPing _ _ | acqFinish _ _ | retireClose _ _
  | releaseStamp _ | releaseReturn _ _ => cases hactive
  | releaseClose _ => cases hclosed
  | warmPublish _ _ | warmClose _ _ => cases hwarm
  | cleanerClose _ => cases hcleaner
  | shutdownClose _ => cases hstage
  | _ => rfl

private theorem tally_connections_eq_zero_iff {s : System n} (h : Settled config s) {t : Thread n}
    (ht : s.threads t = .shutdownClose []) (hwarm : NoWarmUp s) :
    tally Pc.connections s.threads = 0 ↔ ReleasesClosed s := by
  have hpassed := h.orderly.stages t
  rw [ht] at hpassed
  have hdone := hpassed.cleanerDone (by simp [Pc.stage])
  constructor
  · intro hzero i
    have hnone : (s.threads i).connections = 0 :=
      Multiset.le_zero.mp (hzero ▸ le_tally Pc.connections s.threads i)
    generalize s.threads i = pc at hnone ⊢
    cases pc with
    | releaseClose entry => exact absurd hnone (Multiset.singleton_ne_zero _)
    | _ => rfl
  · refine fun hclosed ↦ tally_eq_zero _ _ fun i ↦ ?_
    by_cases hit : i = t
    · rw [hit, ht]
      rfl
    cases i with
    | none => rw [hdone]; rfl
    | some i =>
      have hactive := (h.balanced.covers (some i)).isActive_eq_false (hpassed.emptied le_rfl).1
      refine connections_eq_zero_of hactive (h.lone.users i) (hwarm i) ?_ (hclosed (some i))
      by_contra hinside
      exact hit (h.lone.single _ _ hinside (by rw [ht]; simp [Pc.stage]))

private theorem openConnections_eq_nil_iff {s : System n} (h : Settled config s) {t : Thread n}
    (ht : s.threads t = .shutdownClose []) (hwarm : NoWarmUp s) :
    s.openConnections = [] ↔ ReleasesClosed s := by
  have hpassed := h.orderly.stages t
  rw [ht] at hpassed
  obtain ⟨hactive, hidle⟩ := hpassed.emptied le_rfl
  have hactive_eq := h.balanced.active_eq
  rw [hactive] at hactive_eq
  have hhandles : s.handles = [] := List.length_eq_zero_iff.mp (by omega)
  rw [← tally_connections_eq_zero_iff h ht hwarm, ← Multiset.coe_eq_zero,
    h.placed.openConnections_eq, System.held, hidle, hhandles, connections_nil, zero_add, zero_add]

/-- The step with which `shutdown` returns changes nothing but where the thread is. -/
theorem of_returns {s s' : System n} {a : Action n} (h : Returns s a)
    (hstep : s.step config a = some s') :
    ∃ t, s.threads t = .shutdownClose [] ∧ s'.pool = s.pool ∧
      s'.openConnections = s.openConnections := by
  cases a with
  | step t succeeds waiter =>
    obtain ⟨e, he, hnotify⟩ := Option.bind_eq_some_iff.mp hstep
    obtain ⟨threads, -, rfl⟩ := Option.map_eq_some_iff.mp hnotify
    rw [show s.threads t = .shutdownClose [] from h] at he
    obtain rfl := Option.some.inj he
    refine ⟨t, h, rfl, ?_⟩
    rw [System.openConnections, events_commit, madeIn_append, closedIn_append,
      System.openConnections]
    simp [madeIn, closedIn]
  | tryAcquireFor _ _ | release _ _ | warmUp _ | shutdown _ | wakeSpuriously _ | expire _
  | tick _ => exact h.elim

/-! ## After the return

A warm-up that starts later finds the flag before it reserves anything, so what is closed at the
return stays closed. -/

/-- Nothing is open and nothing is reserved. -/
structure AllClosed (s : System n) : Prop where
  passed : Passed s 4
  total : s.pool.total = 0
  openConnections : s.openConnections = []

theorem total_eq_zero_of_noWarmUp {s : System n} (hbalanced : Balanced config s)
    (hpassed : Passed s 4) (hwarm : NoWarmUp s) : s.pool.total = 0 := by
  have hnone : count Pc.isWarming s.threads = 0 := by
    rw [count_warming_of_cleanerDone (hpassed.cleanerDone (by omega))]
    refine tally_eq_zero _ _ fun i ↦ ?_
    have hi := hwarm i
    generalize s.threads (some i) = pc at hi ⊢
    cases pc <;> first | rfl | cases hi
  obtain ⟨hactive, hidle⟩ := hpassed.emptied le_rfl
  rw [hbalanced.total_eq, hactive, hidle, hnone]
  rfl

theorem allClosed_step {s s' : System n} {a : Action n} (hbalanced : Balanced config s)
    (h : AllClosed s) (hstep : s.step config a = some s') : AllClosed s' := by
  obtain ⟨htotal, -, hmade⟩ := idled_step hbalanced h.passed hstep
  refine ⟨passed_step hbalanced h.passed hstep, by rw [h.total] at htotal; omega, ?_⟩
  have hgrown : ∀ c, c ∈ closedIn s.events → c ∈ closedIn s'.events := by
    cases stepped_of_step hstep with
    | thread t succeeds waiter e threads he hnotify =>
      intro c hc
      rw [events_commit, closedIn_append]
      exact List.mem_append_left _ hc
    | start _ t pc houtside hpc => exact fun _ ↦ id
    | release t k entry houtside hentry => exact fun _ ↦ id
    | wake _ t pc hpc => exact fun _ ↦ id
    | tick nanoseconds => exact fun _ ↦ id
  have hopen := h.openConnections
  rw [System.openConnections, List.filter_eq_nil_iff] at hopen ⊢
  intro c hc
  rw [hmade h.total] at hc
  have hclosed := hopen c hc
  simp only [decide_eq_true_eq, not_not] at hclosed ⊢
  exact hgrown c hclosed

/-- **What shutting down leaves open.** Let `shutdown` be called once, by a thread other than the
cleaner, and return while no user thread is inside `warmUp`. Every connection is closed when it
returns if and only if no thread is then between the critical section of `release` and its call of
`close()`. If so in a run, nothing is open in any later state of it. -/
theorem shutdown_closes_all_iff {now : ℤ} :
    (∀ (s s' : System n) (a : Action n), (machine config now n).ReachableWhen Undisturbed s →
      Undisturbed s a → Returns s a → s.step config a = some s' →
      (s'.openConnections = [] ↔ ReleasesClosed s)) ∧
    ∀ s : System n, (machine config now n).ReachableWhen
        (fun s a ↦ Undisturbed s a ∧ (Returns s a → ReleasesClosed s)) s →
      .shutDown ∈ s.events → s.openConnections = [] := by
  constructor
  · intro s s' a hs ha hreturns hstep
    obtain ⟨t, ht, -, hopen⟩ := of_returns hreturns hstep
    rw [hopen]
    exact openConnections_eq_nil_iff (settled_of_reachableWhen (fun _ _ h ↦ h.1) hs) ht
      (ha.2 hreturns)
  · intro s hs
    have hinv : Settled config s ∧ (.shutDown ∈ s.events → AllClosed s) := by
      refine Machine.Leads.invariant
        (I := fun s ↦ Settled config s ∧ (.shutDown ∈ s.events → AllClosed s)) hs
        ⟨⟨balanced_init config now n, placed_init config now n, orderly_init config now n,
          lone_init config now n⟩, by simp [machine, System.events]⟩ ?_
      rintro s a s' ⟨⟨hbalanced, hplaced, horderly, hlone⟩, hclosed⟩ ⟨⟨hone, hwarm⟩, hrelease⟩ hstep
      have hafter : Settled config s' := ⟨balanced_step hbalanced hstep,
        placed_step hplaced hbalanced hstep, orderly_step hbalanced horderly hstep,
        lone_step hbalanced horderly hlone hone hstep⟩
      refine ⟨hafter, fun hnew ↦ ?_⟩
      by_cases hold : .shutDown ∈ s.events
      · exact allClosed_step hbalanced (hclosed hold) hstep
      obtain ⟨t, succeeds, waiter, rfl, ht⟩ := returns_of_shutDown_mem hbalanced hstep hnew hold
      obtain ⟨-, -, hpool, hopen⟩ := of_returns (show Returns s (.step t succeeds waiter) from ht)
        hstep
      have hpassed := horderly.stages t
      rw [ht] at hpassed
      refine ⟨hafter.orderly.returned hnew, ?_, ?_⟩
      · rw [hpool]
        exact total_eq_zero_of_noWarmUp hbalanced hpassed (hwarm ht)
      · rw [hopen]
        exact (openConnections_eq_nil_iff ⟨hbalanced, hplaced, horderly, hlone⟩ ht (hwarm ht)).mpr
          (hrelease ht)
    exact fun hreturned ↦ (hinv.2 hreturned).openConnections

/-! ## Two runs -/

/-- A connection is borrowed, `shutdown` comes to wait for it, and the connection is released up to
the point where its slot is free and `shutdown` is awake. -/
def releasedUnderShutdown (t u : Fin 2) : List (Action 2) :=
  [.tryAcquireFor t 1000, .step (some t) true none, .step (some t) true none,
    .step (some t) true none, .step (some t) true none, .shutdown u, .step (some u) true none,
    .step none true none, .step (some u) true none, .step (some u) true none, .release t 0,
    .step (some t) true none, .step (some t) true none]

/-- The releasing thread closes the connection first. -/
def closesFirst (t u : Fin 2) : List (Action 2) :=
  releasedUnderShutdown t u ++
    [.step (some t) true none, .step (some u) true none, .step (some u) true none]

theorem shutdown_closes_all_iff_closesFirst :
    ∃ s, (machine {} 0 2).Reachable s ∧ madeIn s.events = [0] ∧ .shutDown ∈ s.events ∧
      s.openConnections = [] := by
  obtain ⟨s, hs, hf⟩ := Machine.exists_reachableWhen_of_run (M := machine {} 0 2)
    (C := fun s a ↦ Undisturbed s a ∧ (Returns s a → ReleasesClosed s))
    (fun s ↦ (madeIn s.events, decide (.shutDown ∈ s.events))) (closesFirst 0 1)
    (b := ([0], true)) (by decide +kernel)
  obtain ⟨hmade, hreturned⟩ := Prod.mk.inj hf
  have hmem := of_decide_eq_true hreturned
  exact ⟨s, hs.reachable, hmade, hmem, shutdown_closes_all_iff.2 s hs hmem⟩

/-- **Shutting down does not close everything**, even without a warm-up: `shutdown` checks the
counter and returns before the releasing thread closes the connection. -/
theorem not_shutdown_closes_all :
    ¬ ∀ config : Config, validate true config = .ok config →
      ∀ (now : ℤ) (n : ℕ) (s s' : System n) (a : Action n),
        (machine config now n).ReachableWhen Undisturbed s → Undisturbed s a → Returns s a →
        s.step config a = some s' → s'.openConnections = [] := by
  intro hall
  let a : Action 2 := .step (some 1) true none
  obtain ⟨s, hs, hf⟩ := Machine.exists_reachableWhen_of_run (M := machine {} 0 2)
    (C := Undisturbed)
    (fun s ↦ (decide (Undisturbed s a ∧ Returns s a), (s.step {} a).map System.openConnections))
    (releasedUnderShutdown 0 1 ++ [.step (some 1) true none]) (b := (true, some [0]))
    (by decide +kernel)
  obtain ⟨hguard, hopen⟩ := Prod.mk.inj hf
  obtain ⟨hundisturbed, hreturns⟩ := of_decide_eq_true hguard
  obtain ⟨s', hstep, hleft⟩ := Option.map_eq_some_iff.mp hopen
  rw [hall {} (by decide) 0 2 s s' a hs hundisturbed hreturns hstep] at hleft
  cases hleft

end Runs

end ConnectionPool

end FoundationComponents
