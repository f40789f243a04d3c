import FoundationComponents.ConnectionPool.Exclusive

/-!
# Shutting the pool down

`shutdown` sets a flag, joins the cleaner thread, waits until no connection is active, and takes the
idle connections to close them. Each of these stages leaves something behind that no later step
takes back: the flag stays set, the cleaner stays finished, and once nothing is active and idle
nothing becomes so again. A warm-up that comes late finds the flag and closes what it made; a
borrower that comes late finds the flag and gets nothing.

So the end of `shutdown` is final. It is not the end of every connection. `retireActive` closes a
connection before it gives up the slot, but `release` gives up the slot, which may be the last one
`shutdown` waits for, and closes the connection after that.
-/

namespace FoundationComponents

namespace ConnectionPool

/-! ## Stages

A call of `shutdown` is in one of its stages, and each begins with the section or the join that the
one before was waiting for. None of what they leave behind is undone by another operation. -/

/-- How far a call of `shutdown` has come: it has started, the flag is set, the cleaner is joined,
the idle connections are taken. -/
def Pc.stage : Pc → ℕ
  | .shutdownSet => 1
  | .shutdownJoin => 2
  | .shutdownCheck | .shutdownBlocked => 3
  | .shutdownClose _ => 4
  | _ => 0

@[simp] theorem stage_home (b : Bool) : (home b).stage = 0 := by
  cases b <;> rfl

/-- Nothing is active or idle in a pool that is shutting down. -/
structure Pool.Emptied (p : Pool) : Prop where
  shuttingDown : p.shuttingDown = true
  active : p.active = 0
  idle : p.idle = []

section Section

variable {config : Config} {b : Bool} {env : Env} {p : Pool} {pc : Pc} {e : Effect}

/-- What the next stage rests on: the section or the join before it has just been performed. -/
structure Entered (env : Env) (pc : Pc) (e : Effect) : Prop where
  shuttingDown : e.next.stage = 2 → e.pool.shuttingDown = true
  cleanerDone : e.next.stage = 3 → env.cleanerDone = true
  emptied : e.next.stage = 4 → e.pool.active = 0 ∧ e.pool.idle = []
  next : e.next.stage ≤ pc.stage + 1

/-- How a step moves between the stages. -/
structure Staged (env : Env) (p : Pool) (pc : Pc) (e : Effect) : Prop where
  flag : p.shuttingDown = true → e.pool.shuttingDown = true
  stage : e.next.stage ≤ pc.stage ∨ pc.stage ≠ 0 ∧ Entered env pc e
  returned : .shutDown ∈ e.events → pc = .shutdownClose []

private theorem staged_quiet (hpool : e.pool.shuttingDown = p.shuttingDown)
    (hnext : e.next.stage ≤ pc.stage) (hevents : .shutDown ∉ e.events) : Staged env p pc e :=
  ⟨fun h ↦ hpool.trans h, Or.inl hnext, fun h ↦ absurd h hevents⟩

/-- **The stages come in order.** The flag is never cleared, and a call of `shutdown` enters a stage
with what the one before it was there for. -/
theorem threadStep_staged (htotal : p.idle.length ≤ p.total)
    (h : threadStep config b env p pc = some e) : Staged env p pc e := by
  have hhome : ∀ k, (home b).stage ≤ k := fun k ↦ (stage_home b).trans_le (Nat.zero_le k)
  cases pc with
  | outside | acqBlocked _ | cleanerBlocked _ | cleanerDone | shutdownBlocked => cases h
  | acqCheck deadline afterWait =>
    simp only [threadStep] at h
    split at h
    · obtain rfl := Option.some.inj h
      exact staged_quiet rfl (hhome _) (by simp)
    split at h
    · obtain rfl := Option.some.inj h
      exact staged_quiet rfl le_rfl (by simp)
    · split at h <;> obtain rfl := Option.some.inj h <;> exact staged_quiet rfl le_rfl (by simp)
  | acqWoken deadline timedOut =>
    simp only [threadStep] at h
    split at h
    · obtain rfl := Option.some.inj h
      exact staged_quiet rfl le_rfl (by simp)
    split at h <;> obtain rfl := Option.some.inj h
    · exact staged_quiet rfl (hhome _) (by simp)
    · exact staged_quiet rfl le_rfl (by simp)
  | acqCreate _ | acqExpiry _ _ | warmCreate _ | warmPublish _ _ | cleanerWait =>
    simp only [threadStep] at h
    split at h <;> obtain rfl := Option.some.inj h <;> exact staged_quiet rfl le_rfl (by simp)
  | acqPing deadline entry =>
    obtain rfl := Option.some.inj h
    refine staged_quiet rfl ?_ (by simp)
    dsimp only
    split <;> exact le_rfl
  | acqFinish deadline entry =>
    simp only [threadStep] at h
    split at h <;> obtain rfl := Option.some.inj h
    · exact staged_quiet rfl le_rfl (by simp)
    · exact staged_quiet rfl (hhome _) (by simp)
  | retireCount resume =>
    simp only [threadStep] at h
    split at h <;> obtain rfl := Option.some.inj h
    · exact staged_quiet rfl le_rfl (by simp [Effect.slotFreed])
    · exact staged_quiet rfl (hhome _) (by simp [Effect.slotFreed])
  | releaseReturn entry reachedLifetime =>
    simp only [threadStep] at h
    split at h <;> obtain rfl := Option.some.inj h
    · exact staged_quiet rfl le_rfl (by simp [Effect.slotFreed])
    · exact staged_quiet rfl (hhome _) (by simp [Effect.slotFreed])
  | warmCheck warmed =>
    simp only [threadStep] at h
    split at h <;> obtain rfl := Option.some.inj h
    · exact staged_quiet rfl (hhome _) (by simp)
    · exact staged_quiet rfl le_rfl (by simp)
  | cleanerWoken deadline timedOut =>
    simp only [threadStep] at h
    split at h
    · obtain rfl := Option.some.inj h
      exact staged_quiet rfl le_rfl (by simp)
    split at h <;> obtain rfl := Option.some.inj h <;> exact staged_quiet rfl le_rfl (by simp)
  | acqRollback | releaseClose _ | warmRollback _ =>
    obtain rfl := Option.some.inj h
    exact staged_quiet rfl (hhome _) (by simp [Effect.slotFreed])
  | acqCount _ _ | retireClose _ _ | releaseStamp _ | warmClose _ _ | cleanerStamp =>
    obtain rfl := Option.some.inj h
    exact staged_quiet rfl le_rfl (by simp)
  | cleanerSweep now =>
    obtain rfl := Option.some.inj h
    obtain ⟨hswept, -⟩ := Pool.cleanupIdle_spec config now { p with idle := [] } htotal
    have hkept := congrArg Pool.shuttingDown hswept
    exact staged_quiet hkept le_rfl (by simp)
  | cleanerClose stale =>
    cases stale <;> obtain rfl := Option.some.inj h <;> exact staged_quiet rfl le_rfl (by simp)
  | shutdownSet =>
    obtain rfl := Option.some.inj h
    exact ⟨fun _ ↦ rfl, .inr ⟨by simp [Pc.stage], ⟨fun _ ↦ rfl, by simp [Pc.stage],
      by simp [Pc.stage], le_rfl⟩⟩, by simp⟩
  | shutdownJoin =>
    simp only [threadStep] at h
    split at h
    · rename_i hdone
      obtain rfl := Option.some.inj h
      exact ⟨id, .inr ⟨by simp [Pc.stage], ⟨by simp [Pc.stage], fun _ ↦ hdone,
        by simp [Pc.stage], le_rfl⟩⟩, by simp⟩
    · cases h
  | shutdownCheck =>
    simp only [threadStep] at h
    split at h
    · rename_i hactive
      obtain rfl := Option.some.inj h
      exact ⟨id, .inr ⟨by simp [Pc.stage], ⟨by simp [Pc.stage], by simp [Pc.stage],
        fun _ ↦ ⟨hactive, rfl⟩, le_rfl⟩⟩, by simp⟩
    · obtain rfl := Option.some.inj h
      exact staged_quiet rfl le_rfl (by simp)
  | shutdownClose idleToClose =>
    cases idleToClose <;> obtain rfl := Option.some.inj h
    · exact ⟨id, .inl (hhome _), fun _ ↦ rfl⟩
    · exact staged_quiet rfl le_rfl (by simp)

theorem Covers.isActive_eq_false (hc : Covers config p pc) (hactive : p.active = 0) :
    pc.isActive = false := by
  have hheld : pc.isActive.toNat ≤ p.active := hc.active
  rw [hactive, Nat.le_zero] at hheld
  exact Bool.toNat_eq_zero.mp hheld

/-- What a step does to an emptied pool. -/
structure Idled (p : Pool) (pc : Pc) (e : Effect) : Prop where
  emptied : e.pool.Emptied
  total : e.pool.total ≤ p.total
  handsOut : acquiredIn e.events = []
  makes : pc.isWarming = false → madeIn e.events = []

private theorem idled_quiet (hp : p.Emptied) (hflag : e.pool.shuttingDown = p.shuttingDown)
    (hactive : e.pool.active = p.active) (hidle : e.pool.idle = p.idle)
    (htotal : e.pool.total ≤ p.total) (hout : acquiredIn e.events = [])
    (hmade : pc.isWarming = false → madeIn e.events = []) : Idled p pc e :=
  ⟨⟨hflag.trans hp.shuttingDown, hactive.trans hp.active, hidle.trans hp.idle⟩, htotal, hout,
    hmade⟩

/-- **An emptied pool stays empty.** A thread that comes to it finds the flag, and one that is
inside `warmUp` with a reservation gives it back. -/
theorem threadStep_idled (hp : p.Emptied) (hc : Covers config p pc)
    (h : threadStep config b env p pc = some e) : Idled p pc e := by
  have hactive := hc.isActive_eq_false hp.active
  have hflag := hp.shuttingDown
  cases pc with
  | outside | acqBlocked _ | cleanerBlocked _ | cleanerDone | shutdownBlocked => cases h
  | acqCreate _ | acqRollback | acqCount _ _ | acqExpiry _ _ | acqPing _ _ | acqFinish _ _
  | retireClose _ _ | retireCount _ | releaseStamp _ | releaseReturn _ _ => cases hactive
  | acqCheck deadline afterWait =>
    rw [threadStep, if_pos hflag] at h
    obtain rfl := Option.some.inj h
    exact idled_quiet hp rfl rfl rfl le_rfl rfl fun _ ↦ rfl
  | acqWoken deadline timedOut =>
    have hready : p.ready config = true := by rw [Pool.ready, hflag, Bool.true_or, Bool.true_or]
    rw [threadStep, if_pos hready] at h
    obtain rfl := Option.some.inj h
    exact idled_quiet hp rfl rfl rfl le_rfl rfl fun _ ↦ rfl
  | warmCheck warmed =>
    rw [threadStep, if_pos (Or.inl hflag)] at h
    obtain rfl := Option.some.inj h
    exact idled_quiet hp rfl rfl rfl le_rfl rfl fun _ ↦ rfl
  | warmCreate warmed =>
    simp only [threadStep] at h
    split at h <;> obtain rfl := Option.some.inj h
    · exact idled_quiet hp rfl rfl rfl le_rfl rfl Bool.noConfusion
    · exact idled_quiet hp rfl rfl rfl le_rfl rfl fun _ ↦ rfl
  | warmRollback _ =>
    have hreserved : 1 ≤ p.total := (Nat.le_add_left 1 _).trans hc.total
    obtain rfl := Option.some.inj h
    refine idled_quiet hp rfl rfl rfl ?_ rfl fun _ ↦ rfl
    rw [Pool.subTotal_of_le hreserved]
    exact Nat.sub_le _ _
  | warmPublish warmed entry =>
    have hreserved : 1 ≤ p.total := (Nat.le_add_left 1 _).trans hc.total
    rw [threadStep, if_pos hflag] at h
    obtain rfl := Option.some.inj h
    refine idled_quiet hp rfl rfl rfl ?_ rfl fun _ ↦ rfl
    rw [Pool.subTotal_of_le hreserved]
    exact Nat.sub_le _ _
  | cleanerWait =>
    rw [threadStep, if_pos hflag] at h
    obtain rfl := Option.some.inj h
    exact idled_quiet hp rfl rfl rfl le_rfl rfl fun _ ↦ rfl
  | cleanerWoken deadline timedOut =>
    rw [threadStep, if_pos hflag] at h
    obtain rfl := Option.some.inj h
    exact idled_quiet hp rfl rfl rfl le_rfl rfl fun _ ↦ rfl
  | cleanerSweep now =>
    obtain rfl := Option.some.inj h
    refine idled_quiet hp ?_ ?_ ?_ ?_ rfl fun _ ↦ rfl
    all_goals rw [hp.idle, Pool.cleanupIdle]
  | cleanerClose stale =>
    cases stale <;> obtain rfl := Option.some.inj h <;>
      exact idled_quiet hp rfl rfl rfl le_rfl rfl fun _ ↦ rfl
  | shutdownJoin =>
    simp only [threadStep] at h
    split at h
    · obtain rfl := Option.some.inj h
      exact idled_quiet hp rfl rfl rfl le_rfl rfl fun _ ↦ rfl
    · cases h
  | shutdownCheck =>
    rw [threadStep, if_pos hp.active, hp.idle] at h
    obtain rfl := Option.some.inj h
    refine ⟨⟨hflag, hp.active, rfl⟩, ?_, rfl, fun _ ↦ rfl⟩
    rw [List.length_nil, Pool.subTotal_of_le (Nat.zero_le _)]
    exact Nat.sub_le _ _
  | shutdownClose idleToClose =>
    cases idleToClose <;> obtain rfl := Option.some.inj h <;>
      exact idled_quiet hp rfl rfl rfl le_rfl rfl fun _ ↦ rfl
  | shutdownSet =>
    obtain rfl := Option.some.inj h
    exact idled_quiet hp hflag.symm rfl rfl le_rfl rfl fun _ ↦ rfl
  | releaseClose _ | warmClose _ _ | cleanerStamp =>
    obtain rfl := Option.some.inj h
    exact idled_quiet hp rfl rfl rfl le_rfl rfl fun _ ↦ rfl

end Section

/-! ## What is passed stays passed

The stages are per thread and what they leave behind is shared. So the invariant says that no thread
has come further than what holds of the pool. -/

section Passed

variable {n : ℕ} {config : Config}

/-- What the stages below and up to a given one leave behind. -/
structure Passed (s : System n) (k : ℕ) : Prop where
  shuttingDown : 2 ≤ k → s.pool.shuttingDown = true
  cleanerDone : 3 ≤ k → s.threads none = .cleanerDone
  emptied : 4 ≤ k → s.pool.active = 0 ∧ s.pool.idle = []

theorem Passed.mono {s : System n} {j k : ℕ} (h : Passed s k) (hjk : j ≤ k) : Passed s j :=
  ⟨fun hj ↦ h.1 (hj.trans hjk), fun hj ↦ h.2 (hj.trans hjk), fun hj ↦ h.3 (hj.trans hjk)⟩

theorem Passed.pool_emptied {s : System n} (h : Passed s 4) : s.pool.Emptied :=
  ⟨h.1 (by omega), (h.3 le_rfl).1, (h.3 le_rfl).2⟩

/-- No call of `shutdown` has come further than what is passed, and one that has returned has passed
everything. -/
structure Orderly (s : System n) : Prop where
  stages : ∀ t, Passed s (s.threads t).stage
  returned : .shutDown ∈ s.events → Passed s 4

private theorem wakeInvariant_cleanerDone : WakeInvariant (· = Pc.cleanerDone) where
  available pc := by cases pc <;> simp [Pc.wakeAvailable]
  shutdownDone pc := by cases pc <;> simp [Pc.wakeShutdownDone]
  cleaner pc := by cases pc <;> simp [Pc.wakeCleaner]
  expire now pc := by
    cases pc <;> first | rfl | (rw [Pc.expire]; split <;> simp)

theorem wakeInvariant_stage : WakeInvariant Pc.stage where
  available pc := by cases pc <;> rfl
  shutdownDone pc := by cases pc <;> rfl
  cleaner pc := by cases pc <;> rfl
  expire now pc := by
    cases pc <;> first | rfl | (rw [Pc.expire]; split <;> rfl)

/-- What holds of a thread after another one has moved and woken some. -/
theorem WakeInvariant.commit {M : Type*} {w : Pc → M} (hw : WakeInvariant w) {s : System n}
    {t : Thread n} {e : Effect} {waiter : Option (Thread n)} {threads : Thread n → Pc}
    (hnotify : ConnectionPool.notifyAvailable (Function.update s.threads t e.next) e.available
      waiter = some threads) (i : Thread n) :
    w ((s.commit t e threads).threads i) = w (Function.update s.threads t e.next i) := by
  rw [System.commit, hw.notifyOthers, hw.notifyAvailable hnotify]

section Commit

variable {s : System n} {t : Thread n} {succeeds : Bool} {e : Effect} {waiter : Option (Thread n)}
  {threads : Thread n → Pc}

theorem cleanerDone_commit
    (he : threadStep config t.isNone (s.env succeeds) s.pool (s.threads t) = some e)
    (hnotify : notifyAvailable (Function.update s.threads t e.next) e.available waiter
      = some threads) (hdone : s.threads none = .cleanerDone) :
    (s.commit t e threads).threads none = .cleanerDone := by
  have ht : none ≠ t := by
    rintro rfl
    rw [hdone] at he
    cases he
  rw [wakeInvariant_cleanerDone.commit hnotify, Function.update_of_ne ht]
  exact hdone

theorem passed_commit (hbalanced : Balanced config s) {k : ℕ} (h : Passed s k)
    (he : threadStep config t.isNone (s.env succeeds) s.pool (s.threads t) = some e)
    (hnotify : notifyAvailable (Function.update s.threads t e.next) e.available waiter
      = some threads) : Passed (s.commit t e threads) k := by
  have hstaged := threadStep_staged (by rw [hbalanced.total_eq]; omega) he
  refine ⟨fun hk ↦ hstaged.flag (h.1 hk), fun hk ↦ cleanerDone_commit he hnotify (h.2 hk), ?_⟩
  intro hk
  have hidled := threadStep_idled (h.mono hk).pool_emptied (hbalanced.covers t) he
  exact ⟨hidled.emptied.active, hidled.emptied.idle⟩

theorem passed_entered (hbalanced : Balanced config s) (h : Passed s (s.threads t).stage)
    (he : threadStep config t.isNone (s.env succeeds) s.pool (s.threads t) = some e)
    (hnotify : notifyAvailable (Function.update s.threads t e.next) e.available waiter
      = some threads) : Passed (s.commit t e threads) e.next.stage := by
  have hkept := passed_commit hbalanced h he hnotify
  have hstaged := threadStep_staged (by rw [hbalanced.total_eq]; omega) he
  rcases hstaged.stage with hle | ⟨-, hentered⟩
  · exact hkept.mono hle
  have hnext := hentered.next
  refine ⟨fun hk ↦ ?_, fun hk ↦ ?_, fun hk ↦ ?_⟩
  · rcases Nat.eq_or_lt_of_le hk with htwo | hmore
    · exact hentered.shuttingDown htwo.symm
    · exact hkept.1 (by omega)
  · rcases Nat.eq_or_lt_of_le hk with hthree | hmore
    · have hdone := hentered.cleanerDone hthree.symm
      exact cleanerDone_commit he hnotify (of_decide_eq_true hdone)
    · exact hkept.2 (by omega)
  · rcases Nat.eq_or_lt_of_le hk with hfour | hmore
    · exact hentered.emptied hfour.symm
    · exact hkept.3 (by omega)

end Commit

theorem Passed.of_pool_eq {s s' : System n} {k : ℕ} (h : Passed s k) (hpool : s'.pool = s.pool)
    (hdone : s.threads none = .cleanerDone → s'.threads none = .cleanerDone) : Passed s' k :=
  ⟨fun hk ↦ hpool ▸ h.1 hk, fun hk ↦ hdone (h.2 hk), fun hk ↦ hpool ▸ h.3 hk⟩

private theorem cleanerDone_wake {s : System n} {t : Thread n} {pc : Pc}
    (hpc : pc = (s.threads t).spurious ∨ pc = (s.threads t).expire s.clock)
    (hdone : s.threads none = .cleanerDone) : (s.goto t pc).threads none = .cleanerDone := by
  have hkept : (pc = .cleanerDone) = (s.threads t = .cleanerDone) := by
    rcases hpc with rfl | rfl
    · exact wakeInvariant_cleanerDone.spurious _
    · exact wakeInvariant_cleanerDone.expire _ _
  exact (apply_update_eq (· = Pc.cleanerDone) s.threads hkept none).mpr hdone

theorem passed_step {s s' : System n} {a : Action n} {k : ℕ} (hbalanced : Balanced config s)
    (h : Passed s k) (hstep : s.step config a = some s') : Passed s' k := by
  cases stepped_of_step hstep with
  | start _ t pc houtside hpc => exact h.of_pool_eq rfl id
  | release t j entry houtside hentry => exact h.of_pool_eq rfl id
  | thread t succeeds waiter e threads he hnotify => exact passed_commit hbalanced h he hnotify
  | wake _ t pc hpc => exact h.of_pool_eq rfl (cleanerDone_wake hpc)
  | tick nanoseconds => exact h.of_pool_eq rfl id

/-- Only the last step of `shutdown` returns from it. -/
theorem returns_of_shutDown_mem {s s' : System n} {a : Action n} (hbalanced : Balanced config s)
    (hstep : s.step config a = some s') (hnew : .shutDown ∈ s'.events)
    (hold : .shutDown ∉ s.events) :
    ∃ t succeeds waiter, a = .step t succeeds waiter ∧ s.threads t = .shutdownClose [] := by
  cases stepped_of_step hstep with
  | thread t succeeds waiter e threads he hnotify =>
    rw [events_commit, List.mem_append] at hnew
    have hstaged := threadStep_staged (by rw [hbalanced.total_eq]; omega) he
    exact ⟨t, succeeds, waiter, rfl, hstaged.returned (hnew.resolve_left hold)⟩
  | start _ t pc houtside hpc => exact absurd hnew hold
  | release t k entry houtside hentry => exact absurd hnew hold
  | wake _ t pc hpc => exact absurd hnew hold
  | tick nanoseconds => exact absurd hnew hold

theorem orderly_goto {s : System n} (h : Orderly s) {t : Thread n} {pc : Pc}
    (hstage : pc.stage ≤ 1 ∨ pc.stage = (s.threads t).stage)
    (hdone : s.threads none = .cleanerDone → (s.goto t pc).threads none = .cleanerDone) :
    Orderly (s.goto t pc) := by
  refine ⟨fun i ↦ ?_, fun hreturned ↦ (h.returned hreturned).of_pool_eq rfl hdone⟩
  by_cases hi : i = t
  · subst hi
    rw [show (s.goto i pc).threads i = pc from Function.update_self ..]
    rcases hstage with hlow | hsame
    · exact ⟨by omega, by omega, by omega⟩
    · rw [hsame]
      exact (h.stages i).of_pool_eq rfl hdone
  · rw [show (s.goto t pc).threads i = s.threads i from Function.update_of_ne hi ..]
    exact (h.stages i).of_pool_eq rfl hdone

theorem orderly_step {s s' : System n} {a : Action n} (hbalanced : Balanced config s)
    (h : Orderly s) (hstep : s.step config a = some s') : Orderly s' := by
  have hreturned : .shutDown ∈ s'.events → Passed s' 4 := by
    intro hnew
    by_cases hold : .shutDown ∈ s.events
    · exact passed_step hbalanced (h.returned hold) hstep
    · obtain ⟨t, succeeds, waiter, rfl, ht⟩ := returns_of_shutDown_mem hbalanced hstep hnew hold
      have hpassed := h.stages t
      rw [ht] at hpassed
      exact passed_step hbalanced hpassed hstep
  cases stepped_of_step hstep with
  | start _ t pc houtside hpc =>
    refine orderly_goto h (Or.inl ?_) id
    rcases hpc with ⟨_, rfl⟩ | rfl | rfl <;> simp [Pc.stage]
  | release t k entry houtside hentry =>
    exact orderly_goto (s := { s with handles := s.handles.eraseIdx k })
      ⟨fun i ↦ (h.stages i).of_pool_eq rfl id, fun hold ↦ (h.returned hold).of_pool_eq rfl id⟩
      (Or.inl (by simp [Pc.stage])) id
  | thread t succeeds waiter e threads he hnotify =>
    refine ⟨fun i ↦ ?_, hreturned⟩
    rw [wakeInvariant_stage.commit hnotify]
    by_cases hi : i = t
    · subst hi
      rw [Function.update_self]
      exact passed_entered hbalanced (h.stages i) he hnotify
    · rw [Function.update_of_ne hi]
      exact passed_commit hbalanced (h.stages i) he hnotify
  | wake _ t pc hpc =>
    refine orderly_goto h (Or.inr ?_) (cleanerDone_wake hpc)
    rcases hpc with rfl | rfl
    · exact wakeInvariant_stage.spurious _
    · exact wakeInvariant_stage.expire _ _
  | tick nanoseconds =>
    exact ⟨fun i ↦ (h.stages i).of_pool_eq rfl id, fun hold ↦ (h.returned hold).of_pool_eq rfl id⟩

theorem orderly_init (config : Config) (now : ℤ) (n : ℕ) :
    Orderly (machine config now n).init := by
  refine ⟨fun t ↦ ?_, by simp [machine, System.events]⟩
  have hstage : ((machine config now n).init.threads t).stage = 0 := stage_home t.isNone
  rw [hstage]
  exact ⟨by omega, by omega, by omega⟩

theorem orderly_of_reachable {now : ℤ} {s : System n} (h : (machine config now n).Reachable s) :
    Orderly s := by
  have hboth : Balanced config s ∧ Orderly s := by
    refine Machine.Leads.invariant (I := fun s ↦ Balanced config s ∧ Orderly s) h
      ⟨balanced_init config now n, orderly_init config now n⟩ ?_
    intro s a t hs _ hstep
    exact ⟨balanced_step hs.1 hstep, orderly_step hs.1 hs.2 hstep⟩
  exact hboth.2

theorem idled_step {s s' : System n} {a : Action n} (hbalanced : Balanced config s)
    (h : Passed s 4) (hstep : s.step config a = some s') :
    s'.pool.total ≤ s.pool.total ∧ acquiredIn s'.events = acquiredIn s.events ∧
      (s.pool.total = 0 → madeIn s'.events = madeIn s.events) := by
  cases stepped_of_step hstep with
  | thread t succeeds waiter e threads he hnotify =>
    have hidled := threadStep_idled h.pool_emptied (hbalanced.covers t) he
    rw [events_commit, acquiredIn_append, madeIn_append, hidled.handsOut, List.append_nil]
    refine ⟨hidled.total, rfl, fun htotal ↦ ?_⟩
    have hwarming : (s.threads t).isWarming.toNat ≤ 0 := by
      have hcovers := (hbalanced.covers t).total
      rw [htotal] at hcovers
      exact (Nat.le_add_left _ _).trans hcovers
    rw [hidled.makes (Bool.toNat_eq_zero.mp (Nat.le_zero.mp hwarming)), List.append_nil]
  | start _ t pc houtside hpc => exact ⟨le_rfl, rfl, fun _ ↦ rfl⟩
  | release t k entry houtside hentry => exact ⟨le_rfl, rfl, fun _ ↦ rfl⟩
  | wake _ t pc hpc => exact ⟨le_rfl, rfl, fun _ ↦ rfl⟩
  | tick nanoseconds => exact ⟨le_rfl, rfl, fun _ ↦ rfl⟩

/-- Nothing is handed out after `shutdown` has returned. -/
theorem acquiredIn_of_leads {now : ℤ} {C : System n → Action n → Prop} {s s' : System n}
    (hbalanced : Balanced config s) (hpassed : Passed s 4)
    (h : (machine config now n).Leads C s s') : acquiredIn s'.events = acquiredIn s.events := by
  have hall : Balanced config s' ∧ Passed s' 4 ∧ acquiredIn s'.events = acquiredIn s.events := by
    refine h.invariant (I := fun u ↦ Balanced config u ∧ Passed u 4 ∧
      acquiredIn u.events = acquiredIn s.events) ⟨hbalanced, hpassed, rfl⟩ ?_
    rintro u a v ⟨hu, hpassed', hsame⟩ - hstep
    exact ⟨balanced_step hu hstep, passed_step hu hpassed' hstep,
      (idled_step hu hpassed' hstep).2.1.trans hsame⟩
  exact hall.2.2

theorem count_warming_of_cleanerDone {s : System n} (h : s.threads none = .cleanerDone) :
    count Pc.isWarming s.threads = count Pc.isWarming fun i : Fin n ↦ s.threads (some i) := by
  rw [count, tally, Fintype.sum_option, h]
  exact Nat.zero_add _

private theorem count_creating_eq_zero {s : System n} (h : Balanced config s)
    (hactive : s.pool.active = 0) : count Pc.isCreating s.threads = 0 := by
  refine tally_eq_zero _ _ fun t ↦ ?_
  have hinactive := (h.covers t).isActive_eq_false hactive
  generalize s.threads t = pc at hinactive ⊢
  cases pc <;> first | rfl | cases hinactive

/-- **Shutting down is final.** In every state after some `shutdown` has returned, however the
threads interleave: no connection is active or idle, what is left of `total` are the reservations of
warm-ups in flight, every connection counted as created is counted as destroyed, and from then on no
`tryAcquireFor` returns a connection. -/
theorem shutdown_final {now : ℤ} {s : System n} (h : (machine config now n).Reachable s)
    (hreturned : .shutDown ∈ s.events) :
    s.pool.active = 0 ∧ s.pool.idle = [] ∧
      s.pool.total = count Pc.isWarming (fun i : Fin n ↦ s.threads (some i)) ∧
      s.pool.destroyed = s.pool.created ∧
      ∀ s', (machine config now n).Leads (fun _ _ ↦ True) s s' →
        acquiredIn s'.events = acquiredIn s.events := by
  have hbalanced := balanced_of_reachable h
  have hpassed := (orderly_of_reachable h).returned hreturned
  have hdone := hpassed.cleanerDone (by omega)
  obtain ⟨hactive, hidle⟩ := hpassed.emptied le_rfl
  have htotal := hbalanced.total_eq
  have hcreated := hbalanced.created_eq
  rw [hactive, hidle, List.length_nil] at htotal hcreated
  rw [count_creating_eq_zero hbalanced hactive] at hcreated
  refine ⟨hactive, hidle, ?_, by omega, fun s' hs' ↦ acquiredIn_of_leads hbalanced hpassed hs'⟩
  rw [← count_warming_of_cleanerDone hdone]
  omega

end Passed

/-- `shutdown` returns while a warm-up has a reservation: the cleaner finishes, nothing is active,
and the reservation stays. -/
def returnsDuringWarmUp (t u : Fin 2) : List (Action 2) :=
  [.warmUp t, .step (some t) true none, .shutdown u, .step (some u) true none,
    .step none true none, .step (some u) true none, .step (some u) true none,
    .step (some u) true none]

theorem shutdown_final_returnsDuringWarmUp :
    ∃ s, (machine {} 0 2).Reachable s ∧ .shutDown ∈ s.events ∧ s.pool.total = 1 ∧
      count Pc.isWarming (fun i : Fin 2 ↦ s.threads (some i)) = 1 ∧
      s.pool.destroyed = s.pool.created := by
  obtain ⟨s, hs, hf⟩ := Machine.exists_reachable_of_run (M := machine {} 0 2)
    (fun s ↦ (decide (.shutDown ∈ s.events), s.pool.total)) (returnsDuringWarmUp 0 1)
    (b := (true, 1)) (by decide +kernel)
  obtain ⟨hreturned, htotal⟩ := Prod.mk.inj hf
  have hmem := of_decide_eq_true hreturned
  obtain ⟨-, -, hwarming, hdestroyed, -⟩ := shutdown_final hs hmem
  exact ⟨s, hs, hmem, htotal, hwarming.symm.trans htotal, hdestroyed⟩

end ConnectionPool

end FoundationComponents
