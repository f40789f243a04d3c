import FoundationComponents.ConnectionPool.LeftOpen
import FoundationComponents.ConnectionPool.Wakeup

/-!
# The pool comes to rest

Once the flag is set, nobody starts anything that could go on for ever: a borrower gives up at its
next check, a warm-up at its next round, the cleaner at its next wait. So every position of a thread
is worth a bounded number of steps, an idle connection one more for whoever closes it, and an active
one those of the threads that wait in `shutdown` for it.

When no step is left, a call of `shutdown` has returned, unless connections are still borrowed.
-/

namespace FoundationComponents

namespace ConnectionPool

/-! ## One section

In a pool that is shutting down every loop of the source is left at its next check. So a position
bounds the sections that follow it, if what the deque and the active slots are worth is added. -/

/-- How many steps a thread makes at most in a pool that is shutting down, and one more. -/
def Pc.cost : Pc → ℕ
  | .outside | .cleanerDone => 0
  | .cleanerWait | .cleanerBlocked _ | .cleanerWoken _ _ => 1
  | .acqCheck _ _ | .acqRollback | .releaseClose _ | .warmCheck _ | .warmRollback _
  | .shutdownBlocked => 2
  | .acqBlocked _ | .acqWoken _ _ | .retireCount _ | .releaseReturn _ _ | .warmClose _ _
  | .shutdownCheck => 3
  | .retireClose _ _ | .releaseStamp _ | .warmPublish _ _ | .cleanerSweep _ | .shutdownJoin => 4
  | .acqFinish _ _ | .warmCreate _ | .cleanerStamp | .shutdownSet => 5
  | .acqCount _ _ | .acqPing _ _ => 6
  | .acqCreate _ | .acqExpiry _ _ => 7
  | .cleanerClose stale => 3 + stale.length
  | .shutdownClose idleToClose => 2 + idleToClose.length

/-- Asleep until the flag is set, or for another reason. -/
def Pc.isDozing : Pc → Bool
  | .acqBlocked _ | .cleanerBlocked _ => true
  | _ => false

/-- A position of the cleaner thread. -/
def Pc.isOfCleaner : Pc → Bool
  | .cleanerWait | .cleanerBlocked _ | .cleanerWoken _ _ | .cleanerStamp | .cleanerSweep _
  | .cleanerClose _ | .cleanerDone | .warmCheck _ | .warmCreate _ | .warmRollback _
  | .warmPublish _ _ | .warmClose _ _ => true
  | _ => false

private theorem cost_home (b : Bool) : (home b).cost ≤ 1 := by
  cases b with
  | false => exact Nat.zero_le 1
  | true => exact Nat.le_refl 1

private theorem isDozing_home (b : Bool) : (home b).isDozing = false := by
  cases b <;> rfl

section Section

variable {config : Config} {b : Bool} {env : Env} {p : Pool} {pc : Pc} {e : Effect} {k : ℕ}

/-- A step that is paid for by the position, by an idle connection or by an active one, which is
worth `k`: so is waking the threads that wait for the last active one. -/
def Spends (k : ℕ) (p : Pool) (pc : Pc) (e : Effect) : Prop :=
  e.next.cost + (if e.shutdownDone then k else 0) + k * e.pool.active + e.pool.idle.length <
    pc.cost + k * p.active + p.idle.length

private theorem spends_quiet (hactive : e.pool.active = p.active) (hidle : e.pool.idle = p.idle)
    (hdone : e.shutdownDone = false) (hcost : e.next.cost < pc.cost) : Spends k p pc e := by
  rw [Spends, hactive, hidle, hdone, if_neg Bool.false_ne_true]
  omega

theorem spends_slotFreed {p' : Pool} {next : Pc} {events : List Event} (hpos : 1 ≤ p.active)
    (hactive : p'.active = p.active - 1) (hidle : p'.idle = p.idle) (hcost : next.cost < pc.cost) :
    Spends k p pc (.slotFreed p' next events) := by
  have hslot : k * p'.active + k = k * p.active := by
    rw [hactive, ← Nat.mul_succ, Nat.succ_eq_add_one, Nat.sub_add_cancel hpos]
  rw [Spends, Effect.slotFreed, hidle]
  dsimp only
  split <;> omega

/-- **One section in a pool that is shutting down.** -/
theorem threadStep_spends (hflag : p.shuttingDown = true) (hc : Covers config p pc)
    (h : threadStep config b env p pc = some e) : Spends k p pc e := by
  have hhome : ∀ m, 1 < m → (home b).cost < m := fun m hm ↦ (cost_home b).trans_lt hm
  have hslot : pc.isActive = true → 1 ≤ p.active := fun hactive ↦ by
    have hheld : pc.isActive.toNat ≤ p.active := hc.active
    rwa [hactive] at hheld
  have htotal : p.idle.length ≤ p.total :=
    (Nat.le_add_right _ _).trans ((Nat.le_add_right _ _).trans hc.total)
  cases pc with
  | outside | acqBlocked _ | cleanerBlocked _ | cleanerDone | shutdownBlocked => cases h
  | acqCheck deadline afterWait =>
    rw [threadStep, if_pos hflag] at h
    obtain rfl := Option.some.inj h
    exact spends_quiet rfl rfl rfl (hhome 2 (by decide))
  | acqWoken deadline timedOut =>
    have hready : p.ready config = true := by rw [Pool.ready, hflag, Bool.true_or, Bool.true_or]
    rw [threadStep, if_pos hready] at h
    obtain rfl := Option.some.inj h
    exact spends_quiet rfl rfl rfl (Nat.lt_succ_self 2)
  | acqCreate deadline =>
    rw [threadStep] at h
    split at h
    · obtain rfl := Option.some.inj h
      exact spends_quiet rfl rfl rfl (Nat.lt_succ_self 6)
    · obtain rfl := Option.some.inj h
      exact spends_quiet rfl rfl rfl (by decide : 2 < 7)
  | acqRollback =>
    have hpos := hslot rfl
    have hone : 1 ≤ p.total := hpos.trans ((Nat.le_add_left _ _).trans
      ((Nat.le_add_right _ _).trans hc.total))
    rw [threadStep, Pool.subActive_subTotal hpos hone] at h
    obtain rfl := Option.some.inj h
    exact spends_slotFreed hpos rfl rfl (hhome 2 (by decide))
  | acqCount deadline entry =>
    obtain rfl := Option.some.inj h
    exact spends_quiet rfl rfl rfl (Nat.lt_succ_self 5)
  | acqExpiry deadline entry =>
    rw [threadStep] at h
    split at h
    · obtain rfl := Option.some.inj h
      exact spends_quiet rfl rfl rfl (by decide : 4 < 7)
    · obtain rfl := Option.some.inj h
      exact spends_quiet rfl rfl rfl (Nat.lt_succ_self 6)
  | acqPing deadline entry =>
    obtain rfl := Option.some.inj h
    refine spends_quiet rfl rfl rfl ?_
    dsimp only
    split
    · exact Nat.lt_succ_self 5
    · exact (by decide : 4 < 6)
  | acqFinish deadline entry =>
    rw [threadStep, if_pos hflag] at h
    obtain rfl := Option.some.inj h
    exact spends_quiet rfl rfl rfl (Nat.lt_succ_self 4)
  | retireClose entry resume =>
    obtain rfl := Option.some.inj h
    exact spends_quiet rfl rfl rfl (Nat.lt_succ_self 3)
  | retireCount resume =>
    have hpos := hslot rfl
    have hone : 1 ≤ p.total := hpos.trans ((Nat.le_add_left _ _).trans
      ((Nat.le_add_right _ _).trans hc.total))
    simp only [threadStep, Pool.subActive_subTotal hpos hone] at h
    cases resume with
    | none =>
      obtain rfl := Option.some.inj h
      exact spends_slotFreed hpos rfl rfl (hhome 3 (by decide))
    | some deadline =>
      obtain rfl := Option.some.inj h
      exact spends_slotFreed hpos rfl rfl (Nat.lt_succ_self 2)
  | releaseStamp entry =>
    obtain rfl := Option.some.inj h
    exact spends_quiet rfl rfl rfl (Nat.lt_succ_self 3)
  | releaseReturn entry reachedLifetime =>
    have hpos := hslot rfl
    have hone : 1 ≤ p.total := hpos.trans ((Nat.le_add_left _ _).trans
      ((Nat.le_add_right _ _).trans hc.total))
    rw [threadStep, if_pos (by rw [hflag, Bool.true_or]), Pool.subActive_subTotal hpos hone] at h
    obtain rfl := Option.some.inj h
    exact spends_slotFreed hpos rfl rfl (Nat.lt_succ_self 2)
  | releaseClose entry =>
    obtain rfl := Option.some.inj h
    exact spends_quiet rfl rfl rfl (hhome 2 (by decide))
  | warmCheck warmed =>
    rw [threadStep, if_pos (Or.inl hflag)] at h
    obtain rfl := Option.some.inj h
    exact spends_quiet rfl rfl rfl (hhome 2 (by decide))
  | warmCreate warmed =>
    rw [threadStep] at h
    split at h
    · obtain rfl := Option.some.inj h
      exact spends_quiet rfl rfl rfl (Nat.lt_succ_self 4)
    · obtain rfl := Option.some.inj h
      exact spends_quiet rfl rfl rfl (by decide : 2 < 5)
  | warmRollback warmed =>
    obtain rfl := Option.some.inj h
    exact spends_quiet rfl rfl rfl (hhome 2 (by decide))
  | warmPublish warmed entry =>
    rw [threadStep, if_pos hflag] at h
    obtain rfl := Option.some.inj h
    exact spends_quiet rfl rfl rfl (Nat.lt_succ_self 3)
  | warmClose warmed entry =>
    obtain rfl := Option.some.inj h
    exact spends_quiet rfl rfl rfl (Nat.lt_succ_self 2)
  | cleanerWait =>
    rw [threadStep, if_pos hflag] at h
    obtain rfl := Option.some.inj h
    exact spends_quiet rfl rfl rfl Nat.zero_lt_one
  | cleanerWoken deadline timedOut =>
    rw [threadStep, if_pos hflag] at h
    obtain rfl := Option.some.inj h
    exact spends_quiet rfl rfl rfl Nat.zero_lt_one
  | cleanerStamp =>
    obtain rfl := Option.some.inj h
    exact spends_quiet rfl rfl rfl (Nat.lt_succ_self 4)
  | cleanerSweep now =>
    -- the stale entries move from the deque to the hands of the cleaner
    obtain rfl := Option.some.inj h
    obtain ⟨hswept, hperm, -⟩ := Pool.cleanupIdle_spec config now { p with idle := [] } htotal
    have hactive := congrArg Pool.active hswept
    have hlength := hperm.length_eq
    rw [List.length_append, List.nil_append] at hlength
    rw [Spends]
    dsimp only at hactive ⊢
    rw [hactive, if_neg Bool.false_ne_true, Pc.cost, Pc.cost]
    omega
  | cleanerClose stale =>
    cases stale with
    | nil =>
      obtain rfl := Option.some.inj h
      exact spends_quiet rfl rfl rfl (Nat.lt_succ_self 2)
    | cons entry stale =>
      obtain rfl := Option.some.inj h
      exact spends_quiet rfl rfl rfl (Nat.add_lt_add_left (Nat.lt_succ_self _) 3)
  | shutdownSet =>
    obtain rfl := Option.some.inj h
    exact spends_quiet rfl rfl rfl (Nat.lt_succ_self 4)
  | shutdownJoin =>
    rw [threadStep, Option.ite_none_right_eq_some, Option.some.injEq] at h
    obtain ⟨-, rfl⟩ := h
    exact spends_quiet rfl rfl rfl (Nat.lt_succ_self 3)
  | shutdownCheck =>
    rw [threadStep] at h
    split at h
    · obtain rfl := Option.some.inj h
      rw [Spends, Pool.subTotal_of_le htotal, if_neg Bool.false_ne_true, Pc.cost, Pc.cost]
      dsimp only
      rw [List.length_nil]
      omega
    · obtain rfl := Option.some.inj h
      exact spends_quiet rfl rfl rfl (Nat.lt_succ_self 2)
  | shutdownClose idleToClose =>
    cases idleToClose with
    | nil =>
      obtain rfl := Option.some.inj h
      exact spends_quiet rfl rfl rfl (hhome 2 (by decide))
    | cons entry rest =>
      obtain rfl := Option.some.inj h
      exact spends_quiet rfl rfl rfl (Nat.add_lt_add_left (Nat.lt_succ_self _) 2)

/-- Nobody dozes in a pool that is shutting down: the section that sets the flag wakes everybody. -/
structure Rouses (p : Pool) (e : Effect) : Prop where
  next : e.pool.shuttingDown = true → e.next.isDozing = false
  flag : e.pool.shuttingDown = true →
    p.shuttingDown = true ∨ e.available = .all ∧ e.cleanerWakeup = true

private theorem rouses_quiet (hpool : e.pool.shuttingDown = p.shuttingDown)
    (hnext : e.next.isDozing = false) : Rouses p e :=
  ⟨fun _ ↦ hnext, fun h ↦ Or.inl (hpool ▸ h)⟩

theorem rouses_open (hpool : e.pool.shuttingDown = p.shuttingDown)
    (hopen : p.shuttingDown ≠ true) : Rouses p e :=
  ⟨fun h ↦ absurd (hpool ▸ h) hopen, fun h ↦ absurd (hpool ▸ h) hopen⟩

theorem threadStep_rouses (htotal : p.idle.length ≤ p.total)
    (h : threadStep config b env p pc = some e) : Rouses p e := by
  have hhome := isDozing_home b
  cases pc with
  | outside | acqBlocked _ | cleanerBlocked _ | cleanerDone | shutdownBlocked => cases h
  | acqCheck deadline afterWait =>
    simp only [threadStep] at h
    split at h
    · obtain rfl := Option.some.inj h
      exact rouses_quiet rfl hhome
    · rename_i hopen
      split at h
      · obtain rfl := Option.some.inj h
        exact rouses_quiet rfl rfl
      · split at h
        · obtain rfl := Option.some.inj h
          exact rouses_quiet rfl rfl
        · obtain rfl := Option.some.inj h
          exact rouses_open rfl hopen
  | acqWoken deadline timedOut =>
    simp only [threadStep] at h
    split at h
    · obtain rfl := Option.some.inj h
      exact rouses_quiet rfl rfl
    · rename_i hready
      have hopen : p.shuttingDown ≠ true := fun hflag ↦
        hready (by rw [Pool.ready, hflag, Bool.true_or, Bool.true_or])
      split at h
      · obtain rfl := Option.some.inj h
        exact rouses_quiet rfl hhome
      · obtain rfl := Option.some.inj h
        exact rouses_open rfl hopen
  | cleanerWait =>
    simp only [threadStep] at h
    split at h
    · obtain rfl := Option.some.inj h
      exact rouses_quiet rfl rfl
    · rename_i hopen
      obtain rfl := Option.some.inj h
      exact rouses_open rfl hopen
  | cleanerWoken deadline timedOut =>
    simp only [threadStep] at h
    split at h
    · obtain rfl := Option.some.inj h
      exact rouses_quiet rfl rfl
    · rename_i hopen
      split at h
      · obtain rfl := Option.some.inj h
        exact rouses_quiet rfl rfl
      · obtain rfl := Option.some.inj h
        exact rouses_open rfl hopen
  | acqCreate _ | acqExpiry _ _ | warmCreate _ | warmPublish _ _ | shutdownCheck =>
    simp only [threadStep] at h
    split at h <;> obtain rfl := Option.some.inj h <;> exact rouses_quiet rfl rfl
  | acqPing deadline entry =>
    obtain rfl := Option.some.inj h
    refine rouses_quiet rfl ?_
    dsimp only
    split <;> rfl
  | acqFinish deadline entry =>
    simp only [threadStep] at h
    split at h
    · obtain rfl := Option.some.inj h
      exact rouses_quiet rfl rfl
    · obtain rfl := Option.some.inj h
      exact rouses_quiet rfl hhome
  | retireCount resume =>
    cases resume with
    | none =>
      obtain rfl := Option.some.inj h
      exact rouses_quiet rfl hhome
    | some deadline =>
      obtain rfl := Option.some.inj h
      exact rouses_quiet rfl rfl
  | releaseReturn entry reachedLifetime =>
    simp only [threadStep] at h
    split at h
    · obtain rfl := Option.some.inj h
      exact rouses_quiet rfl rfl
    · obtain rfl := Option.some.inj h
      exact rouses_quiet rfl hhome
  | warmCheck warmed =>
    simp only [threadStep] at h
    split at h
    · obtain rfl := Option.some.inj h
      exact rouses_quiet rfl hhome
    · obtain rfl := Option.some.inj h
      exact rouses_quiet rfl rfl
  | acqRollback | releaseClose _ | warmRollback _ =>
    obtain rfl := Option.some.inj h
    exact rouses_quiet rfl hhome
  | acqCount _ _ | retireClose _ _ | releaseStamp _ | warmClose _ _ | cleanerStamp =>
    obtain rfl := Option.some.inj h
    exact rouses_quiet rfl rfl
  | cleanerSweep now =>
    obtain rfl := Option.some.inj h
    obtain ⟨hswept, -⟩ := Pool.cleanupIdle_spec config now { p with idle := [] } htotal
    have hkept := congrArg Pool.shuttingDown hswept
    exact rouses_quiet hkept rfl
  | cleanerClose stale =>
    cases stale <;> obtain rfl := Option.some.inj h <;> exact rouses_quiet rfl rfl
  | shutdownSet =>
    obtain rfl := Option.some.inj h
    exact ⟨fun _ ↦ rfl, fun _ ↦ Or.inr ⟨rfl, rfl⟩⟩
  | shutdownJoin =>
    rw [threadStep, Option.ite_none_right_eq_some, Option.some.injEq] at h
    obtain ⟨-, rfl⟩ := h
    exact rouses_quiet rfl rfl
  | shutdownClose idleToClose =>
    cases idleToClose with
    | nil =>
      obtain rfl := Option.some.inj h
      exact rouses_quiet rfl hhome
    | cons entry rest =>
      obtain rfl := Option.some.inj h
      exact rouses_quiet rfl rfl

theorem threadStep_isOfCleaner (hpc : pc.isOfCleaner = true)
    (h : threadStep config true env p pc = some e) : e.next.isOfCleaner = true := by
  cases pc with
  | cleanerBlocked _ | cleanerDone => cases h
  | cleanerWait | warmCheck _ | warmCreate _ | warmPublish _ _ =>
    simp only [threadStep] at h
    split at h <;> obtain rfl := Option.some.inj h <;> rfl
  | cleanerWoken deadline timedOut =>
    simp only [threadStep] at h
    split at h
    · obtain rfl := Option.some.inj h
      rfl
    · split at h <;> obtain rfl := Option.some.inj h <;> rfl
  | cleanerStamp | cleanerSweep _ | warmRollback _ | warmClose _ _ =>
    obtain rfl := Option.some.inj h
    rfl
  | cleanerClose stale =>
    cases stale <;> obtain rfl := Option.some.inj h <;> rfl
  | _ => cases hpc

/-- What a thread waits for that cannot take a step by itself. -/
theorem threadStep_eq_none (h : threadStep config b env p pc = none) :
    pc = .outside ∨ pc = .cleanerDone ∨ pc.isDozing = true ∨ pc = .shutdownBlocked ∨
      pc = .shutdownJoin ∧ env.cleanerDone = false := by
  cases pc with
  | outside => exact Or.inl rfl
  | cleanerDone => exact Or.inr (Or.inl rfl)
  | acqBlocked _ | cleanerBlocked _ => exact Or.inr (Or.inr (Or.inl rfl))
  | shutdownBlocked => exact Or.inr (Or.inr (Or.inr (Or.inl rfl)))
  | shutdownJoin =>
    rw [threadStep] at h
    split at h
    · cases h
    · rename_i hcleaner
      exact Or.inr (Or.inr (Or.inr (Or.inr ⟨rfl, eq_false_of_ne_true hcleaner⟩)))
  | acqCheck deadline afterWait =>
    simp only [threadStep] at h
    split at h
    · cases h
    · split at h
      · cases h
      · split at h <;> cases h
  | acqWoken _ _ | cleanerWoken _ _ =>
    simp only [threadStep] at h
    split at h
    · cases h
    · split at h <;> cases h
  | acqCreate _ | acqExpiry _ _ | acqFinish _ _ | releaseReturn _ _ | warmCheck _ | warmCreate _
  | warmPublish _ _ | cleanerWait | shutdownCheck =>
    simp only [threadStep] at h
    split at h <;> cases h
  | retireCount resume => cases resume <;> cases h
  | cleanerClose stale => cases stale <;> cases h
  | shutdownClose idleToClose => cases idleToClose <;> cases h
  | _ => cases h

end Section

/-! ## Every reachable state

The section that sets the flag notifies everybody. In a pool that is shutting down nobody goes to
sleep, but to wait for the active connections or for the cleaner thread. -/

section System

variable {n : ℕ} {config : Config} {s s' : System n}

/-- A step that goes on with what has been begun. -/
def Action.continues : Action n → Bool
  | .step .. => true
  | _ => false

/-- How many steps the threads make at most while the pool is shutting down. -/
def System.potential (s : System n) : ℕ :=
  tally Pc.cost s.threads + (n + 1) * s.pool.active + s.pool.idle.length

private theorem cost_wakeAvailable (pc : Pc) : pc.wakeAvailable.cost = pc.cost := by
  cases pc <;> rfl

private theorem cost_notifyAvailable {threads threads' : Thread n → Pc} {how : Notify}
    {waiter : Option (Thread n)} (h : notifyAvailable threads how waiter = some threads')
    (t : Thread n) : (threads' t).cost = (threads t).cost := by
  cases how <;> cases waiter <;> simp only [notifyAvailable] at h
  case nobody.none =>
    obtain rfl := Option.some.inj h
    rfl
  case all.none =>
    obtain rfl := Option.some.inj h
    exact cost_wakeAvailable _
  case one.none =>
    split at h
    · obtain rfl := Option.some.inj h
      rfl
    · cases h
  case one.some i =>
    split at h
    · obtain rfl := Option.some.inj h
      exact apply_update_eq Pc.cost threads (cost_wakeAvailable _) t
    · cases h
  all_goals cases h

private theorem cost_notifyOthers_le (threads : Thread n → Pc) (b b' : Bool) (t : Thread n) :
    (notifyOthers threads b b' t).cost ≤ (threads t).cost + if b then 1 else 0 := by
  cases b <;> cases b' <;> simp only [notifyOthers, if_true, Bool.false_eq_true, if_false] <;>
    cases threads t <;> simp [Pc.cost, Pc.wakeShutdownDone, Pc.wakeCleaner]

/-- **Every step of a pool that is shutting down uses some of the potential up.** -/
theorem potential_lt_of_step (hbalanced : Balanced config s) (hflag : s.pool.shuttingDown = true)
    {a : Action n} (ha : a.continues = true) (hstep : s.step config a = some s') :
    s'.potential < s.potential ∧ s'.pool.shuttingDown = true := by
  cases a with
  | step t succeeds waiter =>
    obtain ⟨e, he, hcommit⟩ := Option.bind_eq_some_iff.mp hstep
    obtain ⟨threads, hnotify, rfl⟩ := Option.map_eq_some_iff.mp hcommit
    have hspends : Spends (n + 1) s.pool (s.threads t) e :=
      threadStep_spends hflag (hbalanced.covers t) he
    have htrade := tally_update Pc.cost s.threads t e.next
    have hwoken : tally Pc.cost (notifyOthers threads e.shutdownDone e.cleanerWakeup) ≤
        tally (fun pc ↦ pc.cost + if e.shutdownDone then 1 else 0)
          (Function.update s.threads t e.next) := by
      refine Finset.sum_le_sum fun u _ ↦ ?_
      dsimp only
      rw [← cost_notifyAvailable hnotify u]
      exact cost_notifyOthers_le threads _ _ u
    rw [tally_add_const, Fintype.card_option, Fintype.card_fin, smul_eq_mul, mul_ite, mul_one,
      mul_zero] at hwoken
    refine ⟨?_, (threadStep_staged (by rw [hbalanced.total_eq]; omega) he).flag hflag⟩
    change tally Pc.cost (notifyOthers threads e.shutdownDone e.cleanerWakeup) +
      (n + 1) * e.pool.active + e.pool.idle.length < s.potential
    rw [Spends] at hspends
    rw [System.potential]
    omega
  | _ => cases ha

/-- A position of the thread: the cleaner and the user threads keep to their own. -/
def Belongs (pc : Pc) : Thread n → Prop
  | none => pc.isOfCleaner = true
  | some _ => pc.isCleaner = false

/-- Nobody dozes once the flag is set, and every thread is where it belongs. -/
structure Awake (s : System n) : Prop where
  threads : s.pool.shuttingDown = true → ∀ t, (s.threads t).isDozing = false
  places : ∀ t, Belongs (s.threads t) t

private theorem wakeInvariant_isOfCleaner : WakeInvariant Pc.isOfCleaner where
  available pc := by cases pc <;> rfl
  shutdownDone pc := by cases pc <;> rfl
  cleaner pc := by cases pc <;> rfl
  expire now pc := by
    cases pc <;> first | rfl | (rw [Pc.expire]; split <;> rfl)

theorem WakeInvariant.belongs_iff {pc pc' : Pc}
    (hw : ∀ w : Pc → Bool, WakeInvariant w → w pc = w pc') (t : Thread n) :
    Belongs pc t ↔ Belongs pc' t := by
  cases t with
  | none => rw [Belongs, Belongs, hw _ wakeInvariant_isOfCleaner]
  | some i => rw [Belongs, Belongs, hw _ wakeInvariant_isCleaner]

private theorem isDozing_wake {f : Pc → Pc} (hf : f = Pc.wakeAvailable ∨ f = Pc.wakeShutdownDone ∨
    f = Pc.wakeCleaner) {pc : Pc} (hpc : pc.isDozing = false) : (f pc).isDozing = false := by
  rcases hf with rfl | rfl | rfl <;> cases pc <;> first | rfl | cases hpc

private theorem isDozing_notifyOthers {threads : Thread n → Pc} {t : Thread n} (b b' : Bool)
    (ht : (threads t).isDozing = false) : (notifyOthers threads b b' t).isDozing = false := by
  have hdone : (if b then (threads t).wakeShutdownDone else threads t).isDozing = false := by
    split
    · exact isDozing_wake (Or.inr (Or.inl rfl)) ht
    · exact ht
  rw [notifyOthers]
  split
  · exact isDozing_wake (Or.inr (Or.inr rfl)) hdone
  · exact hdone

private theorem isDozing_notifyAvailable {threads threads' : Thread n → Pc} {how : Notify}
    {waiter : Option (Thread n)} (h : notifyAvailable threads how waiter = some threads')
    {t : Thread n} (ht : (threads t).isDozing = false) : (threads' t).isDozing = false := by
  have hwake := isDozing_wake (Or.inl rfl) ht
  cases how <;> cases waiter <;> simp only [notifyAvailable] at h
  case nobody.none =>
    obtain rfl := Option.some.inj h
    exact ht
  case all.none =>
    obtain rfl := Option.some.inj h
    exact hwake
  case one.none =>
    split at h
    · obtain rfl := Option.some.inj h
      exact ht
    · cases h
  case one.some i =>
    split at h
    · obtain rfl := Option.some.inj h
      by_cases hi : t = i
      · subst hi
        rw [Function.update_self]
        exact hwake
      · rwa [Function.update_of_ne hi]
    · cases h
  all_goals cases h

/-- Everybody is awake after `notify_all` on both condition variables. -/
theorem isDozing_all {threads threads' : Thread n → Pc} {waiter : Option (Thread n)}
    (h : notifyAvailable threads .all waiter = some threads') (b : Bool) (t : Thread n) :
    (notifyOthers threads' b true t).isDozing = false := by
  cases waiter with
  | some i => cases h
  | none =>
    obtain rfl := Option.some.inj h
    rw [notifyOthers]
    cases b <;> simp only [if_true, Bool.false_eq_true, if_false] <;> cases threads t <;> rfl

theorem awake_goto (h : Awake s) {t : Thread n} {pc : Pc}
    (hdozing : s.pool.shuttingDown = true → pc.isDozing = false) (hplace : Belongs pc t) :
    Awake (s.goto t pc) := by
  refine ⟨fun hflag ↦ ?_, ?_⟩
  · exact (Function.forall_update_iff s.threads fun _ (pc : Pc) ↦ pc.isDozing = false).mpr
      ⟨hdozing hflag, fun u _ ↦ h.threads hflag u⟩
  · exact (Function.forall_update_iff s.threads fun t pc ↦ Belongs pc t).mpr
      ⟨hplace, fun u _ ↦ h.places u⟩

private theorem isDozing_expire {now : ℤ} {pc : Pc} (h : pc.isDozing = false) :
    (pc.expire now).isDozing = false := by
  cases pc with
  | acqBlocked _ | cleanerBlocked _ => cases h
  | _ => exact h

theorem awake_step {a : Action n} (hbalanced : Balanced config s) (h : Awake s)
    (hstep : s.step config a = some s') : Awake s' := by
  cases stepped_of_step hstep with
  | start _ t pc houtside hpc =>
    rcases hpc with ⟨_, rfl⟩ | rfl | rfl
    · exact awake_goto h (fun _ ↦ rfl) rfl
    · exact awake_goto h (fun _ ↦ rfl) rfl
    · exact awake_goto h (fun _ ↦ rfl) rfl
  | release t k entry houtside hentry =>
    exact awake_goto (s := { s with handles := s.handles.eraseIdx k }) ⟨h.threads, h.places⟩
      (fun _ ↦ rfl) rfl
  | thread t succeeds waiter e threads he hnotify =>
    have hrouses := threadStep_rouses (by rw [hbalanced.total_eq]; omega) he
    refine ⟨fun hflag u ↦ ?_, fun u ↦ ?_⟩
    · rcases hrouses.flag hflag with hold | ⟨hall, hcleaner⟩
      · refine isDozing_notifyOthers _ _ (isDozing_notifyAvailable hnotify ?_)
        by_cases hu : u = t
        · rw [hu, Function.update_self]
          exact hrouses.next hflag
        · rw [Function.update_of_ne hu]
          exact h.threads hold u
      · rw [hall] at hnotify
        change (notifyOthers threads e.shutdownDone e.cleanerWakeup u).isDozing = false
        rw [hcleaner]
        exact isDozing_all hnotify _ u
    · refine (WakeInvariant.belongs_iff (fun w hw ↦ hw.commit hnotify u) u).mpr ?_
      by_cases hu : u = t
      · subst hu
        rw [Function.update_self]
        have hplace := h.places u
        cases u with
        | none => exact threadStep_isOfCleaner hplace he
        | some i => exact isCleaner_threadStep hplace he
      · rw [Function.update_of_ne hu]
        exact h.places u
  | wake _ t pc hpc =>
    refine awake_goto h (fun hflag ↦ ?_)
      ((WakeInvariant.belongs_iff (fun w hw ↦ ?_) t).mpr (h.places t))
    · have hawake := h.threads hflag t
      rcases hpc with rfl | rfl
      · exact isDozing_wake (Or.inr (Or.inr rfl)) (isDozing_wake (Or.inr (Or.inl rfl))
          (isDozing_wake (Or.inl rfl) hawake))
      · exact isDozing_expire hawake
    · rcases hpc with rfl | rfl
      · exact hw.spurious _
      · exact hw.expire _ _
  | tick nanoseconds => exact ⟨h.threads, h.places⟩

/-- What holds in every reachable state, of what the rest depends on. -/
structure Ready (config : Config) (s : System n) : Prop where
  balanced : Balanced config s
  covered : Covered config s
  awake : Awake s

theorem ready_of_reachable {now : ℤ} (h : (machine config now n).Reachable s) :
    Ready config s := by
  refine h.invariant ⟨balanced_init config now n, covered_init config now n, ?_, fun t ↦ ?_⟩
    fun hs _ hstep ↦ ?_
  · exact fun hflag ↦ by cases hflag
  · cases t <;> rfl
  · exact ⟨balanced_step hs.balanced hstep, covered_step hs.covered hs.balanced hstep,
      awake_step hs.balanced hs.awake hstep⟩

private theorem exists_notified (threads : Thread n → Pc) (how : Notify) :
    ∃ waiter threads', notifyAvailable threads how waiter = some threads' := by
  cases how with
  | nobody => exact ⟨none, _, rfl⟩
  | all => exact ⟨none, _, rfl⟩
  | one =>
    by_cases hnone : ∀ t, (threads t).isBlocked = false
    · exact ⟨none, _, if_pos hnone⟩
    · obtain ⟨t, ht⟩ := not_forall.mp hnone
      exact ⟨some t, _, if_pos (eq_true_of_ne_false ht)⟩

theorem threadStep_eq_none_of_atRest {now : ℤ}
    (hrest : (machine config now n).AtRest (fun a ↦ a.continues = true) s) (t : Thread n) :
    threadStep config t.isNone (s.env true) s.pool (s.threads t) = none := by
  by_contra hstep
  obtain ⟨e, he⟩ := Option.ne_none_iff_exists'.mp hstep
  obtain ⟨waiter, threads, hnotify⟩ :=
    exists_notified (Function.update s.threads t e.next) e.available
  have hstuck := hrest (.step t true waiter) rfl
  change (threadStep config t.isNone (s.env true) s.pool (s.threads t)).bind _ = none at hstuck
  rw [he, Option.bind_some, hnotify] at hstuck
  cases hstuck

/-- A pool that has been shut down: nobody is inside a call, but for calls of `shutdown` that wait
for connections that are still borrowed. -/
def ShutDown (s : System n) : Prop :=
  s.threads none = .cleanerDone ∧ ∀ t, s.threads (some t) = .outside ∨
    s.threads (some t) = .shutdownBlocked ∧ s.handles ≠ []

theorem Ready.shutDown {now : ℤ} (h : Ready config s) (hflag : s.pool.shuttingDown = true)
    (hrest : (machine config now n).AtRest (fun a ↦ a.continues = true) s) : ShutDown s := by
  have hnone := threadStep_eq_none_of_atRest hrest
  have hdone : s.threads none = .cleanerDone := by
    have hplace : (s.threads none).isOfCleaner = true := h.awake.places none
    have hdozing := h.awake.threads hflag none
    rcases threadStep_eq_none (hnone none) with hpc | hpc | hpc | hpc | ⟨hpc, -⟩
    · rw [hpc] at hplace
      cases hplace
    · exact hpc
    · rw [hdozing] at hpc
      cases hpc
    · rw [hpc] at hplace
      cases hplace
    · rw [hpc] at hplace
      cases hplace
  have hidle : ∀ t, (s.threads t).isActive = false := by
    intro t
    rcases threadStep_eq_none (hnone t) with hpc | hpc | hpc | hpc | ⟨hpc, -⟩
    · rw [hpc]
      rfl
    · rw [hpc]
      rfl
    · generalize s.threads t = pc at hpc
      cases pc <;> first | rfl | cases hpc
    · rw [hpc]
      rfl
    · rw [hpc]
      rfl
  refine ⟨hdone, fun t ↦ ?_⟩
  have hplace : (s.threads (some t)).isCleaner = false := h.awake.places (some t)
  have hdozing := h.awake.threads hflag (some t)
  rcases threadStep_eq_none (hnone (some t)) with hpc | hpc | hpc | hpc | ⟨-, hcleaner⟩
  · exact Or.inl hpc
  · rw [hpc] at hplace
    cases hplace
  · rw [hdozing] at hpc
    cases hpc
  · -- somebody is active, and it is not a thread inside a call
    refine Or.inr ⟨hpc, fun hhandles ↦ ?_⟩
    have hpos := h.covered.shutdown (some t) (by rw [hpc]; rfl)
    rw [h.balanced.active_eq, hhandles, count,
      tally_eq_zero _ _ fun u ↦ by rw [hidle u]; rfl] at hpos
    exact absurd hpos (Nat.lt_irrefl 0)
  · rw [System.env, hdone, decide_eq_true rfl] at hcleaner
    cases hcleaner

/-! ## The join

The cleaner thread is one `std::thread`, and `shutdown` tests and joins it without the mutex: if two
calls do so at a time, the behaviour is undefined. In the model both go on once the cleaner is done.
So the runs here are those in which the calls keep apart until the join is behind them and the mutex
has been taken again; what they wait for after that may overlap. -/

/-- The thread has yet to join the cleaner thread. -/
def Pc.joins : Pc → Bool
  | .shutdownSet | .shutdownJoin => true
  | _ => false

/-- `shutdown` is called only when every other call of it has joined the cleaner thread, and has
taken the mutex after that. -/
def JoinsApart (s : System n) : Action n → Prop
  | .shutdown _ => ∀ t, (s.threads t).joins = false ∧ s.threads t ≠ .shutdownCheck
  | _ => True

instance (s : System n) (a : Action n) : Decidable (JoinsApart s a) :=
  match a with
  | .shutdown _ => inferInstanceAs (Decidable (∀ t, _ ∧ s.threads t ≠ _))
  | .tryAcquireFor _ _ | .release _ _ | .warmUp _ | .step _ _ _ | .wakeSpuriously _ | .expire _
  | .tick _ => .isTrue trivial

/-- At most one thread has yet to join the cleaner thread. -/
def JoinsAlone (s : System n) : Prop :=
  ∀ t u, (s.threads t).joins = true → (s.threads u).joins = true → t = u

private theorem wakeInvariant_joins : WakeInvariant Pc.joins where
  available pc := by cases pc <;> rfl
  shutdownDone pc := by cases pc <;> rfl
  cleaner pc := by cases pc <;> rfl
  expire now pc := by
    cases pc <;> first | rfl | (rw [Pc.expire]; split <;> rfl)

private theorem joins_home (b : Bool) : (home b).joins = false := by
  cases b <;> rfl

/-- Nobody comes in front of the join but from the start of `shutdown`. -/
theorem threadStep_joins {b : Bool} {env : Env} {p : Pool} {pc : Pc} {e : Effect}
    (h : threadStep config b env p pc = some e) (hnext : e.next.joins = true) :
    pc.joins = true := by
  by_contra hpc
  refine absurd hnext (Bool.eq_false_iff.mp ?_)
  cases pc with
  | outside | acqBlocked _ | cleanerBlocked _ | cleanerDone | shutdownBlocked => cases h
  | shutdownSet | shutdownJoin => exact absurd rfl hpc
  | acqCheck _ _ | acqWoken _ _ | cleanerWoken _ _ =>
    simp only [threadStep] at h
    split at h
    · obtain rfl := Option.some.inj h
      first | rfl | exact joins_home b
    · split at h
      · obtain rfl := Option.some.inj h
        first | rfl | exact joins_home b
      · first | (obtain rfl := Option.some.inj h; rfl) | (split at h <;> cases h <;> rfl)
  | acqCreate _ | acqExpiry _ _ | warmCreate _ | warmPublish _ _ | cleanerWait | acqFinish _ _
  | releaseReturn _ _ | warmCheck _ | shutdownCheck =>
    simp only [threadStep] at h
    split at h <;> obtain rfl := Option.some.inj h <;> first | rfl | exact joins_home b
  | acqPing deadline entry =>
    obtain rfl := Option.some.inj h
    dsimp only
    split <;> rfl
  | retireCount resume =>
    cases resume <;> obtain rfl := Option.some.inj h <;> first | rfl | exact joins_home b
  | acqRollback | releaseClose _ | warmRollback _ =>
    obtain rfl := Option.some.inj h
    exact joins_home b
  | cleanerClose stale =>
    cases stale <;> obtain rfl := Option.some.inj h <;> rfl
  | shutdownClose idleToClose =>
    cases idleToClose <;> obtain rfl := Option.some.inj h <;> first | rfl | exact joins_home b
  | _ =>
    obtain rfl := Option.some.inj h
    rfl

theorem joinsAlone_goto (h : JoinsAlone s) {t : Thread n} {pc : Pc}
    (hpc : pc.joins = true → (s.threads t).joins = true ∨ ∀ u, (s.threads u).joins = false) :
    JoinsAlone (s.goto t pc) :=
  single_update (P := fun pc ↦ pc.joins = true) h fun hnext ↦
    (hpc hnext).imp_right fun hnone u ↦ Bool.eq_false_iff.mp (hnone u)

theorem joinsAlone_step {a : Action n} (h : JoinsAlone s) (hapart : JoinsApart s a)
    (hstep : s.step config a = some s') : JoinsAlone s' := by
  have hwake : ∀ t pc, pc = (s.threads t).spurious ∨ pc = (s.threads t).expire s.clock →
      JoinsAlone (s.goto t pc) := by
    refine fun t pc hpc ↦ joinsAlone_goto h fun hnext ↦ Or.inl ?_
    rcases hpc with rfl | rfl
    · rwa [wakeInvariant_joins.spurious] at hnext
    · rwa [wakeInvariant_joins.expire] at hnext
  cases a with
  | tryAcquireFor t timeout =>
    obtain ⟨-, rfl⟩ := eq_goto_of_start hstep
    exact joinsAlone_goto h fun hnext ↦ by cases hnext
  | warmUp t =>
    obtain ⟨-, rfl⟩ := eq_goto_of_start hstep
    exact joinsAlone_goto h fun hnext ↦ by cases hnext
  | release t k =>
    obtain ⟨entry, -, hstart⟩ := Option.bind_eq_some_iff.mp hstep
    obtain ⟨-, rfl⟩ := eq_goto_of_start hstart
    exact joinsAlone_goto (s := { s with handles := s.handles.eraseIdx k }) h fun hnext ↦ by
      cases hnext
  | shutdown t =>
    obtain ⟨-, rfl⟩ := eq_goto_of_start hstep
    exact joinsAlone_goto h fun _ ↦ Or.inr fun u ↦ (hapart u).1
  | step t succeeds waiter =>
    obtain ⟨e, he, hcommit⟩ := Option.bind_eq_some_iff.mp hstep
    obtain ⟨threads, hnotify, rfl⟩ := Option.map_eq_some_iff.mp hcommit
    have hmoved : JoinsAlone (s.goto t e.next) :=
      joinsAlone_goto h fun hnext ↦ Or.inl (threadStep_joins he hnext)
    intro u v
    rw [wakeInvariant_joins.commit hnotify, wakeInvariant_joins.commit hnotify]
    exact hmoved u v
  | wakeSpuriously t =>
    obtain rfl := eq_goto_of_leaveWait hstep
    exact hwake t _ (Or.inl rfl)
  | expire t =>
    obtain rfl := eq_goto_of_leaveWait hstep
    exact hwake t _ (Or.inr rfl)
  | tick nanoseconds =>
    obtain rfl := Option.some.inj hstep
    exact h

theorem joinsApart_of_continues {a : Action n} (ha : a.continues = true) : JoinsApart s a := by
  cases a with
  | step => trivial
  | _ => cases ha

theorem joinsAlone_of_reachableWhen {now : ℤ}
    (h : (machine config now n).ReachableWhen JoinsApart s) : JoinsAlone s := by
  refine Machine.Leads.invariant (I := JoinsAlone) h (fun t u ht ↦ ?_)
    fun hs hapart hstep ↦ joinsAlone_step hs hapart hstep
  exact absurd ht (Bool.eq_false_iff.mp (joins_home t.isNone))

end System

end ConnectionPool

end FoundationComponents
