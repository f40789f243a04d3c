import FoundationComponents.ConnectionPool.Basic
import FoundationComponents.Machine.Tally

/-!
# The counters of the pool

The six counters are kept by separate critical sections, so between two sections of one call they
do not describe the deque of idle connections alone: a call may hold a slot it has reserved and not
filled, or a connection it has taken and not handed out. Each position of a thread is therefore
given what it holds, and the counters are balanced against the deque, the borrowed handles and the
number of threads at each kind of position.

The proof is in two layers. `threadStep_counted` goes through the source once and says how a single
section trades the counters against the position of the thread that runs it, provided the counters
cover what that thread holds. Everything after it is bookkeeping over the family of threads.
-/

namespace FoundationComponents

namespace ConnectionPool

/-! ## What a position holds

The positions between two sections of one call are where the counters and the deque disagree. What a
position holds says by how much. -/

/-- Inside `tryAcquireFor`, `retireActive` or `release` with a slot counted in `active`. -/
def Pc.isActive : Pc → Bool
  | .acqCreate _ | .acqRollback | .acqCount _ _ | .acqExpiry _ _ | .acqPing _ _ | .acqFinish _ _
  | .retireClose _ _ | .retireCount _ | .releaseStamp _ | .releaseReturn _ _ => true
  | _ => false

/-- Inside `warmUp` with a reservation that is not resolved yet. -/
def Pc.isWarming : Pc → Bool
  | .warmCreate _ | .warmRollback _ | .warmPublish _ _ => true
  | _ => false

/-- Between `++waiting` and `--waiting`. -/
def Pc.isWaiting : Pc → Bool
  | .acqBlocked _ | .acqWoken _ _ => true
  | _ => false

/-- Inside a `tryAcquireFor` that reserved a slot for a new connection and has neither executed
`++created` nor rolled the reservation back. -/
def Pc.isCreating : Pc → Bool
  | .acqCreate _ | .acqRollback | .acqCount _ _ => true
  | _ => false

/-- All a position holds, as numbers. -/
structure Held where
  active : ℕ
  warming : ℕ
  waiting : ℕ
  creating : ℕ

def Pc.held (pc : Pc) : Held :=
  ⟨pc.isActive.toNat, pc.isWarming.toNat, pc.isWaiting.toNat, pc.isCreating.toNat⟩

private theorem held_home (b : Bool) : (home b).held = ⟨0, 0, 0, 0⟩ := by
  cases b <;> rfl

/-! ## One section

The arguments about the source end here: each section and each unguarded call is looked at once,
with a thread that holds what its position says and counters that cover it. -/

namespace Pool

variable {p : Pool}

theorem subTotal_of_le {k : ℕ} (h : k ≤ p.total) :
    p.subTotal k = { p with total := p.total - k } := by
  have hlt : decide (p.total < k) = false := decide_eq_false (Nat.not_lt.mpr h)
  rw [subTotal, sizeSub, if_pos h, hlt, Bool.or_false]

theorem subActive_of_pos (h : 1 ≤ p.active) :
    p.subActive = { p with active := p.active - 1 } := by
  have hlt : decide (p.active < 1) = false := decide_eq_false (Nat.not_lt.mpr h)
  rw [subActive, sizeSub, if_pos h, hlt, Bool.or_false]

theorem subWaiting_of_pos (h : 1 ≤ p.waiting) :
    p.subWaiting = { p with waiting := p.waiting - 1 } := by
  have hlt : decide (p.waiting < 1) = false := decide_eq_false (Nat.not_lt.mpr h)
  rw [subWaiting, sizeSub, if_pos h, hlt, Bool.or_false]

theorem subActive_subTotal (hactive : 1 ≤ p.active) (htotal : 1 ≤ p.total) :
    p.subActive.subTotal 1 = { p with active := p.active - 1, total := p.total - 1 } := by
  rw [subActive_of_pos hactive]
  exact subTotal_of_le (p := { p with active := p.active - 1 }) htotal

/-- The sweep moves entries from `idle` to the stale list and counts each as destroyed; it touches
no other field. -/
theorem cleanupIdle_spec (config : Config) (now : ℤ) {rest : List Entry} (p : Pool)
    (h : rest.length ≤ p.total) :
    let swept := cleanupIdle config now rest p
    swept.1 = { p with
        idle := swept.1.idle
        total := p.total - swept.2.length
        destroyed := p.destroyed + swept.2.length } ∧
      (swept.1.idle ++ swept.2).Perm (p.idle ++ rest) ∧ swept.2.length ≤ rest.length := by
  induction rest generalizing p with
  | nil => simp [cleanupIdle]
  | cons entry rest ih =>
    rw [List.length_cons] at h
    have hone : 1 ≤ p.total := by omega
    simp only [cleanupIdle]
    split
    · rw [subTotal_of_le hone]
      obtain ⟨hpool, hperm, hlen⟩ :=
        ih { p with total := p.total - 1, destroyed := p.destroyed + 1 } (Nat.le_sub_one_of_lt h)
      refine ⟨?_, ?_, Nat.succ_le_succ hlen⟩
      · rw [hpool]
        simp only [List.length_cons, Pool.mk.injEq, true_and, and_true]
        omega
      · exact List.perm_middle.trans ((hperm.cons entry).trans List.perm_middle.symm)
    · obtain ⟨hpool, hperm, hlen⟩ := ih { p with idle := p.idle ++ [entry] } (Nat.le_of_lt h)
      refine ⟨hpool, ?_, Nat.le_succ_of_le hlen⟩
      simpa using hperm

end Pool

/-- The counters cover what a thread at `pc` holds. -/
structure Covers (config : Config) (p : Pool) (pc : Pc) : Prop where
  active : pc.held.active ≤ p.active
  total : p.idle.length + p.active + pc.held.warming ≤ p.total
  waiting : pc.held.waiting ≤ p.waiting
  cap : p.total ≤ config.maxSize

/-- How a section trades the counters against the position of the thread that runs it. -/
structure Counted (config : Config) (p : Pool) (pc : Pc) (e : Effect) : Prop where
  active : e.pool.active + pc.held.active = p.active + e.next.held.active + e.lent.toList.length
  total : e.pool.total + (p.idle.length + p.active + pc.held.warming) =
    p.total + (e.pool.idle.length + e.pool.active + e.next.held.warming)
  waiting : e.pool.waiting + pc.held.waiting = p.waiting + e.next.held.waiting
  created : e.pool.created + e.next.held.creating + (p.destroyed + p.idle.length + p.active) =
    p.created + pc.held.creating + (e.pool.destroyed + e.pool.idle.length + e.pool.active)
  cap : e.pool.total ≤ config.maxSize
  underflow : e.pool.underflow = p.underflow

section Counted

variable {config : Config} {b : Bool} {env : Env} {p : Pool} {pc : Pc} {e : Effect}

theorem Counted.intro (a a' : Held) (hpc : pc.held = a) (hnext : e.next.held = a')
    (hactive : e.pool.active + a.active = p.active + a'.active + e.lent.toList.length)
    (htotal : e.pool.total + (p.idle.length + p.active + a.warming) =
      p.total + (e.pool.idle.length + e.pool.active + a'.warming))
    (hwaiting : e.pool.waiting + a.waiting = p.waiting + a'.waiting)
    (hcreated : e.pool.created + a'.creating + (p.destroyed + p.idle.length + p.active) =
      p.created + a.creating + (e.pool.destroyed + e.pool.idle.length + e.pool.active))
    (hcap : e.pool.total ≤ config.maxSize) (hunderflow : e.pool.underflow = p.underflow) :
    Counted config p pc e := by
  subst hpc hnext
  exact ⟨hactive, htotal, hwaiting, hcreated, hcap, hunderflow⟩

private theorem counted_quiet {a : Held} (hcap : p.total ≤ config.maxSize) (hpc : pc.held = a)
    (hnext : e.next.held = a) (hpool : e.pool = p) (hlent : e.lent = none) :
    Counted config p pc e := by
  refine Counted.intro a a hpc hnext ?_ ?_ ?_ ?_ ?_ ?_
  · rw [hpool, hlent]
    rfl
  · rw [hpool]
  · rw [hpool]
  · rw [hpool]
  · rw [hpool]
    exact hcap
  · rw [hpool]

/-- **The accounting of one section.** Each critical section and each unguarded call trades the
counters against the position of its thread, and never decrements a counter below `0`. -/
theorem threadStep_counted (hc : Covers config p pc)
    (h : threadStep config b env p pc = some e) : Counted config p pc e := by
  obtain ⟨hactive, htotal, hwaiting, hcap⟩ := hc
  cases pc with
  | outside | acqBlocked _ | cleanerBlocked _ | cleanerDone | shutdownBlocked => cases h
  | acqCheck deadline afterWait =>
    have htotal : p.idle.length + p.active ≤ p.total := htotal
    simp only [threadStep] at h
    split at h
    · obtain rfl := Option.some.inj h
      exact counted_quiet hcap rfl (held_home b) rfl rfl
    split at h
    · rename_i entry rest hidle
      obtain rfl := Option.some.inj h
      refine Counted.intro ⟨0, 0, 0, 0⟩ ⟨1, 0, 0, 0⟩ rfl rfl ?_ ?_ ?_ ?_ ?_ ?_ <;>
        simp [hidle] <;> omega
    split at h
    · obtain rfl := Option.some.inj h
      refine Counted.intro ⟨0, 0, 0, 0⟩ ⟨1, 0, 0, 1⟩ rfl rfl ?_ ?_ ?_ ?_ ?_ ?_ <;> simp <;> omega
    · obtain rfl := Option.some.inj h
      exact Counted.intro ⟨0, 0, 0, 0⟩ ⟨0, 0, 1, 0⟩ rfl rfl rfl rfl rfl rfl hcap rfl
  | acqWoken deadline timedOut =>
    -- the thread itself is counted as waiting, so `--waiting` does not wrap
    have hone : 1 ≤ p.waiting := hwaiting
    have hback : p.waiting - 1 + 1 = p.waiting := Nat.sub_add_cancel hone
    simp only [threadStep, Pool.subWaiting_of_pos hone] at h
    split at h
    · obtain rfl := Option.some.inj h
      exact Counted.intro ⟨0, 0, 1, 0⟩ ⟨0, 0, 0, 0⟩ rfl rfl rfl rfl hback rfl hcap rfl
    split at h
    · obtain rfl := Option.some.inj h
      exact Counted.intro ⟨0, 0, 1, 0⟩ ⟨0, 0, 0, 0⟩ rfl (held_home b) rfl rfl hback rfl hcap rfl
    · obtain rfl := Option.some.inj h
      exact counted_quiet hcap rfl rfl rfl rfl
  | acqCreate deadline | acqExpiry deadline entry =>
    simp only [threadStep] at h
    split at h <;> obtain rfl := Option.some.inj h <;> exact counted_quiet hcap rfl rfl rfl rfl
  | warmCreate warmed =>
    simp only [threadStep] at h
    split at h <;> obtain rfl := Option.some.inj h <;> exact counted_quiet hcap rfl rfl rfl rfl
  | acqRollback =>
    have hone : 1 ≤ p.active := hactive
    have htotal : p.idle.length + p.active ≤ p.total := htotal
    obtain rfl := Option.some.inj h
    rw [Effect.slotFreed, Pool.subActive_subTotal hone (by omega)]
    refine Counted.intro ⟨1, 0, 0, 1⟩ ⟨0, 0, 0, 0⟩ rfl (held_home b) ?_ ?_ rfl ?_ ?_ rfl <;>
      simp only [Option.toList_none, List.length_nil] <;> omega
  | acqCount deadline entry =>
    obtain rfl := Option.some.inj h
    refine Counted.intro ⟨1, 0, 0, 1⟩ ⟨1, 0, 0, 0⟩ rfl rfl rfl rfl rfl ?_ hcap rfl
    simp only [Nat.add_zero]
  | acqPing deadline entry =>
    obtain rfl := Option.some.inj h
    refine counted_quiet (a := ⟨1, 0, 0, 0⟩) hcap rfl ?_ rfl rfl
    dsimp only
    split <;> rfl
  | acqFinish deadline entry =>
    simp only [threadStep] at h
    split at h
    · obtain rfl := Option.some.inj h
      exact counted_quiet hcap rfl rfl rfl rfl
    · obtain rfl := Option.some.inj h
      exact Counted.intro ⟨1, 0, 0, 0⟩ ⟨0, 0, 0, 0⟩ rfl (held_home b) rfl rfl rfl rfl hcap rfl
  | retireClose entry resume | releaseStamp entry =>
    obtain rfl := Option.some.inj h
    exact counted_quiet hcap rfl rfl rfl rfl
  | retireCount resume =>
    have hone : 1 ≤ p.active := hactive
    have htotal : p.idle.length + p.active ≤ p.total := htotal
    simp only [threadStep, Pool.subActive_subTotal hone (show 1 ≤ p.total by omega)] at h
    split at h
    · obtain rfl := Option.some.inj h
      refine Counted.intro ⟨1, 0, 0, 0⟩ ⟨0, 0, 0, 0⟩ rfl rfl ?_ ?_ rfl ?_ ?_ rfl <;>
        simp only [Effect.slotFreed, Option.toList_none, List.length_nil] <;> omega
    · obtain rfl := Option.some.inj h
      refine Counted.intro ⟨1, 0, 0, 0⟩ ⟨0, 0, 0, 0⟩ rfl (held_home b) ?_ ?_ rfl ?_ ?_ rfl <;>
        simp only [Effect.slotFreed, Option.toList_none, List.length_nil] <;> omega
  | releaseReturn entry reachedLifetime =>
    have hone : 1 ≤ p.active := hactive
    have htotal : p.idle.length + p.active ≤ p.total := htotal
    simp only [threadStep] at h
    split at h
    · rw [Pool.subActive_subTotal hone (by omega)] at h
      obtain rfl := Option.some.inj h
      refine Counted.intro ⟨1, 0, 0, 0⟩ ⟨0, 0, 0, 0⟩ rfl rfl ?_ ?_ rfl ?_ ?_ rfl <;>
        simp only [Effect.slotFreed, Option.toList_none, List.length_nil] <;> omega
    · rw [Pool.subActive_of_pos hone] at h
      obtain rfl := Option.some.inj h
      refine Counted.intro ⟨1, 0, 0, 0⟩ ⟨0, 0, 0, 0⟩ rfl (held_home b) ?_ ?_ rfl ?_ hcap rfl <;>
        simp only [Effect.slotFreed, Option.toList_none, List.length_nil, List.length_append,
          List.length_singleton] <;> omega
  | releaseClose entry =>
    obtain rfl := Option.some.inj h
    exact counted_quiet hcap rfl (held_home b) rfl rfl
  | warmCheck warmed =>
    simp only [threadStep] at h
    split at h
    · obtain rfl := Option.some.inj h
      exact counted_quiet hcap rfl (held_home b) rfl rfl
    · obtain rfl := Option.some.inj h
      refine Counted.intro ⟨0, 0, 0, 0⟩ ⟨0, 1, 0, 0⟩ rfl rfl rfl ?_ rfl rfl ?_ rfl <;>
        dsimp only <;> omega
  | warmRollback warmed =>
    have htotal : p.idle.length + p.active + 1 ≤ p.total := htotal
    obtain rfl := Option.some.inj h
    rw [Pool.subTotal_of_le (show 1 ≤ p.total by omega)]
    refine Counted.intro ⟨0, 1, 0, 0⟩ ⟨0, 0, 0, 0⟩ rfl (held_home b) rfl ?_ rfl rfl ?_ rfl <;>
      dsimp only <;> omega
  | warmPublish warmed entry =>
    have htotal : p.idle.length + p.active + 1 ≤ p.total := htotal
    simp only [threadStep, Pool.subTotal_of_le (show 1 ≤ p.total by omega)] at h
    split at h
    · obtain rfl := Option.some.inj h
      refine Counted.intro ⟨0, 1, 0, 0⟩ ⟨0, 0, 0, 0⟩ rfl rfl rfl ?_ rfl rfl ?_ rfl <;>
        dsimp only <;> omega
    · obtain rfl := Option.some.inj h
      refine Counted.intro ⟨0, 1, 0, 0⟩ ⟨0, 0, 0, 0⟩ rfl rfl rfl ?_ rfl ?_ hcap rfl <;>
        simp only [List.length_append, List.length_singleton] <;> omega
  | warmClose warmed entry =>
    obtain rfl := Option.some.inj h
    exact counted_quiet hcap rfl rfl rfl rfl
  | cleanerWait =>
    simp only [threadStep] at h
    split at h <;> obtain rfl := Option.some.inj h <;> exact counted_quiet hcap rfl rfl rfl rfl
  | cleanerWoken deadline timedOut =>
    simp only [threadStep] at h
    split at h
    · obtain rfl := Option.some.inj h
      exact counted_quiet hcap rfl rfl rfl rfl
    · split at h <;> obtain rfl := Option.some.inj h <;> exact counted_quiet hcap rfl rfl rfl rfl
  | cleanerStamp =>
    obtain rfl := Option.some.inj h
    exact counted_quiet hcap rfl rfl rfl rfl
  | cleanerSweep now =>
    have htotal : p.idle.length + p.active ≤ p.total := htotal
    obtain rfl := Option.some.inj h
    obtain ⟨hpool, hperm, hlen⟩ := Pool.cleanupIdle_spec config now { p with idle := [] }
      (show p.idle.length ≤ p.total by omega)
    have hlength := hperm.length_eq
    rw [List.nil_append, List.length_append] at hlength
    refine Counted.intro ⟨0, 0, 0, 0⟩ ⟨0, 0, 0, 0⟩ rfl rfl ?_ ?_ ?_ ?_ ?_ ?_ <;>
      rw [hpool] <;> simp only [Option.toList_none, List.length_nil] <;> omega
  | cleanerClose stale =>
    cases stale <;> obtain rfl := Option.some.inj h <;> exact counted_quiet hcap rfl rfl rfl rfl
  | shutdownSet =>
    obtain rfl := Option.some.inj h
    exact Counted.intro ⟨0, 0, 0, 0⟩ ⟨0, 0, 0, 0⟩ rfl rfl rfl rfl rfl rfl hcap rfl
  | shutdownJoin =>
    simp only [threadStep] at h
    split at h
    · obtain rfl := Option.some.inj h
      exact counted_quiet hcap rfl rfl rfl rfl
    · cases h
  | shutdownCheck =>
    have htotal : p.idle.length + p.active ≤ p.total := htotal
    simp only [threadStep, Pool.subTotal_of_le (show p.idle.length ≤ p.total by omega)] at h
    split at h
    · obtain rfl := Option.some.inj h
      refine Counted.intro ⟨0, 0, 0, 0⟩ ⟨0, 0, 0, 0⟩ rfl rfl rfl ?_ rfl ?_ ?_ rfl <;>
        simp only [List.length_nil] <;> omega
    · obtain rfl := Option.some.inj h
      exact counted_quiet hcap rfl rfl rfl rfl
  | shutdownClose idleToClose =>
    cases idleToClose with
    | nil =>
      obtain rfl := Option.some.inj h
      exact counted_quiet hcap rfl (held_home b) rfl rfl
    | cons entry rest =>
      obtain rfl := Option.some.inj h
      exact counted_quiet hcap rfl rfl rfl rfl

end Counted

/-! ## One step of the system -/

section Steps

variable {n : ℕ} {config : Config}

/-- What a step of the system can be. -/
inductive Stepped (config : Config) (s : System n) : Action n → System n → Prop
  /-- a user thread starts an operation that holds nothing yet -/
  | start (a : Action n) (t : Fin n) (pc : Pc) : s.threads (some t) = .outside →
      (∃ deadline, pc = .acqCheck deadline false) ∨ pc = .warmCheck 0 ∨ pc = .shutdownSet →
      Stepped config s a (s.goto (some t) pc)
  /-- the last copy of a handle is dropped -/
  | release (t : Fin n) (k : ℕ) (entry : Entry) : s.threads (some t) = .outside →
      s.handles[k]? = some entry →
      Stepped config s (.release t k)
        ({ s with handles := s.handles.eraseIdx k }.goto (some t) (.releaseStamp entry))
  /-- a thread performs its next section or call -/
  | thread (t : Thread n) (succeeds : Bool) (waiter : Option (Thread n)) (e : Effect)
      (threads : Thread n → Pc) :
      threadStep config t.isNone (s.env succeeds) s.pool (s.threads t) = some e →
      notifyAvailable (Function.update s.threads t e.next) e.available waiter = some threads →
      Stepped config s (.step t succeeds waiter) (s.commit t e threads)
  /-- a thread leaves its wait -/
  | wake (a : Action n) (t : Thread n) (pc : Pc) :
      pc = (s.threads t).spurious ∨ pc = (s.threads t).expire s.clock →
      Stepped config s a (s.goto t pc)
  | tick (nanoseconds : ℕ) :
      Stepped config s (.tick nanoseconds) { s with clock := s.clock + nanoseconds }

private theorem eq_outside_of_isOutside {pc : Pc} (h : pc.isOutside = true) : pc = .outside := by
  cases pc <;> first | rfl | cases h

theorem eq_goto_of_start {s s' : System n} {t : Fin n} {pc : Pc} (h : s.start t pc = some s') :
    s.threads (some t) = .outside ∧ s' = s.goto (some t) pc := by
  rw [System.start] at h
  split at h
  · rename_i houtside
    exact ⟨eq_outside_of_isOutside houtside, (Option.some.inj h).symm⟩
  · cases h

theorem eq_goto_of_leaveWait {s s' : System n} {t : Thread n} {pc : Pc}
    (h : s.leaveWait t pc = some s') : s' = s.goto t pc := by
  rw [System.leaveWait] at h
  split at h
  · cases h
  · exact (Option.some.inj h).symm

theorem stepped_of_step {s s' : System n} {a : Action n} (h : s.step config a = some s') :
    Stepped config s a s' := by
  cases a with
  | tryAcquireFor t timeout =>
    obtain ⟨houtside, rfl⟩ := eq_goto_of_start h
    exact .start _ t _ houtside (Or.inl ⟨_, rfl⟩)
  | release t k =>
    obtain ⟨entry, hentry, hstart⟩ := Option.bind_eq_some_iff.mp h
    obtain ⟨houtside, rfl⟩ := eq_goto_of_start hstart
    exact .release t k entry houtside hentry
  | warmUp t =>
    obtain ⟨houtside, rfl⟩ := eq_goto_of_start h
    exact .start _ t _ houtside (Or.inr (Or.inl rfl))
  | shutdown t =>
    obtain ⟨houtside, rfl⟩ := eq_goto_of_start h
    exact .start _ t _ houtside (Or.inr (Or.inr rfl))
  | step t succeeds waiter =>
    obtain ⟨e, he, hnotify⟩ := Option.bind_eq_some_iff.mp h
    obtain ⟨threads, hthreads, rfl⟩ := Option.map_eq_some_iff.mp hnotify
    exact .thread t succeeds waiter e threads he hthreads
  | wakeSpuriously t =>
    obtain rfl := eq_goto_of_leaveWait h
    exact .wake _ t _ (Or.inl rfl)
  | expire t =>
    obtain rfl := eq_goto_of_leaveWait h
    exact .wake _ t _ (Or.inr rfl)
  | tick nanoseconds =>
    obtain rfl := Option.some.inj h
    exact .tick nanoseconds

end Steps

/-! ## Weights that a wakeup keeps

A step moves one thread by its section and others by a notification. Waking changes neither what a
thread holds nor what it has in hand, so it does not enter the balance. -/

/-- A weight of positions that does not change when a thread is woken. -/
structure WakeInvariant {M : Type*} (w : Pc → M) : Prop where
  available : ∀ pc, w pc.wakeAvailable = w pc
  shutdownDone : ∀ pc, w pc.wakeShutdownDone = w pc
  cleaner : ∀ pc, w pc.wakeCleaner = w pc
  expire : ∀ now pc, w (pc.expire now) = w pc

namespace WakeInvariant

variable {M : Type*} {w : Pc → M} {n : ℕ}

theorem comp {N : Type*} (hw : WakeInvariant w) (g : M → N) : WakeInvariant fun pc ↦ g (w pc) where
  available pc := congrArg g (hw.available pc)
  shutdownDone pc := congrArg g (hw.shutdownDone pc)
  cleaner pc := congrArg g (hw.cleaner pc)
  expire now pc := congrArg g (hw.expire now pc)

theorem spurious (hw : WakeInvariant w) (pc : Pc) : w pc.spurious = w pc := by
  rw [Pc.spurious, hw.cleaner, hw.shutdownDone, hw.available]

theorem notifyAvailable (hw : WakeInvariant w) {threads threads' : Thread n → Pc} {how : Notify}
    {waiter : Option (Thread n)}
    (h : ConnectionPool.notifyAvailable threads how waiter = some threads') (t : Thread n) :
    w (threads' t) = w (threads t) := by
  cases how <;> cases waiter <;> simp only [ConnectionPool.notifyAvailable] at h
  case nobody.none =>
    obtain rfl := Option.some.inj h
    rfl
  case all.none =>
    obtain rfl := Option.some.inj h
    exact hw.available _
  case one.none =>
    split at h
    · obtain rfl := Option.some.inj h
      rfl
    · cases h
  case one.some i =>
    split at h
    · obtain rfl := Option.some.inj h
      exact apply_update_eq w threads (hw.available _) t
    · cases h
  all_goals cases h

theorem notifyOthers (hw : WakeInvariant w) (threads : Thread n → Pc) (b b' : Bool)
    (t : Thread n) : w (ConnectionPool.notifyOthers threads b b' t) = w (threads t) := by
  cases b <;> cases b' <;>
    simp [ConnectionPool.notifyOthers, hw.shutdownDone, hw.cleaner]

/-- The trade of a step: the thread that moves exchanges what it held, and waking others changes
nothing. -/
theorem tally_commit [AddCommMonoid M] (hw : WakeInvariant w) {s : System n} {t : Thread n}
    {e : Effect} {waiter : Option (Thread n)} {threads : Thread n → Pc}
    (h : ConnectionPool.notifyAvailable (Function.update s.threads t e.next) e.available waiter
      = some threads) :
    tally w (s.commit t e threads).threads + w (s.threads t) = tally w s.threads + w e.next := by
  have hwoken : tally w (s.commit t e threads).threads
      = tally w (Function.update s.threads t e.next) := by
    refine tally_congr w _ fun i ↦ ?_
    rw [System.commit, hw.notifyOthers, hw.notifyAvailable h]
  rw [hwoken, tally_update]

theorem tally_wake [AddCommMonoid M] (hw : WakeInvariant w) {s : System n} {t : Thread n} {pc : Pc}
    (h : pc = (s.threads t).spurious ∨ pc = (s.threads t).expire s.clock) :
    tally w (s.goto t pc).threads = tally w s.threads := by
  refine tally_update_of_eq w s.threads ?_
  rcases h with rfl | rfl
  · exact hw.spurious _
  · exact hw.expire _ _

end WakeInvariant

private theorem wakeInvariant_held : WakeInvariant Pc.held where
  available pc := by cases pc <;> rfl
  shutdownDone pc := by cases pc <;> rfl
  cleaner pc := by cases pc <;> rfl
  expire now pc := by
    cases pc <;> first | rfl | (rw [Pc.expire]; split <;> rfl)

/-! ## Every reachable state

The counters are those of the tallies over all threads and handles. One step exchanges the weight of
one thread, as its section says. -/

section Invariant

variable {n : ℕ} {config : Config}

/-- **The balance of the counters.** -/
structure Balanced (config : Config) (s : System n) : Prop where
  total_eq : s.pool.total =
    s.pool.idle.length + s.pool.active + count Pc.isWarming s.threads
  total_le : s.pool.total ≤ config.maxSize
  waiting_eq : s.pool.waiting = count Pc.isWaiting s.threads
  created_eq : s.pool.created + count Pc.isCreating s.threads =
    s.pool.destroyed + s.pool.idle.length + s.pool.active
  active_eq : s.pool.active = s.handles.length + count Pc.isActive s.threads
  no_underflow : s.pool.underflow = false

/-- In a balanced state the counters cover what each thread holds. -/
theorem Balanced.covers {s : System n} (h : Balanced config s) (t : Thread n) :
    Covers config s.pool (s.threads t) where
  active := by
    rw [h.active_eq]
    exact (le_tally (fun pc ↦ pc.held.active) s.threads t).trans (Nat.le_add_left _ _)
  total := by
    rw [h.total_eq]
    exact Nat.add_le_add_left (le_tally (fun pc ↦ pc.held.warming) s.threads t) _
  waiting := by
    rw [h.waiting_eq]
    exact le_tally (fun pc ↦ pc.held.waiting) s.threads t
  cap := h.total_le

/-- One thread exchanges what it holds. -/
structure Exchange (s s' : System n) (x y : Held) : Prop where
  active : count Pc.isActive s'.threads + x.active = count Pc.isActive s.threads + y.active
  warming : count Pc.isWarming s'.threads + x.warming = count Pc.isWarming s.threads + y.warming
  waiting : count Pc.isWaiting s'.threads + x.waiting = count Pc.isWaiting s.threads + y.waiting
  creating : count Pc.isCreating s'.threads + x.creating =
    count Pc.isCreating s.threads + y.creating

theorem exchange_goto (s : System n) (t : Thread n) (pc : Pc) :
    Exchange s (s.goto t pc) (s.threads t).held pc.held where
  active := tally_update (fun pc ↦ pc.held.active) s.threads t pc
  warming := tally_update (fun pc ↦ pc.held.warming) s.threads t pc
  waiting := tally_update (fun pc ↦ pc.held.waiting) s.threads t pc
  creating := tally_update (fun pc ↦ pc.held.creating) s.threads t pc

theorem exchange_commit {s : System n} {t : Thread n} {e : Effect} {waiter : Option (Thread n)}
    {threads : Thread n → Pc}
    (h : notifyAvailable (Function.update s.threads t e.next) e.available waiter = some threads) :
    Exchange s (s.commit t e threads) (s.threads t).held e.next.held where
  active := (wakeInvariant_held.comp Held.active).tally_commit h
  warming := (wakeInvariant_held.comp Held.warming).tally_commit h
  waiting := (wakeInvariant_held.comp Held.waiting).tally_commit h
  creating := (wakeInvariant_held.comp Held.creating).tally_commit h

theorem balanced_commit {s : System n} (h : Balanced config s) {t : Thread n} {succeeds : Bool}
    {e : Effect} {waiter : Option (Thread n)} {threads : Thread n → Pc}
    (he : threadStep config t.isNone (s.env succeeds) s.pool (s.threads t) = some e)
    (hnotify : notifyAvailable (Function.update s.threads t e.next) e.available waiter
      = some threads) :
    Balanced config (s.commit t e threads) := by
  have hcounted := threadStep_counted (h.covers t) he
  have hexchange := exchange_commit hnotify
  have hpool : (s.commit t e threads).pool = e.pool := rfl
  have hhandles : (s.commit t e threads).handles.length
      = s.handles.length + e.lent.toList.length := List.length_append
  refine ⟨?_, hcounted.cap, ?_, ?_, ?_, hcounted.underflow.trans h.no_underflow⟩
  · have h1 := hcounted.total
    have h2 := hexchange.warming
    have h3 := h.total_eq
    rw [hpool]
    omega
  · have h1 := hcounted.waiting
    have h2 := hexchange.waiting
    have h3 := h.waiting_eq
    rw [hpool]
    omega
  · have h1 := hcounted.created
    have h2 := hexchange.creating
    have h3 := h.created_eq
    rw [hpool]
    omega
  · have h1 := hcounted.active
    have h2 := hexchange.active
    have h3 := h.active_eq
    rw [hpool, hhandles]
    omega

theorem balanced_goto {s : System n} (h : Balanced config s) {t : Thread n} {pc : Pc}
    (hheld : pc.held = (s.threads t).held) : Balanced config (s.goto t pc) := by
  obtain ⟨hactive, hwarming, hwaiting, hcreating⟩ := exchange_goto s t pc
  rw [hheld, Nat.add_right_cancel_iff] at hactive hwarming hwaiting hcreating
  refine ⟨?_, h.total_le, ?_, ?_, ?_, h.no_underflow⟩
  · rw [hwarming]
    exact h.total_eq
  · rw [hwaiting]
    exact h.waiting_eq
  · rw [hcreating]
    exact h.created_eq
  · rw [hactive]
    exact h.active_eq

theorem balanced_release {s : System n} (h : Balanced config s) {t : Fin n} {k : ℕ} {entry : Entry}
    (houtside : s.threads (some t) = .outside) (hentry : s.handles[k]? = some entry) :
    Balanced config
      ({ s with handles := s.handles.eraseIdx k }.goto (some t) (.releaseStamp entry)) := by
  let s' := s.goto (some t) (.releaseStamp entry)
  obtain ⟨hactive, hwarming, hwaiting, hcreating⟩ := exchange_goto s (some t) (.releaseStamp entry)
  rw [houtside] at hactive hwarming hwaiting hcreating
  have hwarming : count Pc.isWarming s'.threads = count Pc.isWarming s.threads := hwarming
  have hwaiting : count Pc.isWaiting s'.threads = count Pc.isWaiting s.threads := hwaiting
  have hcreating : count Pc.isCreating s'.threads = count Pc.isCreating s.threads := hcreating
  have hactive : count Pc.isActive s'.threads = count Pc.isActive s.threads + 1 := hactive
  obtain ⟨hk, -⟩ := List.getElem?_eq_some_iff.mp hentry
  have hlength := List.length_eraseIdx_add_one hk
  have hslots := h.active_eq
  refine ⟨?_, h.total_le, ?_, ?_, ?_, h.no_underflow⟩
  · exact h.total_eq.trans (congrArg _ hwarming.symm)
  · exact h.waiting_eq.trans hwaiting.symm
  · exact (congrArg _ hcreating).trans h.created_eq
  · change s.pool.active = (s.handles.eraseIdx k).length + count Pc.isActive s'.threads
    omega

theorem balanced_step {s s' : System n} {a : Action n} (h : Balanced config s)
    (hstep : s.step config a = some s') : Balanced config s' := by
  cases stepped_of_step hstep with
  | start _ t pc houtside hpc =>
    refine balanced_goto h ?_
    rw [houtside]
    rcases hpc with ⟨_, rfl⟩ | rfl | rfl <;> rfl
  | release t k entry houtside hentry => exact balanced_release h houtside hentry
  | thread t succeeds waiter e threads he hnotify => exact balanced_commit h he hnotify
  | wake _ t pc hpc =>
    refine balanced_goto h ?_
    rcases hpc with rfl | rfl
    · exact wakeInvariant_held.spurious _
    · exact wakeInvariant_held.expire _ _
  | tick nanoseconds => exact ⟨h.1, h.2, h.3, h.4, h.5, h.6⟩

theorem balanced_init (config : Config) (now : ℤ) (n : ℕ) :
    Balanced config (machine config now n).init := by
  have hzero : ∀ p : Pc → Bool, (∀ b, p (home b) = false) →
      count p (machine config now n).init.threads = 0 := by
    intro p hp
    refine tally_eq_zero _ _ fun t ↦ ?_
    rw [show (machine config now n).init.threads t = home t.isNone from rfl, hp]
    rfl
  refine ⟨?_, Nat.zero_le _, ?_, ?_, ?_, rfl⟩
  · rw [hzero _ fun b ↦ by cases b <;> rfl]
    rfl
  · rw [hzero _ fun b ↦ by cases b <;> rfl]
    rfl
  · rw [hzero _ fun b ↦ by cases b <;> rfl]
    rfl
  · rw [hzero _ fun b ↦ by cases b <;> rfl]
    rfl

theorem balanced_of_reachable {now : ℤ} {s : System n} (h : (machine config now n).Reachable s) :
    Balanced config s :=
  Machine.Leads.invariant h (balanced_init config now n) fun hs _ hstep ↦ balanced_step hs hstep

/-- **The counters of the pool are exact.** In every reachable state, for any number of threads and
whatever the factory and the connections do: `total` counts the idle, the active and the reserved
connections and respects `max_size`, `waiting` counts the threads inside the wait, every connection
that was counted as created and not as destroyed is idle or active, and no counter was ever
decremented at `0`. None of the constructor's checks is needed. -/
theorem counters_exact {now : ℤ} {s : System n} (h : (machine config now n).Reachable s) :
    s.pool.total = s.pool.idle.length + s.pool.active + count Pc.isWarming s.threads ∧
      s.pool.total ≤ config.maxSize ∧
      s.pool.waiting = count Pc.isWaiting s.threads ∧
      s.pool.created + count Pc.isCreating s.threads =
        s.pool.destroyed + s.pool.idle.length + s.pool.active ∧
      s.pool.underflow = false := by
  have hbalanced := balanced_of_reachable h
  exact ⟨hbalanced.total_eq, hbalanced.total_le, hbalanced.waiting_eq, hbalanced.created_eq,
    hbalanced.no_underflow⟩

end Invariant

/-- Room for one connection and two borrowers: the first has reserved the slot and is inside the
factory, the second is blocked. -/
def exhausted : List (Action 2) :=
  [.tryAcquireFor 0 1000, .step (some 0) true none, .tryAcquireFor 1 1000,
    .step (some 1) true none]

theorem counters_exact_exhausted :
    ∃ s, (machine { maxSize := 1 } 0 2).Reachable s ∧ s.pool.active = 1 ∧
      count Pc.isCreating s.threads = 1 ∧ s.pool.waiting = 1 ∧
      s.pool.total = s.pool.idle.length + s.pool.active + count Pc.isWarming s.threads ∧
      s.pool.total ≤ 1 ∧ s.pool.waiting = count Pc.isWaiting s.threads ∧
      s.pool.created + count Pc.isCreating s.threads =
        s.pool.destroyed + s.pool.idle.length + s.pool.active ∧
      s.pool.underflow = false := by
  obtain ⟨s, hs, hf⟩ := Machine.exists_reachable_of_run (M := machine { maxSize := 1 } 0 2)
    (fun s ↦ (s.pool.active, count Pc.isCreating s.threads, s.pool.waiting)) exhausted
    (b := (1, 1, 1)) (by decide +kernel)
  simp only [Prod.mk.injEq] at hf
  obtain ⟨hactive, hcreating, hwaiting⟩ := hf
  exact ⟨s, hs, hactive, hcreating, hwaiting, counters_exact hs⟩

end ConnectionPool

end FoundationComponents
