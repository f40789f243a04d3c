import FoundationComponents.Machine.Basic
import FoundationComponents.Reactor.Watchers

/-!
# Running and stopping a loop

`run` of `EpollReactor` and of `EventLoop` calls `runOnce` until the flag `stopping` is set, and
`runOnce` blocks in `epoll_wait` with no timeout. `stop` sets the flag and then writes to the
eventfd, which makes `epoll_wait` return; the loop drains the eventfd under the mutex, together with
what other calls have written to it. The two classes differ in one respect: `EpollReactor` clears
the flag when `run` is called.

The machine has one thread that executes `run`, again and again, and any number of other threads;
the callers are these and the callbacks of the loop. The accesses to the flag and to the eventfd are
single steps, as are the sections under the mutex.

Once the flag is set and every call of `stop` has written to the eventfd, the loop is not blocked: a
`runOnce` that was entered before has not drained the eventfd since, or it will look at the flag
again.
-/

namespace FoundationComponents

namespace Reactor

/-! ## The eventfd -/

/-- The largest count of an eventfd. -/
def maxWakeCount : ℕ := 0xfffffffffffffffe

namespace Table

variable {κ : Type*} (t : Table κ)

/-- `wake`. A write that would exceed the largest count fails and changes nothing. -/
def wake : Table κ :=
  { t with wakeCount := if t.wakeCount < maxWakeCount then t.wakeCount + 1 else t.wakeCount }

theorem wakeCount_wake_pos : 0 < t.wake.wakeCount := by
  rw [wake]
  dsimp only
  split
  · exact Nat.succ_pos _
  · rename_i hfull
    exact Nat.lt_of_lt_of_le (by decide) (Nat.not_lt.mp hfull)

theorem wakeCount_le_wake : t.wakeCount ≤ t.wake.wakeCount := by
  rw [wake]
  dsimp only
  split
  · exact Nat.le_succ _
  · exact Nat.le_refl _

end Table

namespace Loop

/-! ## The machine

Only the flag, the eventfd and the table are shared. The accesses to the flag and to the eventfd are
not guarded by the mutex, so each of them is a step of its own. -/

/-- The calls on the watcher table. -/
inductive Op (κ : Type*)
  | add (fd : ℤ) (events : UInt32) (callback : Option κ)
  | modify (fd : ℤ) (events : UInt32)
  | remove (fd : ℤ)
  deriving Repr, DecidableEq

/-- Where the thread that executes `run` is. -/
inductive Position (κ : Type*)
  /-- Before `run`, or after it has returned or thrown. -/
  | outside
  /-- In front of `stopping.store(false)`. -/
  | resetting
  /-- In front of `stopping.load()`. -/
  | checking
  /-- The flag was false; `runOnce` is about to be called. -/
  | entering
  /-- In `epoll_wait`. -/
  | waiting
  /-- `epoll_wait` has returned; the callbacks are to be copied. -/
  | collecting (ready : List (ℤ × UInt32))
  /-- The callbacks that have not been run, and whether one is running. -/
  | dispatching (pending : List (Dispatch κ)) (running : Bool)
  deriving Repr, DecidableEq

/-- Where a caller is. A call of `stop` knows whether `run` was being executed when it started. -/
inductive Pc
  | idle
  | storing (sinceRun : Bool)
  /-- In `stop`, between the store and the wake. -/
  | stopWaking (sinceRun : Bool)
  /-- In another call, in front of the wake. -/
  | waking
  deriving Repr, DecidableEq

/-- `run` is called: the calls of `stop` in progress started before it. -/
def Pc.forget : Pc → Pc
  | .storing _ => .storing false
  | .stopWaking _ => .stopWaking false
  | pc => pc

/-- The fields of `State`, the loop, and the callers: `n` threads and, as `none`, the callbacks of
the loop. Two fields only record: whether a call of `stop` that started after `run` was called has
completed, and how often `runOnce` was entered with the flag set. -/
structure System (κ : Type*) (n : ℕ) where
  table : Table κ
  stopping : Bool
  position : Position κ
  callers : Option (Fin n) → Pc
  stopped : Bool
  late : ℕ

inductive Action (κ : Type*) (n : ℕ)
  /-- `run` is called. -/
  | run
  | reset
  | check
  | enter
  /-- `epoll_wait` returns. -/
  | ready (events : List (ℤ × UInt32))
  | collect
  | callback
  | finish
  /-- `runOnce` returns. -/
  | returnOnce
  /-- `epoll_wait` fails, or a callback throws. -/
  | throw
  /-- `stop` is called. -/
  | stop (caller : Option (Fin n))
  | store (caller : Option (Fin n))
  | wake (caller : Option (Fin n))
  | call (caller : Option (Fin n)) (op : Op κ) (fault : Option Errno)
  /-- `EventLoop::wake` is called. -/
  | callWake (caller : Option (Fin n))
  deriving Repr, DecidableEq

section Step

variable {κ : Type*} {n : ℕ} (kind : Kind)

/-- A call on the table, up to the release of the mutex, and whether a wake follows. -/
def locked (t : Table κ) (fault : Option Errno) : Op κ → Bool × Table κ
  | .add fd events callback =>
      let r := t.add kind fault fd events callback
      (kind = .eventLoop && r.1.isOk, { r.2 with wakeCount := t.wakeCount })
  | .modify fd events =>
      let r := t.modify kind fault fd events
      (kind = .eventLoop && r.1.isOk, { r.2 with wakeCount := t.wakeCount })
  | .remove fd =>
      let r := t.remove kind fault fd
      (kind = .eventLoop && Table.returnedTrue r.1, { r.2 with wakeCount := t.wakeCount })

namespace System

variable (s : System κ n)

/-- Callbacks call while they run, and threads call at any time; one call after the other. -/
def mayCall (caller : Option (Fin n)) : Bool :=
  s.callers caller == .idle &&
    match caller, s.position with
    | some _, _ => true
    | none, .dispatching _ true => true
    | none, _ => false

def setCaller (caller : Option (Fin n)) (pc : Pc) : System κ n :=
  { s with callers := Function.update s.callers caller pc }

/-- The thread of the loop. -/
def stepLoop : Action κ n → Option (System κ n)
  | .run =>
      match s.position with
      | .outside =>
          some
            { s with
              position := match kind with
                | .epollReactor => .resetting
                | .eventLoop => .checking
              callers := fun caller ↦ (s.callers caller).forget
              stopped := false }
      | _ => none
  | .reset =>
      match s.position with
      | .resetting => some { s with stopping := false, position := .checking }
      | _ => none
  | .check =>
      match s.position with
      | .checking => some { s with position := if s.stopping then .outside else .entering }
      | _ => none
  | .enter =>
      match s.position with
      | .entering => some { s with position := .waiting, late := s.late + s.stopping.toNat }
      | _ => none
  | .ready events =>
      match s.position with
      | .waiting =>
          -- it returns some event; that of the eventfd only while its count is not 0
          if events ≠ [] ∧
              ((∃ event ∈ events, event.1 = s.table.wakeFd) → 0 < s.table.wakeCount) then
            some { s with position := .collecting events }
          else none
      | _ => none
  | .collect =>
      match s.position with
      | .collecting events =>
          some
            { s with
              table := (s.table.collect events).1
              position := .dispatching (s.table.collect events).2 false }
      | _ => none
  | .callback =>
      match s.position with
      | .dispatching (_ :: pending) false => some { s with position := .dispatching pending true }
      | _ => none
  | .finish =>
      match s.position, s.callers none with
      | .dispatching pending true, .idle => some { s with position := .dispatching pending false }
      | _, _ => none
  | .returnOnce =>
      match s.position with
      | .dispatching [] false => some { s with position := .checking }
      | _ => none
  | .throw =>
      match s.position, s.callers none with
      | .waiting, _ => some { s with position := .outside }
      | .dispatching _ true, .idle => some { s with position := .outside }
      | _, _ => none
  | _ => none

/-- `run` is being executed. -/
def running : Bool :=
  match s.position with
  | .outside => false
  | _ => true

/-- A caller. -/
def stepCaller : Action κ n → Option (System κ n)
  | .stop caller =>
      if s.mayCall caller then some (s.setCaller caller (.storing s.running)) else none
  | .store caller =>
      match s.callers caller with
      | .storing sinceRun =>
          some { s.setCaller caller (.stopWaking sinceRun) with stopping := true }
      | _ => none
  | .wake caller =>
      match s.callers caller with
      | .stopWaking sinceRun =>
          some
            { s.setCaller caller .idle with
              table := s.table.wake
              stopped := s.stopped || sinceRun }
      | .waking => some { s.setCaller caller .idle with table := s.table.wake }
      | _ => none
  | .call caller op fault =>
      if s.mayCall caller then
        let r := locked kind s.table fault op
        some { s.setCaller caller (if r.1 then .waking else .idle) with table := r.2 }
      else none
  | .callWake caller =>
      if kind = .eventLoop ∧ s.mayCall caller then some (s.setCaller caller .waking) else none
  | _ => none

def step (a : Action κ n) : Option (System κ n) :=
  match a with
  | .stop _ | .store _ | .wake _ | .call _ _ _ | .callWake _ => s.stepCaller kind a
  | _ => s.stepLoop kind a

end System

end Step

/-- A new reactor of the given kind, and `n` threads besides that of the loop. -/
def machine (κ : Type*) (kind : Kind) (wakeFd : ℤ) (n : ℕ) : Machine (System κ n) (Action κ n) where
  init := ⟨.fresh κ wakeFd, false, .outside, fun _ ↦ .idle, false, 0⟩
  step s := s.step kind

/-! ## What a step does

The invariants are about the flag, the count of the eventfd and the position of the loop. What a
step can do to these three is said once, and both invariants are derived from it. -/

section Change

variable {κ : Type*} {n : ℕ} {kind : Kind} {s s' : System κ n} {a : Action κ n}

/-- What a step does to the flag, the eventfd and the position of the loop. -/
inductive Change (kind : Kind) (s : System κ n) (a : Action κ n) : System κ n → Prop
  /-- The loop goes where it neither sets out to wait nor waits; the eventfd may be drained. -/
  | move {position : Position κ} (table : Table κ) (not_resetting : position ≠ .resetting)
      (not_entering : position ≠ .entering) (not_waiting : position ≠ .waiting) :
      Change kind s a { s with position := position, table := table }
  | run (position_eq : s.position = .outside) :
      Change kind s a
        { s with
          position := match kind with
            | .epollReactor => .resetting
            | .eventLoop => .checking
          callers := fun caller ↦ (s.callers caller).forget
          stopped := false }
  | reset (position_eq : s.position = .resetting) :
      Change kind s a { s with stopping := false, position := .checking }
  | enter (stopping_eq : s.stopping = false) : Change kind s a { s with position := .entering }
  | wait (position_eq : s.position = .entering) :
      Change kind s a { s with position := .waiting, late := s.late + s.stopping.toNat }
  | caller {caller : Option (Fin n)} {pc : Pc} (table : Table κ)
      (not_before : ∀ b, s.callers caller ≠ .stopWaking b) (not_after : ∀ b, pc ≠ .stopWaking b)
      (wakeCount_le : s.table.wakeCount ≤ table.wakeCount) :
      Change kind s a { s.setCaller caller pc with table := table }
  | store {caller : Option (Fin n)} {sinceRun : Bool} (action_eq : a = .store caller)
      (caller_eq : s.callers caller = .storing sinceRun) :
      Change kind s a { s.setCaller caller (.stopWaking sinceRun) with stopping := true }
  | wake {caller : Option (Fin n)} {sinceRun : Bool}
      (caller_eq : s.callers caller = .stopWaking sinceRun) :
      Change kind s a
        { s.setCaller caller .idle with
          table := s.table.wake
          stopped := s.stopped || sinceRun }

theorem wakeCount_locked (t : Table κ) (fault : Option Errno) (op : Op κ) :
    (locked kind t fault op).2.wakeCount = t.wakeCount := by
  cases op <;> rfl

theorem idle_of_mayCall {caller : Option (Fin n)} (h : s.mayCall caller = true) :
    s.callers caller = .idle := by
  simp only [System.mayCall, Bool.and_eq_true, beq_iff_eq] at h
  exact h.1

theorem change_of_stepLoop (h : s.stepLoop kind a = some s') : Change kind s a s' := by
  cases a with
  | run =>
    simp only [System.stepLoop] at h
    split at h
    · rename_i hposition
      obtain rfl := Option.some.inj h
      exact .run hposition
    · cases h
  | reset =>
    simp only [System.stepLoop] at h
    split at h
    · rename_i hposition
      obtain rfl := Option.some.inj h
      exact .reset hposition
    · cases h
  | check =>
    simp only [System.stepLoop] at h
    split at h
    · obtain rfl := Option.some.inj h
      split
      · exact .move s.table nofun nofun nofun
      · rename_i hstopping
        exact .enter (Bool.not_eq_true _ ▸ hstopping)
    · cases h
  | enter =>
    simp only [System.stepLoop] at h
    split at h
    · rename_i hposition
      obtain rfl := Option.some.inj h
      exact .wait hposition
    · cases h
  | ready events =>
    simp only [System.stepLoop] at h
    split at h
    · split at h
      · obtain rfl := Option.some.inj h
        exact .move s.table nofun nofun nofun
      · cases h
    · cases h
  | collect =>
    simp only [System.stepLoop] at h
    split at h
    · obtain rfl := Option.some.inj h
      exact .move _ nofun nofun nofun
    · cases h
  | callback =>
    simp only [System.stepLoop] at h
    split at h
    · obtain rfl := Option.some.inj h
      exact .move s.table nofun nofun nofun
    · cases h
  | finish =>
    simp only [System.stepLoop] at h
    split at h
    · obtain rfl := Option.some.inj h
      exact .move s.table nofun nofun nofun
    · cases h
  | returnOnce =>
    simp only [System.stepLoop] at h
    split at h
    · obtain rfl := Option.some.inj h
      exact .move s.table nofun nofun nofun
    · cases h
  | throw =>
    simp only [System.stepLoop] at h
    split at h
    · obtain rfl := Option.some.inj h
      exact .move s.table nofun nofun nofun
    · obtain rfl := Option.some.inj h
      exact .move s.table nofun nofun nofun
    · cases h
  | _ => cases h

theorem change_of_stepCaller (h : s.stepCaller kind a = some s') : Change kind s a s' := by
  cases a with
  | stop caller =>
    simp only [System.stepCaller] at h
    split at h
    · rename_i hcall
      obtain rfl := Option.some.inj h
      exact .caller s.table (by rw [idle_of_mayCall hcall]; exact nofun) nofun
        (Nat.le_refl _)
    · cases h
  | store caller =>
    simp only [System.stepCaller] at h
    split at h
    · rename_i sinceRun hcaller
      obtain rfl := Option.some.inj h
      exact .store rfl hcaller
    · cases h
  | wake caller =>
    simp only [System.stepCaller] at h
    split at h
    · rename_i sinceRun hcaller
      obtain rfl := Option.some.inj h
      exact .wake hcaller
    · rename_i hcaller
      obtain rfl := Option.some.inj h
      exact .caller _ (by rw [hcaller]; exact nofun) nofun s.table.wakeCount_le_wake
    · cases h
  | call caller op fault =>
    simp only [System.stepCaller] at h
    split at h
    · rename_i hcall
      obtain rfl := Option.some.inj h
      refine .caller _ (by rw [idle_of_mayCall hcall]; exact nofun) ?_
        (Nat.le_of_eq (wakeCount_locked s.table fault op).symm)
      split <;> exact nofun
    · cases h
  | callWake caller =>
    simp only [System.stepCaller] at h
    split at h
    · rename_i hcall
      obtain rfl := Option.some.inj h
      exact .caller s.table (by rw [idle_of_mayCall hcall.2]; exact nofun) nofun
        (Nat.le_refl _)
    · cases h
  | _ => cases h

theorem change_of_step (h : s.step kind a = some s') : Change kind s a s' := by
  cases a <;> first | exact change_of_stepCaller h | exact change_of_stepLoop h

end Change

/-! ## The loop is not blocked

The wake of a `stop` comes after its store and may be drained by a loop that was on its way out of
`epoll_wait`. That loop looks at the flag before it waits again, so there is at most one late
entry. -/

section Armed

variable {κ : Type*} {n : ℕ} {kind : Kind} {wakeFd : ℤ} {s s' : System κ n} {a : Action κ n}

/-- A call of `stop` is between the store and the wake. -/
def System.StopWaking (s : System κ n) : Prop := ∃ caller b, s.callers caller = .stopWaking b

/-- If the flag is set while the loop sets out to wait or waits, the eventfd has been written to, or
a call of `stop` is about to do so. -/
def Armed (s : System κ n) : Prop :=
  s.stopping = true → s.position = .entering ∨ s.position = .waiting →
    0 < s.table.wakeCount ∨ s.StopWaking

theorem System.StopWaking.setCaller (h : s.StopWaking) {caller : Option (Fin n)}
    (hcaller : ∀ b, s.callers caller ≠ .stopWaking b) (pc : Pc) :
    (s.setCaller caller pc).StopWaking := by
  obtain ⟨other, b, hother⟩ := h
  have hne : other ≠ caller := by
    rintro rfl
    exact hcaller b hother
  refine ⟨other, b, ?_⟩
  rw [System.setCaller]
  dsimp only
  rw [Function.update_of_ne hne, hother]

theorem armed_step (h : Armed s) (hstep : s.step kind a = some s') : Armed s' := by
  cases change_of_step hstep with
  | move table not_resetting not_entering not_waiting =>
    rintro - (hentering | hwaiting)
    · exact absurd hentering not_entering
    · exact absurd hwaiting not_waiting
  | run position_eq =>
    -- the loop looks at the flag before it waits
    rintro - hposition
    cases kind <;> rcases hposition with hentering | hwaiting <;> contradiction
  | reset position_eq => exact nofun
  | enter stopping_eq =>
    intro hstopping
    exact absurd (stopping_eq.symm.trans hstopping) Bool.false_ne_true
  | wait position_eq => exact fun hstopping _ ↦ h hstopping (.inl position_eq)
  | caller table not_before not_after wakeCount_le =>
    intro hstopping hposition
    rcases h hstopping hposition with hpos | hwaking
    · exact .inl (Nat.lt_of_lt_of_le hpos wakeCount_le)
    · exact .inr (hwaking.setCaller not_before _)
  | store action_eq caller_eq => exact fun _ _ ↦ .inr ⟨_, _, Function.update_self ..⟩
  | wake caller_eq => exact fun _ _ ↦ .inl s.table.wakeCount_wake_pos

theorem armed_of_reachable (h : (machine κ kind wakeFd n).Reachable s) : Armed s :=
  Machine.Leads.invariant h nofun fun hs _ hstep ↦ armed_step hs hstep

/-- `runOnce` is entered at most once with the flag set, and only if the flag was set after the loop
had looked at it. -/
structure AtMostOneLate (s : System κ n) : Prop where
  late_le : s.late ≤ 1
  late_eq : s.stopping = false ∨ s.position = .entering → s.late = 0

/-- The flag of an `EventLoop` is never cleared. -/
theorem atMostOneLate_step (h : AtMostOneLate s) (hrun : s.position ≠ .resetting)
    (hstep : s.step .eventLoop a = some s') :
    AtMostOneLate s' ∧ s'.position ≠ .resetting := by
  cases change_of_step hstep with
  | move table not_resetting not_entering not_waiting =>
    refine ⟨⟨h.late_le, ?_⟩, not_resetting⟩
    rintro (hstopping | hentering)
    · exact h.late_eq (.inl hstopping)
    · exact absurd hentering not_entering
  | run position_eq =>
    refine ⟨⟨h.late_le, ?_⟩, nofun⟩
    rintro (hstopping | hentering)
    · exact h.late_eq (.inl hstopping)
    · cases hentering
  | reset position_eq => exact absurd position_eq hrun
  | enter stopping_eq => exact ⟨⟨h.late_le, fun _ ↦ h.late_eq (.inl stopping_eq)⟩, nofun⟩
  | wait position_eq =>
    -- the only step that counts: the loop was about to enter, so nothing has been counted before
    have hlate := h.late_eq (.inr position_eq)
    refine ⟨⟨?_, ?_⟩, nofun⟩
    · dsimp only
      rw [hlate, Nat.zero_add]
      exact Bool.toNat_le _
    · rintro (hstopping | hentering)
      · dsimp only at hstopping ⊢
        rw [hlate, hstopping]
        rfl
      · cases hentering
  | caller table not_before not_after wakeCount_le => exact ⟨⟨h.late_le, h.late_eq⟩, hrun⟩
  | store action_eq caller_eq =>
    refine ⟨⟨h.late_le, ?_⟩, hrun⟩
    rintro (hstopping | hentering)
    · cases hstopping
    · exact h.late_eq (.inr hentering)
  | wake caller_eq => exact ⟨⟨h.late_le, h.late_eq⟩, hrun⟩

theorem atMostOneLate_of_reachable (h : (machine κ .eventLoop wakeFd n).Reachable s) :
    AtMostOneLate s ∧ s.position ≠ .resetting := by
  have hinit : (machine κ .eventLoop wakeFd n).init.position ≠ .resetting := nofun
  refine Machine.Leads.invariant (I := fun s ↦ AtMostOneLate s ∧ s.position ≠ .resetting) h
    ⟨⟨Nat.zero_le 1, fun _ ↦ rfl⟩, hinit⟩ fun hs _ hstep ↦ ?_
  exact atMostOneLate_step hs.1 hs.2 hstep

/-- **A worker loop never misses a stop.** Whatever the callers and the callbacks do: if the flag is
set and no call of `stop` is between its store and its wake, the loop is not blocked; and `runOnce`
is entered at most once with the flag set, namely if the loop was about to enter it. -/
theorem not_blocked_of_stopping (h : (machine κ .eventLoop wakeFd n).Reachable s) :
    (s.stopping = true → ¬s.StopWaking → ¬(s.position = .waiting ∧ s.table.wakeCount = 0)) ∧
      s.late ≤ 1 ∧ (s.stopping = false ∨ s.position = .entering → s.late = 0) := by
  obtain ⟨hlate, -⟩ := atMostOneLate_of_reachable h
  refine ⟨?_, hlate.late_le, hlate.late_eq⟩
  rintro hstopping hnone ⟨hwaiting, hzero⟩
  rcases armed_of_reachable h hstopping (.inr hwaiting) with hpos | hwaking
  · exact absurd hzero (Nat.pos_iff_ne_zero.mp hpos)
  · exact hnone hwaking

end Armed

/-- The flag is set when the loop has just looked at it, and the wake of an `add` is drained before
that of the `stop` arrives. -/
theorem not_blocked_of_stopping_drained :
    ∃ s : System ℕ 2, (machine ℕ .eventLoop 3 2).Reachable s ∧
      (s.stopping = true ∧ s.position = .waiting ∧ s.late = 1) ∧ s.table.wakeCount ≠ 0 := by
  obtain ⟨s, hs, hfinal⟩ := Machine.exists_reachable_of_run (M := machine ℕ .eventLoop 3 2)
    (fun s ↦ ((s.stopping, s.position, s.late), s.callers none, s.callers (some 0),
      s.callers (some 1)))
    [.run, .check, .enter, .call (some 0) (.add 7 1 (some 1)) none, .wake (some 0),
      .ready [(3, 1)], .collect, .returnOnce, .check, .stop (some 1), .store (some 1), .enter,
      .wake (some 1)]
    (b := ((true, .waiting, 1), .idle, .idle, .idle)) (by decide +kernel)
  simp only [Prod.mk.injEq] at hfinal
  obtain ⟨⟨hstopping, hwaiting, hlate⟩, hidle, hidle₀, hidle₁⟩ := hfinal
  have hnone : ¬s.StopWaking := by
    rintro ⟨caller, b, hwaking⟩
    match caller with
    | none =>
      rw [hidle] at hwaking
      cases hwaking
    | some 0 =>
      rw [hidle₀] at hwaking
      cases hwaking
    | some 1 =>
      rw [hidle₁] at hwaking
      cases hwaking
  refine ⟨s, hs, ⟨hstopping, hwaiting, hlate⟩, fun hzero ↦ ?_⟩
  exact (not_blocked_of_stopping hs).1 hstopping hnone ⟨hwaiting, hzero⟩

end Loop

end Reactor

end FoundationComponents
