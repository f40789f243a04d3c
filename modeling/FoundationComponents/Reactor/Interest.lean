import FoundationComponents.Machine.Basic
import FoundationComponents.Reactor.Watchers

/-!
# The interest set

The watcher table and the interest set of the kernel are changed one after the other, so the calls
are taken apart here. A thread that has the mutex first looks at the table, where `add` already
inserts its watcher; then it calls `epoll_ctl`; and then it completes or takes back what it has
done and releases the mutex. Descriptors are closed at any time between these sections, and their
numbers come into use again.

What a call has to leave alone is compared with the table as it would be without the call. This
copy is taken when the call starts, and only closed descriptors change it.
-/

namespace FoundationComponents

namespace Reactor

variable {κ : Type*}

/-- A call of the three operations. -/
inductive Call (κ : Type*)
  | add (fd : ℤ) (events : UInt32) (callback : Option κ)
  | modify (fd : ℤ) (events : UInt32)
  | remove (fd : ℤ)
  deriving Repr, DecidableEq

namespace Call

def fd : Call κ → ℤ
  | .add fd _ _ => fd
  | .modify fd _ => fd
  | .remove fd => fd

/-- The mask that the call registers. -/
def mask : Call κ → Option UInt32
  | .add _ events _ => some (toNativeEvents events)
  | .modify _ events => some (toNativeEvents events)
  | .remove _ => none

def isRemove : Call κ → Bool
  | .remove _ => true
  | _ => false

end Call

namespace Table

variable (kind : Kind) (t : Table κ)

/-- The section up to `epoll_ctl`. The call may end here, with a result or an exception. -/
def enter : Call κ → Except (Except Exception Bool) (Table κ)
  | .add fd events callback =>
      if fd < 0 then .error (.error (.invalidArgument (kind.name ++ " cannot add a negative fd")))
      else match callback with
        | none => .error (.error (.invalidArgument (kind.name ++ " callback cannot be empty")))
        | some callback =>
            if fd = t.wakeFd then
              .error (.error (.invalidArgument (kind.name ++ " wake fd is reserved")))
            else if (t.watchers fd).isSome then
              .error (.error (.invalidArgument (kind.name ++ " fd is already registered")))
            else .ok { t with watchers := Function.update t.watchers fd (some ⟨events, callback⟩) }
  | .modify fd _ =>
      match t.watchers fd with
      | none => .error (.error (.invalidArgument (kind.name ++ " fd is not registered")))
      | some _ => .ok t
  | .remove fd =>
      match t.watchers fd with
      | none => .error (.ok false)
      | some _ => .ok t

/-- `epoll_ctl`. -/
def control (fault : Option Errno) : Call κ → Except Errno (Table κ)
  | .add fd events _ =>
      (t.kernel.add fault fd (toNativeEvents events)).map fun kernel ↦ { t with kernel := kernel }
  | .modify fd events =>
      (t.kernel.modify fault fd (toNativeEvents events)).map fun kernel ↦
        { t with kernel := kernel }
  | .remove fd => (t.kernel.delete fault fd).map fun kernel ↦ { t with kernel := kernel }

/-- The section after `epoll_ctl`, which has succeeded or has failed with an `errno`. -/
def leave (returned : Option Errno) : Call κ → Except Exception Bool × Table κ
  | .add fd _ _ =>
      match returned with
      | some errno =>
          (.error (.systemError "epoll_ctl add" errno),
            { t with watchers := Function.update t.watchers fd none })
      | none => (.ok true, t)
  | .modify fd events =>
      match returned with
      | some errno => (.error (.systemError "epoll_ctl modify" errno), t)
      | none =>
          (.ok true,
            { t with
              watchers := Function.update t.watchers fd
                ((t.watchers fd).map fun watcher ↦ { watcher with events := events }) })
  | .remove fd =>
      let erased := { t with watchers := Function.update t.watchers fd none }
      match returned with
      | some errno =>
          if errno ≠ ENOENT ∧ errno ≠ EBADF then
            (.error (.systemError "epoll_ctl remove" errno), erased)
          else (.ok true, erased)
      | none => (.ok true, erased)

/-- A call without anything in between. -/
def perform (fault : Option Errno) (call : Call κ) : Except Exception Bool × Table κ :=
  match t.enter kind call with
  | .error result => (result, t)
  | .ok entered =>
      let left := match entered.control fault call with
        | .ok controlled => controlled.leave none call
        | .error errno => entered.leave (some errno) call
      match left.1 with
      | .ok _ => (left.1, wakeIfLoop kind left.2)
      | .error _ => left

section Sections

variable {kind t}

/-- The rollback of `add` restores the table. -/
theorem rollback_eq {fd : ℤ} (h : t.watchers fd = none) (watcher : Option (Watcher κ)) :
    Function.update (Function.update t.watchers fd watcher) fd none = t.watchers := by
  rw [Function.update_idem, ← h, Function.update_eq_self]

theorem perform_add (fault : Option Errno) (fd : ℤ) (events : UInt32) (callback : Option κ) :
    t.perform kind fault (.add fd events callback) =
      ((t.add kind fault fd events callback).1.map fun _ ↦ true,
        (t.add kind fault fd events callback).2) := by
  by_cases hnegative : fd < 0
  · simp only [perform, enter, add, if_pos hnegative]
    rfl
  cases callback with
  | none =>
    simp only [perform, enter, add, if_neg hnegative]
    rfl
  | some callback =>
    by_cases hwake : fd = t.wakeFd
    · simp only [perform, enter, add, if_neg hnegative, if_pos hwake]
      rfl
    cases hwatcher : t.watchers fd with
    | some watcher =>
      simp only [perform, enter, add, if_neg hnegative, if_neg hwake, hwatcher, Option.isSome_some,
        if_pos]
      rfl
    | none =>
      simp only [perform, enter, add, if_neg hnegative, if_neg hwake, hwatcher, Option.isSome_none,
        Bool.false_eq_true, if_false, control]
      cases t.kernel.add fault fd (toNativeEvents events) with
      | error errno =>
        dsimp only [Except.map, leave]
        rw [rollback_eq hwatcher]
      | ok kernel => rfl

theorem perform_modify (fault : Option Errno) (fd : ℤ) (events : UInt32) :
    t.perform kind fault (.modify fd events) =
      ((t.modify kind fault fd events).1.map fun _ ↦ true,
        (t.modify kind fault fd events).2) := by
  rw [perform, enter, modify]
  cases hwatcher : t.watchers fd with
  | none => rfl
  | some watcher =>
    dsimp only [control]
    cases t.kernel.modify fault fd (toNativeEvents events) with
    | error errno => rfl
    | ok kernel =>
      dsimp only [Except.map, leave]
      rw [hwatcher]
      rfl

theorem perform_remove (fault : Option Errno) (fd : ℤ) :
    t.perform kind fault (.remove fd) = t.remove kind fault fd := by
  rw [perform, enter, remove]
  cases t.watchers fd with
  | none => rfl
  | some watcher =>
    dsimp only [control]
    cases t.kernel.delete fault fd with
    | error errno =>
      dsimp only [Except.map, leave]
      by_cases herrno : errno ≠ ENOENT ∧ errno ≠ EBADF
      · simp only [if_pos herrno]
      · simp only [if_neg herrno]
    | ok kernel => rfl

end Sections

end Table

/-! ## The machine

A call is three sections, with any number of closings in between. Both conditions on a run are
conditions on these closings, and on what `EPOLL_CTL_DEL` may report. -/

/-- The thread that has the mutex: its call, what `epoll_ctl` has returned, once it has, and the
table as it would be without the call. -/
structure Held (κ : Type*) where
  call : Call κ
  returned : Option (Option Errno)
  before : Table κ

/-- The table, and the thread that has the mutex. -/
structure Shared (κ : Type*) where
  table : Table κ
  held : Option (Held κ)

inductive Section (κ : Type*)
  /-- A thread locks the mutex and looks at the table. -/
  | enter (call : Call κ)
  | control (fault : Option Errno)
  | leave
  /-- A descriptor is closed; its number may come into use again. -/
  | close (fd : ℤ)
  deriving Repr, DecidableEq

namespace Shared

variable (s : Shared κ)

def step (kind : Kind) : Section κ → Option (Shared κ)
  | .enter call =>
      match s.held with
      | some _ => none
      | none =>
          match s.table.enter kind call with
          | .error _ => some s
          | .ok table => some ⟨table, some ⟨call, none, s.table⟩⟩
  | .control fault =>
      match s.held with
      | some ⟨call, none, before⟩ =>
          match s.table.control fault call with
          | .error errno => some ⟨s.table, some ⟨call, some (some errno), before⟩⟩
          | .ok table => some ⟨table, some ⟨call, some none, before⟩⟩
      | _ => none
  | .leave =>
      match s.held with
      | some ⟨call, some returned, _⟩ => some ⟨(s.table.leave returned call).2, none⟩
      | _ => none
  | .close fd =>
      some ⟨s.table.close fd, s.held.map fun h ↦ { h with before := h.before.close fd }⟩

/-- The wake-up descriptor is not closed, and `EPOLL_CTL_DEL` fails for unregistered descriptors
only. -/
def Behaves : Section κ → Prop
  | .close fd => fd ≠ s.table.wakeFd
  | .control fault => (s.held.any fun h ↦ h.call.isRemove) = true → fault = none
  | _ => True

instance (a : Section κ) : Decidable (s.Behaves a) := by
  cases a <;> simp only [Behaves] <;> infer_instance

/-- No descriptor is closed while it is registered. -/
def ClosesUnregistered : Section κ → Prop
  | .close fd => s.table.kernel fd = none
  | _ => True

instance (a : Section κ) : Decidable (s.ClosesUnregistered a) := by
  cases a <;> simp only [ClosesUnregistered] <;> infer_instance

end Shared

/-- The two tables, shared by any number of threads. -/
def sectionMachine (κ : Type*) (kind : Kind) (wakeFd : ℤ) : Machine (Shared κ) (Section κ) where
  init := ⟨.fresh κ wakeFd, none⟩
  step s := s.step kind

/-! ## The invariant

Outside a call the table and the interest set agree up to closed descriptors. During a call they
agree with the table as it would be without it, but for the one descriptor that the call is
about. -/

/-- What is registered with the kernel is watched, with the same events. -/
structure Agrees (t : Table κ) : Prop where
  watched : ∀ {fd mask}, fd ≠ t.wakeFd → t.kernel fd = some mask →
    ∃ watcher, t.watchers fd = some watcher ∧ mask = toNativeEvents watcher.events
  wake_registered : t.kernel t.wakeFd = some EPOLLIN
  wake_unwatched : t.watchers t.wakeFd = none

/-- What is watched is registered. -/
def Covered (t : Table κ) : Prop :=
  ∀ fd ≠ t.wakeFd, (t.watchers fd).isSome → (t.kernel fd).isSome

/-- What a call has done to the watchers before it leaves. -/
def Call.Watches (before : Table κ) (watchers : ℤ → Option (Watcher κ)) : Call κ → Prop
  | .add fd events callback =>
      before.watchers fd = none ∧ ∃ watcher, callback = some watcher ∧
        watchers = Function.update before.watchers fd (some ⟨events, watcher⟩)
  | .modify fd _ => (before.watchers fd).isSome ∧ watchers = before.watchers
  | .remove fd => (before.watchers fd).isSome ∧ watchers = before.watchers

/-- A call in progress. Only its own descriptor differs from the table without the call. -/
structure Progress (h : Held κ) (t : Table κ) : Prop where
  agrees : Agrees h.before
  wakeFd : t.wakeFd = h.before.wakeFd
  wakeCount : t.wakeCount = h.before.wakeCount
  own : h.call.fd ≠ t.wakeFd
  watches : h.call.Watches h.before t.watchers
  others : ∀ fd ≠ h.call.fd, t.kernel fd = h.before.kernel fd
  /-- As long as `epoll_ctl` has not succeeded, it has changed nothing. -/
  unchanged : h.returned ≠ some none → t.kernel = h.before.kernel
  /-- Afterwards the descriptor has its new mask, unless it has been closed. -/
  changed : h.returned = some none → t.kernel h.call.fd = none ∨
    ∃ mask, h.call.mask = some mask ∧ t.kernel h.call.fd = some mask
  removed : h.returned ≠ none → h.call.isRemove = true → t.kernel h.call.fd = none

/-- **The invariant.** -/
def Shared.Inv (s : Shared κ) : Prop :=
  match s.held with
  | none => Agrees s.table
  | some h => Progress h s.table

section Kernel

variable {kernel kernel' : Kernel} {fault : Option Errno} {fd : ℤ} {mask : UInt32}

theorem Kernel.add_eq_ok (h : kernel.add fault fd mask = .ok kernel') :
    kernel' = Function.update kernel fd (some mask) := by
  simp only [Kernel.add] at h
  split at h
  · cases h
  · split at h
    · cases h
    · exact (Except.ok.inj h).symm

theorem Kernel.modify_eq_ok (h : kernel.modify fault fd mask = .ok kernel') :
    kernel' = Function.update kernel fd (some mask) := by
  simp only [Kernel.modify] at h
  split at h
  · cases h
  · split at h
    · exact (Except.ok.inj h).symm
    · cases h

theorem Kernel.delete_eq_ok (h : kernel.delete fault fd = .ok kernel') :
    kernel' = Function.update kernel fd none := by
  simp only [Kernel.delete] at h
  split at h
  · cases h
  · split at h
    · exact (Except.ok.inj h).symm
    · cases h

theorem Kernel.delete_eq_error {errno : Errno} (h : kernel.delete none fd = .error errno) :
    kernel fd = none := by
  simp only [Kernel.delete] at h
  split at h
  · cases h
  · rename_i hnone
    rwa [Bool.not_eq_true, Option.isSome_eq_false_iff, Option.isNone_iff_eq_none] at hnone

private theorem exists_of_map_eq_ok {ε α β : Type*} {f : α → β} {x : Except ε α} {b : β}
    (h : x.map f = .ok b) : ∃ a, x = .ok a ∧ f a = b := by
  cases x with
  | error e => cases h
  | ok a => exact ⟨a, rfl, Except.ok.inj h⟩

private theorem eq_error_of_map_eq_error {ε α β : Type*} {f : α → β} {x : Except ε α} {e : ε}
    (h : x.map f = .error e) : x = .error e := by
  cases x with
  | error e' => exact congrArg _ (Except.error.inj h)
  | ok a => cases h

theorem Table.control_eq_ok {t t' : Table κ} {call : Call κ} (h : t.control fault call = .ok t') :
    t' = { t with kernel := Function.update t.kernel call.fd call.mask } := by
  cases call with
  | add fd events callback =>
    obtain ⟨kernel, hkernel, rfl⟩ := exists_of_map_eq_ok h
    rw [Kernel.add_eq_ok hkernel]
    rfl
  | modify fd events =>
    obtain ⟨kernel, hkernel, rfl⟩ := exists_of_map_eq_ok h
    rw [Kernel.modify_eq_ok hkernel]
    rfl
  | remove fd =>
    obtain ⟨kernel, hkernel, rfl⟩ := exists_of_map_eq_ok h
    rw [Kernel.delete_eq_ok hkernel]
    rfl

end Kernel

section Sections

variable {kind : Kind} {t t' before : Table κ} {call : Call κ} {h : Held κ} {fault : Option Errno}

theorem progress_enter (hagrees : Agrees t) (henter : t.enter kind call = .ok t') :
    Progress ⟨call, none, t⟩ t' := by
  have hwatched : ∀ {fd}, (t.watchers fd).isSome → fd ≠ t.wakeFd := by
    rintro fd hfd rfl
    rw [hagrees.wake_unwatched] at hfd
    cases hfd
  -- what a call that only looks at the table leaves
  have hfound : t' = t → call.fd ≠ t.wakeFd → call.Watches t t.watchers →
      Progress ⟨call, none, t⟩ t' := by
    rintro rfl hown hwatches
    exact ⟨hagrees, rfl, rfl, hown, hwatches, fun _ _ ↦ rfl, fun _ ↦ rfl,
      fun hreturned ↦ (by cases hreturned), fun hreturned ↦ absurd rfl hreturned⟩
  cases call with
  | add fd events callback =>
    simp only [Table.enter] at henter
    split at henter
    · cases henter
    cases callback with
    | none => cases henter
    | some callback =>
      dsimp only at henter
      split at henter
      · cases henter
      rename_i hwake
      split at henter
      · cases henter
      rename_i hfree
      obtain rfl := Except.ok.inj henter
      rw [Bool.not_eq_true, Option.isSome_eq_false_iff, Option.isNone_iff_eq_none] at hfree
      exact ⟨hagrees, rfl, rfl, hwake, ⟨hfree, callback, rfl, rfl⟩, fun _ _ ↦ rfl, fun _ ↦ rfl,
        fun hreturned ↦ (by cases hreturned), fun hreturned ↦ absurd rfl hreturned⟩
  | modify fd events =>
    simp only [Table.enter] at henter
    split at henter
    · cases henter
    · rename_i watcher hwatcher
      have hsome : (t.watchers fd).isSome := hwatcher ▸ rfl
      exact hfound (Except.ok.inj henter).symm (hwatched hsome) ⟨hsome, rfl⟩
  | remove fd =>
    simp only [Table.enter] at henter
    split at henter
    · cases henter
    · rename_i watcher hwatcher
      have hsome : (t.watchers fd).isSome := hwatcher ▸ rfl
      exact hfound (Except.ok.inj henter).symm (hwatched hsome) ⟨hsome, rfl⟩

theorem progress_control_error (hprogress : Progress ⟨call, none, before⟩ t) {errno : Errno}
    (hcontrol : t.control fault call = .error errno)
    (hfault : call.isRemove = true → fault = none) :
    Progress ⟨call, some (some errno), before⟩ t := by
  refine { hprogress with
    unchanged := fun _ ↦ hprogress.unchanged (by simp)
    changed := fun hreturned ↦ (by cases hreturned)
    removed := fun _ hremove ↦ ?_ }
  cases call with
  | remove fd =>
    rw [hfault hremove] at hcontrol
    exact Kernel.delete_eq_error (eq_error_of_map_eq_error hcontrol)
  | _ => cases hremove

theorem progress_control_ok (hprogress : Progress ⟨call, none, before⟩ t)
    (hcontrol : t.control fault call = .ok t') : Progress ⟨call, some none, before⟩ t' := by
  rw [Table.control_eq_ok hcontrol]
  refine { hprogress with
    others := fun fd hfd ↦ ?_
    unchanged := fun hreturned ↦ absurd rfl hreturned
    changed := fun _ ↦ ?_
    removed := fun _ hremove ↦ ?_ }
  · exact (Function.update_of_ne hfd ..).trans (hprogress.others fd hfd)
  · cases call.mask with
    | none => exact Or.inl (Function.update_self ..)
    | some mask => exact Or.inr ⟨mask, rfl, Function.update_self ..⟩
  · cases call with
    | remove fd => exact Function.update_self ..
    | _ => cases hremove

theorem Agrees.close (hagrees : Agrees t) {fd : ℤ} (hfd : fd ≠ t.wakeFd) : Agrees (t.close fd) where
  watched {fd' mask} hne hmask := by
    rw [Table.close] at hmask
    dsimp only at hmask
    by_cases hsame : fd' = fd
    · rw [hsame, Function.update_self] at hmask
      cases hmask
    · rw [Function.update_of_ne hsame] at hmask
      exact hagrees.watched hne hmask
  wake_registered := (Function.update_of_ne hfd.symm ..).trans hagrees.wake_registered
  wake_unwatched := hagrees.wake_unwatched

theorem Progress.close (hprogress : Progress h t) {fd : ℤ} (hfd : fd ≠ t.wakeFd) :
    Progress { h with before := h.before.close fd } (t.close fd) where
  agrees := hprogress.agrees.close (hprogress.wakeFd ▸ hfd)
  wakeFd := hprogress.wakeFd
  wakeCount := hprogress.wakeCount
  own := hprogress.own
  watches := by
    have hwatches := hprogress.watches
    cases hcall : h.call <;> rw [hcall] at hwatches <;> exact hwatches
  others fd' hne := by
    rw [Table.close, Table.close]
    dsimp only
    by_cases hsame : fd' = fd
    · rw [hsame, Function.update_self, Function.update_self]
    · rw [Function.update_of_ne hsame, Function.update_of_ne hsame]
      exact hprogress.others fd' hne
  unchanged hreturned := by
    rw [Table.close, Table.close, hprogress.unchanged hreturned]
  changed hreturned := by
    rw [Table.close]
    dsimp only
    by_cases hsame : h.call.fd = fd
    · exact Or.inl (hsame ▸ Function.update_self ..)
    · rw [Function.update_of_ne hsame]
      exact hprogress.changed hreturned
  removed hreturned hremove := by
    rw [Table.close]
    dsimp only
    by_cases hsame : h.call.fd = fd
    · exact hsame ▸ Function.update_self ..
    · rw [Function.update_of_ne hsame]
      exact hprogress.removed hreturned hremove

/-- A call of `add` or `modify` whose `epoll_ctl` has failed leaves everything as it was. -/
theorem leave_eq_before {errno : Errno} (hprogress : Progress ⟨call, some (some errno), before⟩ t)
    (hcall : call.isRemove = false) : (t.leave (some errno) call).2 = before := by
  have hkernel := hprogress.unchanged (by simp)
  have hwakeFd := hprogress.wakeFd
  have hwakeCount := hprogress.wakeCount
  have hwatches := hprogress.watches
  cases call with
  | add fd events callback =>
    obtain ⟨hfree, watcher, -, hwatchers⟩ := hwatches
    have hrollback : Function.update t.watchers fd none = before.watchers := by
      rw [hwatchers]
      exact Table.rollback_eq hfree _
    rw [Table.leave]
    dsimp only at hrollback hkernel hwakeFd hwakeCount ⊢
    rw [hrollback, hkernel, hwakeFd, hwakeCount]
  | modify fd events =>
    obtain ⟨-, hwatchers⟩ := hwatches
    rw [Table.leave]
    cases t
    dsimp only at hwatchers hkernel hwakeFd hwakeCount ⊢
    rw [hwatchers, hkernel, hwakeFd, hwakeCount]
  | remove fd => cases hcall

theorem agrees_leave {returned : Option Errno}
    (hprogress : Progress ⟨call, some returned, before⟩ t) :
    Agrees (t.leave returned call).2 := by
  have hagrees := hprogress.agrees
  have hwakeFd : t.wakeFd = before.wakeFd := hprogress.wakeFd
  have hwatches := hprogress.watches
  have hothers : ∀ fd ≠ call.fd, t.kernel fd = before.kernel fd := hprogress.others
  have hwake : t.kernel t.wakeFd = some EPOLLIN := by
    rw [hothers _ hprogress.own.symm, hwakeFd]
    exact hagrees.wake_registered
  -- what holds of the descriptor of the call, once its watcher has been written
  have hown : ∀ watcher : Option (Watcher κ), call.fd ≠ t.wakeFd →
      (∀ mask, t.kernel call.fd = some mask →
        ∃ w, watcher = some w ∧ mask = toNativeEvents w.events) →
      Agrees { t with watchers := Function.update before.watchers call.fd watcher } := by
    intro watcher hne hmask
    refine ⟨fun {fd mask} hfd hregistered ↦ ?_, hwake, ?_⟩
    · by_cases hsame : fd = call.fd
      · subst hsame
        obtain ⟨w, hw, hevents⟩ := hmask mask hregistered
        exact ⟨w, (Function.update_self ..).trans hw, hevents⟩
      · rw [hothers fd hsame] at hregistered
        obtain ⟨w, hw, hevents⟩ := hagrees.watched (hwakeFd ▸ hfd) hregistered
        exact ⟨w, (Function.update_of_ne hsame ..).trans hw, hevents⟩
    · exact (Function.update_of_ne hne.symm ..).trans (hwakeFd ▸ hagrees.wake_unwatched)
  cases returned with
  | some errno =>
    cases hcall : call.isRemove with
    | false => exact leave_eq_before hprogress hcall ▸ hagrees
    | true =>
      cases call with
      | remove fd =>
        have hgone : t.kernel fd = none := hprogress.removed (by simp) rfl
        have herased := hown none hprogress.own fun mask hmask ↦ by
          rw [Call.fd, hgone] at hmask
          cases hmask
        rw [← hwatches.2] at herased
        simp only [Table.leave]
        split <;> exact herased
      | _ => cases hcall
  | none =>
    have hchanged := hprogress.changed rfl
    cases call with
    | add fd events callback =>
      obtain ⟨-, watcher, -, hwatchers⟩ := hwatches
      have hadded := hown (some ⟨events, watcher⟩) hprogress.own fun mask hmask ↦ by
        rcases hchanged with hclosed | ⟨mask', hmask', hregistered⟩
        · exact absurd (hclosed.symm.trans hmask) (by simp)
        · obtain rfl := Option.some.inj (hregistered.symm.trans hmask)
          exact ⟨_, rfl, (Option.some.inj hmask').symm⟩
      obtain ⟨wakeFd, wakeCount, watchers, kernel⟩ := t
      dsimp only at hwatchers
      subst hwatchers
      exact hadded
    | modify fd events =>
      obtain ⟨hsome, hwatchers⟩ := hwatches
      obtain ⟨watcher, hwatcher⟩ := Option.isSome_iff_exists.mp hsome
      have hmodified := hown (some { watcher with events := events }) hprogress.own
        fun mask hmask ↦ by
          rcases hchanged with hclosed | ⟨mask', hmask', hregistered⟩
          · exact absurd (hclosed.symm.trans hmask) (by simp)
          · obtain rfl := Option.some.inj (hregistered.symm.trans hmask)
            exact ⟨_, rfl, (Option.some.inj hmask').symm⟩
      simp only [Table.leave]
      dsimp only at hwatchers
      rw [hwatchers, hwatcher]
      exact hmodified
    | remove fd =>
      have herased := hown none hprogress.own fun mask hmask ↦ by
        rcases hchanged with hclosed | ⟨mask', hmask', -⟩
        · exact absurd (hclosed.symm.trans hmask) (by simp)
        · cases hmask'
      rw [← hwatches.2] at herased
      exact herased

/-! ## Equality of the two sets

A closed descriptor leaves the interest set and stays in the table. If no registered descriptor is
closed, the sets agree in this direction too. -/

/-- What is watched is registered, but for the descriptor of a call: it is registered if `epoll_ctl`
has succeeded, unless to remove it, and as long as `epoll_ctl` has not, if it has been watched. -/
structure CoveredDuring (h : Held κ) (t : Table κ) : Prop where
  others : ∀ fd ≠ t.wakeFd, fd ≠ h.call.fd → (h.before.watchers fd).isSome → (t.kernel fd).isSome
  own_unchanged : h.returned ≠ some none → (h.before.watchers h.call.fd).isSome →
    (t.kernel h.call.fd).isSome
  own_changed : h.returned = some none → h.call.isRemove = false → (t.kernel h.call.fd).isSome

theorem covered_enter (hagrees : Agrees t) (hcovered : Covered t)
    (henter : t.enter kind call = .ok t') : CoveredDuring ⟨call, none, t⟩ t' := by
  have hprogress := progress_enter hagrees henter
  have hkernel : t'.kernel = t.kernel := hprogress.unchanged (by simp)
  refine ⟨fun fd hfd _ ↦ ?_, fun _ ↦ ?_, fun hreturned ↦ (by cases hreturned)⟩
  · rw [hkernel]
    exact hcovered fd (hprogress.wakeFd ▸ hfd)
  · rw [hkernel]
    exact hcovered _ (hprogress.wakeFd ▸ hprogress.own)

theorem covered_control_error {errno : Errno} (hcovered : CoveredDuring ⟨call, none, before⟩ t) :
    CoveredDuring ⟨call, some (some errno), before⟩ t :=
  ⟨hcovered.others, fun _ ↦ hcovered.own_unchanged (by simp),
    fun hreturned ↦ (by cases hreturned)⟩

theorem covered_control_ok (hcovered : CoveredDuring ⟨call, none, before⟩ t)
    (hcontrol : t.control fault call = .ok t') : CoveredDuring ⟨call, some none, before⟩ t' := by
  rw [Table.control_eq_ok hcontrol]
  refine ⟨fun fd hwake hfd hsome ↦ ?_, fun hreturned ↦ absurd rfl hreturned, fun _ hremove ↦ ?_⟩
  · dsimp only
    rw [Function.update_of_ne hfd]
    exact hcovered.others fd hwake hfd hsome
  · dsimp only
    rw [Function.update_self]
    cases call with
    | remove fd => cases hremove
    | _ => rfl

theorem covered_leave {returned : Option Errno}
    (hprogress : Progress ⟨call, some returned, before⟩ t)
    (hcovered : CoveredDuring ⟨call, some returned, before⟩ t) :
    Covered (t.leave returned call).2 := by
  have hwatches := hprogress.watches
  -- only the watcher of the own descriptor is written
  have hown : ∀ watcher : Option (Watcher κ),
      (watcher.isSome → (t.kernel call.fd).isSome) →
      Covered { t with watchers := Function.update before.watchers call.fd watcher } := by
    intro watcher hsome fd hfd hwatched
    dsimp only at hwatched hfd ⊢
    by_cases hsame : fd = call.fd
    · subst hsame
      rw [Function.update_self] at hwatched
      exact hsome hwatched
    · rw [Function.update_of_ne hsame] at hwatched
      exact hcovered.others fd hfd hsame hwatched
  cases call with
  | add fd events callback =>
    obtain ⟨hfree, watcher, -, hwatchers⟩ := hwatches
    cases returned with
    | none =>
      have hadded := hown (some ⟨events, watcher⟩) fun _ ↦ hcovered.own_changed rfl rfl
      obtain ⟨wakeFd, wakeCount, watchers, kernel⟩ := t
      dsimp only at hwatchers
      subst hwatchers
      exact hadded
    | some errno =>
      have hrolled := hown none fun hnone ↦ (by cases hnone)
      simp only [Table.leave]
      rw [hwatchers, Function.update_idem]
      exact hrolled
  | modify fd events =>
    obtain ⟨hsome, hwatchers⟩ := hwatches
    obtain ⟨watcher, hwatcher⟩ := Option.isSome_iff_exists.mp hsome
    dsimp only at hwatchers hwatcher
    cases returned with
    | none =>
      have hmodified := hown (some { watcher with events := events })
        fun _ ↦ hcovered.own_changed rfl rfl
      simp only [Table.leave]
      rw [hwatchers, hwatcher]
      exact hmodified
    | some errno =>
      have hkept := hown (some watcher) fun _ ↦ hcovered.own_unchanged (by simp) hsome
      rw [Call.fd, ← hwatcher, Function.update_eq_self, ← hwatchers] at hkept
      exact hkept
  | remove fd =>
    obtain ⟨-, hwatchers⟩ := hwatches
    dsimp only at hwatchers
    have herased := hown none fun hnone ↦ (by cases hnone)
    rw [← hwatchers] at herased
    cases returned with
    | none => exact herased
    | some errno =>
      simp only [Table.leave]
      split <;> exact herased

/-- A descriptor that is not registered is closed. -/
theorem close_eq_self {fd : ℤ} (hfd : t.kernel fd = none) : t.close fd = t := by
  rw [Table.close, ← hfd, Function.update_eq_self]

end Sections

/-! ## Runs -/

namespace Shared

variable {kind : Kind} {wakeFd : ℤ} {s s' : Shared κ} {a : Section κ}

theorem inv_step (h : s.Inv) (hbehaves : s.Behaves a) (hstep : s.step kind a = some s') :
    s'.Inv := by
  obtain ⟨t, held⟩ := s
  cases a with
  | enter call =>
    cases held with
    | some held => cases hstep
    | none =>
      simp only [step] at hstep
      split at hstep
      · obtain rfl := Option.some.inj hstep
        exact h
      · rename_i henter
        obtain rfl := Option.some.inj hstep
        exact progress_enter h henter
  | control fault =>
    simp only [step] at hstep
    split at hstep
    · rename_i _ call before
      split at hstep
      · rename_i hcontrol
        obtain rfl := Option.some.inj hstep
        exact progress_control_error h hcontrol hbehaves
      · rename_i hcontrol
        obtain rfl := Option.some.inj hstep
        exact progress_control_ok h hcontrol
    · cases hstep
  | leave =>
    simp only [step] at hstep
    split at hstep
    · rename_i _ call returned before
      obtain rfl := Option.some.inj hstep
      exact agrees_leave h
    · cases hstep
  | close fd =>
    obtain rfl := Option.some.inj hstep
    cases held with
    | none => exact Agrees.close h hbehaves
    | some held => exact Progress.close h hbehaves

theorem wakeFd_step (h : s.Inv) (hstep : s.step kind a = some s') :
    s'.table.wakeFd = s.table.wakeFd := by
  obtain ⟨t, held⟩ := s
  cases a with
  | enter call =>
    cases held with
    | some held => cases hstep
    | none =>
      simp only [step] at hstep
      split at hstep
      · obtain rfl := Option.some.inj hstep
        rfl
      · rename_i henter
        obtain rfl := Option.some.inj hstep
        exact (progress_enter h henter).wakeFd
  | control fault =>
    simp only [step] at hstep
    split at hstep
    · split at hstep
      · obtain rfl := Option.some.inj hstep
        rfl
      · rename_i hcontrol
        obtain rfl := Option.some.inj hstep
        rw [Table.control_eq_ok hcontrol]
    · cases hstep
  | leave =>
    simp only [step] at hstep
    split at hstep
    · rename_i _ call returned before
      obtain rfl := Option.some.inj hstep
      cases call <;> cases returned
      case remove.some fd errno =>
        simp only [Table.leave]
        split <;> rfl
      all_goals rfl
    · cases hstep
  | close fd =>
    obtain rfl := Option.some.inj hstep
    rfl

end Shared

theorem agrees_fresh (wakeFd : ℤ) : Agrees (.fresh κ wakeFd) := by
  refine ⟨fun {fd mask} hfd hmask ↦ ?_, ?_, rfl⟩
  · rw [Table.fresh] at hfd hmask
    dsimp only at hfd hmask
    rw [Function.update_of_ne hfd] at hmask
    cases hmask
  · rw [Table.fresh]
    dsimp only
    rw [Function.update_self]

namespace Shared

variable {kind : Kind} {wakeFd : ℤ} {s s' : Shared κ} {a : Section κ}

theorem inv_of_reachable (h : (sectionMachine κ kind wakeFd).ReachableWhen Behaves s) :
    s.Inv ∧ s.table.wakeFd = wakeFd :=
  Machine.Leads.invariant (I := fun s ↦ s.Inv ∧ s.table.wakeFd = wakeFd) h
    ⟨agrees_fresh wakeFd, rfl⟩ fun hs hbehaves hstep ↦
      ⟨inv_step hs.1 hbehaves hstep, (wakeFd_step hs.1 hstep).trans hs.2⟩

/-- What is watched is registered, also during a call. -/
def Covers (s : Shared κ) : Prop :=
  match s.held with
  | none => Covered s.table
  | some h => CoveredDuring h s.table

theorem covers_step (h : s.Inv) (hcovers : s.Covers) (hcloses : s.ClosesUnregistered a)
    (hstep : s.step kind a = some s') : s'.Covers := by
  obtain ⟨t, held⟩ := s
  cases a with
  | enter call =>
    cases held with
    | some held => cases hstep
    | none =>
      simp only [step] at hstep
      split at hstep
      · obtain rfl := Option.some.inj hstep
        exact hcovers
      · rename_i henter
        obtain rfl := Option.some.inj hstep
        exact covered_enter h hcovers henter
  | control fault =>
    simp only [step] at hstep
    split at hstep
    · rename_i _ call before
      split at hstep
      · obtain rfl := Option.some.inj hstep
        exact covered_control_error hcovers
      · rename_i hcontrol
        obtain rfl := Option.some.inj hstep
        exact covered_control_ok hcovers hcontrol
    · cases hstep
  | leave =>
    simp only [step] at hstep
    split at hstep
    · rename_i _ call returned before
      obtain rfl := Option.some.inj hstep
      exact covered_leave h hcovers
    · cases hstep
  | close fd =>
    obtain rfl := Option.some.inj hstep
    have hsame : t.close fd = t := close_eq_self hcloses
    cases held with
    | none => exact hsame.symm ▸ hcovers
    | some held =>
      rw [hsame]
      exact ⟨hcovers.others, hcovers.own_unchanged, hcovers.own_changed⟩

/-- What holds of the two tables in every state. -/
structure Consistent (kind : Kind) (s : Shared κ) : Prop where
  /-- Outside the mutex. -/
  agrees : s.held = none → Agrees s.table
  /-- A call that ends before it reaches `epoll_ctl` changes nothing. -/
  refused : ∀ {call result}, s.held = none → s.table.enter kind call = .error result →
    s.step kind (.enter call) = some s
  /-- A call of `add` or `modify` that throws afterwards leaves what was there before it. -/
  restored : ∀ {call errno before}, s.held = some ⟨call, some (some errno), before⟩ →
    call.isRemove = false → (s.table.leave (some errno) call).2 = before

theorem Inv.consistent (h : s.Inv) : s.Consistent kind := by
  obtain ⟨t, held⟩ := s
  refine ⟨?_, ?_, ?_⟩
  · rintro rfl
    exact h
  · rintro call result rfl henter
    simp only [step]
    dsimp only at henter
    rw [henter]
  · rintro call errno before rfl hcall
    exact leave_eq_before h hcall

end Shared

/-- **The interest set.** For both classes, whatever the threads call and whichever descriptors are
closed, in every state outside the mutex what is registered is watched, with the same events, and
the wake-up descriptor is registered and not watched; and what throws changes nothing. If no
registered descriptor is closed, the two tables have the same descriptors. -/
theorem interest_consistent (kind : Kind) (wakeFd : ℤ) :
    (∀ s, (sectionMachine κ kind wakeFd).ReachableWhen Shared.Behaves s →
      s.table.wakeFd = wakeFd ∧ s.Consistent kind) ∧
    ∀ s, (sectionMachine κ kind wakeFd).ReachableWhen
        (fun s a ↦ s.Behaves a ∧ s.ClosesUnregistered a) s →
      s.held = none → ∀ fd ≠ wakeFd,
        ((s.table.watchers fd).isSome ↔ (s.table.kernel fd).isSome) := by
  constructor
  · intro s hs
    obtain ⟨hinv, hwake⟩ := Shared.inv_of_reachable hs
    exact ⟨hwake, hinv.consistent⟩
  · intro s hs hheld fd hfd
    obtain ⟨-, hwake⟩ := Shared.inv_of_reachable (hs.mono fun _ _ hguard ↦ hguard.1)
    obtain ⟨hinv, hcovers⟩ : s.Inv ∧ s.Covers :=
      Machine.Leads.invariant (I := fun s ↦ s.Inv ∧ s.Covers) hs
        ⟨agrees_fresh wakeFd, fun fd _ hfd ↦ (by cases hfd)⟩ fun hs hguard hstep ↦
          ⟨Shared.inv_step hs.1 hguard.1 hstep, Shared.covers_step hs.1 hs.2 hguard.2 hstep⟩
    obtain ⟨t, held⟩ := s
    obtain rfl : held = none := hheld
    obtain rfl : t.wakeFd = wakeFd := hwake
    refine ⟨hcovers fd hfd, fun hregistered ↦ ?_⟩
    obtain ⟨mask, hmask⟩ := Option.isSome_iff_exists.mp hregistered
    obtain ⟨watcher, hwatcher, -⟩ := hinv.watched hfd hmask
    exact hwatcher ▸ rfl

/-- A descriptor is closed while `modify` is about to call `epoll_ctl`, which then fails; another
one is closed after it has been removed. -/
theorem interest_consistent_closed :
    (∃ s : Shared ℕ, (s.held = none ∧ (s.table.watchers 5).isSome ∧ s.table.kernel 5 = none) ∧
      s.table.wakeFd = 3 ∧ s.Consistent .eventLoop) ∧
    ∃ s : Shared ℕ, (s.table.watchers 5).isSome ∧
      ((s.table.watchers 5).isSome ↔ (s.table.kernel 5).isSome) := by
  constructor
  · obtain ⟨s, hs, hfinal⟩ := Machine.exists_reachableWhen_of_run
      (M := sectionMachine ℕ .eventLoop 3) (C := Shared.Behaves)
      (fun s ↦ (s.held.isNone, (s.table.watchers 5).isSome, s.table.kernel 5))
      [.enter (.add 5 1 (some 0)), .control none, .leave, .enter (.modify 5 2), .close 5,
        .control none, .leave] (b := (true, true, none)) (by decide +kernel)
    simp only [Prod.mk.injEq, Option.isNone_iff_eq_none] at hfinal
    exact ⟨s, hfinal, (interest_consistent .eventLoop 3).1 s hs⟩
  · obtain ⟨s, hs, hfinal⟩ := Machine.exists_reachableWhen_of_run
      (M := sectionMachine ℕ .epollReactor 3)
      (C := fun s a ↦ s.Behaves a ∧ s.ClosesUnregistered a)
      (fun s ↦ (s.held.isNone, (s.table.watchers 5).isSome))
      [.enter (.add 5 1 (some 0)), .control none, .leave, .enter (.add 6 1 (some 1)),
        .control none, .leave, .enter (.remove 6), .control none, .leave, .close 6]
      (b := (true, true)) (by decide +kernel)
    obtain ⟨hheld, hwatched⟩ := Prod.mk.inj hfinal
    exact ⟨s, hwatched, (interest_consistent .epollReactor 3).2 s hs
      (Option.isNone_iff_eq_none.mp hheld) 5 (by decide)⟩

end Reactor

end FoundationComponents
