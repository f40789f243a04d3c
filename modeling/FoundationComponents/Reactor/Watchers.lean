import Mathlib.Data.Int.Notation
import Mathlib.Data.Nat.Notation
import Mathlib.Logic.Function.Basic

/-!
# Watcher tables

`EpollReactor` and the `EventLoop` of `MultiThreadReactor` keep a table from file descriptors to
watchers next to the kernel's interest set, and change both under a mutex. Their `add`, `modify` and
`remove` are the same code up to the class named in the error texts, and up to `EventLoop` writing
to its wake-up descriptor after every change. They are written once here, over the *kind* of
reactor.

The kernel is a map from descriptors to event masks. A call of `epoll_ctl` fails on its own account
when it adds a registered descriptor, or changes or removes an unregistered one; it may also be made
to fail with any `errno`, which is an argument of every operation. A descriptor that is closed
leaves the interest set without the table hearing of it.
-/

namespace FoundationComponents

namespace Reactor

/-! ## Events -/

/-- The bits of `EpollEvents` and `ReactorEvents`. -/
def eventRead : UInt32 := 1
def eventWrite : UInt32 := 2
def eventEdgeTriggered : UInt32 := 4
def eventOneShot : UInt32 := 8
def eventError : UInt32 := 16
def eventHangUp : UInt32 := 32
def eventPeerClosed : UInt32 := 64

/-- The bits of the kernel. -/
def EPOLLIN : UInt32 := 0x001
def EPOLLOUT : UInt32 := 0x004
def EPOLLERR : UInt32 := 0x008
def EPOLLHUP : UInt32 := 0x010
def EPOLLRDHUP : UInt32 := 0x2000
def EPOLLONESHOT : UInt32 := 0x40000000
def EPOLLET : UInt32 := 0x80000000

/-- Add `bit` if `events` has `flag`. -/
def translate (events flag bit : UInt32) : UInt32 := if events &&& flag ≠ 0 then bit else 0

def toNativeEvents (events : UInt32) : UInt32 :=
  EPOLLRDHUP ||| translate events eventRead EPOLLIN ||| translate events eventWrite EPOLLOUT |||
    translate events eventEdgeTriggered EPOLLET ||| translate events eventOneShot EPOLLONESHOT

def fromNativeEvents (events : UInt32) : UInt32 :=
  translate events EPOLLIN eventRead ||| translate events EPOLLOUT eventWrite |||
    translate events EPOLLERR eventError ||| translate events EPOLLHUP eventHangUp |||
    translate events EPOLLRDHUP eventPeerClosed

/-! ## Errors and the kernel -/

abbrev Errno := ℕ

def ENOENT : Errno := 2
def EBADF : Errno := 9
def EEXIST : Errno := 17

/-- What an operation throws. -/
inductive Exception
  | invalidArgument (what : String)
  | runtimeError (what : String)
  /-- `systemError`: the text names the operation and describes the `errno`. -/
  | systemError (operation : String) (errno : Errno)
  deriving Repr, DecidableEq

/-- The interest set of an epoll instance. -/
abbrev Kernel := ℤ → Option UInt32

/-- `EPOLL_CTL_ADD`. -/
def Kernel.add (kernel : Kernel) (fault : Option Errno) (fd : ℤ) (mask : UInt32) :
    Except Errno Kernel :=
  match fault with
  | some errno => .error errno
  | none =>
      if (kernel fd).isSome then .error EEXIST else .ok (Function.update kernel fd (some mask))

/-- `EPOLL_CTL_MOD`. -/
def Kernel.modify (kernel : Kernel) (fault : Option Errno) (fd : ℤ) (mask : UInt32) :
    Except Errno Kernel :=
  match fault with
  | some errno => .error errno
  | none =>
      if (kernel fd).isSome then .ok (Function.update kernel fd (some mask)) else .error ENOENT

/-- `EPOLL_CTL_DEL`. -/
def Kernel.delete (kernel : Kernel) (fault : Option Errno) (fd : ℤ) : Except Errno Kernel :=
  match fault with
  | some errno => .error errno
  | none => if (kernel fd).isSome then .ok (Function.update kernel fd none) else .error ENOENT

/-! ## Tables -/

/-- A watcher. Callbacks are values of an arbitrary type. -/
structure Watcher (κ : Type*) where
  events : UInt32
  callback : κ
  deriving Repr, DecidableEq

/-- The table, the interest set, the wake-up descriptor and the count of its eventfd. -/
structure Table (κ : Type*) where
  wakeFd : ℤ
  wakeCount : ℕ
  watchers : ℤ → Option (Watcher κ)
  kernel : Kernel

/-- An item of the vector `callbacks`: the translated event and the callback. -/
structure Dispatch (κ : Type*) where
  fd : ℤ
  events : UInt32
  callback : κ
  deriving Repr, DecidableEq

/-- The two classes with a watcher table. -/
inductive Kind
  | epollReactor
  | eventLoop
  deriving Repr, DecidableEq

/-- The class as the error texts name it. -/
def Kind.name : Kind → String
  | .epollReactor => "EpollReactor"
  | .eventLoop => "EventLoop"

namespace Table

variable {κ : Type*}

/-- A new table: only the wake-up descriptor is registered with the kernel. -/
def fresh (κ : Type*) (wakeFd : ℤ) : Table κ where
  wakeFd := wakeFd
  wakeCount := 0
  watchers _ := none
  kernel := Function.update (fun _ ↦ none) wakeFd (some EPOLLIN)

/-- The loop over the ready events under the mutex: the wake-up descriptor is drained, descriptors
without a watcher are skipped. -/
def collect (t : Table κ) : List (ℤ × UInt32) → Table κ × List (Dispatch κ)
  | [] => (t, [])
  | (fd, native) :: rest =>
      if fd = t.wakeFd then collect { t with wakeCount := 0 } rest
      else
        match t.watchers fd with
        | none => t.collect rest
        | some watcher =>
            let next := t.collect rest
            (next.1, ⟨fd, fromNativeEvents native, watcher.callback⟩ :: next.2)

/-- The user closes a descriptor: the kernel forgets it, the table does not. -/
def close (t : Table κ) (fd : ℤ) : Table κ := { t with kernel := Function.update t.kernel fd none }

variable (kind : Kind) (t : Table κ)

/-- `EventLoop` wakes its thread after a change; `EpollReactor` does not. -/
def wakeIfLoop : Table κ :=
  match kind with
  | .epollReactor => t
  | .eventLoop => { t with wakeCount := t.wakeCount + 1 }

/-- `add`. The watcher is inserted before `epoll_ctl` is called and erased again if that fails. -/
def add (fault : Option Errno) (fd : ℤ) (events : UInt32) (callback : Option κ) :
    Except Exception Unit × Table κ :=
  if fd < 0 then (.error (.invalidArgument (kind.name ++ " cannot add a negative fd")), t)
  else match callback with
    | none => (.error (.invalidArgument (kind.name ++ " callback cannot be empty")), t)
    | some callback =>
        if fd = t.wakeFd then
          (.error (.invalidArgument (kind.name ++ " wake fd is reserved")), t)
        else if (t.watchers fd).isSome then
          (.error (.invalidArgument (kind.name ++ " fd is already registered")), t)
        else match t.kernel.add fault fd (toNativeEvents events) with
          -- the watcher that was inserted is erased again
          | .error errno => (.error (.systemError "epoll_ctl add" errno), t)
          | .ok kernel =>
              (.ok (), wakeIfLoop kind
                { t with
                  watchers := Function.update t.watchers fd (some ⟨events, callback⟩)
                  kernel := kernel })

/-- `modify`. -/
def modify (fault : Option Errno) (fd : ℤ) (events : UInt32) : Except Exception Unit × Table κ :=
  match t.watchers fd with
  | none => (.error (.invalidArgument (kind.name ++ " fd is not registered")), t)
  | some watcher =>
      match t.kernel.modify fault fd (toNativeEvents events) with
      | .error errno => (.error (.systemError "epoll_ctl modify" errno), t)
      | .ok kernel =>
          (.ok (), wakeIfLoop kind
            { t with
              watchers := Function.update t.watchers fd (some { watcher with events := events })
              kernel := kernel })

/-- `remove`. The watcher is erased whatever `epoll_ctl` says; a descriptor that the kernel does not
know any more is no error. -/
def remove (fault : Option Errno) (fd : ℤ) : Except Exception Bool × Table κ :=
  match t.watchers fd with
  | none => (.ok false, t)
  | some _ =>
      let erased := { t with watchers := Function.update t.watchers fd none }
      match t.kernel.delete fault fd with
      | .ok kernel => (.ok true, wakeIfLoop kind { erased with kernel := kernel })
      | .error errno =>
          if errno ≠ ENOENT ∧ errno ≠ EBADF then
            (.error (.systemError "epoll_ctl remove" errno), erased)
          else (.ok true, wakeIfLoop kind erased)

/-- The call returned true. -/
def returnedTrue : Except Exception Bool → Bool
  | .ok result => result
  | .error _ => false

/-! ## What the operations do to the watchers -/

section Watchers

variable {kind} {t}

@[simp] theorem watchers_wakeIfLoop : (wakeIfLoop kind t).watchers = t.watchers := by
  cases kind <;> rfl

/-- `add` inserts a watcher for a descriptor that had none, or throws and changes nothing. -/
theorem add_cases (kind : Kind) (t : Table κ) (fault : Option Errno) (fd : ℤ) (events : UInt32)
    (callback : Option κ) :
    (∃ callback', callback = some callback' ∧ (t.add kind fault fd events callback).1 = .ok () ∧
        t.watchers fd = none ∧ (t.add kind fault fd events callback).2.watchers =
          Function.update t.watchers fd (some ⟨events, callback'⟩)) ∨
      ∃ e, t.add kind fault fd events callback = (.error e, t) := by
  cases callback with
  | none =>
    simp only [add]
    split <;> exact Or.inr ⟨_, rfl⟩
  | some callback =>
    simp only [add]
    split
    · exact Or.inr ⟨_, rfl⟩
    split
    · exact Or.inr ⟨_, rfl⟩
    split
    · exact Or.inr ⟨_, rfl⟩
    rename_i hfree
    split
    · exact Or.inr ⟨_, rfl⟩
    · refine Or.inl ⟨callback, rfl, rfl, ?_, watchers_wakeIfLoop⟩
      rwa [Bool.not_eq_true, Option.isSome_eq_false_iff, Option.isNone_iff_eq_none] at hfree

/-- `modify` changes the events of a watcher, or throws and changes nothing. -/
theorem modify_cases (kind : Kind) (t : Table κ) (fault : Option Errno) (fd : ℤ)
    (events : UInt32) :
    (∃ watcher, t.watchers fd = some watcher ∧ (t.modify kind fault fd events).1 = .ok () ∧
        (t.modify kind fault fd events).2.watchers =
          Function.update t.watchers fd (some { watcher with events := events })) ∨
      ∃ e, t.modify kind fault fd events = (.error e, t) := by
  rw [modify]
  split
  · exact Or.inr ⟨_, rfl⟩
  · rename_i watcher hwatcher
    split
    · exact Or.inr ⟨_, rfl⟩
    · exact Or.inl ⟨watcher, hwatcher, rfl, watchers_wakeIfLoop⟩

theorem modify_watchers (kind : Kind) (t : Table κ) (fault : Option Errno) (fd : ℤ)
    (events : UInt32) (fd' : ℤ) :
    ((t.modify kind fault fd events).2.watchers fd').map Watcher.callback
      = (t.watchers fd').map Watcher.callback := by
  rcases modify_cases kind t fault fd events with ⟨watcher, hwatcher, -, hwatchers⟩ | ⟨e, herror⟩
  · rw [hwatchers]
    by_cases hfd : fd' = fd
    · rw [hfd, Function.update_self, hwatcher]
      rfl
    · rw [Function.update_of_ne hfd]
  · rw [herror]

theorem remove_watchers (kind : Kind) (t : Table κ) (fault : Option Errno) (fd : ℤ) :
    (t.remove kind fault fd).2.watchers = Function.update t.watchers fd none := by
  rw [remove]
  split
  · rename_i hnone
    rw [← hnone, Function.update_eq_self]
  · dsimp only
    split
    · rw [watchers_wakeIfLoop]
    · split
      · rfl
      · rw [watchers_wakeIfLoop]

/-- `remove` of a descriptor that has a watcher returns true or throws. -/
theorem remove_result (kind : Kind) {t : Table κ} {fd : ℤ} {watcher : Watcher κ}
    (h : t.watchers fd = some watcher) (fault : Option Errno) :
    (t.remove kind fault fd).1 = .ok true ∨ ∃ e, (t.remove kind fault fd).1 = .error e := by
  rw [remove, h]
  dsimp only
  split
  · exact Or.inl rfl
  · split
    · exact Or.inr ⟨_, rfl⟩
    · exact Or.inl rfl

theorem collect_spec (t : Table κ) (ready : List (ℤ × UInt32)) :
    (t.collect ready).1.watchers = t.watchers ∧
      ∀ dispatch ∈ (t.collect ready).2, ∃ watcher,
        t.watchers dispatch.fd = some watcher ∧ watcher.callback = dispatch.callback := by
  induction ready generalizing t with
  | nil => exact ⟨rfl, by simp [collect]⟩
  | cons event rest ih =>
    obtain ⟨fd, native⟩ := event
    rw [collect]
    split
    · exact ih { t with wakeCount := 0 }
    split
    · exact ih t
    · rename_i watcher hwatcher
      obtain ⟨htable, hcopies⟩ := ih t
      refine ⟨htable, fun dispatch hdispatch ↦ ?_⟩
      rcases List.mem_cons.mp hdispatch with rfl | hrest
      · exact ⟨watcher, hwatcher, rfl⟩
      · exact hcopies dispatch hrest

theorem exists_of_remove {fault : Option Errno} {fd : ℤ}
    (h : returnedTrue (t.remove kind fault fd).1 = true) :
    ∃ watcher, t.watchers fd = some watcher := by
  cases hwatcher : t.watchers fd with
  | none =>
    rw [remove, hwatcher] at h
    cases h
  | some watcher => exact ⟨watcher, rfl⟩

end Watchers

end Table

end Reactor

end FoundationComponents
