import Mathlib.Data.Nat.Notation
import Mathlib.Logic.Function.Basic
import FoundationComponents.Machine.Basic

/-!
# The bounded ring buffer

`RingBuffer` keeps its elements in an array of cells between two indices, with a separate element
count, under one mutex. The definitions below are the bodies of its operations as they run with the
mutex held. A waiting operation evaluates its predicate with the mutex held too, so it takes part as
one body that is enabled when its predicate holds or, if it is a timed one, when its time is up.

A cell has raw storage and a flag. The flag is what `destroyAt` consults; whether an object really
lives in the storage is recorded separately, so that the two can be compared.
-/

namespace FoundationComponents

namespace RingBuffer

/-- `RingBufferFullPolicy`. -/
inductive FullPolicy
  | reject
  | overwriteOldest
  deriving Repr, DecidableEq

/-- The storage of a cell, holding an object or raw, and the flag `occupied`. -/
structure Cell (α : Type*) where
  storage : Option α
  occupied : Bool
  deriving Repr, DecidableEq

/-- `RingBufferStats`. The counters are natural numbers. Since no call counts twice in one of them,
they are those of the source, modulo `2 ^ 64` there, for fewer than `2 ^ 64` calls. -/
structure Stats where
  pushes : ℕ := 0
  pops : ℕ := 0
  failedPushes : ℕ := 0
  failedPops : ℕ := 0
  overwrites : ℕ := 0
  closedPushes : ℕ := 0
  deriving Repr, DecidableEq

/-- The fields of the class. Only the indices below `capacity` of `buffer` are ever accessed. -/
structure Ring (α : Type*) where
  buffer : ℕ → Cell α
  capacity : ℕ
  fullPolicy : FullPolicy
  head : ℕ
  tail : ℕ
  size : ℕ
  closed : Bool
  stats : Stats

/-- The fields as the constructor leaves them. -/
def fresh (α : Type*) (capacity : ℕ) (fullPolicy : FullPolicy) : Ring α where
  buffer _ := ⟨none, false⟩
  capacity := capacity
  fullPolicy := fullPolicy
  head := 0
  tail := 0
  size := 0
  closed := false
  stats := {}

/-- The constructor. -/
def create (α : Type*) (capacity : ℕ) (fullPolicy : FullPolicy) : Except String (Ring α) :=
  if capacity = 0 then .error "RingBuffer capacity must be greater than 0"
  else .ok (fresh α capacity fullPolicy)

/-- The constructor rejects capacity `0` and nothing else. -/
theorem create_eq_ok_iff {α : Type*} {capacity : ℕ} {fullPolicy : FullPolicy} {r : Ring α} :
    create α capacity fullPolicy = .ok r ↔ 1 ≤ capacity ∧ r = fresh α capacity fullPolicy := by
  rw [create]
  split
  · rename_i hzero
    simp [hzero]
  · rename_i hpos
    rw [Except.ok.injEq]
    exact ⟨fun h ↦ ⟨Nat.one_le_iff_ne_zero.mpr hpos, h.symm⟩, fun h ↦ h.2.symm⟩

/-- What a body returns: the result of a push, the result of a pop, `undefined` for a pop that moved
out of storage holding no object, or nothing. -/
inductive Outcome (α : Type*)
  | pushed (accepted : Bool)
  | popped (value : α)
  | nullopt
  | undefined
  | done
  deriving Repr, DecidableEq

/-- The buffer after a body, what it returns, and the values it took out of the buffer. -/
structure Effect (α : Type*) where
  ring : Ring α
  outcome : Outcome α
  removed : List α

namespace Ring

variable {α : Type*} (r : Ring α)

/-! ## Cells -/

def nextIndex (index : ℕ) : ℕ := if index + 1 = r.capacity then 0 else index + 1

def constructAt (index : ℕ) (value : α) : Ring α :=
  { r with buffer := Function.update r.buffer index ⟨some value, true⟩ }

/-- Destroys the object in a cell that is marked occupied, and nothing otherwise. -/
def destroyAt (index : ℕ) : Ring α :=
  if (r.buffer index).occupied then
    { r with buffer := Function.update r.buffer index ⟨none, false⟩ }
  else r

/-- `destroyAt(head_); head_ = nextIndex(head_); --size_;` -/
def dropHead : Ring α :=
  { r.destroyAt r.head with head := r.nextIndex r.head, size := r.size - 1 }

/-! ## The bodies under the mutex

What the waiting operations and the immediate ones have in common. A body returns the values it took
out of the buffer as well, which the source only destroys or moves out. -/

def hasWritableSlotLocked : Bool :=
  decide (r.size < r.capacity) || decide (r.fullPolicy = .overwriteOldest)

def failPush : Effect α where
  ring := { r with stats := { r.stats with failedPushes := r.stats.failedPushes + 1 } }
  outcome := .pushed false
  removed := []

def failPop : Effect α where
  ring := { r with stats := { r.stats with failedPops := r.stats.failedPops + 1 } }
  outcome := .nullopt
  removed := []

/-- The last part of `pushLocked`, for a buffer that is open and not full. -/
def store (value : α) (removed : List α) : Effect α where
  ring :=
    { r.constructAt r.tail value with
      tail := r.nextIndex r.tail
      size := r.size + 1
      stats := { r.stats with pushes := r.stats.pushes + 1 } }
  outcome := .pushed true
  removed := removed

def pushLocked (value : α) : Effect α :=
  if r.closed then
    -- a push on a closed buffer is counted twice
    { ring := { r with stats := { r.stats with
        closedPushes := r.stats.closedPushes + 1, failedPushes := r.stats.failedPushes + 1 } }
      outcome := .pushed false
      removed := [] }
  else if r.size = r.capacity then
    match r.fullPolicy with
    | .reject => r.failPush
    | .overwriteOldest =>
        { r.dropHead with stats := { r.stats with overwrites := r.stats.overwrites + 1 } }.store
          value (r.buffer r.head).storage.toList
  else r.store value []

def popLocked : Effect α where
  ring := { r.dropHead with stats := { r.stats with pops := r.stats.pops + 1 } }
  outcome := match (r.buffer r.head).storage with
    | some value => .popped value
    | none => .undefined
  removed := (r.buffer r.head).storage.toList

/-- The loop of `clear`, run at most `fuel` times. Returns the values it destroyed, in order. -/
def clearLoop : ℕ → Ring α → Ring α × List α
  | 0, r => (r, [])
  | fuel + 1, r =>
      if r.size > 0 then
        let next := clearLoop fuel r.dropHead
        (next.1, (r.buffer r.head).storage.toList ++ next.2)
      else (r, [])

/-- Every iteration lowers `size_`, so the loop of `clear` runs `size_` times. -/
def clear : Effect α where
  ring := { (clearLoop r.size r).1 with head := 0, tail := 0 }
  outcome := .done
  removed := (clearLoop r.size r).2

end Ring

/-! ## Operations

An operation is one body. One that waits is enabled when its predicate holds or its time is up, and
evaluates the predicate again. -/

/-- The operations. A timed wait carries whether its time is up. -/
inductive Call (α : Type*)
  | tryPush (value : α)
  | waitPush (value : α)
  | waitPushFor (value : α) (timedOut : Bool)
  | tryPop
  | waitPop
  | waitPopFor (timedOut : Bool)
  | close
  | clear
  deriving Repr, DecidableEq

namespace Ring

variable {α : Type*} (r : Ring α)

/-- The body of an operation may run: its wait, if any, is over. -/
def enabled : Call α → Bool
  | .waitPush _ =>
      decide (r.fullPolicy = .overwriteOldest) || r.closed || decide (r.size < r.capacity)
  | .waitPushFor _ timedOut => r.closed || r.hasWritableSlotLocked || timedOut
  | .waitPop => r.closed || decide (r.size > 0)
  | .waitPopFor timedOut => r.closed || decide (r.size > 0) || timedOut
  | _ => true

/-- The body of an operation. `waitPushFor` skips its wait if there is a writable slot, and
otherwise goes on with the value of its predicate when the wait ends; so does `waitPopFor`. -/
def exec : Call α → Effect α
  | .tryPush value => r.pushLocked value
  | .waitPush value => r.pushLocked value
  | .waitPushFor value _ =>
      if r.closed || r.hasWritableSlotLocked then r.pushLocked value else r.failPush
  | .tryPop => if r.size = 0 then r.failPop else r.popLocked
  | .waitPop => if r.size = 0 then r.failPop else r.popLocked
  | .waitPopFor _ =>
      -- the time is up, or the buffer was closed while it was empty
      if (r.closed || decide (r.size > 0)) = false ∨ r.size = 0 then r.failPop else r.popLocked
  | .close => { ring := { r with closed := true }, outcome := .done, removed := [] }
  | .clear => r.clear

end Ring

/-! ## Sequences of operations -/

/-- A buffer with the operations run so far and what they returned, the values accepted in push
order and the values removed (popped, overwritten or cleared) in removal order. -/
structure System (α : Type*) where
  ring : Ring α
  calls : List (Call α)
  outcomes : List (Outcome α)
  accepted : List α
  removed : List α

/-- The value a push operation is given. -/
def Call.value? {α : Type*} : Call α → Option α
  | .tryPush value | .waitPush value | .waitPushFor value _ => some value
  | _ => none

def Outcome.isAccepted {α : Type*} : Outcome α → Bool
  | .pushed accepted => accepted
  | _ => false

/-- The value an operation added, if it did. -/
def Call.acceptedValue {α : Type*} (c : Call α) (outcome : Outcome α) : List α :=
  if outcome.isAccepted then c.value?.toList else []

def System.step {α : Type*} (s : System α) (c : Call α) : Option (System α) :=
  if s.ring.enabled c then
    some
      { ring := (s.ring.exec c).ring
        calls := s.calls ++ [c]
        outcomes := s.outcomes ++ [(s.ring.exec c).outcome]
        accepted := s.accepted ++ c.acceptedValue (s.ring.exec c).outcome
        removed := s.removed ++ (s.ring.exec c).removed }
  else none

/-- The bodies of the operations, in any order, on a new buffer. -/
def machine (α : Type*) (capacity : ℕ) (fullPolicy : FullPolicy) :
    Machine (System α) (Call α) where
  init := ⟨fresh α capacity fullPolicy, [], [], [], []⟩
  step := System.step

end RingBuffer

end FoundationComponents
