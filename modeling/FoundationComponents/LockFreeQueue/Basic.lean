import Mathlib.Data.List.Sort
import Mathlib.Data.Nat.Notation
import Mathlib.Logic.Function.Basic
import FoundationComponents.Machine.Basic

/-!
# The bounded lock-free queue

`LockFreeQueue` is a ring of cells, each with a sequence number, and two cursors. A producer may
claim position `pos` when the sequence of cell `pos % capacity` is `pos`, a consumer when it is
`pos + 1`; a successful compare-and-swap on the cursor hands out the position as a *ticket*.
Publishing stores `pos + 1` into the cell, releasing stores `pos + capacity`.

The code is embedded one atomic access at a time. `threadStep` is the only definition of what
`tryPush`, `tryPop` and `close` do; the concurrent system interleaves it over many threads, and a
non-overlapping call is the same function iterated by one thread until it returns. Element
construction, move and destruction are steps of their own, so a thread can be stalled between
winning a ticket and storing the sequence number.

Cursor and sequence arithmetic goes through `CounterArith`, so that the same code can be read over
unbounded counters and over machine words.
-/

namespace FoundationComponents

namespace LockFreeQueue

/-! ## Data -/

/-- The arithmetic of cursors and sequence numbers: addition, and the signed difference on which
the two loops branch. -/
structure CounterArith where
  /-- `a + b` in the counter type. -/
  add : ℕ → ℕ → ℕ
  /-- `static_cast<ptrdiff_t>(a) - static_cast<ptrdiff_t>(b)`. -/
  diff : ℕ → ℕ → ℤ

/-- Counters that never wrap. -/
def CounterArith.unbounded : CounterArith where
  add a b := a + b
  diff a b := (a : ℤ) - (b : ℤ)

@[simp] theorem CounterArith.unbounded_add (a b : ℕ) :
    CounterArith.unbounded.add a b = a + b := rfl

@[simp] theorem CounterArith.unbounded_diff (a b : ℕ) :
    CounterArith.unbounded.diff a b = (a : ℤ) - (b : ℤ) := rfl

/-- What a cell's storage holds: raw bytes, an object, or an object that was moved from and whose
destructor has not run yet. -/
inductive Slot (α : Type*)
  | raw
  | live (value : α)
  | movedFrom
  deriving Repr, DecidableEq

structure Cell (α : Type*) where
  sequence : ℕ
  storage : Slot α
  deriving Repr, DecidableEq

/-- The fields of the class. Only the indices below `capacity` of `buffer` are ever accessed. -/
structure Queue (α : Type*) where
  buffer : ℕ → Cell α
  capacity : ℕ
  enqueuePos : ℕ
  dequeuePos : ℕ
  closed : Bool
  pushes : ℕ
  pops : ℕ
  failedPushes : ℕ
  failedPops : ℕ
  closedPushes : ℕ

/-- The fields the constructor initialises once it has accepted the capacity. -/
def fresh (α : Type*) (capacity : ℕ) : Queue α where
  buffer i := ⟨i, .raw⟩
  capacity := capacity
  enqueuePos := 0
  dequeuePos := 0
  closed := false
  pushes := 0
  pops := 0
  failedPushes := 0
  failedPops := 0
  closedPushes := 0

/-- The constructor. -/
def create (α : Type*) (capacity : ℕ) : Except String (Queue α) :=
  if capacity = 0 then .error "LockFreeQueue capacity must be greater than 0"
  else .ok (fresh α capacity)

/-- The constructor rejects capacity `0` and nothing else. -/
theorem create_eq_ok_iff {α : Type*} {capacity : ℕ} {q : Queue α} :
    create α capacity = .ok q ↔ 1 ≤ capacity ∧ q = fresh α capacity := by
  rw [create]
  by_cases h : capacity = 0
  · simp [h]
  · rw [if_neg h, Except.ok.injEq]
    constructor
    · intro hq
      exact ⟨by omega, hq.symm⟩
    · rintro ⟨-, rfl⟩
      rfl

namespace Queue

variable {α : Type*} (q : Queue α)

/-- The sequence number of the cell a position maps to. -/
def seq (pos : ℕ) : ℕ := (q.buffer (pos % q.capacity)).sequence

/-- The storage of the cell a position maps to. -/
def slot (pos : ℕ) : Slot α := (q.buffer (pos % q.capacity)).storage

/-- Replace the cell a position maps to. -/
def setCell (pos : ℕ) (cell : Cell α) : Queue α :=
  { q with buffer := Function.update q.buffer (pos % q.capacity) cell }

/-- `cell->sequence.store(value)` for the cell of `pos`. -/
def storeSequence (pos value : ℕ) : Queue α := q.setCell pos ⟨value, q.slot pos⟩

/-- A write to the storage of the cell of `pos`. -/
def storeSlot (pos : ℕ) (slot : Slot α) : Queue α := q.setCell pos ⟨q.seq pos, slot⟩

/-- `approximateSize`, read when the cursors do not move. -/
def approximateSize : ℕ :=
  if q.enqueuePos < q.dequeuePos then 0 else min (q.enqueuePos - q.dequeuePos) q.capacity

/-! ### Cells of one residue class -/

@[simp] theorem seq_storeSlot (pos p : ℕ) (x : Slot α) : (q.storeSlot pos x).seq p = q.seq p := by
  by_cases h : p % q.capacity = pos % q.capacity
  · simp [storeSlot, setCell, seq, h]
  · simp [storeSlot, setCell, seq, h]

theorem slot_storeSlot_of_eq {pos p : ℕ} (x : Slot α) (h : p % q.capacity = pos % q.capacity) :
    (q.storeSlot pos x).slot p = x := by
  simp [storeSlot, setCell, slot, h]

theorem slot_storeSlot_of_ne {pos p : ℕ} (x : Slot α) (h : p % q.capacity ≠ pos % q.capacity) :
    (q.storeSlot pos x).slot p = q.slot p := by
  simp [storeSlot, setCell, slot, h]

@[simp] theorem slot_storeSequence (pos p v : ℕ) : (q.storeSequence pos v).slot p = q.slot p := by
  by_cases h : p % q.capacity = pos % q.capacity
  · simp [storeSequence, setCell, slot, h]
  · simp [storeSequence, setCell, slot, h]

theorem seq_storeSequence_of_eq {pos p : ℕ} (v : ℕ) (h : p % q.capacity = pos % q.capacity) :
    (q.storeSequence pos v).seq p = v := by
  simp [storeSequence, setCell, seq, h]

theorem seq_storeSequence_of_ne {pos p : ℕ} (v : ℕ) (h : p % q.capacity ≠ pos % q.capacity) :
    (q.storeSequence pos v).seq p = q.seq p := by
  simp [storeSequence, setCell, seq, h]

theorem seq_congr {p p' : ℕ} (h : p % q.capacity = p' % q.capacity) : q.seq p = q.seq p' := by
  rw [seq, seq, h]

theorem slot_congr {p p' : ℕ} (h : p % q.capacity = p' % q.capacity) : q.slot p = q.slot p' := by
  rw [slot, slot, h]

@[simp] theorem capacity_storeSlot (pos : ℕ) (x : Slot α) :
    (q.storeSlot pos x).capacity = q.capacity := rfl

@[simp] theorem enqueuePos_storeSlot (pos : ℕ) (x : Slot α) :
    (q.storeSlot pos x).enqueuePos = q.enqueuePos := rfl

@[simp] theorem dequeuePos_storeSlot (pos : ℕ) (x : Slot α) :
    (q.storeSlot pos x).dequeuePos = q.dequeuePos := rfl

@[simp] theorem capacity_storeSequence (pos v : ℕ) :
    (q.storeSequence pos v).capacity = q.capacity := rfl

@[simp] theorem enqueuePos_storeSequence (pos v : ℕ) :
    (q.storeSequence pos v).enqueuePos = q.enqueuePos := rfl

@[simp] theorem dequeuePos_storeSequence (pos v : ℕ) :
    (q.storeSequence pos v).dequeuePos = q.dequeuePos := rfl

end Queue

/-! ## Calls and the steps of one thread

Every access to a shared atomic is a step. What a thread has read it keeps in its position, so that
the next access can be told from the position alone. -/

/-- The three operations a thread can call. -/
inductive Call (α : Type*)
  | tryPush (value : α)
  | tryPop
  | close
  deriving Repr, DecidableEq

/-- What a call returns. `undefined` stands for a `tryPop` that moved out of storage holding no
object. -/
inductive Result (α : Type*)
  | pushed (accepted : Bool)
  | popped (value : α)
  | nullopt
  | undefined
  | closed
  deriving Repr, DecidableEq

/-- The value a `tryPop` returns after moving out of a cell. -/
def Slot.toResult {α : Type*} : Slot α → Result α
  | .live v => .popped v
  | _ => .undefined

/-- Where a thread stands. Each constructor but `idle` names the next atomic access. -/
inductive Pc (α : Type*)
  | idle
  | pushLoadClosed (value : α)
  | pushCountClosed (value : α)
  | pushCountFailed (value : α)
  | pushLoadPos (value : α)
  | pushLoadSequence (value : α) (pos : ℕ)
  | pushCas (value : α) (pos : ℕ)
  | pushConstruct (value : α) (pos : ℕ)
  | pushPublish (value : α) (pos : ℕ)
  | pushCount (value : α) (pos : ℕ)
  | popLoadPos
  | popLoadSequence (pos : ℕ)
  | popCas (pos : ℕ)
  | popCountFailed
  | popMove (pos : ℕ)
  | popDestroy (pos : ℕ) (result : Slot α)
  | popRelease (pos : ℕ) (result : Slot α)
  | popCount (pos : ℕ) (result : Slot α)
  | closeStore
  deriving Repr, DecidableEq

/-- The first access of a call. -/
def Call.entry {α : Type*} : Call α → Pc α
  | .tryPush v => .pushLoadClosed v
  | .tryPop => .popLoadPos
  | .close => .closeStore

/-- What a step makes observable: the ticket it won, what the cell held when an element was
constructed in it or moved out of it, and the value a call returned together with its ticket. -/
inductive Event (α : Type*)
  | enqueueWon (ticket : ℕ) (value : α)
  | dequeueWon (ticket : ℕ)
  | constructed (ticket : ℕ) (slot : Slot α)
  | movedOut (ticket : ℕ) (held : Slot α)
  | returned (call : Call α) (ticket : Option ℕ) (result : Result α)
  deriving Repr, DecidableEq

/-- One atomic access of the thread at `pc`: the queue afterwards, the thread's next position, and
the event of the step, if any. `spurious` makes a `compare_exchange_weak` fail even though the
cursor has the expected value. -/
def threadStep {α : Type*} (κ : CounterArith) (q : Queue α) (spurious : Bool) :
    Pc α → Queue α × Pc α × List (Event α)
  | .idle => (q, .idle, [])
  | .pushLoadClosed v =>
      if q.closed then (q, .pushCountClosed v, []) else (q, .pushLoadPos v, [])
  | .pushCountClosed v =>
      ({ q with closedPushes := q.closedPushes + 1 }, .pushCountFailed v, [])
  | .pushCountFailed v =>
      ({ q with failedPushes := q.failedPushes + 1 }, .idle,
        [.returned (.tryPush v) none (.pushed false)])
  | .pushLoadPos v => (q, .pushLoadSequence v q.enqueuePos, [])
  | .pushLoadSequence v pos =>
      if κ.diff (q.seq pos) pos = 0 then (q, .pushCas v pos, [])
      else if κ.diff (q.seq pos) pos < 0 then (q, .pushCountFailed v, [])
      else (q, .pushLoadPos v, [])
  | .pushCas v pos =>
      if q.enqueuePos = pos ∧ spurious = false then
        ({ q with enqueuePos := κ.add pos 1 }, .pushConstruct v pos, [.enqueueWon pos v])
      -- a failed exchange writes the cursor it found into `pos`
      else (q, .pushLoadSequence v q.enqueuePos, [])
  | .pushConstruct v pos =>
      (q.storeSlot pos (.live v), .pushPublish v pos, [.constructed pos (q.slot pos)])
  | .pushPublish v pos => (q.storeSequence pos (κ.add pos 1), .pushCount v pos, [])
  | .pushCount v pos =>
      ({ q with pushes := q.pushes + 1 }, .idle,
        [.returned (.tryPush v) (some pos) (.pushed true)])
  | .popLoadPos => (q, .popLoadSequence q.dequeuePos, [])
  | .popLoadSequence pos =>
      if κ.diff (q.seq pos) (κ.add pos 1) = 0 then (q, .popCas pos, [])
      else if κ.diff (q.seq pos) (κ.add pos 1) < 0 then (q, .popCountFailed, [])
      else (q, .popLoadPos, [])
  | .popCas pos =>
      if q.dequeuePos = pos ∧ spurious = false then
        ({ q with dequeuePos := κ.add pos 1 }, .popMove pos, [.dequeueWon pos])
      else (q, .popLoadSequence q.dequeuePos, [])
  | .popCountFailed =>
      ({ q with failedPops := q.failedPops + 1 }, .idle, [.returned .tryPop none .nullopt])
  | .popMove pos =>
      (q.storeSlot pos .movedFrom, .popDestroy pos (q.slot pos), [.movedOut pos (q.slot pos)])
  | .popDestroy pos result => (q.storeSlot pos .raw, .popRelease pos result, [])
  | .popRelease pos result =>
      (q.storeSequence pos (κ.add pos q.capacity), .popCount pos result, [])
  | .popCount pos result =>
      ({ q with pops := q.pops + 1 }, .idle, [.returned .tryPop (some pos) result.toResult])
  | .closeStore => ({ q with closed := true }, .idle, [.returned .close none .closed])

/-! ## Many threads

The threads share the queue and nothing else. The events are recorded with the threads that caused
them. -/

/-- The shared queue, the position of every thread, and the events so far with the threads that
caused them, oldest first. -/
structure System (α : Type*) (n : ℕ) where
  queue : Queue α
  threads : Fin n → Pc α
  history : List (Fin n × Event α)

/-- An idle thread starts a call, or a thread inside a call performs its next access. -/
inductive Action (α : Type*) (n : ℕ)
  | call (thread : Fin n) (call : Call α)
  | step (thread : Fin n) (spurious : Bool)
  deriving Repr, DecidableEq

def Pc.isIdle {α : Type*} : Pc α → Bool
  | .idle => true
  | _ => false

@[simp] theorem Pc.isIdle_iff {α : Type*} {pc : Pc α} : pc.isIdle = true ↔ pc = .idle := by
  cases pc <;> simp [Pc.isIdle]

/-- Thread `t` moves: the queue, its position and the events are those of one access. -/
def System.move {α : Type*} {n : ℕ} (s : System α n) (t : Fin n)
    (next : Queue α × Pc α × List (Event α)) : System α n where
  queue := next.1
  threads := Function.update s.threads t next.2.1
  history := s.history ++ next.2.2.map fun e ↦ (t, e)

theorem System.threads_move_self {α : Type*} {n : ℕ} (s : System α n) (t : Fin n)
    (next : Queue α × Pc α × List (Event α)) : (s.move t next).threads t = next.2.1 :=
  Function.update_self ..

theorem System.threads_move_of_ne {α : Type*} {n : ℕ} (s : System α n) {t u : Fin n} (h : u ≠ t)
    (next : Queue α × Pc α × List (Event α)) : (s.move t next).threads u = s.threads u :=
  Function.update_of_ne h ..

/-- The interleaving semantics. -/
def System.step {α : Type*} {n : ℕ} (κ : CounterArith) (s : System α n) :
    Action α n → Option (System α n)
  | .call t c =>
      if (s.threads t).isIdle then some (s.move t (s.queue, c.entry, [])) else none
  | .step t spurious =>
      if (s.threads t).isIdle then none
      else some (s.move t (threadStep κ s.queue spurious (s.threads t)))

/-- `n` threads sharing a fresh queue. -/
def machine (κ : CounterArith) (α : Type*) (capacity n : ℕ) :
    Machine (System α n) (Action α n) where
  init := ⟨fresh α capacity, fun _ ↦ .idle, []⟩
  step := System.step κ

/-- No call is in progress. -/
def System.Quiescent {α : Type*} {n : ℕ} (s : System α n) : Prop :=
  ∀ t, s.threads t = .idle

/-! ## Reading the history

Tickets are won and returned in different orders. Most of what is said of a run compares the two by
ticket. -/

variable {α : Type*} {n : ℕ}

/-- The tickets won by producers, with the values they push, in the order they were won. -/
def enqueueWins (history : List (Fin n × Event α)) : List (ℕ × α) :=
  history.filterMap fun
    | (_, .enqueueWon ticket v) => some (ticket, v)
    | _ => none

/-- The tickets won by consumers, in the order they were won. -/
def dequeueWins (history : List (Fin n × Event α)) : List ℕ :=
  history.filterMap fun
    | (_, .dequeueWon ticket) => some ticket
    | _ => none

/-- The values of the `tryPush` calls that returned true, with their tickets. -/
def accepted (history : List (Fin n × Event α)) : List (ℕ × α) :=
  history.filterMap fun
    | (_, .returned (.tryPush v) (some ticket) (.pushed true)) => some (ticket, v)
    | _ => none

/-- What the `tryPop` calls that won a ticket returned, with their tickets. -/
def popReturns (history : List (Fin n × Event α)) : List (ℕ × Result α) :=
  history.filterMap fun
    | (_, .returned .tryPop (some ticket) r) => some (ticket, r)
    | _ => none

/-- The values returned by `tryPop` calls, with their tickets. -/
def popped (history : List (Fin n × Event α)) : List (ℕ × α) :=
  (popReturns history).filterMap fun
    | (ticket, .popped v) => some (ticket, v)
    | _ => none

/-- The values of a list of tickets and values, in ticket order. -/
def byTicket (l : List (ℕ × α)) : List α :=
  (l.mergeSort fun a b ↦ decide (a.1 ≤ b.1)).map Prod.snd

end LockFreeQueue

end FoundationComponents
