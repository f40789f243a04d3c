import Mathlib.Algebra.Order.Ring.Int
import Mathlib.Data.List.AList
import FoundationComponents.Machine.Basic
import FoundationComponents.MinQueue.Basic

/-!
# The timer

`HighPerformanceTimer` keeps the active timers in a map and their deadlines in a priority queue. A
cancelled or rescheduled timer is not searched for in the queue: its old item stays there and is
recognised as stale later, because the map has no entry for its id, or one with another generation
or deadline.

The map, the queue and the counters are guarded by one mutex. The definitions are the critical
sections of the operations and of the scheduler thread, each run as a whole; whatever a thread does
between two sections touches none of this state. A pass of the scheduler runs with the mutex held
until the scheduler waits or has drained the due timers.

The queue is any min-queue, and times are nanoseconds. How a duration is added to a time point is a
parameter, since the 64-bit result may wrap. The loops of a pass run for as long as they need: the
label of a pass bounds them, and a pass that does not finish within its bound is not a step.
-/

namespace FoundationComponents

namespace HighPerformanceTimer

/-! ## Data -/

/-- The arithmetic of time points. -/
structure TimeArith where
  /-- A time point in nanoseconds plus a duration in milliseconds. -/
  addMillis : ℤ → ℤ → ℤ

/-- Time points that never overflow. -/
def TimeArith.exact : TimeArith where
  addMillis time milliseconds := time + milliseconds * 10 ^ 6

/-- `invalid_timer_id`. -/
def invalidTimerId : ℕ := 0

/-- An active timer. `addTimer` only lets positive intervals through for repeating timers. -/
structure TimerEntry (γ : Type*) where
  id : ℕ
  deadline : ℤ
  interval : ℤ
  repeating : Bool
  generation : ℕ
  callback : γ
  interval_pos : repeating = true → 0 < interval
  deriving DecidableEq

structure HeapItem where
  deadline : ℤ
  id : ℕ
  generation : ℕ
  deriving Repr, DecidableEq

/-- `operator>`. -/
def HeapItem.after (item other : HeapItem) : Bool :=
  if item.deadline ≠ other.deadline then decide (item.deadline > other.deadline)
  else decide (item.id > other.id)

theorem HeapItem.after_eq_false_iff {item other : HeapItem} :
    item.after other = false ↔ item.deadline < other.deadline ∨
      item.deadline = other.deadline ∧ item.id ≤ other.id := by
  rw [after]
  split
  · rename_i hne
    rw [decide_eq_false_iff_not, Int.not_lt]
    constructor
    · intro hle
      exact Or.inl (lt_of_le_of_ne hle hne)
    · rintro (hlt | ⟨heq, -⟩)
      · exact hlt.le
      · exact heq.le
  · rename_i heq
    rw [not_ne_iff] at heq
    rw [decide_eq_false_iff_not, Nat.not_lt]
    constructor
    · intro hle
      exact Or.inr ⟨heq, hle⟩
    · rintro (hlt | ⟨-, hle⟩)
      · exact absurd heq hlt.ne
      · exact hle

instance : Std.Total fun item other : HeapItem ↦ item.after other = false where
  total item other := by
    rw [HeapItem.after_eq_false_iff, HeapItem.after_eq_false_iff]
    omega

instance : IsTrans HeapItem fun item other ↦ item.after other = false where
  trans a b c := by
    rw [HeapItem.after_eq_false_iff, HeapItem.after_eq_false_iff, HeapItem.after_eq_false_iff]
    omega

/-- The heap item that `addTimer` and the drain loop push for an entry. -/
def TimerEntry.item {γ : Type*} (entry : TimerEntry γ) : HeapItem :=
  ⟨entry.deadline, entry.id, entry.generation⟩

/-- The std::priority_queue of the source: any min-queue of heap items. -/
abbrev Heap := MinQueue HeapItem HeapItem.after

/-- The fields under the mutex. -/
structure State (γ : Type*) (Q : Heap) where
  heap : Q.Carrier
  timers : AList fun _ : ℕ ↦ TimerEntry γ
  shuttingDown : Bool
  nextId : ℕ
  scheduled : ℕ
  cancelled : ℕ
  fired : ℕ

namespace State

variable {γ : Type*} {Q : Heap} (st : State γ Q)

/-! ## The sections of the public operations -/

/-- `timers.emplace`. -/
def emplace (id : ℕ) (entry : TimerEntry γ) : AList fun _ : ℕ ↦ TimerEntry γ :=
  if id ∈ st.timers then st.timers else st.timers.insert id entry

/-- `next_id++`, skipping the invalid id. -/
def followingId : ℕ :=
  if (st.nextId + 1) % 2 ^ 64 = invalidTimerId then 1 else (st.nextId + 1) % 2 ^ 64

/-- The section of `addTimer`, for an entry that has not got its id yet. -/
def insertTimer (entry : TimerEntry γ) : State γ Q × ℕ :=
  if st.shuttingDown then (st, invalidTimerId)
  else
    let entry := { entry with id := st.nextId, generation := 1 }
    ({ st with
        nextId := st.followingId
        timers := st.emplace st.nextId entry
        heap := Q.push entry.item st.heap
        scheduled := st.scheduled + 1 }, st.nextId)

/-- `addTimer`. A missing callback and a repeating timer without a positive interval are errors, and
a deadline in the past is moved to `now`, the reading of the clock before the mutex is taken. -/
def addTimer (now deadline interval : ℤ) (repeating : Bool) (callback : Option γ) :
    Except String (State γ Q × ℕ) :=
  match callback with
  | none => .error "HighPerformanceTimer callback cannot be empty"
  | some callback =>
      if h : repeating = true ∧ interval ≤ 0 then
        .error "HighPerformanceTimer interval must be positive"
      else .ok (st.insertTimer
        { id := invalidTimerId
          deadline := if deadline < now then now else deadline
          interval := interval
          repeating := repeating
          generation := 0
          callback := callback
          interval_pos := fun hrepeating ↦ Int.not_le.mp fun hle ↦ h ⟨hrepeating, hle⟩ })

/-- `cancel`. -/
def cancel (id : ℕ) : State γ Q × Bool :=
  if id = invalidTimerId then (st, false)
  else if id ∈ st.timers then
    ({ st with timers := st.timers.erase id, cancelled := st.cancelled + 1 }, true)
  else (st, false)

/-- `cancelAll`. -/
def cancelAll : State γ Q × ℕ :=
  ({ st with timers := ∅, cancelled := st.cancelled + st.timers.entries.length },
    st.timers.entries.length)

/-- The first section of `shutdown`. -/
def shutdown : State γ Q := { st with shuttingDown := true, timers := ∅ }

/-! ## A pass of the scheduler

The loops have a bound on their iterations, and no result if they exceed it. That they end is shown
with the other results about a pass. -/

/-- `isCurrent`. -/
def isCurrent (item : HeapItem) : Bool :=
  match st.timers.lookup item.id with
  | none => false
  | some entry =>
      decide (entry.generation = item.generation) && decide (entry.deadline = item.deadline)

def discardStaleHeapItems : State γ Q :=
  { st with heap := Q.discardWhile (fun item ↦ !st.isCurrent item) st.heap }

/-- `while (next_deadline <= now) next_deadline += interval;` -/
def advance (κ : TimeArith) (now interval : ℤ) : ℕ → ℤ → Option ℤ
  | 0, next => if next ≤ now then none else some next
  | fuel + 1, next =>
      if next ≤ now then advance κ now interval fuel (κ.addMillis next interval) else some next

/-- The body of the drain loop for the current item on top and its entry: a repeating timer gets its
next deadline and a new item, a one-shot timer is erased. -/
def fire (κ : TimeArith) (now : ℤ) (fuel : ℕ) (item : HeapItem) (entry : TimerEntry γ) :
    Option (State γ Q) :=
  if entry.repeating then
    (advance κ now entry.interval fuel (κ.addMillis entry.deadline entry.interval)).map fun next ↦
      let entry :=
        { entry with deadline := next, generation := (entry.generation + 1) % 2 ^ 64 }
      { st with
        heap := Q.push entry.item (Q.pop st.heap)
        timers := st.timers.insert item.id entry
        fired := st.fired + 1 }
  else
    some
      { st with
        heap := Q.pop st.heap
        timers := st.timers.erase item.id
        fired := st.fired + 1 }

/-- The drain loop, at most `fuel` iterations: the state it leaves and the entries whose callbacks
it put into `due_callbacks`, in order. -/
def drain (κ : TimeArith) (now : ℤ) : ℕ → State γ Q → Option (State γ Q × List (TimerEntry γ))
  | 0, _ => none
  | fuel + 1, st =>
      if (Q.top st.heap).isNone then some (st, [])
      else
        let st := st.discardStaleHeapItems
        match Q.top st.heap with
        | none => some (st, [])
        | some item =>
            if item.deadline > now then some (st, [])
            else
              -- both tests repeat `isCurrent`
              match st.timers.lookup item.id with
              | none => drain κ now fuel { st with heap := Q.pop st.heap }
              | some entry =>
                  if entry.generation ≠ item.generation ∨ entry.deadline ≠ item.deadline then
                    drain κ now fuel { st with heap := Q.pop st.heap }
                  else
                    (st.fire κ now fuel item entry).bind fun st ↦
                      (drain κ now fuel st).map fun next ↦ (next.1, entry :: next.2)

/-- How a pass ends: the scheduler exits, waits (until a deadline, if it has one), or goes on to
enqueue the callbacks of the entries it took. -/
inductive Pass (γ : Type*)
  | exit
  | wait (deadline : Option ℤ)
  | enqueue (due : List (TimerEntry γ))

/-- One pass of `schedulerLoop` with the mutex held. `now` and `now'` are the two readings of the
clock. -/
def schedulerPass (κ : TimeArith) (now now' : ℤ) (fuel : ℕ) : Option (State γ Q × Pass γ) :=
  if st.shuttingDown then some (st, .exit)
  else
    let st := st.discardStaleHeapItems
    match Q.top st.heap with
    | none => some (st, .wait none)
    | some item =>
        if item.deadline > now then some (st, .wait (some item.deadline))
        else (drain κ now' fuel st).map fun next ↦ (next.1, .enqueue next.2)

end State

/-! ## Interleavings of sections -/

/-- What a section makes observable. -/
inductive Event (γ : Type*)
  | scheduled (entry : TimerEntry γ)
  | cancelled (id : ℕ)
  | cancelledAll (ids : List ℕ)
  | dropped (ids : List ℕ)
  | fired (entry : TimerEntry γ)
  deriving DecidableEq

/-- The state and the events so far, oldest first. -/
structure System (γ : Type*) (Q : Heap) where
  state : State γ Q
  history : List (Event γ)

inductive Action (γ : Type*)
  | addTimer (now deadline interval : ℤ) (repeating : Bool) (callback : Option γ)
  | cancel (id : ℕ)
  | cancelAll
  | shutdown
  | schedulerPass (now now' : ℤ) (fuel : ℕ)

namespace System

variable {γ : Type*} {Q : Heap} (s : System γ Q)

/-- The event of a call of `addTimer` that returned `id`. -/
def scheduledEvents (st : State γ Q) (id : ℕ) : List (Event γ) :=
  if id = invalidTimerId then [] else ((st.timers.lookup id).map Event.scheduled).toList

def firedEvents : State.Pass γ → List (Event γ)
  | .enqueue due => due.map Event.fired
  | _ => []

/-- One section. A call that throws changes nothing. -/
def step (κ : TimeArith) : Action γ → Option (System γ Q)
  | .addTimer now deadline interval repeating callback =>
      match s.state.addTimer now deadline interval repeating callback with
      | .error _ => some s
      | .ok (st, id) => some ⟨st, s.history ++ scheduledEvents st id⟩
  | .cancel id =>
      some ⟨(s.state.cancel id).1,
        s.history ++ if (s.state.cancel id).2 then [.cancelled id] else []⟩
  | .cancelAll => some ⟨s.state.cancelAll.1, s.history ++ [.cancelledAll s.state.timers.keys]⟩
  | .shutdown => some ⟨s.state.shutdown, s.history ++ [.dropped s.state.timers.keys]⟩
  | .schedulerPass now now' fuel =>
      (s.state.schedulerPass κ now now' fuel).map fun next ↦
        ⟨next.1, s.history ++ firedEvents next.2⟩

end System

/-- The sections of any number of threads and of the scheduler, in any order. -/
def machine (κ : TimeArith) (γ : Type*) (Q : Heap) : Machine (System γ Q) (Action γ) where
  init :=
    { state :=
        { heap := Q.empty
          timers := ∅
          shuttingDown := false
          nextId := 1
          scheduled := 0
          cancelled := 0
          fired := 0 }
      history := [] }
  step s := s.step κ

end HighPerformanceTimer

end FoundationComponents
