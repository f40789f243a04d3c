import FoundationComponents.Circular.Basic
import FoundationComponents.RingBuffer.Basic

/-!
# The ring buffer is a bounded FIFO queue

`Fifo` says what the buffer is for, in terms of a list and a flag. The operations of the buffer are
matched with those of the queue one body at a time, through a representation predicate: the cells
from `head` on, around the ring, hold the items of the queue and all others are blank. Both machines
run on the same calls, so the simulation rule gives the refinement for whole sequences.

That the values accepted are those removed followed by those still queued is an invariant of the
abstract queue alone, and carries over.
-/

namespace FoundationComponents

namespace RingBuffer

/-! ## The abstract queue -/

/-- A queue, oldest item first, and whether it has been closed. -/
structure Fifo (α : Type*) where
  items : List α
  closed : Bool
  deriving Repr, DecidableEq

namespace Fifo

variable {α : Type*} (capacity : ℕ) (fullPolicy : FullPolicy) (f : Fifo α)

/-- A closed queue rejects. A full one rejects or drops its oldest item, as the policy says. -/
def push (value : α) : Fifo α × Outcome α × List α :=
  if f.closed then (f, .pushed false, [])
  else if f.items.length = capacity then
    match fullPolicy with
    | .reject => (f, .pushed false, [])
    | .overwriteOldest =>
        ({ f with items := f.items.tail ++ [value] }, .pushed true, f.items.take 1)
  else ({ f with items := f.items ++ [value] }, .pushed true, [])

def pop : Fifo α × Outcome α × List α :=
  match f.items with
  | [] => (f, .nullopt, [])
  | value :: rest => ({ f with items := rest }, .popped value, [value])

/-- The operation has to wait: to push into an open queue that is full and rejects, or to pop from
an open queue that is empty. -/
def mustWait : Call α → Bool
  | .waitPush _ =>
      decide (fullPolicy = .reject) && !f.closed && decide (f.items.length = capacity)
  | .waitPushFor _ timedOut =>
      decide (fullPolicy = .reject) && !f.closed && decide (f.items.length = capacity) && !timedOut
  | .waitPop => !f.closed && f.items.isEmpty
  | .waitPopFor timedOut => !f.closed && f.items.isEmpty && !timedOut
  | _ => false

/-- The queue after an operation, what it returns, and the items it removed. -/
def exec : Call α → Fifo α × Outcome α × List α
  | .tryPush value | .waitPush value | .waitPushFor value _ => f.push capacity fullPolicy value
  | .tryPop | .waitPop | .waitPopFor _ => f.pop
  | .close => ({ f with closed := true }, .done, [])
  | .clear => ({ f with items := [] }, .done, f.items)

end Fifo

/-- The queue with the same records as a `System`. -/
structure FifoSystem (α : Type*) where
  fifo : Fifo α
  calls : List (Call α)
  outcomes : List (Outcome α)
  accepted : List α
  removed : List α

def FifoSystem.step {α : Type*} (capacity : ℕ) (fullPolicy : FullPolicy) (t : FifoSystem α)
    (c : Call α) : Option (FifoSystem α) :=
  if t.fifo.mustWait capacity fullPolicy c then none
  else
    let next := t.fifo.exec capacity fullPolicy c
    some
      { fifo := next.1
        calls := t.calls ++ [c]
        outcomes := t.outcomes ++ [next.2.1]
        accepted := t.accepted ++ c.acceptedValue next.2.1
        removed := t.removed ++ next.2.2 }

/-- The abstract queue under the operations of the buffer. -/
def fifoMachine (α : Type*) (capacity : ℕ) (fullPolicy : FullPolicy) :
    Machine (FifoSystem α) (Call α) where
  init := ⟨⟨[], false⟩, [], [], [], []⟩
  step := FifoSystem.step capacity fullPolicy

section Fifo

variable {α : Type*} {capacity : ℕ} {fullPolicy : FullPolicy}

/-- A push adds at the back what it accepts, and removes at the front. -/
theorem Fifo.push_items (f : Fifo α) (value : α) :
    f.items ++ (if (f.push capacity fullPolicy value).2.1.isAccepted then [value] else []) =
      (f.push capacity fullPolicy value).2.2 ++ (f.push capacity fullPolicy value).1.items := by
  simp only [push]
  split
  · exact List.append_nil _
  split
  · cases fullPolicy with
    | reject => exact List.append_nil _
    | overwriteOldest =>
      rw [← List.append_assoc, ← List.drop_one, List.take_append_drop]
      rfl
  · rfl

theorem Fifo.pop_items (f : Fifo α) : f.items = f.pop.2.2 ++ f.pop.1.items := by
  rw [pop]
  split
  · rename_i hitems
    rw [hitems]
    rfl
  · rename_i hitems
    rw [hitems]
    rfl

theorem Call.acceptedValue_of_value? {c : Call α} (h : c.value? = none) (outcome : Outcome α) :
    c.acceptedValue outcome = [] := by
  rw [acceptedValue, h, Option.toList_none, ite_self]

theorem Fifo.exec_items (f : Fifo α) (c : Call α) :
    f.items ++ c.acceptedValue (f.exec capacity fullPolicy c).2.1 =
      (f.exec capacity fullPolicy c).2.2 ++ (f.exec capacity fullPolicy c).1.items := by
  cases c with
  | tryPush value | waitPush value | waitPushFor value _ => exact f.push_items value
  | tryPop | waitPop | waitPopFor _ =>
    rw [Call.acceptedValue_of_value? rfl, List.append_nil]
    exact f.pop_items
  | close => exact List.append_nil _
  | clear => rfl

/-- **Nothing is lost, duplicated or reordered**: the accepted items are the removed ones followed
by those still queued. -/
theorem accepted_eq_of_reachable {t : FifoSystem α}
    (h : (fifoMachine α capacity fullPolicy).Reachable t) :
    t.accepted = t.removed ++ t.fifo.items := by
  refine Machine.Leads.invariant (I := fun t ↦ t.accepted = t.removed ++ t.fifo.items) h rfl ?_
  intro t c t' ht _ hstep
  simp only [fifoMachine, FifoSystem.step] at hstep
  split at hstep
  · cases hstep
  · obtain rfl := Option.some.inj hstep
    dsimp only
    rw [ht, List.append_assoc, Fifo.exec_items, List.append_assoc]

end Fifo

/-! ## Representation

The cells from `head` on hold the items and all others are blank, as `Holds` has it. So an item is
added by writing one cell and removed by blanking one. -/

/-- A cell that holds a value, and one that holds nothing. -/
def Cell.full {α : Type*} (value : α) : Cell α := ⟨some value, true⟩

def Cell.blank {α : Type*} : Cell α := ⟨none, false⟩

/-- The buffer represents the queue: the cells from `head` on hold its items, and the indices and
the count agree with it. -/
structure Represents {α : Type*} (capacity : ℕ) (fullPolicy : FullPolicy) (r : Ring α)
    (f : Fifo α) : Prop where
  capacity_eq : r.capacity = capacity
  fullPolicy_eq : r.fullPolicy = fullPolicy
  closed_eq : r.closed = f.closed
  size_eq : r.size = f.items.length
  size_le : f.items.length ≤ capacity
  head_lt : r.head < capacity
  tail_eq : r.tail = (r.head + f.items.length) % capacity
  holds : Circular.Holds Cell.blank r.buffer capacity r.head (f.items.map Cell.full)

namespace Represents

variable {α : Type*} {capacity : ℕ} {fullPolicy : FullPolicy} {r : Ring α} {f : Fifo α}

theorem fresh_nil (hcap : 1 ≤ capacity) :
    Represents capacity fullPolicy (fresh α capacity fullPolicy) ⟨[], false⟩ where
  capacity_eq := rfl
  fullPolicy_eq := rfl
  closed_eq := rfl
  size_eq := rfl
  size_le := Nat.zero_le _
  head_lt := hcap
  tail_eq := (Nat.zero_mod _).symm
  holds := Circular.holds_nil fun _ _ ↦ rfl

theorem stats (h : Represents capacity fullPolicy r f) (stats : Stats) :
    Represents capacity fullPolicy { r with stats := stats } f :=
  ⟨h.1, h.2, h.3, h.4, h.5, h.6, h.7, h.8⟩

theorem cell_head {x : α} {l : List α} {closed : Bool}
    (h : Represents capacity fullPolicy r ⟨x :: l, closed⟩) : r.buffer r.head = Cell.full x :=
  h.holds.head_eq h.head_lt

theorem dropHead {x : α} {l : List α} {closed : Bool}
    (h : Represents capacity fullPolicy r ⟨x :: l, closed⟩) :
    Represents capacity fullPolicy r.dropHead ⟨l, closed⟩ := by
  have hsize : r.size = l.length + 1 := h.size_eq
  have hle : l.length + 1 ≤ capacity := h.size_le
  have hnext : r.nextIndex r.head = (r.head + 1) % capacity := by
    rw [Ring.nextIndex, h.capacity_eq]
    exact Circular.next_eq_mod h.head_lt
  have hdestroy : r.destroyAt r.head
      = { r with buffer := Function.update r.buffer r.head Cell.blank } := by
    rw [Ring.destroyAt, h.cell_head, Cell.full, if_pos rfl]
    rfl
  rw [Ring.dropHead, hdestroy, hnext]
  refine ⟨h.capacity_eq, h.fullPolicy_eq, h.closed_eq, ?_, Nat.le_of_succ_le hle,
    Nat.mod_lt _ (Nat.zero_lt_of_lt hle), ?_, ?_⟩
  · rw [hsize]
    rfl
  · rw [Nat.mod_add_mod, Nat.add_assoc, Nat.add_comm 1]
    exact h.tail_eq
  · exact h.holds.tail h.head_lt (by rw [List.length_map]; exact hle)

theorem store (h : Represents capacity fullPolicy r f) (hroom : f.items.length < capacity)
    (value : α) (removed : List α) :
    Represents capacity fullPolicy (r.store value removed).ring
      { f with items := f.items ++ [value] } := by
  have hlength : (f.items ++ [value]).length = f.items.length + 1 := List.length_append
  refine ⟨h.capacity_eq, h.fullPolicy_eq, h.closed_eq, ?_, ?_, h.head_lt, ?_, ?_⟩
  · rw [hlength, ← h.size_eq]
    rfl
  · rw [hlength]
    exact hroom
  · rw [hlength]
    change r.nextIndex r.tail = _
    rw [Ring.nextIndex, h.capacity_eq, h.tail_eq,
      Circular.next_eq_mod (Nat.mod_lt _ (Nat.zero_lt_of_lt hroom)), Nat.mod_add_mod, Nat.add_assoc]
    rfl
  · have happend := h.holds.append (by rwa [List.length_map]) (Cell.full value)
    rw [List.length_map, ← h.tail_eq] at happend
    rw [List.map_append]
    exact happend

end Represents

/-! ## The bodies match the operations of the queue

One lemma for every body under the mutex. The operations that share a body differ in what they wait
for, which changes only whether the body may run. -/

section Match

variable {α : Type*} {capacity : ℕ} {fullPolicy : FullPolicy} {r : Ring α} {f : Fifo α}

/-- A body does to the buffer what an operation does to the queue, returns the same and removes the
same values. -/
structure Matches (capacity : ℕ) (fullPolicy : FullPolicy) (e : Effect α)
    (next : Fifo α × Outcome α × List α) : Prop where
  represents : Represents capacity fullPolicy e.ring next.1
  outcome_eq : e.outcome = next.2.1
  removed_eq : e.removed = next.2.2

theorem matches_pushLocked (hcap : 1 ≤ capacity) (h : Represents capacity fullPolicy r f)
    (value : α) :
    Matches capacity fullPolicy (r.pushLocked value) (f.push capacity fullPolicy value) := by
  simp only [Ring.pushLocked, Fifo.push]
  by_cases hclosed : f.closed = true
  · rw [if_pos (h.closed_eq.trans hclosed), if_pos hclosed]
    exact ⟨h.stats _, rfl, rfl⟩
  rw [if_neg (by rwa [h.closed_eq]), if_neg hclosed]
  by_cases hfull : f.items.length = capacity
  · rw [if_pos (by rw [h.size_eq, h.capacity_eq, hfull]), if_pos hfull, h.fullPolicy_eq]
    cases fullPolicy with
    | reject => exact ⟨h.stats _, rfl, rfl⟩
    | overwriteOldest =>
      obtain ⟨items, closed⟩ := f
      cases items with
      | nil => exact absurd hfull (Nat.ne_of_lt hcap)
      | cons x l =>
        have hroom : l.length < capacity := Nat.lt_of_succ_le (Nat.le_of_eq hfull)
        refine ⟨(h.dropHead.stats _).store hroom value _, rfl, ?_⟩
        rw [h.cell_head]
        rfl
  · rw [if_neg (by rwa [h.size_eq, h.capacity_eq]), if_neg hfull]
    exact ⟨h.store (Nat.lt_of_le_of_ne h.size_le hfull) value [], rfl, rfl⟩

theorem matches_pop (h : Represents capacity fullPolicy r f) :
    Matches capacity fullPolicy (if r.size = 0 then r.failPop else r.popLocked) f.pop := by
  obtain ⟨items, closed⟩ := f
  rw [h.size_eq]
  cases items with
  | nil => exact ⟨h.stats _, rfl, rfl⟩
  | cons x l =>
    have hcell := h.cell_head
    have hne : (x :: l).length ≠ 0 := Nat.succ_ne_zero _
    dsimp only
    rw [if_neg hne]
    refine ⟨h.dropHead.stats _, ?_, ?_⟩
    · rw [Ring.popLocked, hcell]
      rfl
    · rw [Ring.popLocked, hcell]
      rfl

/-- The loop of `clear` empties the buffer, taking the items out in order. -/
theorem clearLoop_spec {items : List α} {closed : Bool}
    (h : Represents capacity fullPolicy r ⟨items, closed⟩) :
    Represents capacity fullPolicy (Ring.clearLoop items.length r).1 ⟨[], closed⟩ ∧
      (Ring.clearLoop items.length r).2 = items := by
  induction items generalizing r with
  | nil => exact ⟨h, rfl⟩
  | cons x l ih =>
    obtain ⟨hrep, hremoved⟩ := ih h.dropHead
    have hpos : r.size > 0 := by
      rw [h.size_eq]
      exact Nat.succ_pos _
    rw [List.length_cons, Ring.clearLoop, if_pos hpos]
    refine ⟨hrep, ?_⟩
    dsimp only
    rw [hremoved, h.cell_head]
    rfl

theorem matches_clear (h : Represents capacity fullPolicy r f) :
    Matches capacity fullPolicy r.clear ({ f with items := [] }, .done, f.items) := by
  obtain ⟨hrep, hremoved⟩ := clearLoop_spec h
  rw [← h.size_eq] at hrep hremoved
  refine ⟨⟨hrep.capacity_eq, hrep.fullPolicy_eq, hrep.closed_eq, hrep.size_eq, Nat.zero_le _,
    Nat.zero_lt_of_lt hrep.head_lt, (Nat.zero_mod _).symm, ?_⟩, rfl, hremoved⟩
  -- an empty window may start anywhere
  refine Circular.holds_nil fun j hj ↦ ?_
  obtain ⟨i, hi, rfl⟩ := Circular.exists_offset (Ring.clearLoop r.size r).1.head hj
  exact hrep.holds i hi

/-- A timed pop fails exactly when it finds no element. -/
theorem exec_waitPopFor (r : Ring α) (timedOut : Bool) :
    r.exec (.waitPopFor timedOut) = if r.size = 0 then r.failPop else r.popLocked := by
  have hready : ((r.closed || decide (r.size > 0)) = false ∨ r.size = 0) ↔ r.size = 0 := by
    refine ⟨fun hfail ↦ ?_, Or.inr⟩
    rcases hfail with hidle | hzero
    · exact Nat.eq_zero_of_not_pos (of_decide_eq_false (Bool.or_eq_false_iff.mp hidle).2)
    · exact hzero
  simp only [Ring.exec, hready]

theorem matches_exec (hcap : 1 ≤ capacity) (h : Represents capacity fullPolicy r f) (c : Call α) :
    Matches capacity fullPolicy (r.exec c) (f.exec capacity fullPolicy c) := by
  cases c with
  | tryPush value | waitPush value => exact matches_pushLocked hcap h value
  | waitPushFor value timedOut =>
    simp only [Ring.exec]
    split
    · exact matches_pushLocked hcap h value
    · -- the time is up on an open buffer that is full and rejects; so would a push be rejected
      rename_i hwait
      obtain ⟨hopen, hslot⟩ := Bool.or_eq_false_iff.mp (Bool.eq_false_iff.mpr hwait)
      obtain ⟨hsize, hpolicy⟩ := Bool.or_eq_false_iff.mp hslot
      rw [decide_eq_false_iff_not, h.size_eq, h.capacity_eq, Nat.not_lt] at hsize
      rw [decide_eq_false_iff_not, h.fullPolicy_eq] at hpolicy
      have hfull : f.items.length = capacity := Nat.le_antisymm h.size_le hsize
      have hpush : f.push capacity fullPolicy value = (f, .pushed false, []) := by
        cases fullPolicy with
        | reject => simp [Fifo.push, ← h.closed_eq, hopen, hfull]
        | overwriteOldest => exact absurd rfl hpolicy
      rw [Fifo.exec, hpush]
      exact ⟨h.stats _, rfl, rfl⟩
  | tryPop | waitPop => exact matches_pop h
  | waitPopFor timedOut =>
    rw [exec_waitPopFor]
    exact matches_pop h
  | close =>
    exact ⟨⟨h.capacity_eq, h.fullPolicy_eq, rfl, h.size_eq, h.size_le, h.head_lt, h.tail_eq,
      h.holds⟩, rfl, rfl⟩
  | clear => exact matches_clear h

/-- The bodies that may run are those that need not wait. -/
theorem enabled_eq (h : Represents capacity fullPolicy r f) (c : Call α) :
    r.enabled c = !f.mustWait capacity fullPolicy c := by
  have hlt : decide (r.size < r.capacity) = !decide (f.items.length = capacity) := by
    rw [h.size_eq, h.capacity_eq, ← decide_not, decide_eq_decide]
    exact ⟨Nat.ne_of_lt, Nat.lt_of_le_of_ne h.size_le⟩
  have hpos : decide (r.size > 0) = !f.items.isEmpty := by
    rw [h.size_eq]
    cases f.items <;> rfl
  have hpolicy : decide (r.fullPolicy = .overwriteOldest) = !decide (fullPolicy = .reject) := by
    rw [h.fullPolicy_eq]
    cases fullPolicy <;> rfl
  cases c with
  | tryPush _ | tryPop | close | clear => rfl
  | waitPush value =>
    rw [Ring.enabled, Fifo.mustWait, hlt, hpolicy, h.closed_eq]
    simp
  | waitPushFor value timedOut =>
    rw [Ring.enabled, Fifo.mustWait, Ring.hasWritableSlotLocked, hlt, hpolicy, h.closed_eq]
    cases f.closed <;> cases decide (fullPolicy = .reject) <;>
      cases decide (f.items.length = capacity) <;> simp
  | waitPop =>
    rw [Ring.enabled, Fifo.mustWait, hpos, h.closed_eq]
    simp
  | waitPopFor timedOut =>
    rw [Ring.enabled, Fifo.mustWait, hpos, h.closed_eq]
    simp

end Match

/-! ## Sequences of operations -/

section Refinement

variable {α : Type*} {capacity : ℕ} {fullPolicy : FullPolicy}

/-- The buffer represents the queue and both have the same records. -/
structure Simulates (capacity : ℕ) (fullPolicy : FullPolicy) (s : System α) (t : FifoSystem α) :
    Prop where
  represents : Represents capacity fullPolicy s.ring t.fifo
  calls_eq : s.calls = t.calls
  outcomes_eq : s.outcomes = t.outcomes
  accepted_eq : s.accepted = t.accepted
  removed_eq : s.removed = t.removed

theorem simulates_step (hcap : 1 ≤ capacity) {s s' : System α} {t : FifoSystem α} {c : Call α}
    (h : Simulates capacity fullPolicy s t) (hstep : s.step c = some s') :
    ∃ t', t.step capacity fullPolicy c = some t' ∧ Simulates capacity fullPolicy s' t' := by
  obtain ⟨hrep, hcalls, houtcomes, haccepted, hremoved⟩ := h
  rw [System.step, enabled_eq hrep] at hstep
  split at hstep
  · rename_i henabled
    obtain rfl := Option.some.inj hstep
    obtain ⟨hrep', houtcome, hremoved'⟩ := matches_exec hcap hrep c
    rw [Bool.not_eq_true'] at henabled
    refine ⟨_, by rw [FifoSystem.step, henabled]; rfl, hrep', ?_, ?_, ?_, ?_⟩
    · rw [hcalls]
    · rw [houtcomes, houtcome]
    · rw [haccepted, houtcome]
    · rw [hremoved, hremoved']
  · cases hstep

theorem exists_simulates_of_reachable (hcap : 1 ≤ capacity) {s : System α}
    (h : (machine α capacity fullPolicy).Reachable s) :
    ∃ t, (fifoMachine α capacity fullPolicy).Reachable t ∧ Simulates capacity fullPolicy s t :=
  h.simulated ⟨Represents.fresh_nil hcap, rfl, rfl, rfl, rfl⟩ fun hR hstep ↦
    simulates_step hcap hR hstep

theorem Represents.storage_eq {r : Ring α} {f : Fifo α} (h : Represents capacity fullPolicy r f)
    {i : ℕ} (hi : i < f.items.length) :
    (r.buffer ((r.head + i) % capacity)).storage = some f.items[i] := by
  rw [h.holds i (hi.trans_le h.size_le), List.getD_eq_getElem _ _ (by rwa [List.length_map]),
    List.getElem_map]
  rfl

theorem Represents.occupied_iff {r : Ring α} {f : Fifo α} (h : Represents capacity fullPolicy r f)
    {j : ℕ} (hj : j < capacity) :
    (r.buffer j).occupied = true ↔ ∃ i < f.items.length, (r.head + i) % capacity = j := by
  obtain ⟨i, hi, rfl⟩ := Circular.exists_offset r.head hj
  rw [h.holds i hi]
  constructor
  · intro hocc
    refine ⟨i, ?_, rfl⟩
    by_contra hge
    rw [List.getD_eq_default _ _ (by rw [List.length_map]; exact Nat.not_lt.mp hge)] at hocc
    cases hocc
  · rintro ⟨k, hk, hki⟩
    obtain rfl := Circular.offset_inj (hk.trans_le h.size_le) hi hki
    rw [List.getD_eq_getElem _ _ (by rwa [List.length_map]), List.getElem_map]
    rfl

/-- **The ring buffer refines a bounded FIFO queue.** For every capacity the constructor accepts and
both policies, every sequence of bodies is matched by the abstract queue, call by call and with the
same outcomes; the queue is laid out in the cells from `head` on, those cells and no others are
marked occupied; and the accepted values are the removed ones followed by the queue. -/
theorem refines_bounded_fifo (hcap : 1 ≤ capacity) {s : System α}
    (h : (machine α capacity fullPolicy).Reachable s) :
    ∃ t, (fifoMachine α capacity fullPolicy).Reachable t ∧
      t.calls = s.calls ∧ t.outcomes = s.outcomes ∧ t.fifo.closed = s.ring.closed ∧
      s.ring.capacity = capacity ∧ t.fifo.items.length = s.ring.size ∧ s.ring.size ≤ capacity ∧
      (∀ i, ∀ hi : i < t.fifo.items.length,
        (s.ring.buffer ((s.ring.head + i) % capacity)).storage = some t.fifo.items[i]) ∧
      (∀ j < capacity, (s.ring.buffer j).occupied = true ↔
        ∃ i < t.fifo.items.length, (s.ring.head + i) % capacity = j) ∧
      s.ring.tail = (s.ring.head + s.ring.size) % capacity ∧
      s.accepted = s.removed ++ t.fifo.items := by
  obtain ⟨t, ht, hsim⟩ := exists_simulates_of_reachable hcap h
  have hrep := hsim.represents
  refine ⟨t, ht, hsim.calls_eq.symm, hsim.outcomes_eq.symm, hrep.closed_eq.symm, hrep.capacity_eq,
    hrep.size_eq.symm, ?_, fun i hi ↦ hrep.storage_eq hi, fun j hj ↦ hrep.occupied_iff hj, ?_, ?_⟩
  · rw [hrep.size_eq]
    exact hrep.size_le
  · rw [hrep.size_eq]
    exact hrep.tail_eq
  · rw [hsim.accepted_eq, hsim.removed_eq]
    exact accepted_eq_of_reachable ht

end Refinement

/-- Two cells that overwrite: the third push drops the first value, and the buffer is drained after
it has been closed. -/
def overwriteAndDrain : List (Call ℕ) :=
  [.tryPush 1, .waitPush 2, .waitPushFor 3 false, .tryPop, .close, .tryPush 4, .waitPop, .waitPop]

theorem refines_bounded_fifo_overwriteAndDrain :
    ∃ s, (machine ℕ 2 .overwriteOldest).Reachable s ∧
      s.outcomes = [.pushed true, .pushed true, .pushed true, .popped 2, .done, .pushed false,
        .popped 3, .nullopt] ∧
      ∃ t, (fifoMachine ℕ 2 .overwriteOldest).Reachable t ∧ t.outcomes = s.outcomes ∧
        s.accepted = s.removed ++ t.fifo.items := by
  obtain ⟨s, hs, houtcomes⟩ := Machine.exists_reachable_of_run
    (M := machine ℕ 2 .overwriteOldest) (fun s ↦ s.outcomes) overwriteAndDrain
    (b := [.pushed true, .pushed true, .pushed true, .popped 2, .done, .pushed false, .popped 3,
      .nullopt]) (by decide +kernel)
  obtain ⟨t, ht, -, hsame, -, -, -, -, -, -, -, haccepted⟩ :=
    refines_bounded_fifo (by decide) hs
  exact ⟨s, hs, houtcomes, t, ht, hsame, haccepted⟩

end RingBuffer

end FoundationComponents
