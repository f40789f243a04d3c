import Mathlib.Data.Nat.ModEq
import FoundationComponents.LockFreeQueue.Solo

/-!
# Non-overlapping calls

Calls that run alone, one after the other, are compared with a list bounded by the capacity. They
agree for every capacity of at least two. With one cell the free code of a ticket is the full code
of the ticket before it, so a `tryPush` on the full queue takes the occupied cell for a free one: it
overwrites the element it holds and reports success, and the next `tryPop` never returns. The
agreement is therefore characterized exactly, for each capacity the constructor accepts and each
sequence of calls.
-/

namespace FoundationComponents

namespace LockFreeQueue

variable {α : Type*}

/-! ## Running alone over unbounded counters

With unbounded counters the three signs of the difference are three comparisons of naturals. -/

/-- The thread at `pc`, alone, comes back with `q'` and the events `evs`. -/
def Returns (spurious : List Bool) (q : Queue α) (pc : Pc α) (q' : Queue α)
    (evs : List (Event α)) : Prop :=
  ∃ fuel, solo .unbounded fuel spurious q pc = some (q', evs)

/-- A call that returns does so in one way. -/
theorem Returns.unique {spurious : List Bool} {q q' q'' : Queue α} {pc : Pc α}
    {evs evs' : List (Event α)} (h : Returns spurious q pc q' evs)
    (h' : Returns spurious q pc q'' evs') : q' = q'' ∧ evs = evs' :=
  ReturnsBy.unique h h'

/-- The queue after a `tryPush` that claimed its cell. -/
def Queue.afterPush (q : Queue α) (v : α) : Queue α :=
  let claimed := { q with enqueuePos := q.enqueuePos + 1 }
  { (claimed.storeSlot q.enqueuePos (.live v)).storeSequence q.enqueuePos (q.enqueuePos + 1) with
    pushes := q.pushes + 1 }

/-- The queue after a `tryPop` that claimed its cell. -/
def Queue.afterPop (q : Queue α) : Queue α :=
  let claimed := { q with dequeuePos := q.dequeuePos + 1 }
  let moved := claimed.storeSlot q.dequeuePos .movedFrom
  { (moved.storeSlot q.dequeuePos .raw).storeSequence q.dequeuePos (q.dequeuePos + q.capacity) with
    pops := q.pops + 1 }

theorem returns_tryPush_of_free (spurious : List Bool) {q : Queue α} (v : α)
    (hclosed : q.closed = false) (hseq : q.seq q.enqueuePos = q.enqueuePos) :
    Returns spurious q (Call.tryPush v).entry (q.afterPush v)
      [.enqueueWon q.enqueuePos v, .constructed q.enqueuePos (q.slot q.enqueuePos),
        .returned (.tryPush v) (some q.enqueuePos) (.pushed true)] :=
  ReturnsBy.tryPush_of_free spurious v hclosed (by simp [hseq])

private theorem returns_tryPush_of_closed (spurious : List Bool) {q : Queue α} (v : α)
    (hclosed : q.closed = true) :
    Returns spurious q (Call.tryPush v).entry
      { q with closedPushes := q.closedPushes + 1, failedPushes := q.failedPushes + 1 }
      [.returned (.tryPush v) none (.pushed false)] :=
  ReturnsBy.tryPush_of_closed spurious v hclosed

theorem returns_tryPush_of_full (spurious : List Bool) {q : Queue α} (v : α)
    (hclosed : q.closed = false) (hseq : q.seq q.enqueuePos < q.enqueuePos) :
    Returns spurious q (Call.tryPush v).entry { q with failedPushes := q.failedPushes + 1 }
      [.returned (.tryPush v) none (.pushed false)] :=
  ReturnsBy.tryPush_of_full spurious v hclosed (by rw [CounterArith.unbounded_diff]; omega)

theorem returns_tryPop_of_full (spurious : List Bool) {q : Queue α}
    (hseq : q.seq q.dequeuePos = q.dequeuePos + 1) :
    Returns spurious q (Call.tryPop : Call α).entry q.afterPop
      [.dequeueWon q.dequeuePos, .movedOut q.dequeuePos (q.slot q.dequeuePos),
        .returned .tryPop (some q.dequeuePos) (q.slot q.dequeuePos).toResult] :=
  ReturnsBy.tryPop_of_full spurious (by simp [hseq])

theorem returns_tryPop_of_empty (spurious : List Bool) {q : Queue α}
    (hseq : q.seq q.dequeuePos ≤ q.dequeuePos) :
    Returns spurious q (Call.tryPop : Call α).entry { q with failedPops := q.failedPops + 1 }
      [.returned .tryPop none .nullopt] := by
  refine ReturnsBy.tryPop_of_empty spurious ?_
  rw [CounterArith.unbounded_diff, CounterArith.unbounded_add]
  omega

theorem returns_close (spurious : List Bool) (q : Queue α) :
    Returns spurious q (Call.close : Call α).entry { q with closed := true }
      [.returned .close none .closed] :=
  ReturnsBy.of_idle rfl

/-! ## The bounded list -/

/-- The queue a caller has in mind: the elements, oldest first, and whether it is closed. -/
structure Fifo (α : Type*) where
  items : List α
  closed : Bool
  deriving Repr, DecidableEq

/-- What a call on a list bounded by `capacity` does and returns. -/
def Fifo.exec (capacity : ℕ) (f : Fifo α) : Call α → Fifo α × Result α
  | .tryPush v =>
      if f.closed = false ∧ f.items.length < capacity then
        ({ f with items := f.items ++ [v] }, .pushed true)
      else (f, .pushed false)
  | .tryPop =>
      match f.items with
      | [] => (f, .nullopt)
      | v :: items => ({ f with items := items }, .popped v)
  | .close => ({ f with closed := true }, .closed)

/-- The storage of the cells between the two cursors, oldest first. -/
def Queue.contents (q : Queue α) : List (Slot α) :=
  (List.range (q.enqueuePos - q.dequeuePos)).map fun i ↦ q.slot (q.dequeuePos + i)

/-- The results among the events of a call. -/
def results (evs : List (Event α)) : List (Result α) :=
  evs.filterMap fun
    | .returned _ _ r => some r
    | _ => none

/-- The call `c` on `q` terminates in `q'`, returns what the bounded list `f` returns, leaves the
elements and the closed flag of the list afterwards, and constructs no element in a cell that still
holds an unread one. -/
def CallAgrees (capacity : ℕ) (f : Fifo α) (spurious : List Bool) (q : Queue α) (c : Call α)
    (q' : Queue α) : Prop :=
  ∃ evs, Returns spurious q c.entry q' evs ∧
    results evs = [(f.exec capacity c).2] ∧
    q'.contents = (f.exec capacity c).1.items.map .live ∧
    q'.closed = (f.exec capacity c).1.closed ∧
    ∀ p v, .constructed p (.live v) ∉ evs

/-- Every call of the sequence agrees with the bounded list, the spurious failures of each call's
exchanges being given with it. -/
def Agrees (capacity : ℕ) : Queue α → Fifo α → List (Call α × List Bool) → Prop
  | _, _, [] => True
  | q, f, (c, spurious) :: calls =>
      ∃ q', CallAgrees capacity f spurious q c q' ∧
        Agrees capacity q' (f.exec capacity c).1 calls

/-- No `tryPush` of the sequence meets an open queue that already holds `capacity` elements. -/
def NeverPushesFull (capacity : ℕ) : Fifo α → List (Call α) → Prop
  | _, [] => True
  | f, c :: calls =>
      (∀ v, c = .tryPush v → f.closed = false → f.items.length < capacity) ∧
        NeverPushesFull capacity (f.exec capacity c).1 calls

/-! ## Representation between calls

A call that succeeds moves one cursor and raises one sequence. The two codes of a ticket, and that
of the next round, keep the cells apart. -/

/-- Between calls the tickets from the dequeue cursor on are full, in list order, up to the enqueue
cursor, and free for the rest of the round. -/
structure Represents (capacity : ℕ) (q : Queue α) (f : Fifo α) : Prop where
  capacity_eq : q.capacity = capacity
  closed_eq : q.closed = f.closed
  enqueue_eq : q.enqueuePos = q.dequeuePos + f.items.length
  length_le : f.items.length ≤ capacity
  full : ∀ i v, f.items[i]? = some v →
    q.seq (q.dequeuePos + i) = q.dequeuePos + i + 1 ∧ q.slot (q.dequeuePos + i) = .live v
  free : ∀ p, q.enqueuePos ≤ p → p < q.dequeuePos + capacity → q.seq p = p ∧ q.slot p = .raw

/-- Two tickets less than a round apart are in different cells. -/
theorem mod_ne_of_lt {capacity p p' : ℕ} (h : p < p') (h' : p' < p + capacity) :
    p % capacity ≠ p' % capacity := by
  intro hmod
  have := Nat.ModEq.add_le_of_lt (m := capacity) hmod h
  omega

namespace Represents

variable {capacity : ℕ} {q : Queue α} {f : Fifo α}

theorem fresh_nil (capacity : ℕ) : Represents capacity (fresh α capacity) ⟨[], false⟩ where
  capacity_eq := rfl
  closed_eq := rfl
  enqueue_eq := rfl
  length_le := Nat.zero_le _
  full := fun i v h ↦ by simp at h
  free := fun p _ hp ↦ by
    have hp' : p < capacity := by simpa [fresh] using hp
    exact ⟨Nat.mod_eq_of_lt hp', rfl⟩

theorem contents_eq (h : Represents capacity q f) : q.contents = f.items.map .live := by
  rw [Queue.contents, h.enqueue_eq, Nat.add_sub_cancel_left]
  refine List.ext_getElem? fun i ↦ ?_
  by_cases hi : i < f.items.length
  · rw [List.getElem?_map, List.getElem?_map, List.getElem?_range hi,
      List.getElem?_eq_getElem hi]
    exact congrArg some (h.full i f.items[i] (List.getElem?_eq_getElem hi)).2
  · rw [List.getElem?_eq_none (by simpa using hi), List.getElem?_eq_none (by simpa using hi)]

theorem of_eq {r : Queue α} (h : Represents capacity q f) (hbuffer : r.buffer = q.buffer)
    (hcap : r.capacity = q.capacity) (henq : r.enqueuePos = q.enqueuePos)
    (hdeq : r.dequeuePos = q.dequeuePos) (hclosed : r.closed = q.closed) :
    Represents capacity r f := by
  have hseq : r.seq = q.seq := by
    funext p
    rw [Queue.seq, Queue.seq, hbuffer, hcap]
  have hslot : r.slot = q.slot := by
    funext p
    rw [Queue.slot, Queue.slot, hbuffer, hcap]
  refine ⟨hcap.trans h.capacity_eq, hclosed.trans h.closed_eq, ?_, h.length_le, ?_, ?_⟩
  · rw [henq, hdeq, h.enqueue_eq]
  · rw [hseq, hslot, hdeq]
    exact h.full
  · rw [hseq, hslot, henq, hdeq]
    exact h.free

theorem close (h : Represents capacity q f) :
    Represents capacity { q with closed := true } { f with closed := true } :=
  ⟨h.capacity_eq, rfl, h.enqueue_eq, h.length_le, h.full, h.free⟩

/-! ### The effect of a push -/

private theorem seq_afterPush_self (q : Queue α) (v : α) :
    (q.afterPush v).seq q.enqueuePos = q.enqueuePos + 1 ∧
      (q.afterPush v).slot q.enqueuePos = .live v := by
  constructor
  · exact Queue.seq_storeSequence_of_eq _ _ rfl
  · exact (Queue.slot_storeSequence _ _ _ _).trans (Queue.slot_storeSlot_of_eq _ _ rfl)

private theorem seq_afterPush_of_ne {p : ℕ} (v : α)
    (h : p % q.capacity ≠ q.enqueuePos % q.capacity) :
    (q.afterPush v).seq p = q.seq p ∧ (q.afterPush v).slot p = q.slot p := by
  let claimed := { q with enqueuePos := q.enqueuePos + 1 }
  constructor
  · exact ((claimed.storeSlot q.enqueuePos (.live v)).seq_storeSequence_of_ne _ h).trans
      (claimed.seq_storeSlot _ _ _)
  · exact (Queue.slot_storeSequence _ _ _ _).trans (claimed.slot_storeSlot_of_ne _ h)

theorem push (h : Represents capacity q f) (v : α) (hlt : f.items.length < capacity) :
    Represents capacity (q.afterPush v) { f with items := f.items ++ [v] } := by
  have henq := h.enqueue_eq
  refine ⟨h.capacity_eq, h.closed_eq, ?_, ?_, ?_, ?_⟩
  · change q.enqueuePos + 1 = q.dequeuePos + (f.items ++ [v]).length
    rw [List.length_append, List.length_singleton]
    omega
  · change (f.items ++ [v]).length ≤ capacity
    rw [List.length_append, List.length_singleton]
    omega
  · intro i w hw
    change (f.items ++ [v])[i]? = some w at hw
    change (q.afterPush v).seq (q.dequeuePos + i) = q.dequeuePos + i + 1 ∧
      (q.afterPush v).slot (q.dequeuePos + i) = .live w
    by_cases hi : i < f.items.length
    · rw [List.getElem?_append_left hi] at hw
      have hne : (q.dequeuePos + i) % q.capacity ≠ q.enqueuePos % q.capacity := by
        rw [h.capacity_eq]
        exact mod_ne_of_lt (by omega) (by omega)
      rw [(seq_afterPush_of_ne v hne).1, (seq_afterPush_of_ne v hne).2]
      exact h.full i w hw
    · obtain ⟨hlen, -⟩ := List.getElem?_eq_some_iff.mp hw
      rw [List.length_append, List.length_singleton] at hlen
      have hi' : i = f.items.length := by omega
      subst hi'
      rw [List.getElem?_concat_length, Option.some.injEq] at hw
      rw [← henq, ← hw]
      exact seq_afterPush_self q v
  · intro p hp hp'
    change q.enqueuePos + 1 ≤ p at hp
    change p < q.dequeuePos + capacity at hp'
    have hne : p % q.capacity ≠ q.enqueuePos % q.capacity := by
      rw [h.capacity_eq]
      exact (mod_ne_of_lt (by omega) (by omega)).symm
    rw [(seq_afterPush_of_ne v hne).1, (seq_afterPush_of_ne v hne).2]
    exact h.free p (by omega) hp'

/-! ### The effect of a pop -/

private theorem seq_afterPop_self {p : ℕ} (h : p % q.capacity = q.dequeuePos % q.capacity) :
    q.afterPop.seq p = q.dequeuePos + q.capacity ∧ q.afterPop.slot p = .raw := by
  constructor
  · exact Queue.seq_storeSequence_of_eq _ _ h
  · exact (Queue.slot_storeSequence _ _ _ _).trans (Queue.slot_storeSlot_of_eq _ _ h)

theorem seq_afterPop_of_ne {p : ℕ} (h : p % q.capacity ≠ q.dequeuePos % q.capacity) :
    q.afterPop.seq p = q.seq p ∧ q.afterPop.slot p = q.slot p := by
  let claimed := { q with dequeuePos := q.dequeuePos + 1 }
  let moved := claimed.storeSlot q.dequeuePos .movedFrom
  constructor
  · exact ((moved.storeSlot q.dequeuePos .raw).seq_storeSequence_of_ne _ h).trans
      ((moved.seq_storeSlot _ _ _).trans (claimed.seq_storeSlot _ _ _))
  · exact (Queue.slot_storeSequence _ _ _ _).trans
      ((moved.slot_storeSlot_of_ne _ h).trans (claimed.slot_storeSlot_of_ne _ h))

theorem pop {v : α} {items : List α} {closed : Bool}
    (h : Represents capacity q ⟨v :: items, closed⟩) :
    Represents capacity q.afterPop ⟨items, closed⟩ := by
  have henq := h.enqueue_eq
  have hle := h.length_le
  rw [List.length_cons] at henq hle
  refine ⟨h.capacity_eq, h.closed_eq, ?_, ?_, ?_, ?_⟩
  · change q.enqueuePos = q.dequeuePos + 1 + items.length
    omega
  · change items.length ≤ capacity
    omega
  · intro i w hw
    change items[i]? = some w at hw
    change q.afterPop.seq (q.dequeuePos + 1 + i) = q.dequeuePos + 1 + i + 1 ∧
      q.afterPop.slot (q.dequeuePos + 1 + i) = .live w
    obtain ⟨hi, -⟩ := List.getElem?_eq_some_iff.mp hw
    have hne : (q.dequeuePos + 1 + i) % q.capacity ≠ q.dequeuePos % q.capacity := by
      rw [h.capacity_eq]
      exact (mod_ne_of_lt (by omega) (by omega)).symm
    rw [(seq_afterPop_of_ne hne).1, (seq_afterPop_of_ne hne).2, Nat.add_assoc q.dequeuePos,
      Nat.add_comm 1]
    exact h.full (i + 1) w (by rwa [List.getElem?_cons_succ])
  · intro p hp hp'
    change q.enqueuePos ≤ p at hp
    change p < q.dequeuePos + 1 + capacity at hp'
    by_cases hlast : p = q.dequeuePos + capacity
    · -- the cell just released is the one the round ends with
      subst hlast
      have hmod : (q.dequeuePos + capacity) % q.capacity = q.dequeuePos % q.capacity := by
        rw [h.capacity_eq, Nat.add_mod_right]
      obtain ⟨h1, h2⟩ := seq_afterPop_self hmod
      rw [h.capacity_eq] at h1
      exact ⟨h1, h2⟩
    · have hne : p % q.capacity ≠ q.dequeuePos % q.capacity := by
        rw [h.capacity_eq]
        exact (mod_ne_of_lt (by omega) (by omega)).symm
      rw [(seq_afterPop_of_ne hne).1, (seq_afterPop_of_ne hne).2]
      exact h.free p hp (by omega)

end Represents

/-! ## Agreement, call by call

All calls but one agree on any number of cells. The exception needs a full queue of one cell, where
the full code of a ticket is the free code of the next one. -/

variable {capacity : ℕ} {q : Queue α} {f : Fifo α}

/-- The one call that can go wrong, and only on a ring of one cell: a `tryPush` on the open and full
queue. -/
def Fifo.Overfills (capacity : ℕ) (f : Fifo α) (c : Call α) : Prop :=
  ∃ v, c = .tryPush v ∧ f.closed = false ∧ capacity ≤ f.items.length

/-- Every other call agrees with the bounded list, and so does this one on two cells or more. -/
theorem callAgrees_of_represents (h : Represents capacity q f) (hpos : 1 ≤ capacity)
    (spurious : List Bool) (c : Call α) (hc : 2 ≤ capacity ∨ ¬f.Overfills capacity c) :
    ∃ q', CallAgrees capacity f spurious q c q' ∧
      Represents capacity q' (f.exec capacity c).1 := by
  have henq := h.enqueue_eq
  have hle := h.length_le
  cases c with
  | tryPush v =>
    cases hclosed : f.closed with
    | true =>
      have hexec : f.exec capacity (.tryPush v) = (f, .pushed false) := by
        simp [Fifo.exec, hclosed]
      have hrep := h.of_eq (r := { q with
        closedPushes := q.closedPushes + 1
        failedPushes := q.failedPushes + 1 }) rfl rfl rfl rfl rfl
      refine ⟨_, ⟨_, returns_tryPush_of_closed spurious v (h.closed_eq.trans hclosed), ?_⟩, ?_⟩
      · rw [hexec]
        exact ⟨rfl, hrep.contents_eq, hrep.closed_eq, by simp⟩
      · rwa [hexec]
    | false =>
      by_cases hlt : f.items.length < capacity
      · have hexec : f.exec capacity (.tryPush v)
            = ({ f with items := f.items ++ [v] }, .pushed true) := by
          simp [Fifo.exec, hclosed, hlt]
        obtain ⟨hseq, hraw⟩ := h.free q.enqueuePos le_rfl (by omega)
        have hrep := h.push v hlt
        refine ⟨_, ⟨_, returns_tryPush_of_free spurious v (h.closed_eq.trans hclosed) hseq, ?_⟩, ?_⟩
        · rw [hexec, hraw]
          exact ⟨rfl, hrep.contents_eq, hrep.closed_eq, by simp⟩
        · rwa [hexec]
      · -- the cell of the next ticket is that of the oldest element, one round behind
        have hcap : 2 ≤ capacity := by
          rcases hc with hc | hc
          · exact hc
          · exact absurd ⟨v, rfl, hclosed, by omega⟩ hc
        have hexec : f.exec capacity (.tryPush v) = (f, .pushed false) := by
          simp [Fifo.exec, hlt]
        have hseq : q.seq q.enqueuePos < q.enqueuePos := by
          have hmod : q.enqueuePos % q.capacity = q.dequeuePos % q.capacity := by
            rw [henq, h.capacity_eq, show f.items.length = capacity by omega, Nat.add_mod_right]
          have hfull := (h.full 0 f.items[0] (List.getElem?_eq_getElem (by omega))).1
          rw [q.seq_congr hmod]
          simp only [Nat.add_zero] at hfull
          omega
        have hrep := h.of_eq (r := { q with failedPushes := q.failedPushes + 1 })
          rfl rfl rfl rfl rfl
        refine ⟨_, ⟨_, returns_tryPush_of_full spurious v (h.closed_eq.trans hclosed) hseq, ?_⟩, ?_⟩
        · rw [hexec]
          exact ⟨rfl, hrep.contents_eq, hrep.closed_eq, by simp⟩
        · rwa [hexec]
  | tryPop =>
    obtain ⟨items, closed⟩ := f
    cases items with
    | nil =>
      obtain ⟨hseq, -⟩ := h.free q.dequeuePos (by simpa using henq.le) (by omega)
      have hrep := h.of_eq (r := { q with failedPops := q.failedPops + 1 }) rfl rfl rfl rfl rfl
      exact ⟨_, ⟨_, returns_tryPop_of_empty spurious hseq.le, rfl, hrep.contents_eq,
        hrep.closed_eq, by simp⟩, hrep⟩
    | cons v items =>
      obtain ⟨hseq, hslot⟩ := h.full 0 v rfl
      have hrep := h.pop
      refine ⟨_, ⟨_, returns_tryPop_of_full spurious hseq, ?_, hrep.contents_eq,
        hrep.closed_eq, by simp⟩, hrep⟩
      rw [Nat.add_zero] at hslot
      rw [hslot]
      rfl
  | close =>
    have hrep := h.close
    exact ⟨_, ⟨_, returns_close spurious q, rfl, hrep.contents_eq, hrep.closed_eq, by simp⟩, hrep⟩

/-- On one cell a `tryPush` on the full queue reports success: the full code of the oldest element
is the free code of the next ticket. -/
theorem not_callAgrees_of_overfills (h : Represents 1 q f) (spurious : List Bool) {c : Call α}
    (hc : f.Overfills 1 c) (q' : Queue α) : ¬CallAgrees 1 f spurious q c q' := by
  obtain ⟨v, rfl, hclosed, hlen⟩ := hc
  have henq := h.enqueue_eq
  have hlen1 : f.items.length = 1 := le_antisymm h.length_le hlen
  have hseq : q.seq q.enqueuePos = q.enqueuePos := by
    have hfull := (h.full 0 f.items[0] (List.getElem?_eq_getElem (by omega))).1
    have hmod : q.enqueuePos % q.capacity = (q.dequeuePos + 0) % q.capacity := by
      rw [h.capacity_eq, Nat.mod_one, Nat.mod_one]
    rw [q.seq_congr hmod, hfull, henq, hlen1]
  rintro ⟨evs, hret, hres, -⟩
  obtain ⟨-, rfl⟩ := hret.unique
    (returns_tryPush_of_free spurious v (h.closed_eq.trans hclosed) hseq)
  have hexec : f.exec 1 (.tryPush v) = (f, .pushed false) := by
    simp [Fifo.exec, hlen1]
  rw [hexec] at hres
  simp [results] at hres

/-- **Agreement of call sequences**, from any represented state. -/
theorem agrees_iff_of_represents (h : Represents capacity q f) (hpos : 1 ≤ capacity)
    (calls : List (Call α × List Bool)) :
    Agrees capacity q f calls ↔
      2 ≤ capacity ∨ NeverPushesFull capacity f (calls.map Prod.fst) := by
  induction calls generalizing q f with
  | nil => simp [Agrees, NeverPushesFull]
  | cons call calls ih =>
    obtain ⟨c, spurious⟩ := call
    have hover : (∀ v, c = .tryPush v → f.closed = false → f.items.length < capacity) ↔
        ¬f.Overfills capacity c := by
      simp only [Fifo.Overfills, not_exists, not_and, not_le]
    rw [Agrees, List.map_cons, NeverPushesFull, hover]
    by_cases hc : 2 ≤ capacity ∨ ¬f.Overfills capacity c
    · obtain ⟨q₁, hagree, hrep⟩ := callAgrees_of_represents h hpos spurious c hc
      have hunique : ∀ q', CallAgrees capacity f spurious q c q' → q' = q₁ := by
        rintro q' ⟨evs, hret, -⟩
        obtain ⟨evs₁, hret₁, -⟩ := hagree
        exact (hret.unique hret₁).1
      constructor
      · rintro ⟨q', hq', hrest⟩
        rw [hunique q' hq', ih hrep] at hrest
        rcases hrest with hcap | hrest
        · exact Or.inl hcap
        · exact hc.imp_right fun hc ↦ ⟨hc, hrest⟩
      · intro hcond
        exact ⟨q₁, hagree, (ih hrep).mpr (hcond.imp_right And.right)⟩
    · rw [not_or, not_not] at hc
      obtain ⟨hcap, hc⟩ := hc
      obtain rfl : capacity = 1 := by omega
      constructor
      · rintro ⟨q', hq', -⟩
        exact absurd hq' (not_callAgrees_of_overfills h spurious hc q')
      · rintro (hcap' | ⟨hcap', -⟩)
        · exact absurd hcap' hcap
        · exact absurd hc hcap'

/-- **Exactly when the queue is a bounded FIFO.** For every capacity the constructor accepts and
every finite sequence of non-overlapping calls on a fresh queue, with any spurious failures of the
weak exchanges: the calls terminate and agree with a list bounded by the capacity if and only if
the capacity is at least two or no `tryPush` meets the open queue holding `capacity` elements. -/
theorem agrees_bounded_fifo_iff {capacity : ℕ} {q : Queue α} (hq : create α capacity = .ok q)
    (calls : List (Call α × List Bool)) :
    Agrees capacity q ⟨[], false⟩ calls ↔
      2 ≤ capacity ∨ NeverPushesFull capacity ⟨[], false⟩ (calls.map Prod.fst) := by
  obtain ⟨hpos, rfl⟩ := create_eq_ok_iff.mp hq
  exact agrees_iff_of_represents (.fresh_nil capacity) hpos calls

/-- Two cells, one more `tryPush` than fits, and a spurious failure on the way. -/
theorem agrees_bounded_fifo_iff_two_cells :
    create ℕ 2 = .ok (fresh ℕ 2) ∧
      Agrees 2 (fresh ℕ 2) ⟨[], false⟩ [(.tryPush 1, [true]), (.tryPush 2, []), (.tryPush 3, []),
        (.tryPop, []), (.close, []), (.tryPush 4, []), (.tryPop, []), (.tryPop, [])] :=
  ⟨rfl, (agrees_bounded_fifo_iff rfl _).mpr (Or.inl le_rfl)⟩

/-- On one cell the second `tryPush` is accepted, constructs over the unread first element, and the
`tryPop` after it never returns. -/
theorem not_agrees_one_cell :
    create ℕ 1 = .ok (fresh ℕ 1) ∧
      ¬Agrees 1 (fresh ℕ 1) ⟨[], false⟩ [(.tryPush 1, []), (.tryPush 2, [])] ∧
      ∃ q₁ q₂ evs₁ evs₂, Returns [] (fresh ℕ 1) (Call.tryPush 1).entry q₁ evs₁ ∧
        Returns [] q₁ (Call.tryPush 2).entry q₂ evs₂ ∧ results evs₂ = [.pushed true] ∧
        .constructed 1 (.live 1) ∈ evs₂ ∧
        ∀ fuel, solo .unbounded fuel [] q₂ (Call.tryPop : Call ℕ).entry = none := by
  refine ⟨rfl, ?_, ?_⟩
  · rw [agrees_iff_of_represents (.fresh_nil 1) le_rfl]
    simp [NeverPushesFull, Fifo.exec]
  · refine ⟨_, _, _, _, returns_tryPush_of_free [] 1 rfl rfl,
      returns_tryPush_of_free [] 2 rfl rfl, rfl, ?_, fun fuel ↦ ?_⟩
    · simp [Queue.afterPush, Queue.storeSequence, Queue.storeSlot, Queue.setCell, Queue.slot, fresh]
    · exact (solo_tryPop_of_ahead (by decide) fuel []).1

end LockFreeQueue

end FoundationComponents
