import Mathlib.Data.Int.Notation
import Mathlib.Tactic.Positivity
import FoundationComponents.LockFreeQueue.Sequential

/-!
# Counters of finite width

With `w`-bit counters the cursors and the sequence numbers wrap, and the signed difference still
tells the codes of a cell apart, since they are never more than a round apart. What does not survive
the wrap is the way from a position to its cell: `pos % capacity` jumps at `2 ^ w` unless the
capacity divides it.

So the queue of words is compared with the queue of unbounded counters, cell by cell. As long as a
position and its word lead to the same cell, each call does the same on both. If the capacity
divides `2 ^ w` that is for ever. Otherwise it lasts for `2 ^ w` tickets, after which the cursors
are back at `0`, but the sequence in cell `0` belongs to a ticket ahead: `tryPush` reloads the
cursor for ever.
-/

namespace FoundationComponents

namespace LockFreeQueue

variable {α : Type*}

/-! ## Words

Two counters that are less than half the words apart are told apart by their words, and the signed
difference of the words is their difference. -/

/-- Counters of `w` bits: sums wrap, and the difference is the one of two's complement. -/
def CounterArith.word (w : ℕ) : CounterArith where
  add a b := (a + b) % 2 ^ w
  diff a b := Int.bmod ((a : ℤ) - b) (2 ^ w)

theorem CounterArith.word_add (w a b : ℕ) :
    (CounterArith.word w).add (a % 2 ^ w) b = (a + b) % 2 ^ w :=
  Nat.mod_add_mod ..

theorem CounterArith.word_diff_self (w a : ℕ) : (CounterArith.word w).diff a a = 0 := by
  rw [CounterArith.word]
  dsimp only
  rw [sub_self, Int.zero_bmod]

/-- The difference of two words is that of the counters they stand for, if these are close. -/
theorem CounterArith.word_diff {w a b : ℕ} (hle : -(2 ^ w : ℤ) ≤ 2 * ((a : ℤ) - b))
    (hlt : 2 * ((a : ℤ) - b) < 2 ^ w) :
    (CounterArith.word w).diff (a % 2 ^ w) (b % 2 ^ w) = (a : ℤ) - b := by
  have hemod : Int.bmod ((a % 2 ^ w : ℕ) - (b % 2 ^ w : ℕ) : ℤ) (2 ^ w) =
      Int.bmod ((a : ℤ) - b) (2 ^ w) := by
    rw [Int.natCast_mod, Int.natCast_mod, Int.emod_sub_bmod, sub_eq_add_neg, add_comm,
      ← Int.emod_bmod, ← sub_eq_neg_add, Int.sub_emod, Int.emod_emod, ← Int.sub_emod,
      Int.emod_bmod]
  exact hemod.trans (Int.bmod_eq_of_le_mul_two (by push_cast; omega) (by push_cast; omega))

/-! ## The queue of words

The queue of words holds the words of the counters of an unbounded one. A call does the same on both
as long as the positions it uses lead to the same cells. -/

/-- The queue `q` holds the words of the counters of `u`, and the same objects. -/
structure Wraps (w : ℕ) (q u : Queue α) : Prop where
  capacity_eq : q.capacity = u.capacity
  capacity_pos : 0 < u.capacity
  enqueue_eq : q.enqueuePos = u.enqueuePos % 2 ^ w
  dequeue_eq : q.dequeuePos = u.dequeuePos % 2 ^ w
  closed_eq : q.closed = u.closed
  cells : ∀ i, i < u.capacity →
    q.buffer i = ⟨(u.buffer i).sequence % 2 ^ w, (u.buffer i).storage⟩

/-- A position and its word lead to the same cell. -/
def Aligned (w capacity p : ℕ) : Prop := p % 2 ^ w % capacity = p % capacity

theorem aligned_of_dvd {w capacity : ℕ} (h : capacity ∣ 2 ^ w) (p : ℕ) : Aligned w capacity p :=
  Nat.mod_mod_of_dvd p h

private theorem aligned_of_lt {w capacity p : ℕ} (h : p < 2 ^ w) : Aligned w capacity p := by
  rw [Aligned, Nat.mod_eq_of_lt h]

namespace Wraps

variable {w : ℕ} {q u : Queue α} {p : ℕ}

theorem buffer_eq (h : Wraps w q u) (hp : Aligned w u.capacity p) :
    q.buffer (p % 2 ^ w % q.capacity) =
      ⟨(u.buffer (p % u.capacity)).sequence % 2 ^ w, (u.buffer (p % u.capacity)).storage⟩ := by
  rw [h.capacity_eq, show p % 2 ^ w % u.capacity = p % u.capacity from hp]
  exact h.cells _ (Nat.mod_lt p h.capacity_pos)

theorem seq_eq (h : Wraps w q u) (hp : Aligned w u.capacity p) :
    q.seq (p % 2 ^ w) = u.seq p % 2 ^ w :=
  congrArg Cell.sequence (h.buffer_eq hp)

theorem slot_eq (h : Wraps w q u) (hp : Aligned w u.capacity p) :
    q.slot (p % 2 ^ w) = u.slot p := by
  rw [Queue.slot, h.buffer_eq hp]
  rfl

theorem setCell (h : Wraps w q u) (hp : Aligned w u.capacity p) {sequence value : ℕ} (x : Slot α)
    (hsequence : sequence = value % 2 ^ w) :
    Wraps w (q.setCell (p % 2 ^ w) ⟨sequence, x⟩) (u.setCell p ⟨value, x⟩) where
  capacity_eq := h.capacity_eq
  capacity_pos := h.capacity_pos
  enqueue_eq := h.enqueue_eq
  dequeue_eq := h.dequeue_eq
  closed_eq := h.closed_eq
  cells := by
    intro i hi
    rw [Queue.setCell, Queue.setCell, h.capacity_eq,
      show p % 2 ^ w % u.capacity = p % u.capacity from hp]
    dsimp only
    by_cases hip : i = p % u.capacity
    · rw [hip, Function.update_self, Function.update_self, hsequence]
    · rw [Function.update_of_ne hip, Function.update_of_ne hip]
      exact h.cells i hi

theorem storeSequence (h : Wraps w q u) (hp : Aligned w u.capacity p) {sequence value : ℕ}
    (hsequence : sequence = value % 2 ^ w) :
    Wraps w (q.storeSequence (p % 2 ^ w) sequence) (u.storeSequence p value) := by
  rw [Queue.storeSequence, Queue.storeSequence, h.slot_eq hp]
  exact h.setCell hp _ hsequence

theorem storeSlot (h : Wraps w q u) (hp : Aligned w u.capacity p) (x : Slot α) :
    Wraps w (q.storeSlot (p % 2 ^ w) x) (u.storeSlot p x) := by
  rw [Queue.storeSlot, Queue.storeSlot, h.seq_eq hp]
  exact h.setCell hp x rfl

theorem afterPush (h : Wraps w q u) (hp : Aligned w u.capacity u.enqueuePos) (v : α) :
    Wraps w (q.afterPushBy (.word w) v) (u.afterPush v) := by
  have hnext : (q.enqueuePos + 1) % 2 ^ w = (u.enqueuePos + 1) % 2 ^ w := by
    rw [h.enqueue_eq, Nat.mod_add_mod]
  have hclaimed : Wraps w { q with enqueuePos := (q.enqueuePos + 1) % 2 ^ w }
      { u with enqueuePos := u.enqueuePos + 1 } :=
    ⟨h.capacity_eq, h.capacity_pos, hnext, h.dequeue_eq, h.closed_eq, h.cells⟩
  have hstored := (hclaimed.storeSlot hp (.live v)).storeSequence hp hnext
  rw [← h.enqueue_eq] at hstored
  exact ⟨hstored.1, hstored.2, hstored.3, hstored.4, hstored.5, hstored.6⟩

theorem afterPop (h : Wraps w q u) (hp : Aligned w u.capacity u.dequeuePos) :
    Wraps w (q.afterPopBy (.word w)) u.afterPop := by
  have hnext : (q.dequeuePos + 1) % 2 ^ w = (u.dequeuePos + 1) % 2 ^ w := by
    rw [h.dequeue_eq, Nat.mod_add_mod]
  have hround : (q.dequeuePos + q.capacity) % 2 ^ w = (u.dequeuePos + u.capacity) % 2 ^ w := by
    rw [h.dequeue_eq, h.capacity_eq, Nat.mod_add_mod]
  have hclaimed : Wraps w { q with dequeuePos := (q.dequeuePos + 1) % 2 ^ w }
      { u with dequeuePos := u.dequeuePos + 1 } :=
    ⟨h.capacity_eq, h.capacity_pos, h.enqueue_eq, hnext, h.closed_eq, h.cells⟩
  have hstored := ((hclaimed.storeSlot hp .movedFrom).storeSlot hp .raw).storeSequence hp hround
  rw [← h.dequeue_eq] at hstored
  exact ⟨hstored.1, hstored.2, hstored.3, hstored.4, hstored.5, hstored.6⟩

end Wraps

/-! ## Calls on words

The positions that the loops compare are at most a round apart, which a signed word can hold. So the
four cases of the unbounded queue are the four cases here. -/

/-- The queue of words behaves as a bounded list with the elements `f`. -/
structure WordRepresents (w capacity : ℕ) (q u : Queue α) (f : Fifo α) : Prop where
  wraps : Wraps w q u
  represents : Represents capacity u f

namespace WordRepresents

variable {w capacity : ℕ} {q u : Queue α} {f : Fifo α}

theorem push (h : WordRepresents w capacity q u f) (hp : Aligned w capacity u.enqueuePos)
    (spurious : List Bool) (v : α)
    (hclosed : f.closed = false) (hlt : f.items.length < capacity) :
    ∃ q' evs, ReturnsBy (.word w) spurious q (Call.tryPush v).entry q' evs ∧
      results evs = [.pushed true] ∧
      WordRepresents w capacity q' (u.afterPush v) { f with items := f.items ++ [v] } := by
  obtain ⟨hw, hrep⟩ := h
  have hp' : Aligned w u.capacity u.enqueuePos := hrep.capacity_eq ▸ hp
  have henq := hrep.enqueue_eq
  obtain ⟨hseq, -⟩ := hrep.free u.enqueuePos le_rfl (by omega)
  have hdiff : (CounterArith.word w).diff (q.seq q.enqueuePos) q.enqueuePos = 0 := by
    rw [hw.enqueue_eq, hw.seq_eq hp', hseq, CounterArith.word_diff_self]
  exact ⟨_, _, ReturnsBy.tryPush_of_free spurious v (hw.closed_eq.trans
    (hrep.closed_eq.trans hclosed)) hdiff, rfl, hw.afterPush hp' v, hrep.push v hlt⟩

theorem pop {v : α} {items : List α} {closed : Bool}
    (h : WordRepresents w capacity q u ⟨v :: items, closed⟩)
    (hp : Aligned w capacity u.dequeuePos) (spurious : List Bool) :
    ∃ q' evs, ReturnsBy (.word w) spurious q (Call.tryPop : Call α).entry q' evs ∧
      results evs = [.popped v] ∧ WordRepresents w capacity q' u.afterPop ⟨items, closed⟩ := by
  obtain ⟨hw, hrep⟩ := h
  have hp' : Aligned w u.capacity u.dequeuePos := hrep.capacity_eq ▸ hp
  obtain ⟨hseq, hslot⟩ := hrep.full 0 v rfl
  rw [Nat.add_zero] at hseq hslot
  have hdiff : (CounterArith.word w).diff (q.seq q.dequeuePos)
      ((CounterArith.word w).add q.dequeuePos 1) = 0 := by
    rw [hw.dequeue_eq, hw.seq_eq hp', hseq, CounterArith.word_add, CounterArith.word_diff_self]
  refine ⟨_, _, ReturnsBy.tryPop_of_full spurious hdiff, ?_, hw.afterPop hp', hrep.pop⟩
  rw [hw.dequeue_eq, hw.slot_eq hp', hslot]
  rfl

/-- A push on a queue without room is turned away: the sequence it finds is less than a round
behind. -/
theorem push_full (h : WordRepresents w capacity q u f) (hcap : 2 ≤ capacity)
    (hround : 2 * capacity ≤ 2 ^ w) (hp : Aligned w capacity u.enqueuePos) (spurious : List Bool)
    (v : α) (hclosed : f.closed = false) (hfull : f.items.length = capacity) :
    ∃ q' evs, ReturnsBy (.word w) spurious q (Call.tryPush v).entry q' evs ∧
      results evs = [.pushed false] ∧
      WordRepresents w capacity q' { u with failedPushes := u.failedPushes + 1 } f := by
  obtain ⟨hw, hrep⟩ := h
  have hp' : Aligned w u.capacity u.enqueuePos := hrep.capacity_eq ▸ hp
  have henq := hrep.enqueue_eq
  have hseq : u.seq u.enqueuePos = u.dequeuePos + 1 := by
    have hmod : u.enqueuePos % u.capacity = u.dequeuePos % u.capacity := by
      rw [henq, hrep.capacity_eq, hfull, Nat.add_mod_right]
    rw [u.seq_congr hmod]
    exact (hrep.full 0 f.items[0] (List.getElem?_eq_getElem (by omega))).1
  have hpow : (2 * capacity : ℤ) ≤ 2 ^ w := by exact_mod_cast hround
  have hdiff : (CounterArith.word w).diff (q.seq q.enqueuePos) q.enqueuePos < 0 := by
    rw [hw.enqueue_eq, hw.seq_eq hp', hseq, CounterArith.word_diff]
    all_goals omega
  exact ⟨_, _, ReturnsBy.tryPush_of_full spurious v (hw.closed_eq.trans
    (hrep.closed_eq.trans hclosed)) hdiff, rfl,
    ⟨hw.1, hw.2, hw.3, hw.4, hw.5, hw.6⟩, hrep.of_eq rfl rfl rfl rfl rfl⟩

theorem pop_empty {closed : Bool} (h : WordRepresents w capacity q u ⟨[], closed⟩)
    (hcap : 2 ≤ capacity) (hround : 2 * capacity ≤ 2 ^ w) (hp : Aligned w capacity u.dequeuePos)
    (spurious : List Bool) :
    ∃ q' evs, ReturnsBy (.word w) spurious q (Call.tryPop : Call α).entry q' evs ∧
      results evs = [.nullopt] ∧
      WordRepresents w capacity q' { u with failedPops := u.failedPops + 1 } ⟨[], closed⟩ := by
  obtain ⟨hw, hrep⟩ := h
  have hp' : Aligned w u.capacity u.dequeuePos := hrep.capacity_eq ▸ hp
  have henq : u.enqueuePos = u.dequeuePos := hrep.enqueue_eq
  obtain ⟨hseq, -⟩ := hrep.free u.dequeuePos henq.le (by omega)
  have hpow : (2 * capacity : ℤ) ≤ 2 ^ w := by exact_mod_cast hround
  have hdiff : (CounterArith.word w).diff (q.seq q.dequeuePos)
      ((CounterArith.word w).add q.dequeuePos 1) < 0 := by
    rw [hw.dequeue_eq, hw.seq_eq hp', hseq, CounterArith.word_add, CounterArith.word_diff]
    all_goals omega
  exact ⟨_, _, ReturnsBy.tryPop_of_empty spurious hdiff, rfl,
    ⟨hw.1, hw.2, hw.3, hw.4, hw.5, hw.6⟩, hrep.of_eq rfl rfl rfl rfl rfl⟩

end WordRepresents

/-! ## Sequences of calls -/

/-- The calls, one after the other with the spurious failures given, return `rs` and leave `q'`. -/
def RunsTo (κ : CounterArith) : Queue α → List (Call α × List Bool) → List (Result α) →
    Queue α → Prop
  | q, [], rs, q' => rs = [] ∧ q' = q
  | q, (c, spurious) :: calls, rs, q' =>
      ∃ q₁ evs rest, ReturnsBy κ spurious q c.entry q₁ evs ∧ rs = results evs ++ rest ∧
        RunsTo κ q₁ calls rest q'

/-- What a sequence of calls does to a bounded list, and what they return. -/
def Fifo.execAll (capacity : ℕ) : Fifo α → List (Call α) → Fifo α × List (Result α)
  | f, [] => (f, [])
  | f, c :: calls =>
      let next := f.exec capacity c
      let rest := Fifo.execAll capacity next.1 calls
      (rest.1, next.2 :: rest.2)

theorem RunsTo.unique {κ : CounterArith} {q q₁ q₂ : Queue α} {calls : List (Call α × List Bool)}
    {rs₁ rs₂ : List (Result α)} (h₁ : RunsTo κ q calls rs₁ q₁) (h₂ : RunsTo κ q calls rs₂ q₂) :
    q₁ = q₂ := by
  induction calls generalizing q rs₁ rs₂ with
  | nil => exact h₁.2.trans h₂.2.symm
  | cons call calls ih =>
    obtain ⟨r₁, evs₁, rest₁, hret₁, -, hrun₁⟩ := h₁
    obtain ⟨r₂, evs₂, rest₂, hret₂, -, hrun₂⟩ := h₂
    obtain ⟨rfl, -⟩ := hret₁.unique hret₂
    exact ih hrun₁ hrun₂

theorem RunsTo.split {κ : CounterArith} {q q' : Queue α} {calls calls' : List (Call α × List Bool)}
    {rs : List (Result α)} (h : RunsTo κ q (calls ++ calls') rs q') :
    ∃ q₁ rs₁ rs₂, RunsTo κ q calls rs₁ q₁ ∧ RunsTo κ q₁ calls' rs₂ q' := by
  induction calls generalizing q rs with
  | nil => exact ⟨q, [], rs, ⟨rfl, rfl⟩, h⟩
  | cons call calls ih =>
    obtain ⟨r, evs, rest, hret, -, hrun⟩ := h
    obtain ⟨q₁, rs₁, rs₂, hfirst, hsecond⟩ := ih hrun
    exact ⟨q₁, _, rs₂, ⟨r, evs, rs₁, hret, rfl, hfirst⟩, hsecond⟩

section Fifo

variable {w capacity : ℕ}

/-- A `tryPush` or `tryPop` on words, if the cursors lead to the same cells as their words. -/
theorem WordRepresents.exists_returns {q u : Queue α} {f : Fifo α}
    (h : WordRepresents w capacity q u f) (hcap : 2 ≤ capacity) (hround : 2 * capacity ≤ 2 ^ w)
    (henq : Aligned w capacity u.enqueuePos) (hdeq : Aligned w capacity u.dequeuePos)
    (hopen : f.closed = false) (spurious : List Bool) {c : Call α} (hc : c ≠ .close) :
    ∃ q' u' evs, ReturnsBy (.word w) spurious q c.entry q' evs ∧
      results evs = [(f.exec capacity c).2] ∧
      WordRepresents w capacity q' u' (f.exec capacity c).1 ∧
      (f.exec capacity c).1.closed = false := by
  obtain ⟨items, closed⟩ := f
  obtain rfl : closed = false := hopen
  cases c with
  | tryPush v =>
    rw [Fifo.exec]
    have hle := h.represents.length_le
    by_cases hlt : items.length < capacity
    · obtain ⟨q', evs, hret, hres, hrep⟩ := h.push henq spurious v rfl hlt
      rw [if_pos ⟨rfl, hlt⟩]
      exact ⟨q', _, evs, hret, hres, hrep, rfl⟩
    · obtain ⟨q', evs, hret, hres, hrep⟩ := h.push_full hcap hround henq spurious v rfl
        (le_antisymm hle (not_lt.mp hlt))
      rw [if_neg fun hroom ↦ hlt hroom.2]
      exact ⟨q', _, evs, hret, hres, hrep, rfl⟩
  | tryPop =>
    cases items with
    | nil =>
      obtain ⟨q', evs, hret, hres, hrep⟩ := h.pop_empty hcap hround hdeq spurious
      exact ⟨q', _, evs, hret, hres, hrep, rfl⟩
    | cons v items =>
      obtain ⟨q', evs, hret, hres, hrep⟩ := h.pop hdeq spurious
      exact ⟨q', _, evs, hret, hres, hrep, rfl⟩
  | close => exact absurd rfl hc

theorem WordRepresents.exists_runsTo {q u : Queue α} {f : Fifo α}
    (h : WordRepresents w capacity q u f) (hcap : 2 ≤ capacity) (hround : 2 * capacity ≤ 2 ^ w)
    (hdvd : capacity ∣ 2 ^ w) (hopen : f.closed = false) (calls : List (Call α × List Bool))
    (hcalls : ∀ e ∈ calls, e.1 ≠ .close) :
    ∃ q', RunsTo (.word w) q calls (f.execAll capacity (calls.map Prod.fst)).2 q' := by
  induction calls generalizing q u f with
  | nil => exact ⟨q, rfl, rfl⟩
  | cons call calls ih =>
    obtain ⟨c, spurious⟩ := call
    obtain ⟨q₁, u₁, evs, hret, hres, hrep, hopen₁⟩ := h.exists_returns hcap hround
      (aligned_of_dvd hdvd _) (aligned_of_dvd hdvd _) hopen spurious
      (hcalls _ List.mem_cons_self)
    obtain ⟨q', hrun⟩ := ih hrep hopen₁ fun e he ↦ hcalls e (List.mem_cons_of_mem _ he)
    exact ⟨q', q₁, evs, _, hret, by rw [hres]; rfl, hrun⟩

theorem wordRepresents_fresh (hcap : 2 ≤ capacity) (hround : 2 * capacity ≤ 2 ^ w) :
    WordRepresents w capacity (fresh α capacity) (fresh α capacity) ⟨[], false⟩ where
  represents := .fresh_nil capacity
  wraps :=
    { capacity_eq := rfl
      capacity_pos := show 0 < capacity by omega
      enqueue_eq := (Nat.zero_mod _).symm
      dequeue_eq := (Nat.zero_mod _).symm
      closed_eq := rfl
      cells := by
        intro i hi
        have hlt : i < 2 ^ w := by
          have hi' : i < capacity := hi
          omega
        rw [fresh, Nat.mod_eq_of_lt hlt] }

/-! ## At the wrap

If it does not, one push and one pop at a time take the cursors to `2 ^ w` with the queue empty, and
position `0` is then the word of a ticket in another cell. -/

/-- `k` times one push and one pop. -/
def alternating (v : α) (k : ℕ) : List (Call α × List Bool) :=
  (List.replicate k [(.tryPush v, []), (.tryPop, [])]).flatten

theorem alternating_succ (v : α) (k : ℕ) :
    alternating v (k + 1) = (.tryPush v, []) :: (.tryPop, []) :: alternating v k := by
  rw [alternating, List.replicate_succ, List.flatten_cons]
  rfl

theorem execAll_alternating_succ (hcap : 2 ≤ capacity) (v : α) (k : ℕ) :
    (⟨[], false⟩ : Fifo α).execAll capacity ((alternating v (k + 1)).map Prod.fst) =
      let rest := (⟨[], false⟩ : Fifo α).execAll capacity ((alternating v k).map Prod.fst)
      (rest.1, .pushed true :: .popped v :: rest.2) := by
  have hroom : (⟨[], false⟩ : Fifo α).exec capacity (.tryPush v) = (⟨[v], false⟩, .pushed true) :=
    if_pos ⟨rfl, show 0 < capacity by omega⟩
  rw [alternating_succ, List.map_cons, List.map_cons, Fifo.execAll, hroom]
  rfl

theorem execAll_alternating (hcap : 2 ≤ capacity) (v : α) (k : ℕ) :
    ((⟨[], false⟩ : Fifo α).execAll capacity ((alternating v k).map Prod.fst)).1 =
      ⟨[], false⟩ := by
  induction k with
  | zero => rfl
  | succ k ih =>
    rw [execAll_alternating_succ hcap]
    exact ih

theorem WordRepresents.exists_runsTo_alternating {q u : Queue α}
    (h : WordRepresents w capacity q u ⟨[], false⟩) (hcap : 2 ≤ capacity) (v : α) (k : ℕ)
    (hk : u.dequeuePos + k ≤ 2 ^ w) :
    ∃ q' u', RunsTo (.word w) q (alternating v k)
        ((⟨[], false⟩ : Fifo α).execAll capacity ((alternating v k).map Prod.fst)).2 q' ∧
      WordRepresents w capacity q' u' ⟨[], false⟩ ∧ u'.dequeuePos = u.dequeuePos + k := by
  induction k generalizing q u with
  | zero => exact ⟨q, u, ⟨rfl, rfl⟩, h, rfl⟩
  | succ k ih =>
    have henq : u.enqueuePos = u.dequeuePos := h.represents.enqueue_eq
    obtain ⟨q₁, evs₁, hret₁, hres₁, hrep₁⟩ := h.push (aligned_of_lt (by omega)) [] v rfl
      (show 0 < capacity by omega)
    have hdeq₁ : (u.afterPush v).dequeuePos = u.dequeuePos := rfl
    obtain ⟨q₂, evs₂, hret₂, hres₂, hrep₂⟩ := hrep₁.pop (aligned_of_lt (by omega)) []
    have hdeq₂ : (u.afterPush v).afterPop.dequeuePos = u.dequeuePos + 1 := rfl
    obtain ⟨q', u', hrun, hrep', hdeq'⟩ := ih hrep₂ (by omega)
    refine ⟨q', u', ?_, hrep', by omega⟩
    rw [execAll_alternating_succ hcap, alternating_succ]
    exact ⟨q₁, evs₁, _, hret₁, by rw [hres₁]; rfl, q₂, evs₂, _, hret₂, by rw [hres₂]; rfl, hrun⟩

/-- Cell `0` after `2 ^ w` tickets, if the capacity does not divide `2 ^ w`: its sequence is that of
the next ticket that maps to it, which lies ahead of the cursor. -/
theorem WordRepresents.seq_zero {q u : Queue α} (h : WordRepresents w capacity q u ⟨[], false⟩)
    (hround : 2 * capacity ≤ 2 ^ w) (hdvd : ¬capacity ∣ 2 ^ w) (hdeq : u.dequeuePos = 2 ^ w) :
    q.enqueuePos = 0 ∧ q.seq 0 = capacity - 2 ^ w % capacity ∧ 0 < q.seq 0 ∧
      2 * q.seq 0 < 2 ^ w := by
  obtain ⟨hw, hrep⟩ := h
  have henq : u.enqueuePos = u.dequeuePos := hrep.enqueue_eq
  have hpos : 0 < capacity := hrep.capacity_eq ▸ hw.capacity_pos
  have hlt := Nat.mod_lt (2 ^ w) hpos
  have hne : 2 ^ w % capacity ≠ 0 := fun hzero ↦ hdvd (Nat.dvd_of_mod_eq_zero hzero)
  have hnext : (2 ^ w + (capacity - 2 ^ w % capacity)) % capacity = 0 := by
    rw [Nat.add_mod, Nat.mod_eq_of_lt (show capacity - 2 ^ w % capacity < capacity by omega),
      Nat.add_sub_cancel' hlt.le, Nat.mod_self]
  obtain ⟨hseq, -⟩ := hrep.free (2 ^ w + (capacity - 2 ^ w % capacity)) (by omega) (by omega)
  have hzero : u.seq 0 = 2 ^ w + (capacity - 2 ^ w % capacity) := by
    rw [← hseq]
    exact u.seq_congr (by rw [hrep.capacity_eq, hnext, Nat.zero_mod])
  have hword : q.seq 0 = capacity - 2 ^ w % capacity := by
    have hcell := hw.seq_eq (aligned_of_lt (p := 0) (by positivity))
    rw [Nat.zero_mod, hzero, Nat.add_mod_left, Nat.mod_eq_of_lt (by omega)] at hcell
    exact hcell
  refine ⟨?_, hword, by omega, by omega⟩
  rw [hw.enqueue_eq, henq, hdeq, Nat.mod_self]

/-- **Exactly when the queue survives the wrap of its counters.** Let the counters have `w` bits and
the capacity be at least two and at most `2 ^ (w - 1)`. Every sequence of non-overlapping `tryPush`
and `tryPop` calls, however long and with any spurious failures of the exchanges, terminates call by
call and returns what a list bounded by the capacity returns, if and only if the capacity divides
`2 ^ w`. If it does not, `2 ^ w` times one push and one pop, which agree with the list, lead to a
queue that is open and stands for the empty list, on which `tryPush` never returns. -/
theorem words_agree_iff (hcap : 2 ≤ capacity) (hmax : capacity ≤ 2 ^ (w - 1)) (v : α) :
    ((∀ calls : List (Call α × List Bool), (∀ e ∈ calls, e.1 ≠ .close) →
        ∃ q', RunsTo (.word w) (fresh α capacity) calls
          ((⟨[], false⟩ : Fifo α).execAll capacity (calls.map Prod.fst)).2 q') ↔
      capacity ∣ 2 ^ w) ∧
    (¬capacity ∣ 2 ^ w →
      ∃ q, RunsTo (.word w) (fresh α capacity) (alternating v (2 ^ w))
          ((⟨[], false⟩ : Fifo α).execAll capacity
            ((alternating v (2 ^ w)).map Prod.fst)).2 q ∧
        ((⟨[], false⟩ : Fifo α).execAll capacity
          ((alternating v (2 ^ w)).map Prod.fst)).1 = ⟨[], false⟩ ∧
        q.closed = false ∧
        ∀ fuel spurious, solo (.word w) fuel spurious q (Call.tryPush v).entry = none) := by
  have hround : 2 * capacity ≤ 2 ^ w := by
    cases w with
    | zero => simp at hmax; omega
    | succ w => rw [Nat.add_sub_cancel] at hmax; omega
  have hfresh := wordRepresents_fresh (α := α) hcap hround
  have hstuck : ¬capacity ∣ 2 ^ w → ∃ q, RunsTo (.word w) (fresh α capacity)
      (alternating v (2 ^ w)) ((⟨[], false⟩ : Fifo α).execAll capacity
        ((alternating v (2 ^ w)).map Prod.fst)).2 q ∧ q.closed = false ∧
      ∀ fuel spurious, solo (.word w) fuel spurious q (Call.tryPush v).entry = none := by
    intro hdvd
    obtain ⟨q, u, hrun, hrep, hdeq⟩ := hfresh.exists_runsTo_alternating hcap v (2 ^ w)
      (Nat.zero_add _).le
    have hclosed : q.closed = false := hrep.wraps.closed_eq.trans hrep.represents.closed_eq
    obtain ⟨henq, -, hpos, hlt⟩ := hrep.seq_zero hround hdvd (hdeq.trans (Nat.zero_add _))
    have hahead : 0 < (CounterArith.word w).diff (q.seq q.enqueuePos) q.enqueuePos := by
      have hltZ : 2 * (q.seq 0 : ℤ) < 2 ^ w := by exact_mod_cast hlt
      have hdiff := CounterArith.word_diff (w := w) (a := q.seq 0) (b := 0)
        (by push_cast; omega) (by push_cast; omega)
      rw [Nat.zero_mod, Nat.mod_eq_of_lt (show q.seq 0 < 2 ^ w by omega)] at hdiff
      rw [henq, hdiff]
      omega
    refine ⟨q, hrun, hclosed, fun fuel spurious ↦ ?_⟩
    cases fuel with
    | zero => rfl
    | succ fuel =>
      rw [solo]
      simp [Call.entry, threadStep, hclosed, Pc.isIdle, Pc.isCas,
        (solo_tryPush_of_ahead v hahead fuel spurious).1]
  refine ⟨⟨fun hall ↦ ?_, fun hdvd calls hcalls ↦ ?_⟩, fun hdvd ↦ ?_⟩
  · by_contra hdvd
    obtain ⟨q, hrun, -, hnever⟩ := hstuck hdvd
    have hcalls : ∀ e ∈ alternating v (2 ^ w) ++ [(.tryPush v, [])], e.1 ≠ .close := by
      intro e he
      rw [List.mem_append, List.mem_singleton, alternating, List.mem_flatten] at he
      rcases he with ⟨pair, hpair, he⟩ | rfl
      · rw [List.eq_of_mem_replicate hpair] at he
        rcases List.mem_pair.mp he with rfl | rfl <;> simp
      · simp
    obtain ⟨q', hrun'⟩ := hall _ hcalls
    obtain ⟨q₁, rs₁, rs₂, hfirst, hlast⟩ := hrun'.split
    obtain rfl := hrun.unique hfirst
    obtain ⟨r, evs, rest, ⟨fuel, hfuel⟩, -⟩ := hlast
    rw [hnever] at hfuel
    cases hfuel
  · exact hfresh.exists_runsTo hcap hround hdvd rfl calls hcalls
  · obtain ⟨q, hrun, hclosed, hnever⟩ := hstuck hdvd
    exact ⟨q, hrun, execAll_alternating hcap v _, hclosed, hnever⟩

/-- Three cells and counters of three bits. -/
theorem words_agree_iff_three_cells :
    ∃ q, RunsTo (.word 3) (fresh ℕ 3) (alternating 7 8)
        ((⟨[], false⟩ : Fifo ℕ).execAll 3 ((alternating 7 8).map Prod.fst)).2 q ∧
      q.closed = false ∧
      ∀ fuel spurious, solo (.word 3) fuel spurious q (Call.tryPush 7).entry = none := by
  obtain ⟨q, hrun, -, hclosed, hnever⟩ :=
    (words_agree_iff (w := 3) (show 2 ≤ 3 by decide) (by decide) 7).2 (by decide)
  exact ⟨q, hrun, hclosed, hnever⟩

end Fifo

end LockFreeQueue

end FoundationComponents
