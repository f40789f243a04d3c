import Mathlib.Algebra.Order.Group.Multiset
import Mathlib.Data.List.Sort

/-!
# Min-queues

A priority queue seen through the multiset of its items: `push` adds one, `top` shows a minimal one
and `pop` removes the one shown. Nothing is said about which of several minimal items is on top, so
a result about all min-queues holds for every heap layout and every way of breaking ties.

The order is given by the comparison the queue is instantiated with, `after x y` for "`x` comes
after `y`", as a heap with a greater-than comparator has it.

`discardWhile` pops as long as the top satisfies a test. It loses only items that satisfy the test,
and leaves a top that does not.
-/

namespace FoundationComponents

/-- A queue of items with a minimal one on top. -/
structure MinQueue (β : Type*) (after : β → β → Bool) where
  /-- The representation. -/
  Carrier : Type*
  empty : Carrier
  push : β → Carrier → Carrier
  /-- The item on top, if there is any. -/
  top : Carrier → Option β
  pop : Carrier → Carrier
  /-- The items in the queue. -/
  items : Carrier → Multiset β
  items_empty : items empty = 0
  items_push : ∀ x h, items (push x h) = x ::ₘ items h
  items_of_top_eq_none : ∀ {h}, top h = none → items h = 0
  items_of_top_eq_some : ∀ {h x}, top h = some x → items h = x ::ₘ items (pop h)
  top_le : ∀ {h x}, top h = some x → ∀ y ∈ items h, after x y = false

namespace MinQueue

variable {β : Type*} {after : β → β → Bool} (Q : MinQueue β after)

/-- Pop while the item on top satisfies `p`, at most `fuel` times. -/
def discard (p : β → Bool) : ℕ → Q.Carrier → Q.Carrier
  | 0, h => h
  | fuel + 1, h =>
      match Q.top h with
      | none => h
      | some x => if p x then discard p fuel (Q.pop h) else h

/-- Pop while the item on top satisfies `p`. -/
def discardWhile (p : β → Bool) (h : Q.Carrier) : Q.Carrier :=
  Q.discard p (Q.items h).card h

variable {Q} {p : β → Bool} {h : Q.Carrier}

theorem mem_of_top {x : β} (hx : Q.top h = some x) : x ∈ Q.items h := by
  rw [Q.items_of_top_eq_some hx]
  exact Multiset.mem_cons_self _ _

theorem mem_of_mem_pop {x y : β} (hx : Q.top h = some x) (hy : y ∈ Q.items (Q.pop h)) :
    y ∈ Q.items h := by
  rw [Q.items_of_top_eq_some hx]
  exact Multiset.mem_cons_of_mem hy

/-- Only items that satisfy the test are lost. -/
theorem exists_items_discard (p : β → Bool) (fuel : ℕ) (h : Q.Carrier) :
    ∃ lost, Q.items h = lost + Q.items (Q.discard p fuel h) ∧ ∀ x ∈ lost, p x = true := by
  induction fuel generalizing h with
  | zero => exact ⟨0, (zero_add _).symm, by simp⟩
  | succ fuel ih =>
    rw [discard]
    split
    · exact ⟨0, (zero_add _).symm, by simp⟩
    · rename_i x htop
      split
      · rename_i hx
        obtain ⟨lost, hitems, hlost⟩ := ih (Q.pop h)
        refine ⟨x ::ₘ lost, ?_, ?_⟩
        · rw [Q.items_of_top_eq_some htop, hitems, Multiset.cons_add]
        · intro y hy
          rcases Multiset.mem_cons.mp hy with rfl | hy
          · exact hx
          · exact hlost y hy
      · exact ⟨0, (zero_add _).symm, by simp⟩

theorem items_discardWhile (p : β → Bool) (h : Q.Carrier) :
    ∃ lost, Q.items h = lost + Q.items (Q.discardWhile p h) ∧ ∀ x ∈ lost, p x = true :=
  exists_items_discard p _ h

theorem mem_of_mem_discardWhile {x : β} (hx : x ∈ Q.items (Q.discardWhile p h)) :
    x ∈ Q.items h := by
  obtain ⟨lost, hitems, -⟩ := items_discardWhile p h
  rw [hitems]
  exact Multiset.mem_add.mpr (Or.inr hx)

theorem count_discardWhile [DecidableEq β] {x : β} (hx : p x = false) :
    (Q.items (Q.discardWhile p h)).count x = (Q.items h).count x := by
  obtain ⟨lost, hitems, hlost⟩ := items_discardWhile p h
  have hkept : x ∉ lost := by
    intro hin
    have htest := hlost x hin
    rw [hx] at htest
    cases htest
  rw [hitems, Multiset.count_add, Multiset.count_eq_zero_of_notMem hkept, Nat.zero_add]

/-- With as much fuel as there are items the test fails on the top that is left. -/
theorem top_discard {fuel : ℕ} (hfuel : (Q.items h).card ≤ fuel) {x : β}
    (hx : Q.top (Q.discard p fuel h) = some x) : p x = false := by
  induction fuel generalizing h with
  | zero =>
    have hmem := mem_of_top hx
    rw [discard, Multiset.card_eq_zero.mp (Nat.le_zero.mp hfuel)] at hmem
    exact absurd hmem (Multiset.notMem_zero x)
  | succ fuel ih =>
    rw [discard] at hx
    split at hx
    · rename_i htop
      rw [htop] at hx
      cases hx
    · rename_i y htop
      split at hx
      · rw [Q.items_of_top_eq_some htop, Multiset.card_cons] at hfuel
        exact ih (Nat.le_of_succ_le_succ hfuel) hx
      · rename_i hy
        rw [htop, Option.some.injEq] at hx
        exact hx ▸ Bool.eq_false_iff.mpr hy

theorem top_discardWhile {x : β} (hx : Q.top (Q.discardWhile p h) = some x) : p x = false :=
  top_discard (Nat.le_refl _) hx

/-! ## Sorted lists -/

section SortedList

variable (after) [Std.Total fun x y ↦ after x y = false] [IsTrans β fun x y ↦ after x y = false]

/-- Sorted lists are min-queues. -/
def sortedList : MinQueue β after where
  Carrier := { l : List β // l.Pairwise fun x y ↦ after x y = false }
  empty := ⟨[], List.Pairwise.nil⟩
  push x h := ⟨h.1.orderedInsert (fun x y ↦ after x y = false) x, h.2.orderedInsert x h.1⟩
  top h := h.1.head?
  pop h := ⟨h.1.tail, h.2.tail⟩
  items h := h.1
  items_empty := rfl
  items_push x h := Multiset.coe_eq_coe.mpr (List.perm_orderedInsert _ x h.1)
  items_of_top_eq_none hnone := by
    rw [List.head?_eq_none_iff] at hnone
    rw [hnone]
    rfl
  items_of_top_eq_some {h x} hsome := by
    rw [Multiset.cons_coe, List.cons_head?_tail hsome]
  top_le {h x} hsome y hy := by
    have hsorted := h.2
    rw [← List.cons_head?_tail hsome, List.pairwise_cons] at hsorted
    rw [Multiset.mem_coe, ← List.cons_head?_tail hsome, List.mem_cons] at hy
    rcases hy with rfl | hy
    · exact (Std.Total.total (r := fun x y ↦ after x y = false) y y).elim id id
    · exact hsorted.1 y hy

end SortedList

end MinQueue

end FoundationComponents
