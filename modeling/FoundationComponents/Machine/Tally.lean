import Mathlib.Algebra.BigOperators.Group.Finset.Basic
import Mathlib.Algebra.BigOperators.Pi
import Mathlib.Algebra.Order.BigOperators.Group.Finset
import Mathlib.Data.Fintype.BigOperators

/-!
# Tallies over a family of threads

Invariants of a machine with many threads usually balance a shared counter against what the
threads hold: so many reservations, so many tickets, so many blocked waiters. A *tally* adds a
weight of every thread's position. Weights take values in any commutative monoid, so the same
lemma serves counts (`ℕ`) and collections of identities (`Multiset`).

The one rule the invariant proofs use is `tally_update`: when a single thread moves, its old weight
is traded for its new one. It is stated with the two weights on opposite sides, since neither `ℕ`
nor `Multiset` has a subtraction worth reasoning about.
-/

namespace FoundationComponents

/-- A feature that a move keeps is kept for the whole family. -/
theorem apply_update_eq {ι π β : Type*} [DecidableEq ι] (f : π → β) (threads : ι → π) {i : ι}
    {x : π} (h : f x = f (threads i)) (j : ι) :
    f (Function.update threads i x j) = f (threads j) := by
  by_cases hj : j = i
  · subst hj
    rw [Function.update_self, h]
  · rw [Function.update_of_ne hj]

variable {ι π M : Type*} [Fintype ι]

/-- The total weight of a family of thread positions. -/
def tally [AddCommMonoid M] (w : π → M) (threads : ι → π) : M := ∑ i, w (threads i)

section AddCommMonoid

variable [AddCommMonoid M] [DecidableEq ι] (w : π → M) (threads : ι → π)

/-- **The trade.** Moving one thread replaces its old weight by its new one. -/
theorem tally_update (i : ι) (x : π) :
    tally w (Function.update threads i x) + w (threads i) = tally w threads + w x := by
  have hsplit : ∀ f : ι → π, tally w f = w (f i) + ∑ j ∈ Finset.univ.erase i, w (f j) := by
    intro f
    rw [tally, Finset.add_sum_erase _ (fun j ↦ w (f j)) (Finset.mem_univ i)]
  have hrest : ∑ j ∈ Finset.univ.erase i, w (Function.update threads i x j)
      = ∑ j ∈ Finset.univ.erase i, w (threads j) := by
    refine Finset.sum_congr rfl fun j hj ↦ ?_
    rw [Function.update_of_ne (Finset.ne_of_mem_erase hj)]
  rw [hsplit, hsplit threads, hrest, Function.update_self, add_right_comm, add_comm (w x),
    add_right_comm]

theorem tally_update_of_eq {i : ι} {x : π} (h : w x = w (threads i)) :
    tally w (Function.update threads i x) = tally w threads :=
  Finset.sum_congr rfl fun j _ ↦ apply_update_eq w threads h j

omit [DecidableEq ι] in
theorem tally_eq_zero (h : ∀ i, w (threads i) = 0) : tally w threads = 0 :=
  Finset.sum_eq_zero fun i _ ↦ h i

omit [DecidableEq ι] in
theorem tally_congr {threads' : ι → π} (h : ∀ i, w (threads' i) = w (threads i)) :
    tally w threads' = tally w threads :=
  Finset.sum_congr rfl fun i _ ↦ h i

omit [DecidableEq ι] in
theorem tally_add_const (c : M) :
    tally (fun x ↦ w x + c) threads = tally w threads + Fintype.card ι • c := by
  rw [tally, Finset.sum_add_distrib, Finset.sum_const, Finset.card_univ, tally]

end AddCommMonoid

/-- The number of threads at a position with the given property. -/
def count (p : π → Bool) (threads : ι → π) : ℕ := tally (fun x ↦ (p x).toNat) threads

section Ordered

variable [AddCommMonoid M] [PartialOrder M] [IsOrderedAddMonoid M]
  [CanonicallyOrderedAdd M] (w : π → M) (threads : ι → π)

theorem le_tally (i : ι) : w (threads i) ≤ tally w threads :=
  Finset.single_le_sum (f := fun i ↦ w (threads i)) (fun _ _ ↦ zero_le) (Finset.mem_univ i)

omit [CanonicallyOrderedAdd M] in
theorem tally_le_tally {threads threads' : ι → π} (h : ∀ i, w (threads i) ≤ w (threads' i)) :
    tally w threads ≤ tally w threads' :=
  Finset.sum_le_sum fun i _ ↦ h i

omit [IsOrderedAddMonoid M] in
/-- What two different threads hold is part of the tally, counted separately. -/
theorem add_le_tally {i j : ι} (h : i ≠ j) :
    w (threads i) + w (threads j) ≤ tally w threads := by
  classical
  rw [← Finset.sum_pair (f := fun i ↦ w (threads i)) h]
  exact Finset.sum_le_sum_of_subset (Finset.subset_univ _)

end Ordered

end FoundationComponents
