import Mathlib.Data.List.Sort
import Mathlib.Data.Nat.Notation

/-!
# Sorting by a key

A list whose keys increase strictly is determined by its elements: every way of sorting them by
their keys gives this list, whatever their order was before. The elements from some key on are its
end.
-/

namespace FoundationComponents

namespace Sorting

variable {α : Type*} {key : α → ℕ} {l sorted : List α}

/-- **Uniqueness of the sorted list.** -/
theorem insertionSort_eq (hperm : l.Perm sorted)
    (hsorted : sorted.Pairwise fun a b ↦ key a < key b) :
    (l.insertionSort fun a b ↦ key a ≤ key b) = sorted := by
  have : Std.Total fun a b : α ↦ key a ≤ key b := ⟨fun _ _ ↦ Nat.le_total _ _⟩
  have : IsTrans α fun a b ↦ key a ≤ key b := ⟨fun _ _ _ ↦ Nat.le_trans⟩
  have hnodup : (sorted.map key).Nodup := (List.pairwise_map.mpr hsorted).imp fun hlt ↦ hlt.ne
  have hperm' := (List.perm_insertionSort (fun a b ↦ key a ≤ key b) l).trans hperm
  refine List.Perm.eq_of_pairwise ?_ (List.pairwise_insertionSort _ _)
    (hsorted.imp Nat.le_of_lt) hperm'
  intro a b ha hb hle hge
  exact List.inj_on_of_nodup_map hnodup (hperm'.mem_iff.mp ha) hb (Nat.le_antisymm hle hge)

/-- The elements from a key on are at the end. -/
theorem filter_suffix (hsorted : sorted.Pairwise fun a b ↦ key a < key b) (n : ℕ) :
    (sorted.filter fun a ↦ key a ≥ n) <:+ sorted := by
  induction sorted with
  | nil => exact List.suffix_rfl
  | cons a sorted ih =>
    obtain ⟨ha, hsorted⟩ := List.pairwise_cons.mp hsorted
    by_cases hn : key a ≥ n
    · -- all others come later
      have hall : (a :: sorted).filter (fun a ↦ key a ≥ n) = a :: sorted := by
        refine List.filter_eq_self.mpr fun b hb ↦ ?_
        rw [decide_eq_true_iff]
        rcases List.mem_cons.mp hb with rfl | hb
        · exact hn
        · exact Nat.le_trans hn (Nat.le_of_lt (ha b hb))
      exact ⟨[], hall⟩
    · rw [List.filter_cons_of_neg (by rwa [decide_eq_true_iff])]
      exact (ih hsorted).trans (List.suffix_cons _ _)

end Sorting

end FoundationComponents
