import Mathlib.Data.List.GetD
import Mathlib.Data.Nat.ModEq
import Mathlib.Logic.Function.Basic

/-!
# Lists laid out around a ring

A bounded queue in an array keeps its elements in a *window*: reading the cells upwards from `head`,
modulo the capacity, gives the elements in order and then blanks. `Holds` says so for all cells at
once, so it also says which cells are blank, and a full window, where the first free position
coincides with `head`, is no special case.

Adding an element writes the cell after the window and removing the first one blanks the cell at
`head`; both are exact, whatever the wrap-around.
-/

namespace FoundationComponents

namespace Circular

variable {β : Type*} {blank x : β} {f : ℕ → β} {capacity head : ℕ} {l : List β}

/-- Reading `f` around the ring from `head` gives `l` and then blanks. -/
def Holds (blank : β) (f : ℕ → β) (capacity head : ℕ) (l : List β) : Prop :=
  ∀ i < capacity, f ((head + i) % capacity) = l.getD i blank

theorem offset_inj {i j : ℕ} (hi : i < capacity) (hj : j < capacity)
    (h : (head + i) % capacity = (head + j) % capacity) : i = j := by
  have hmod : i ≡ j [MOD capacity] := Nat.ModEq.add_left_cancel' head h
  exact Nat.ModEq.eq_of_lt_of_lt hmod hi hj

theorem exists_offset (head : ℕ) {j : ℕ} (hj : j < capacity) :
    ∃ i < capacity, (head + i) % capacity = j := by
  have hpos : 0 < capacity := Nat.zero_lt_of_lt hj
  refine ⟨(j + (capacity - head % capacity)) % capacity, Nat.mod_lt _ hpos, ?_⟩
  have hlt : head % capacity < capacity := Nat.mod_lt _ hpos
  rw [Nat.add_mod_mod, ← Nat.mod_add_mod, show head % capacity + (j + (capacity - head % capacity))
    = j + capacity by omega, Nat.add_mod_right, Nat.mod_eq_of_lt hj]

/-- The successor computed by a comparison is the successor modulo the capacity. -/
theorem next_eq_mod {i : ℕ} (hi : i < capacity) :
    (if i + 1 = capacity then 0 else i + 1) = (i + 1) % capacity := by
  split
  · rename_i heq
    rw [heq, Nat.mod_self]
  · rename_i hne
    rw [Nat.mod_eq_of_lt (by omega)]

theorem holds_nil (hf : ∀ i < capacity, f i = blank) : Holds blank f capacity head [] := by
  intro i hi
  rw [hf _ (Nat.mod_lt _ (Nat.zero_lt_of_lt hi)), List.getD_nil]

theorem Holds.head_eq (h : Holds blank f capacity head (x :: l)) (hhead : head < capacity) :
    f head = x := by
  have hzero := h 0 (Nat.zero_lt_of_lt hhead)
  rwa [Nat.add_zero, Nat.mod_eq_of_lt hhead] at hzero

/-- Write the cell after the window. -/
theorem Holds.append (h : Holds blank f capacity head l) (hl : l.length < capacity) (x : β) :
    Holds blank (Function.update f ((head + l.length) % capacity) x) capacity head (l ++ [x]) := by
  intro i hi
  by_cases heq : i = l.length
  · subst heq
    rw [Function.update_self, List.getD_append_right _ _ _ _ (Nat.le_refl _), Nat.sub_self]
    rfl
  · have hcell : (head + i) % capacity ≠ (head + l.length) % capacity :=
      fun hmod ↦ heq (offset_inj hi hl hmod)
    rw [Function.update_of_ne hcell, h i hi]
    rcases Nat.lt_or_ge i l.length with hlt | hge
    · rw [List.getD_append _ _ _ _ hlt]
    · rw [List.getD_eq_default _ _ hge, List.getD_eq_default]
      rw [List.length_append, List.length_singleton]
      omega

/-- Blank the cell at `head` and step past it. -/
theorem Holds.tail (h : Holds blank f capacity head (x :: l)) (hhead : head < capacity)
    (hl : l.length < capacity) :
    Holds blank (Function.update f head blank) capacity ((head + 1) % capacity) l := by
  intro i hi
  rw [Nat.mod_add_mod, Nat.add_assoc, Nat.add_comm 1 i]
  by_cases hlast : i + 1 < capacity
  · have hcell : (head + (i + 1)) % capacity ≠ head := by
      intro heq
      have hmod : (head + (i + 1)) % capacity = (head + 0) % capacity := by
        rw [heq, Nat.add_zero, Nat.mod_eq_of_lt hhead]
      exact absurd (offset_inj hlast (by omega) hmod) (Nat.succ_ne_zero i)
    rw [Function.update_of_ne hcell, h (i + 1) hlast, List.getD_cons_succ]
  · -- the last cell of the ring, counted from the new head, is the one just blanked
    have hcap : i + 1 = capacity := by omega
    rw [hcap, Nat.add_mod_right, Nat.mod_eq_of_lt hhead, Function.update_self,
      List.getD_eq_default _ _ (by omega)]

end Circular

end FoundationComponents
