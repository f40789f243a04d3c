import FoundationComponents.Memory.Basic

/-!
# Chains

A chain is a list that is linked through memory and ends in the null pointer. It hangs from a word
that is not part of it, such as the head field of a queue, and each of its cells begins with the
link to the next one. The word it hangs from and the cells differ only in this, and taking them
together as one row of words leaves no special case for the empty chain: a cell is appended by
storing it in the last word of the row, and the first cell is taken off by storing its link in the
word before.
-/

namespace FoundationComponents

namespace Memory

/-- The pointers at the two addresses do not share a byte. -/
def Apart (a b : ℕ) : Prop := a + 8 ≤ b ∨ b + 8 ≤ a

/-- The chain that hangs from the word at `a` has the cells `cells`. -/
def Linked (m : Memory) : ℕ → List ℕ → Prop
  | a, [] => m.load a = 0
  | a, b :: cells => m.load a = b ∧ m.Linked b cells

/-- A sequence of stores, each of them an address and a pointer. -/
def storeAll (m : Memory) (links : List (ℕ × ℕ)) : Memory :=
  links.foldl (fun m link ↦ m.store link.1 link.2) m

variable {m m' : Memory} {a b v : ℕ} {cells : List ℕ}

theorem Apart.symm (h : Apart a b) : Apart b a := Or.symm h

/-- The last word of the row: that of the last cell, or of the word the chain hangs from. -/
def lastWord (a : ℕ) (cells : List ℕ) : ℕ := cells.getLastD a

@[simp] theorem lastWord_nil : lastWord a [] = a := rfl

@[simp] theorem lastWord_cons : lastWord a (b :: cells) = lastWord b cells :=
  List.getLastD_cons ..

@[simp] theorem lastWord_concat : lastWord a (cells ++ [b]) = b :=
  List.getLastD_concat ..

theorem lastWord_mem : lastWord a cells ∈ a :: cells := by
  induction cells generalizing a with
  | nil => exact List.mem_cons_self
  | cons b cells ih =>
    rw [lastWord_cons]
    exact List.mem_cons_of_mem a ih

namespace Linked

theorem walk_eq (h : m.Linked a cells) : m.walk cells.length (m.load a) = cells := by
  induction cells generalizing a with
  | nil => rfl
  | cons b cells ih => rw [List.length_cons, walk, h.1, ih h.2]

theorem load_lastWord (h : m.Linked a cells) : m.load (lastWord a cells) = 0 := by
  induction cells generalizing a with
  | nil => exact h
  | cons b cells ih =>
    rw [lastWord_cons]
    exact ih h.2

theorem load_eq (h : m.Linked a cells) : m.load a = cells.headD 0 := by
  cases cells with
  | nil => exact h
  | cons b cells => exact h.1

theorem congr (h : m.Linked a cells) (hsame : ∀ b ∈ a :: cells, m'.load b = m.load b) :
    m'.Linked a cells := by
  induction cells generalizing a with
  | nil => exact (hsame a List.mem_cons_self).trans h
  | cons b cells ih =>
    exact ⟨(hsame a List.mem_cons_self).trans h.1,
      ih h.2 fun c hc ↦ hsame c (List.mem_cons_of_mem a hc)⟩

theorem store (h : m.Linked a cells) (hapart : ∀ c ∈ a :: cells, Apart b c) :
    (m.store b v).Linked a cells :=
  h.congr fun c hc ↦ load_store_of_disjoint (hapart c hc)

/-- **Appending.** A cell whose link is null is stored in the last word. -/
theorem concat (h : m.Linked a cells) (hrow : (a :: cells).Pairwise Apart)
    (hapart : ∀ c ∈ a :: cells, Apart c b) (hnull : m.load b = 0) (hb : b < size) :
    (m.store (lastWord a cells) b).Linked a (cells ++ [b]) := by
  induction cells generalizing a with
  | nil =>
    have hend := load_store_of_disjoint (m := m) (v := b) (hapart a List.mem_cons_self)
    exact ⟨load_store_self hb, hend.trans hnull⟩
  | cons c cells ih =>
    obtain ⟨hfirst, hrest⟩ := List.pairwise_cons.mp hrow
    rw [lastWord_cons]
    refine ⟨?_, ih h.2 hrest fun d hd ↦ hapart d (List.mem_cons_of_mem a hd)⟩
    rw [load_store_of_disjoint (hfirst _ lastWord_mem).symm]
    exact h.1

/-- **Taking off.** The link of the first cell is stored in the word before it. -/
theorem tail (h : m.Linked a (b :: cells)) (hrow : (a :: b :: cells).Pairwise Apart) :
    (m.store a (m.load b)).Linked a cells := by
  obtain ⟨hfirst, hrest⟩ := List.pairwise_cons.mp hrow
  have hstored : (m.store a (m.load b)).load a = m.load b := load_store_self (load_lt m b)
  have hsame : (m.store a (m.load b)).Linked b cells := h.2.store hfirst
  cases cells with
  | nil => exact hstored.trans h.2
  | cons c cells => exact ⟨hstored.trans h.2.1, hsame.2⟩

end Linked

end Memory

end FoundationComponents
