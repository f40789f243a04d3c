import Mathlib.Data.Nat.Notation
import Mathlib.Data.List.Perm.Basic

/-!
# Bytes and links

A memory maps addresses to bytes. A pointer is stored in eight of them, the least significant one
first, and is read back as it was stored; what is written elsewhere does not change it.

A list that is linked through memory has the address of its next cell in the first bytes of every
cell. Its end is not marked: who walks along the links has to know how far.
-/

namespace FoundationComponents

/-- A memory of bytes. -/
def Memory := ℕ → UInt8

namespace Memory

/-- The byte of weight `256 ^ k` of a number. -/
def byteOf : ℕ → ℕ → ℕ
  | v, 0 => v % 256
  | v, k + 1 => byteOf (v / 256) k

variable (m : Memory)

def writeByte (a : ℕ) (byte : UInt8) : Memory := fun b ↦ if b = a then byte else m b

/-- Store a pointer at an address. -/
def store (a v : ℕ) : Memory := fun b ↦
  if a ≤ b ∧ b < a + 8 then UInt8.ofNat (byteOf v (b - a)) else m b

/-- The pointer at an address. -/
def load (a : ℕ) : ℕ :=
  (m a).toNat + 256 * ((m (a + 1)).toNat + 256 * ((m (a + 2)).toNat + 256 * ((m (a + 3)).toNat +
    256 * ((m (a + 4)).toNat + 256 * ((m (a + 5)).toNat + 256 * ((m (a + 6)).toNat +
      256 * (m (a + 7)).toNat))))))

/-- The first addresses along the links. -/
def walk : ℕ → ℕ → List ℕ
  | 0, _ => []
  | count + 1, a => a :: walk count (m.load a)

/-- The number of addresses, `2 ^ 64`. -/
def size : ℕ := 18446744073709551616

section Lemmas

variable {m} {m' : Memory} {a b v : ℕ}

theorem load_congr (h : ∀ b, a ≤ b → b < a + 8 → m' b = m b) : m'.load a = m.load a := by
  rw [load, load]
  rw [h a (by omega) (by omega), h (a + 1) (by omega) (by omega), h (a + 2) (by omega) (by omega),
    h (a + 3) (by omega) (by omega), h (a + 4) (by omega) (by omega),
    h (a + 5) (by omega) (by omega), h (a + 6) (by omega) (by omega),
    h (a + 7) (by omega) (by omega)]

theorem load_lt (m : Memory) (a : ℕ) : m.load a < size := by
  have hbyte : ∀ k, (m (a + k)).toNat < 256 := fun k ↦ UInt8.toNat_lt _
  have h0 := hbyte 0
  have h1 := hbyte 1
  have h2 := hbyte 2
  have h3 := hbyte 3
  have h4 := hbyte 4
  have h5 := hbyte 5
  have h6 := hbyte 6
  have h7 := hbyte 7
  rw [load, size]
  rw [Nat.add_zero] at h0
  omega

theorem store_byte {k : ℕ} (hk : k < 8) :
    ((m.store a v) (a + k)).toNat = byteOf v k % 256 := by
  rw [store, if_pos ⟨Nat.le_add_right a k, Nat.add_lt_add_left hk a⟩, Nat.add_sub_cancel_left]
  rfl

/-- A pointer is read back as it was stored. -/
theorem load_store_self (hv : v < size) : (m.store a v).load a = v := by
  have h0 := store_byte (m := m) (a := a) (v := v) (k := 0) (by omega)
  rw [Nat.add_zero] at h0
  rw [load, h0, store_byte (by omega), store_byte (by omega), store_byte (by omega),
    store_byte (by omega), store_byte (by omega), store_byte (by omega), store_byte (by omega)]
  simp only [byteOf]
  rw [size] at hv
  omega

theorem load_store_of_disjoint (h : a + 8 ≤ b ∨ b + 8 ≤ a) : (m.store a v).load b = m.load b := by
  refine load_congr fun c hle hlt ↦ ?_
  rw [store, if_neg (by omega)]

theorem load_writeByte_of_disjoint {byte : UInt8} (h : a < b ∨ b + 8 ≤ a) :
    (m.writeByte a byte).load b = m.load b := by
  refine load_congr fun c hle hlt ↦ ?_
  rw [writeByte, if_neg (by omega)]

/-! ## Walks -/

theorem walk_congr {count : ℕ} (h : ∀ b ∈ m.walk count a, m'.load b = m.load b) :
    m'.walk count a = m.walk count a := by
  induction count generalizing a with
  | zero => rfl
  | succ count ih =>
    rw [walk, walk, h a List.mem_cons_self, ih fun b hb ↦ h b (List.mem_cons_of_mem a hb)]

theorem length_walk (m : Memory) (count a : ℕ) : (m.walk count a).length = count := by
  induction count generalizing a with
  | zero => rfl
  | succ count ih => rw [walk, List.length_cons, ih]

end Lemmas

end Memory

end FoundationComponents
