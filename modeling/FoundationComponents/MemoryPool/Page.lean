import FoundationComponents.Memory.Chain
import FoundationComponents.MemoryPool.Basic

/-!
# The page of the pool

`mempool_init` stores a link in every block, and one more, the null pointer, behind the last block.
The links in the blocks are inside the page. The one behind them lies in what the blocks leave over
of the page, and a block size that divides the page leaves nothing.

The null pointer is also one block too late. The own link of the last block leads to the place
behind it, so the list is only terminated as it should be if there are no blocks at all.
-/

namespace FoundationComponents

namespace MemoryPool

/-- The links that the loop of `mempool_init` and the store after it write, as pairs of an address
and a pointer, in their order. -/
def initStores (blockSize : ℕ) : ℕ → ℕ → List (ℕ × ℕ)
  | 0, ptr => [(ptr, 0)]
  | count + 1, ptr => (ptr, ptr + blockSize) :: initStores blockSize count (ptr + blockSize)

section Stores

variable {blockSize count ptr : ℕ} {m : Memory}

theorem initLoop_eq_storeAll :
    initLoop blockSize count ptr m = m.storeAll (initStores blockSize count ptr) := by
  induction count generalizing ptr m with
  | zero => rfl
  | succ count ih =>
    rw [initLoop, ih]
    rfl

theorem map_fst_initStores : (initStores blockSize count ptr).map Prod.fst =
    (List.range (count + 1)).map fun i ↦ ptr + i * blockSize := by
  induction count generalizing ptr with
  | zero => simp [initStores]
  | succ count ih =>
    rw [initStores, List.map_cons, ih, List.range_succ_eq_map (n := count + 1), List.map_cons,
      List.map_map, Nat.zero_mul, Nat.add_zero]
    refine congrArg _ (List.map_congr_left fun i _ ↦ ?_)
    rw [Function.comp_apply, Nat.succ_mul]
    omega

/-- The link of a block leads to the next one, also from the last block. -/
theorem load_block (hsize : 8 ≤ blockSize) {i : ℕ} (hi : i < count)
    (hptr : ptr + count * blockSize < Memory.size) :
    (initLoop blockSize count ptr m).load (ptr + i * blockSize) = ptr + (i + 1) * blockSize := by
  induction count generalizing ptr m i with
  | zero => exact absurd hi (Nat.not_lt_zero i)
  | succ count ih =>
    rw [Nat.succ_mul] at hptr
    cases i with
    | zero =>
      rw [Nat.zero_mul, Nat.add_zero, Nat.zero_add, Nat.one_mul, initLoop, load_initLoop (by omega)]
      exact Memory.load_store_self (by omega)
    | succ i =>
      have hnext : ∀ j, ptr + (j + 1) * blockSize = ptr + blockSize + j * blockSize := by
        intro j
        rw [Nat.succ_mul]
        omega
      rw [initLoop, hnext i, hnext (i + 1)]
      exact ih (Nat.lt_of_succ_lt_succ hi) (by omega)

end Stores

/-- Every link that `mempool_init` stores is inside the page. -/
def StoresInside (blockSize mem : ℕ) : Prop :=
  ∀ link ∈ initStores blockSize (pageSize / blockSize) mem,
    mem ≤ link.1 ∧ link.1 + 8 ≤ mem + pageSize

/-- The links lead through the blocks in the order of their addresses. -/
def InOrder (blockSize mem : ℕ) (m : Memory) : Prop :=
  m.walk (pageSize / blockSize) mem = blocks blockSize mem

/-- The last block, if there is one, has the null pointer as its link. -/
def EndsNull (blockSize mem : ℕ) (m : Memory) : Prop :=
  ∀ p ∈ (blocks blockSize mem).getLast?, m.load p = 0

section Page

variable {blockSize mem : ℕ} {m m' : Memory} {mp : Mempool}

theorem storesInside_iff : StoresInside blockSize mem ↔ 8 ≤ pageSize % blockSize := by
  have hdivide := Nat.div_add_mod' pageSize blockSize
  have haddress : StoresInside blockSize mem ↔
      ∀ p ∈ (initStores blockSize (pageSize / blockSize) mem).map Prod.fst,
        mem ≤ p ∧ p + 8 ≤ mem + pageSize := by
    rw [List.forall_mem_map]
    rfl
  rw [haddress, map_fst_initStores, List.forall_mem_map]
  constructor
  · intro hinside
    have hlast := (hinside _ (List.mem_range.mpr (Nat.lt_succ_self _))).2
    omega
  · intro hleft i hi
    have hle : i * blockSize ≤ pageSize / blockSize * blockSize :=
      Nat.mul_le_mul_right _ (Nat.le_of_lt_succ (List.mem_range.mp hi))
    omega

theorem endsNull_iff (hsize : 8 ≤ blockSize) (hpos : 0 < mem)
    (hmem : mem + pageSize < Memory.size) :
    EndsNull blockSize mem (initLoop blockSize (pageSize / blockSize) mem m) ↔
      pageSize < blockSize := by
  have hle : pageSize / blockSize * blockSize ≤ pageSize := Nat.div_mul_le_self _ _
  rw [← Nat.div_eq_zero_iff_lt (by omega), EndsNull, blocks, List.getLast?_map]
  cases hcount : pageSize / blockSize with
  | zero => exact iff_of_true (fun p hp ↦ absurd hp (Option.not_mem_none p)) rfl
  | succ last =>
    rw [hcount] at hle
    have hlink := load_block (m := m) hsize (Nat.lt_succ_self last)
      (Nat.lt_of_le_of_lt (Nat.add_le_add_left hle mem) hmem)
    rw [List.getLast?_range, if_neg (Nat.succ_ne_zero last), Nat.succ_sub_one, Option.map_some]
    refine iff_of_false (fun hnull ↦ ?_) (Nat.succ_ne_zero last)
    rw [hnull _ rfl] at hlink
    omega

/-- **The page.** The links lead through all blocks in the order of their addresses. They are all
stored inside the page exactly if eight bytes of it are left over, and the last block has a null
pointer exactly if there is no block. -/
theorem init_page_iff (hsize : 8 ≤ blockSize) (hmem : mem + pageSize < Memory.size)
    (hinit : init blockSize mem m = some (mp, m')) :
    InOrder blockSize mem m' ∧ (StoresInside blockSize mem ↔ 8 ≤ pageSize % blockSize) ∧
      (EndsNull blockSize mem m' ↔ pageSize < blockSize) ∧
      (StoresInside blockSize mem ∧ InOrder blockSize mem m' ∧ EndsNull blockSize mem m' ↔
        pageSize < blockSize) := by
  have hle : pageSize / blockSize * blockSize ≤ pageSize := Nat.div_mul_le_self _ _
  rw [init] at hinit
  split at hinit
  · cases hinit
  · rename_i hpos
    obtain ⟨-, rfl⟩ := Prod.mk.inj (Option.some.inj hinit)
    have horder : InOrder blockSize mem (initLoop blockSize (pageSize / blockSize) mem m) :=
      walk_initLoop hsize (by omega)
    have hnull := endsNull_iff (m := m) hsize (Nat.pos_of_ne_zero hpos) hmem
    refine ⟨horder, storesInside_iff, hnull, fun h ↦ hnull.mp h.2.2, fun hlarge ↦ ?_⟩
    refine ⟨storesInside_iff.mpr ?_, horder, hnull.mpr hlarge⟩
    rw [Nat.mod_eq_of_lt hlarge]
    decide

/-- A block that does not fit into the page: the one link that is stored is inside. -/
theorem init_page_iff_large : ∃ mp m', init 5000 65536 (fun _ ↦ 255) = some (mp, m') ∧
    StoresInside 5000 65536 ∧ InOrder 5000 65536 m' ∧ EndsNull 5000 65536 m' :=
  ⟨_, _, rfl, (init_page_iff (by decide) (by decide) rfl).2.2.2.mpr (by decide)⟩

/-- The block size of the program's own pool divides the page: the null pointer is stored in the
eight bytes behind the page, and the last block is linked to them. -/
theorem init_past_page : ∃ mp m', init 32 65536 (fun _ ↦ 255) = some (mp, m') ∧
    (69632, 0) ∈ initStores 32 (pageSize / 32) 65536 ∧ ¬StoresInside 32 65536 ∧
      m'.load (65536 + 127 * 32) = 69632 ∧ ¬EndsNull 32 65536 m' :=
  ⟨_, _, rfl, by decide +kernel, fun hinside ↦ absurd (storesInside_iff.mp hinside) (by decide),
    load_block (by decide) (by decide) (by decide),
    fun hnull ↦ absurd ((endsNull_iff (by decide) (by decide) (by decide)).mp hnull) (by decide)⟩

end Page

end MemoryPool

end FoundationComponents
