import FoundationComponents.Machine.Basic
import FoundationComponents.Memory.Basic
import Mathlib.Data.List.Nodup

/-!
# The memory pool

`mempool` cuts a page into blocks of one size and keeps the free blocks in a list that is linked
through the blocks themselves. The link of the last block leads past it, and only `free_count` keeps
the list from being followed there. Allocation takes the first block of the list and release puts a
block in front of it, so that after a while the links run through the page in any order.

The owners of the blocks write what they like into them. Since a link lies in the first bytes of a
free block, and blocks do not overlap, this does not touch the list: at every time the blocks along
the list and the blocks that have been handed out are together all blocks of the page.
-/

namespace FoundationComponents

namespace MemoryPool

/-- `MEM_PAGE_SIZE`. -/
def pageSize : ℕ := 4096

/-- `mempool_t`. The null pointer is 0. The block size is the argument of `mempool_init`, a
`size_t`, which the field of type `int` holds unchanged below `2 ^ 31`; a page has no blocks of that
size. -/
structure Mempool where
  blockSize : ℕ
  freeCount : ℕ
  mem : ℕ
  ptr : ℕ
  deriving Repr, DecidableEq

/-- The loop of `mempool_init` for `count` blocks from `ptr` on, and the link after it. -/
def initLoop (blockSize : ℕ) : ℕ → ℕ → Memory → Memory
  | 0, ptr, m => m.store ptr 0
  | count + 1, ptr, m => initLoop blockSize count (ptr + blockSize) (m.store ptr (ptr + blockSize))

/-- `mempool_init`, with the page that `malloc` returned. It fails if there is none. -/
def init (blockSize mem : ℕ) (m : Memory) : Option (Mempool × Memory) :=
  if mem = 0 then none
  else
    some (⟨blockSize, pageSize / blockSize, mem, mem⟩,
      initLoop blockSize (pageSize / blockSize) mem m)

namespace Mempool

variable (mp : Mempool) (m : Memory)

/-- `_malloc`, with the pointer it returns. -/
def malloc (size : ℕ) : Mempool × ℕ :=
  if mp.blockSize < size ∨ mp.freeCount = 0 then (mp, 0)
  else ({ mp with ptr := m.load mp.ptr, freeCount := mp.freeCount - 1 }, mp.ptr)

/-- `_free`. -/
def free (ptr : ℕ) : Mempool × Memory :=
  ({ mp with ptr := ptr, freeCount := mp.freeCount + 1 }, m.store ptr mp.ptr)

end Mempool

/-! ## Runs

The program may write to the blocks that it has, and gives back only those. With a block of its own
it can do what it likes, which the links must survive. -/

/-- The pool, the memory, and the blocks that have been handed out and not been given back. -/
structure System where
  pool : Mempool
  memory : Memory
  outstanding : List ℕ

inductive Action
  | malloc (size : ℕ)
  | free (ptr : ℕ)
  /-- The owner of a block writes a byte into it. -/
  | write (ptr offset : ℕ) (byte : UInt8)
  deriving Repr, DecidableEq

namespace System

variable (s : System)

/-- Only outstanding blocks are given back and written to. -/
def step : Action → Option System
  | .malloc size =>
      let (pool, ptr) := s.pool.malloc s.memory size
      some
        { s with
          pool := pool
          outstanding := if ptr = 0 then s.outstanding else ptr :: s.outstanding }
  | .free ptr =>
      if ptr ∈ s.outstanding then
        let (pool, memory) := s.pool.free s.memory ptr
        some ⟨pool, memory, s.outstanding.erase ptr⟩
      else none
  | .write ptr offset byte =>
      if ptr ∈ s.outstanding ∧ offset < s.pool.blockSize then
        some { s with memory := s.memory.writeByte (ptr + offset) byte }
      else none

/-- The free blocks, in the order of the links. -/
def freeList : List ℕ := s.memory.walk s.pool.freeCount s.pool.ptr

end System

/-- A pool in a page at `mem`, in a memory with any content. -/
def machine (blockSize mem : ℕ) (m : Memory) : Machine System Action where
  init :=
    ⟨⟨blockSize, pageSize / blockSize, mem, mem⟩,
      initLoop blockSize (pageSize / blockSize) mem m, []⟩
  step := System.step

theorem init_eq {blockSize mem : ℕ} {m : Memory} (hmem : 0 < mem) :
    init blockSize mem m =
      some ((machine blockSize mem m).init.pool, (machine blockSize mem m).init.memory) :=
  if_neg (Nat.ne_of_gt hmem)

/-- The blocks of the page. -/
def blocks (blockSize mem : ℕ) : List ℕ :=
  (List.range (pageSize / blockSize)).map fun i ↦ mem + i * blockSize

section Blocks

variable {blockSize mem p q : ℕ}

theorem mem_blocks : p ∈ blocks blockSize mem ↔
    ∃ i < pageSize / blockSize, p = mem + i * blockSize := by
  rw [blocks, List.mem_map]
  constructor
  · rintro ⟨i, hi, rfl⟩
    exact ⟨i, List.mem_range.mp hi, rfl⟩
  · rintro ⟨i, hi, rfl⟩
    exact ⟨i, List.mem_range.mpr hi, rfl⟩

theorem blocks_nodup (hsize : 0 < blockSize) : (blocks blockSize mem).Nodup := by
  refine List.Nodup.map (fun i j hij ↦ ?_) List.nodup_range
  exact Nat.eq_of_mul_eq_mul_right hsize (Nat.add_left_cancel hij)

theorem block_le (hp : p ∈ blocks blockSize mem) : mem ≤ p ∧ p + blockSize ≤ mem + pageSize := by
  obtain ⟨i, hi, rfl⟩ := mem_blocks.mp hp
  have hlast : (i + 1) * blockSize ≤ pageSize :=
    Nat.le_trans (Nat.mul_le_mul_right blockSize hi) (Nat.div_mul_le_self pageSize blockSize)
  rw [Nat.succ_mul] at hlast
  omega

theorem blocks_disjoint (hp : p ∈ blocks blockSize mem) (hq : q ∈ blocks blockSize mem)
    (hne : p ≠ q) : p + blockSize ≤ q ∨ q + blockSize ≤ p := by
  obtain ⟨i, -, rfl⟩ := mem_blocks.mp hp
  obtain ⟨j, -, rfl⟩ := mem_blocks.mp hq
  rcases Nat.lt_trichotomy i j with hij | rfl | hij
  · have hle : (i + 1) * blockSize ≤ j * blockSize := Nat.mul_le_mul_right _ hij
    rw [Nat.succ_mul] at hle
    exact Or.inl (by omega)
  · exact absurd rfl hne
  · have hle : (j + 1) * blockSize ≤ i * blockSize := Nat.mul_le_mul_right _ hij
    rw [Nat.succ_mul] at hle
    exact Or.inr (by omega)

theorem load_initLoop {count ptr a : ℕ} {m : Memory} (ha : a + 8 ≤ ptr) :
    (initLoop blockSize count ptr m).load a = m.load a := by
  induction count generalizing ptr m with
  | zero => exact Memory.load_store_of_disjoint (Or.inr ha)
  | succ count ih =>
    rw [initLoop, ih (by omega)]
    exact Memory.load_store_of_disjoint (Or.inr ha)

/-- `mempool_init` links the blocks in the order of their addresses. -/
theorem walk_initLoop (hsize : 8 ≤ blockSize) {count ptr : ℕ} {m : Memory}
    (hptr : ptr + count * blockSize < Memory.size) :
    (initLoop blockSize count ptr m).walk count ptr =
      (List.range count).map fun i ↦ ptr + i * blockSize := by
  induction count generalizing ptr m with
  | zero => rfl
  | succ count ih =>
    rw [Nat.succ_mul] at hptr
    have hlink : (initLoop blockSize (count + 1) ptr m).load ptr = ptr + blockSize := by
      rw [initLoop, load_initLoop (by omega)]
      exact Memory.load_store_self (by omega)
    rw [Memory.walk, hlink, initLoop, ih (by omega), List.range_succ_eq_map, List.map_cons,
      List.map_map, Nat.zero_mul, Nat.add_zero]
    refine congrArg _ (List.map_congr_left fun i _ ↦ ?_)
    rw [Function.comp_apply, Nat.succ_mul]
    omega

end Blocks

/-! ## The invariant

Only as many links count as there are free blocks, so the one that leads past the page is never
followed. -/

/-- The blocks along the links and the outstanding blocks are all blocks of the page. -/
structure Inv (blockSize mem : ℕ) (s : System) : Prop where
  blockSize_eq : s.pool.blockSize = blockSize
  ptr_lt : s.pool.ptr < Memory.size
  perm : (s.freeList ++ s.outstanding).Perm (blocks blockSize mem)

section Steps

variable {blockSize mem : ℕ} {s s' : System} {a : Action} {m : Memory} {p q : ℕ}

theorem inv_init (hsize : 8 ≤ blockSize) (hmem : mem + pageSize < Memory.size) :
    Inv blockSize mem (machine blockSize mem m).init := by
  have hlast : pageSize / blockSize * blockSize ≤ pageSize := Nat.div_mul_le_self _ _
  refine ⟨rfl, Nat.lt_of_le_of_lt (Nat.le_add_right mem pageSize) hmem, ?_⟩
  rw [System.freeList, machine]
  dsimp only
  rw [walk_initLoop hsize (by omega), List.append_nil]
  exact List.Perm.refl _

namespace Inv

theorem mem_blocks_of_free (h : Inv blockSize mem s) (hp : p ∈ s.freeList) :
    p ∈ blocks blockSize mem :=
  h.perm.mem_iff.mp (List.mem_append_left _ hp)

theorem mem_blocks_of_outstanding (h : Inv blockSize mem s) (hp : p ∈ s.outstanding) :
    p ∈ blocks blockSize mem :=
  h.perm.mem_iff.mp (List.mem_append_right _ hp)

theorem nodup (h : Inv blockSize mem s) (hsize : 0 < blockSize) :
    (s.freeList ++ s.outstanding).Nodup :=
  h.perm.nodup_iff.mpr (blocks_nodup hsize)

/-- A free block and an outstanding block do not overlap. -/
theorem disjoint (h : Inv blockSize mem s) (hsize : 0 < blockSize) (hp : p ∈ s.freeList)
    (hq : q ∈ s.outstanding) : p + blockSize ≤ q ∨ q + blockSize ≤ p := by
  refine blocks_disjoint (h.mem_blocks_of_free hp) (h.mem_blocks_of_outstanding hq) ?_
  exact (List.nodup_append.mp (h.nodup hsize)).2.2 p hp q hq

theorem count (h : Inv blockSize mem s) :
    s.pool.freeCount + s.outstanding.length = pageSize / blockSize := by
  have hlength := h.perm.length_eq
  rw [List.length_append, System.freeList, Memory.length_walk, blocks, List.length_map,
    List.length_range] at hlength
  exact hlength

theorem malloc (h : Inv blockSize mem s) (hmem : 0 < mem) {size : ℕ}
    (hstep : s.step (.malloc size) = some s') : Inv blockSize mem s' := by
  by_cases hrefused : s.pool.blockSize < size ∨ s.pool.freeCount = 0
  · simp only [System.step, Mempool.malloc, if_pos hrefused, if_true] at hstep
    obtain rfl := Option.some.inj hstep
    exact h
  · simp only [System.step, Mempool.malloc, if_neg hrefused] at hstep
    obtain rfl := Option.some.inj hstep
    obtain ⟨count, hcount⟩ := Nat.exists_eq_succ_of_ne_zero fun hzero ↦ hrefused (Or.inr hzero)
    have hlist : s.freeList = s.pool.ptr :: s.memory.walk count (s.memory.load s.pool.ptr) := by
      rw [System.freeList, hcount]
      rfl
    have hblock : mem ≤ s.pool.ptr :=
      (block_le (h.mem_blocks_of_free (hlist ▸ List.mem_cons_self))).1
    have hperm := h.perm
    rw [hlist] at hperm
    rw [if_neg (by omega : s.pool.ptr ≠ 0)]
    refine ⟨h.blockSize_eq, Memory.load_lt _ _, ?_⟩
    rw [System.freeList]
    dsimp only
    rw [hcount, Nat.succ_sub_one]
    exact List.perm_middle.trans hperm

theorem free (h : Inv blockSize mem s) (hsize : 8 ≤ blockSize)
    (hmem : mem + pageSize < Memory.size) (hp : p ∈ s.outstanding) :
    Inv blockSize mem ⟨(s.pool.free s.memory p).1, (s.pool.free s.memory p).2,
      s.outstanding.erase p⟩ := by
  have hinside := (block_le (h.mem_blocks_of_outstanding hp)).2
  have hlist : (s.memory.store p s.pool.ptr).walk s.pool.freeCount s.pool.ptr = s.freeList := by
    refine Memory.walk_congr fun q hq ↦ Memory.load_store_of_disjoint ?_
    rcases h.disjoint (by omega) hq hp with hbefore | hbehind
    · exact Or.inr (by omega)
    · exact Or.inl (by omega)
  refine ⟨h.blockSize_eq, ?_, ?_⟩
  · rw [Mempool.free]
    dsimp only
    omega
  · rw [System.freeList, Mempool.free]
    dsimp only
    rw [Memory.walk, Memory.load_store_self h.ptr_lt, hlist]
    refine List.Perm.trans ?_ h.perm
    rw [List.cons_append]
    exact List.perm_middle.symm.trans ((List.perm_cons_erase hp).symm.append_left _)

theorem write (h : Inv blockSize mem s) (hsize : 8 ≤ blockSize) (hp : p ∈ s.outstanding)
    {offset : ℕ} (hoffset : offset < blockSize) (byte : UInt8) :
    Inv blockSize mem { s with memory := s.memory.writeByte (p + offset) byte } := by
  have hlist : (s.memory.writeByte (p + offset) byte).walk s.pool.freeCount s.pool.ptr =
      s.freeList := by
    refine Memory.walk_congr fun q hq ↦ Memory.load_writeByte_of_disjoint ?_
    rcases h.disjoint (by omega) hq hp with hbefore | hbehind
    · exact Or.inr (by omega)
    · exact Or.inl (by omega)
  refine ⟨h.blockSize_eq, h.ptr_lt, ?_⟩
  rw [System.freeList]
  dsimp only
  rw [hlist]
  exact h.perm

end Inv

theorem inv_step (h : Inv blockSize mem s) (hsize : 8 ≤ blockSize) (hpos : 0 < mem)
    (hmem : mem + pageSize < Memory.size) (hstep : s.step a = some s') : Inv blockSize mem s' := by
  cases a with
  | malloc size => exact h.malloc hpos hstep
  | free p =>
    simp only [System.step] at hstep
    split at hstep
    · rename_i hp
      obtain rfl := Option.some.inj hstep
      exact h.free hsize hmem hp
    · cases hstep
  | write p offset byte =>
    simp only [System.step] at hstep
    split at hstep
    · rename_i hp
      obtain rfl := Option.some.inj hstep
      exact h.write hsize hp.1 (h.blockSize_eq ▸ hp.2) byte
    · cases hstep

end Steps

/-- What the pool promises. -/
structure Pooled (blockSize mem : ℕ) (s : System) : Prop where
  /-- The links lead through `free_count` different blocks of the page, none of them outstanding. -/
  length_freeList : s.freeList.length = s.pool.freeCount
  freeList_nodup : s.freeList.Nodup
  freeList_block : ∀ p ∈ s.freeList, ∃ i < pageSize / blockSize, p = mem + i * blockSize
  freeList_free : ∀ p ∈ s.freeList, p ∉ s.outstanding
  count : s.pool.freeCount + s.outstanding.length = pageSize / blockSize
  malloc_iff : ∀ size, (s.pool.malloc s.memory size).2 ≠ 0 ↔
    size ≤ blockSize ∧ s.outstanding.length < pageSize / blockSize
  /-- What is handed out is a block that is not outstanding, so never the link past the last one. -/
  malloc_fresh : ∀ size, (s.pool.malloc s.memory size).2 ≠ 0 →
    (s.pool.malloc s.memory size).2 ∉ s.outstanding ∧
      ∃ i < pageSize / blockSize, (s.pool.malloc s.memory size).2 = mem + i * blockSize
  past_end : ∀ size, (s.pool.malloc s.memory size).2 ≠ mem + pageSize / blockSize * blockSize
  outstanding_nodup : s.outstanding.Nodup
  outstanding_inside : ∀ p ∈ s.outstanding, mem ≤ p ∧ p + blockSize ≤ mem + pageSize
  outstanding_disjoint : ∀ p ∈ s.outstanding, ∀ q ∈ s.outstanding, p ≠ q →
    p + blockSize ≤ q ∨ q + blockSize ≤ p

section Runs

variable {blockSize mem : ℕ} {s : System} {m : Memory}

theorem Inv.malloc_block (h : Inv blockSize mem s) (hpos : 0 < mem) (size : ℕ) :
    ((s.pool.malloc s.memory size).2 = 0 ∧ (blockSize < size ∨ s.pool.freeCount = 0)) ∨
      ((s.pool.malloc s.memory size).2 ∈ s.freeList ∧ (s.pool.malloc s.memory size).2 ≠ 0 ∧
        size ≤ blockSize ∧ s.pool.freeCount ≠ 0) := by
  rw [Mempool.malloc, h.blockSize_eq]
  by_cases hrefused : blockSize < size ∨ s.pool.freeCount = 0
  · rw [if_pos hrefused]
    exact Or.inl ⟨rfl, hrefused⟩
  · rw [if_neg hrefused]
    rw [not_or, Nat.not_lt] at hrefused
    obtain ⟨count, hcount⟩ := Nat.exists_eq_succ_of_ne_zero hrefused.2
    have hfirst : s.pool.ptr ∈ s.freeList := by
      rw [System.freeList, hcount]
      exact List.mem_cons_self
    have hinside := (block_le (h.mem_blocks_of_free hfirst)).1
    exact Or.inr ⟨hfirst, by dsimp only; omega, hrefused⟩

theorem Inv.pooled (h : Inv blockSize mem s) (hsize : 0 < blockSize) (hpos : 0 < mem) :
    Pooled blockSize mem s := by
  obtain ⟨hfree, houtstanding, hapart⟩ := List.nodup_append.mp (h.nodup hsize)
  have hcount := h.count
  refine ⟨Memory.length_walk .., hfree, fun p hp ↦ mem_blocks.mp (h.mem_blocks_of_free hp),
    fun p hp hp' ↦ hapart p hp p hp' rfl, hcount, fun size ↦ ?_, fun size hsome ↦ ?_,
    fun size hpast ↦ ?_, houtstanding, fun p hp ↦ block_le (h.mem_blocks_of_outstanding hp),
    fun p hp q hq ↦ blocks_disjoint (h.mem_blocks_of_outstanding hp)
      (h.mem_blocks_of_outstanding hq)⟩
  · rcases h.malloc_block hpos size with ⟨hnull, hrefused⟩ | ⟨-, hsome, hfits, hleft⟩
    · exact iff_of_false (fun hne ↦ hne hnull) fun hfits ↦ by omega
    · exact iff_of_true hsome ⟨hfits, by omega⟩
  · obtain ⟨hmem, -⟩ := (h.malloc_block hpos size).resolve_left fun hnull ↦ hsome hnull.1
    exact ⟨fun hout ↦ hapart _ hmem _ hout rfl, mem_blocks.mp (h.mem_blocks_of_free hmem)⟩
  · rcases h.malloc_block hpos size with ⟨hnull, -⟩ | ⟨hmem, -⟩
    · omega
    · -- a block of the page ends before the link past the last one
      obtain ⟨i, hi, hblock⟩ := mem_blocks.mp (h.mem_blocks_of_free hmem)
      rw [hblock] at hpast
      exact Nat.ne_of_lt (Nat.mul_lt_mul_of_pos_right hi hsize) (Nat.add_left_cancel hpast)

/-- **Blocks are never shared.** Whatever is allocated, given back and written, in any order, the
free blocks and the outstanding blocks are disjoint and make up the page. -/
theorem blocks_not_shared (hsize : 8 ≤ blockSize) (hpos : 0 < mem)
    (hmem : mem + pageSize < Memory.size) (h : (machine blockSize mem m).Reachable s) :
    Pooled blockSize mem s := by
  have hinv : Inv blockSize mem s := Machine.Leads.invariant (I := Inv blockSize mem) h
    (inv_init hsize hmem) fun hs _ hstep ↦ inv_step hs hsize hpos hmem hstep
  exact hinv.pooled (by omega) hpos

end Runs

/-- Two blocks in a page: they are handed out, written to, and given back in the order in which they
were taken, and then the second one is the first to be taken again. -/
theorem blocks_not_shared_reversed : ∃ s : System,
    (s.freeList = [65536] ∧ s.outstanding = [67584]) ∧ Pooled 2048 65536 s := by
  obtain ⟨s, hs, hfinal⟩ := Machine.exists_reachable_of_run (M := machine 2048 65536 fun _ ↦ 255)
    (fun s ↦ (s.freeList, s.outstanding))
    [.malloc 2048, .malloc 5, .write 65536 0 1, .write 67584 2047 2, .malloc 1, .free 65536,
      .free 67584, .malloc 4096, .malloc 8] (b := ([65536], [67584])) (by decide +kernel)
  exact ⟨s, Prod.mk.inj hfinal,
    blocks_not_shared (by decide) (by decide) (by decide) hs⟩

end MemoryPool

end FoundationComponents
