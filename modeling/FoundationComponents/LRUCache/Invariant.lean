import FoundationComponents.LRUCache.Basic
import FoundationComponents.Machine.Tally

/-!
# The representation invariant of the cache

The invariant of the operations is stated for a cache together with its *pins*, the number of valid
guards on every address. It has three parts, each with lemmas of its own: the two lists divide the
nodes of the heap into those without and those with pins; the map leads from every key to the one
node with that key; and every node knows its place and its number of pins. A guard operation changes
the pins of one address by one, and nothing else about them.

From this the invariant of whole runs follows: no fault occurs, so the assertion of `unref_node`
never fails and no node is used after it has been erased. The runs are those in which no node is
given more guards than its reference count can count; the first guard beyond that is a fault.
-/

namespace FoundationComponents

namespace LRUCache

variable {K V : Type*} [DecidableEq K]

/-! ## The lists

A node is in `in_use` or in `not_use` by whether it has pins, and in neither twice. This part is
about lists of addresses and a number for each. -/

/-- The lists divide the nodes that exist by whether they are pinned. -/
structure Divided (notUse inUse : List Address) (heap : Address → Option (Node K V))
    (pins : Address → ℕ) : Prop where
  notUse_nodup : notUse.Nodup
  inUse_nodup : inUse.Nodup
  mem_notUse : ∀ {a}, a ∈ notUse ↔ (heap a).isSome ∧ pins a = 0
  mem_inUse : ∀ {a}, a ∈ inUse ↔ (heap a).isSome ∧ pins a ≠ 0
  /-- Only nodes that exist are pinned. -/
  exists_of_pinned : ∀ {a}, pins a ≠ 0 → (heap a).isSome

namespace Divided

variable {notUse inUse : List Address} {heap heap' : Address → Option (Node K V)}
  {pins : Address → ℕ} {a : Address}

omit [DecidableEq K] in
theorem of_isSome (h : Divided notUse inUse heap pins)
    (hheap : ∀ b, (heap' b).isSome = (heap b).isSome) : Divided notUse inUse heap' pins where
  notUse_nodup := h.notUse_nodup
  inUse_nodup := h.inUse_nodup
  mem_notUse := by
    intro b
    rw [hheap, h.mem_notUse]
  mem_inUse := by
    intro b
    rw [hheap, h.mem_inUse]
  exists_of_pinned hb := by
    rw [hheap]
    exact h.exists_of_pinned hb

omit [DecidableEq K] in
theorem pin (h : Divided notUse inUse heap pins) (ha : a ∈ notUse) :
    Divided (notUse.erase a) (inUse ++ [a]) heap (Function.update pins a (pins a + 1)) := by
  obtain ⟨hexists, hpins⟩ := h.mem_notUse.mp ha
  have hfree : a ∉ inUse := fun hmem ↦ (h.mem_inUse.mp hmem).2 hpins
  refine ⟨h.notUse_nodup.erase a, ?_, ?_, ?_, ?_⟩
  · rw [← List.concat_eq_append]
    exact h.inUse_nodup.concat hfree
  · intro b
    rw [h.notUse_nodup.mem_erase_iff, h.mem_notUse]
    by_cases hb : b = a
    · simp [hb]
    · simp [hb]
  · intro b
    rw [List.mem_append, List.mem_singleton, h.mem_inUse]
    by_cases hb : b = a
    · simp [hb, hexists]
    · simp [hb]
  · intro b hb
    by_cases hba : b = a
    · rwa [hba]
    · rw [Function.update_of_ne hba] at hb
      exact h.exists_of_pinned hb

omit [DecidableEq K] in
theorem repin (h : Divided notUse inUse heap pins) (ha : pins a ≠ 0) {count : ℕ}
    (hcount : count ≠ 0) : Divided notUse inUse heap (Function.update pins a count) := by
  have hsame : ∀ b, Function.update pins a count b = 0 ↔ pins b = 0 := by
    intro b
    by_cases hb : b = a
    · rw [hb, Function.update_self]
      exact iff_of_false hcount ha
    · rw [Function.update_of_ne hb]
  refine ⟨h.notUse_nodup, h.inUse_nodup, ?_, ?_, ?_⟩
  · intro b
    rw [hsame, h.mem_notUse]
  · intro b
    rw [ne_eq, hsame, h.mem_inUse]
  · intro b hb
    rw [ne_eq, hsame] at hb
    exact h.exists_of_pinned hb

omit [DecidableEq K] in
/-- The last pin taken away moves a node to the end of `not_use`. -/
theorem unpin (h : Divided notUse inUse heap pins) (ha : a ∈ inUse) :
    Divided (notUse ++ [a]) (inUse.erase a) heap (Function.update pins a 0) := by
  obtain ⟨hexists, hpins⟩ := h.mem_inUse.mp ha
  have hfree : a ∉ notUse := fun hmem ↦ hpins (h.mem_notUse.mp hmem).2
  refine ⟨?_, h.inUse_nodup.erase a, ?_, ?_, ?_⟩
  · rw [← List.concat_eq_append]
    exact h.notUse_nodup.concat hfree
  · intro b
    rw [List.mem_append, List.mem_singleton, h.mem_notUse]
    by_cases hb : b = a
    · simp [hb, hexists]
    · simp [hb]
  · intro b
    rw [h.inUse_nodup.mem_erase_iff, h.mem_inUse]
    by_cases hb : b = a
    · simp [hb]
    · simp [hb]
  · intro b hb
    by_cases hba : b = a
    · rwa [hba]
    · rw [Function.update_of_ne hba] at hb
      exact h.exists_of_pinned hb

omit [DecidableEq K] in
theorem insert (h : Divided notUse inUse heap pins) (ha : heap a = none) (node : Node K V) :
    Divided (notUse ++ [a]) inUse (Function.update heap a (some node)) pins := by
  have hpins : pins a = 0 := by
    by_contra hne
    have hexists := h.exists_of_pinned hne
    rw [ha] at hexists
    cases hexists
  have hfree : a ∉ notUse := by
    rw [h.mem_notUse, ha]
    simp
  refine ⟨?_, h.inUse_nodup, ?_, ?_, ?_⟩
  · rw [← List.concat_eq_append]
    exact h.notUse_nodup.concat hfree
  · intro b
    rw [List.mem_append, List.mem_singleton, h.mem_notUse]
    by_cases hb : b = a
    · simp [hb, hpins]
    · simp [hb]
  · intro b
    rw [h.mem_inUse]
    by_cases hb : b = a
    · simp [hb, hpins]
    · simp [hb]
  · intro b hb
    by_cases hba : b = a
    · simp [hba]
    · rw [Function.update_of_ne hba]
      exact h.exists_of_pinned hb

omit [DecidableEq K] in
theorem erase {rest : List Address} (h : Divided (a :: rest) inUse heap pins) :
    Divided rest inUse (Function.update heap a none) pins := by
  obtain ⟨hfree, hrest⟩ := List.nodup_cons.mp h.notUse_nodup
  have hpins : pins a = 0 := (h.mem_notUse.mp List.mem_cons_self).2
  refine ⟨hrest, h.inUse_nodup, ?_, ?_, ?_⟩
  · intro b
    by_cases hb : b = a
    · subst hb
      simp [hfree]
    · rw [Function.update_of_ne hb, ← h.mem_notUse, List.mem_cons, or_iff_right hb]
  · intro b
    rw [h.mem_inUse]
    by_cases hb : b = a
    · simp [hb, hpins]
    · simp [hb]
  · intro b hb
    have hba : b ≠ a := by
      rintro rfl
      exact hb hpins
    rw [Function.update_of_ne hba]
    exact h.exists_of_pinned hb

end Divided

/-! ## The map

This part is about the map and the nodes only. The counts and the lists do not enter. -/

/-- The map leads from every key to the node with that key. -/
structure Indexed (map : AList fun _ : K ↦ Address) (heap : Address → Option (Node K V)) :
    Prop where
  lookup_iff : ∀ {key a}, map.lookup key = some a ↔ ∃ node, heap a = some node ∧ node.key = key

namespace Indexed

variable {map : AList fun _ : K ↦ Address} {heap : Address → Option (Node K V)} {a : Address}

theorem setNode (h : Indexed map heap) {node node' : Node K V} (ha : heap a = some node)
    (hkey : node'.key = node.key) : Indexed map (Function.update heap a (some node')) := by
  constructor
  intro key b
  rw [h.lookup_iff]
  by_cases hb : b = a
  · subst hb
    simp [ha, hkey]
  · rw [Function.update_of_ne hb]

theorem insert (h : Indexed map heap) (node : Node K V) (hkey : map.lookup node.key = none)
    (ha : heap a = none) :
    Indexed (map.insert node.key a) (Function.update heap a (some node)) := by
  constructor
  intro key b
  by_cases hb : b = a
  · subst hb
    by_cases hkeys : key = node.key
    · rw [hkeys, AList.lookup_insert, Function.update_self]
      simp
    · rw [AList.lookup_insert_ne hkeys, h.lookup_iff, ha, Function.update_self]
      simp [Ne.symm hkeys]
  · rw [Function.update_of_ne hb, ← h.lookup_iff]
    by_cases hkeys : key = node.key
    · rw [hkeys, AList.lookup_insert, hkey]
      simp [Ne.symm hb]
    · rw [AList.lookup_insert_ne hkeys]

theorem erase (h : Indexed map heap) {node : Node K V} (ha : heap a = some node) :
    Indexed (map.erase node.key) (Function.update heap a none) := by
  have hlookup : map.lookup node.key = some a := h.lookup_iff.mpr ⟨node, ha, rfl⟩
  constructor
  intro key b
  by_cases hkey : key = node.key
  · rw [hkey, AList.lookup_erase]
    refine iff_of_false nofun ?_
    rintro ⟨other, hother, hkeys⟩
    have hb : b = a := by
      by_contra hb
      rw [Function.update_of_ne hb] at hother
      exact hb (Option.some.inj ((h.lookup_iff.mpr ⟨other, hother, hkeys⟩).symm.trans hlookup))
    rw [hb, Function.update_self] at hother
    cases hother
  · rw [AList.lookup_erase_ne hkey, h.lookup_iff]
    by_cases hb : b = a
    · subst hb
      rw [ha, Function.update_self]
      simp [Ne.symm hkey]
    · rw [Function.update_of_ne hb]

end Indexed

/-! ## The operations

Every operation is a sequence of a few primitive ones, and these keep the two parts and the
counts. -/

/-- **The invariant of the operations**, with the number of valid guards on every address. -/
structure WellFormed (c : Cache K V) (pins : Address → ℕ) : Prop where
  divided : Divided c.notUse c.inUse c.heap pins
  indexed : Indexed c.map c.heap
  node : ∀ {a node}, c.heap a = some node → node.listPos = a ∧ node.ref = 1 + pins a
  size_map : c.size = c.map.keys.length
  size_lists : c.size = c.notUse.length + c.inUse.length

section Operations

variable {c : Cache K V} {pins : Address → ℕ} {a : Address}

theorem WellFormed.nodes_nodup (h : WellFormed c pins) : (c.notUse ++ c.inUse).Nodup := by
  refine List.nodup_append.mpr ⟨h.divided.notUse_nodup, h.divided.inUse_nodup, ?_⟩
  rintro a hnotUse b hinUse rfl
  exact (h.divided.mem_inUse.mp hinUse).2 (h.divided.mem_notUse.mp hnotUse).2

theorem WellFormed.mem_nodes (h : WellFormed c pins) :
    a ∈ c.notUse ++ c.inUse ↔ (c.heap a).isSome := by
  rw [List.mem_append, h.divided.mem_notUse, h.divided.mem_inUse, ← and_or_left]
  exact and_iff_left (Decidable.em _)

omit [DecidableEq K] in
theorem ok_bind {α β : Type u} (x : α) (f : α → Except Fault β) : (Except.ok x >>= f) = f x := rfl

omit [DecidableEq K] in
theorem deref_eq {node : Node K V} (h : c.heap a = some node) : c.deref a = .ok node := by
  rw [Cache.deref, h]

theorem WellFormed.setNode (h : WellFormed c pins) {node : Node K V} (ha : c.heap a = some node)
    (node' : Node K V) (hkey : node'.key = node.key) (hpos : node'.listPos = node.listPos)
    {count : ℕ} (href : node'.ref = 1 + count) {notUse inUse : List Address}
    (hdivided : Divided notUse inUse c.heap (Function.update pins a count))
    (hlength : notUse.length + inUse.length = c.notUse.length + c.inUse.length) :
    WellFormed
      { c with
        notUse := notUse, inUse := inUse, heap := Function.update c.heap a (some node') }
      (Function.update pins a count) := by
  refine ⟨hdivided.of_isSome fun b ↦ ?_, h.indexed.setNode ha hkey, ?_, h.size_map, ?_⟩
  · dsimp only
    by_cases hb : b = a
    · rw [hb, Function.update_self, ha]
      rfl
    · rw [Function.update_of_ne hb]
  · intro b other hother
    dsimp only at hother
    by_cases hb : b = a
    · subst hb
      rw [Function.update_self, Option.some.injEq] at hother
      rw [← hother, Function.update_self, hpos]
      exact ⟨(h.node ha).1, href⟩
    · rw [Function.update_of_ne hb] at hother
      rw [Function.update_of_ne hb]
      exact h.node hother
  · exact h.size_lists.trans hlength.symm

theorem refNode_eq_of_unpinned (h : WellFormed c pins) {node : Node K V}
    (hnode : c.heap a = some node) (hpins : pins a = 0) : a ∈ c.notUse ∧ c.refNode a = .ok
      { c with
        notUse := c.notUse.erase a
        inUse := c.inUse ++ [a]
        heap := Function.update c.heap a (some { node with ref := node.ref + 1 }) } := by
  obtain ⟨hpos, href⟩ := h.node hnode
  have hmem : a ∈ c.notUse := h.divided.mem_notUse.mpr ⟨by rw [hnode]; rfl, hpins⟩
  have hfirst : node.ref = 1 := by rw [href, hpins]
  have hroom : node.ref < maxRef := by rw [hfirst]; decide
  refine ⟨hmem, ?_⟩
  rw [Cache.refNode, deref_eq hnode, ok_bind, if_pos hfirst, hpos, Cache.spliceInUse, if_pos hmem,
    ok_bind]
  exact if_pos hroom

theorem refNode_eq_of_pinned (h : WellFormed c pins) {node : Node K V}
    (hnode : c.heap a = some node) (hpins : pins a ≠ 0) (hroom : pins a + 1 < maxRef) :
    c.refNode a = .ok (c.setNode a { node with ref := node.ref + 1 }) := by
  obtain ⟨-, href⟩ := h.node hnode
  have hlater : node.ref ≠ 1 := by omega
  have hcounts : node.ref < maxRef := by omega
  rw [Cache.refNode, deref_eq hnode, ok_bind, if_neg hlater, ok_bind]
  exact if_pos hcounts

/-- No pin can be added to a node that has as many as its count can count. -/
theorem refNode_eq_overflow (h : WellFormed c pins) {node : Node K V}
    (hnode : c.heap a = some node) (hfull : ¬pins a + 1 < maxRef) :
    c.refNode a = .error .overflow := by
  obtain ⟨-, href⟩ := h.node hnode
  have hpinned : pins a ≠ 0 := by
    intro hnone
    rw [hnone] at hfull
    exact hfull (by decide)
  have hlater : node.ref ≠ 1 := by omega
  have hcounts : ¬node.ref < maxRef := by omega
  rw [Cache.refNode, deref_eq hnode, ok_bind, if_neg hlater, ok_bind]
  exact if_neg hcounts

/-- `ref_node` adds a pin, if there is room for it. -/
theorem refNode_spec (h : WellFormed c pins) (ha : (c.heap a).isSome)
    (hroom : pins a + 1 < maxRef) :
    ∃ c', c.refNode a = .ok c' ∧ WellFormed c' (Function.update pins a (pins a + 1)) := by
  obtain ⟨node, hnode⟩ := Option.isSome_iff_exists.mp ha
  obtain ⟨hpos, href⟩ := h.node hnode
  by_cases hpins : pins a = 0
  · obtain ⟨hmem, hrun⟩ := refNode_eq_of_unpinned h hnode hpins
    have hlength := List.length_erase_of_mem hmem
    have hpositive := List.length_pos_of_mem hmem
    refine ⟨_, hrun, h.setNode hnode { node with ref := node.ref + 1 } rfl rfl ?_
      (h.divided.pin hmem) ?_⟩
    · simp [href, Nat.add_assoc]
    · rw [List.length_append, List.length_singleton, hlength]
      omega
  · refine ⟨_, refNode_eq_of_pinned h hnode hpins hroom,
      h.setNode hnode { node with ref := node.ref + 1 } rfl rfl ?_
      (h.divided.repin hpins (Nat.succ_ne_zero _)) rfl⟩
    simp [href, Nat.add_assoc]

theorem room_of_refNode {c' : Cache K V} (h : WellFormed c pins) (ha : (c.heap a).isSome)
    (hrun : c.refNode a = .ok c') : pins a + 1 < maxRef := by
  obtain ⟨node, hnode⟩ := Option.isSome_iff_exists.mp ha
  by_contra hfull
  rw [refNode_eq_overflow h hnode hfull] at hrun
  cases hrun

theorem unrefNode_eq_of_last (h : WellFormed c pins) {node : Node K V}
    (hnode : c.heap a = some node) (hpins : pins a = 1) : a ∈ c.inUse ∧ c.unrefNode a = .ok
      { c with
        notUse := c.notUse ++ [a]
        inUse := c.inUse.erase a
        heap := Function.update c.heap a (some { node with ref := node.ref - 1 }) } := by
  obtain ⟨hpos, href⟩ := h.node hnode
  have hmem : a ∈ c.inUse :=
    h.divided.mem_inUse.mpr ⟨by rw [hnode]; rfl, by rw [hpins]; exact Nat.one_ne_zero⟩
  have hassert : node.ref > 1 := by omega
  have hlast : node.ref - 1 = 1 := by omega
  refine ⟨hmem, ?_⟩
  rw [Cache.unrefNode, deref_eq hnode, ok_bind, if_pos hassert, if_pos hlast, hpos,
    Cache.spliceNotUse]
  exact if_pos hmem

theorem unrefNode_eq_of_more (h : WellFormed c pins) {node : Node K V}
    (hnode : c.heap a = some node) (hpins : 1 < pins a) :
    c.unrefNode a = .ok (c.setNode a { node with ref := node.ref - 1 }) := by
  obtain ⟨-, href⟩ := h.node hnode
  have hassert : node.ref > 1 := by omega
  have hnotLast : node.ref - 1 ≠ 1 := by omega
  rw [Cache.unrefNode, deref_eq hnode, ok_bind, if_pos hassert, if_neg hnotLast]

/-- `unref_node` takes a pin away, if there is one. -/
theorem unrefNode_spec (h : WellFormed c pins) (ha : pins a ≠ 0) :
    ∃ c', c.unrefNode a = .ok c' ∧ WellFormed c' (Function.update pins a (pins a - 1)) := by
  obtain ⟨node, hnode⟩ := Option.isSome_iff_exists.mp (h.divided.exists_of_pinned ha)
  obtain ⟨-, href⟩ := h.node hnode
  by_cases hpins : pins a = 1
  · obtain ⟨hmem, hrun⟩ := unrefNode_eq_of_last h hnode hpins
    have hlength := List.length_erase_of_mem hmem
    have hpositive := List.length_pos_of_mem hmem
    have hnone : pins a - 1 = 0 := by omega
    rw [hnone]
    refine ⟨_, hrun, h.setNode hnode { node with ref := node.ref - 1 } rfl rfl ?_
      (h.divided.unpin hmem) ?_⟩
    · simp [href, hpins]
    · rw [List.length_append, List.length_singleton, hlength]
      omega
  · have hmore : 1 < pins a := by omega
    refine ⟨_, unrefNode_eq_of_more h hnode hmore,
      h.setNode hnode { node with ref := node.ref - 1 } rfl rfl ?_ (h.divided.repin ha ?_) rfl⟩
    · dsimp only
      omega
    · omega

theorem WellFormed.pins_eq_zero (h : WellFormed c pins) (ha : c.heap a = none) : pins a = 0 := by
  by_contra hne
  have hexists := h.divided.exists_of_pinned hne
  rw [ha] at hexists
  cases hexists

theorem WellFormed.emplaceBack (h : WellFormed c pins) {key : K} (hkey : c.map.lookup key = none)
    (ha : c.heap a = none) (value : V) : WellFormed (c.emplaceBack key value a) pins := by
  have hnew : key ∉ c.map := AList.lookup_eq_none.mp hkey
  have hpins := h.pins_eq_zero ha
  refine ⟨h.divided.insert ha _, ?_, ?_, ?_, ?_⟩
  · rw [Cache.emplaceBack, if_neg hnew]
    exact h.indexed.insert ⟨key, value, 1, a⟩ hkey ha
  · intro b node hnode
    simp only [Cache.emplaceBack] at hnode
    by_cases hb : b = a
    · subst hb
      rw [Function.update_self, Option.some.injEq] at hnode
      rw [← hnode, hpins]
      exact ⟨rfl, rfl⟩
    · rw [Function.update_of_ne hb] at hnode
      exact h.node hnode
  · rw [Cache.emplaceBack, if_neg hnew]
    dsimp only
    rw [AList.keys_insert, List.length_cons, List.erase_of_not_mem (AList.mem_keys.not.mp hnew),
      h.size_map]
  · rw [Cache.emplaceBack]
    dsimp only
    rw [List.length_append, List.length_singleton, h.size_lists, Nat.add_right_comm]

theorem WellFormed.eraseFirst (h : WellFormed c pins) {rest : List Address}
    (hnotUse : c.notUse = a :: rest) {node : Node K V} (ha : c.heap a = some node) :
    WellFormed (c.eraseFirst a rest node) pins := by
  have hkey : node.key ∈ c.map.keys := by
    rw [← AList.mem_keys, ← AList.lookup_isSome, h.indexed.lookup_iff.mpr ⟨node, ha, rfl⟩]
    rfl
  have hdivided := h.divided
  rw [hnotUse] at hdivided
  have hlists := h.size_lists
  rw [hnotUse, List.length_cons] at hlists
  refine ⟨hdivided.erase, h.indexed.erase ha, ?_, ?_, ?_⟩
  · intro b other hother
    simp only [Cache.eraseFirst] at hother
    by_cases hb : b = a
    · rw [hb, Function.update_self] at hother
      cases hother
    · rw [Function.update_of_ne hb] at hother
      exact h.node hother
  · rw [Cache.eraseFirst]
    dsimp only
    rw [AList.keys_erase, List.length_erase_of_mem hkey, h.size_map]
  · rw [Cache.eraseFirst]
    dsimp only
    omega

/-- The loop of `evict` erases only nodes without pins. -/
theorem evictLoop_spec (h : WellFormed c pins) :
    ∃ c', c.evictLoop c.notUse = .ok c' ∧ WellFormed c' pins := by
  generalize hnotUse : c.notUse = notUse
  induction notUse generalizing c with
  | nil => exact ⟨c, rfl, h⟩
  | cons a rest ih =>
    rw [Cache.evictLoop]
    split
    · -- what is in `not_use` has a node, without a pin
      have hmem : a ∈ c.notUse := by
        rw [hnotUse]
        exact List.mem_cons_self
      obtain ⟨node, hnode⟩ := Option.isSome_iff_exists.mp (h.divided.mem_notUse.mp hmem).1
      rw [deref_eq hnode, ok_bind]
      exact ih (h.eraseFirst hnotUse hnode) rfl
    · exact ⟨c, rfl, h⟩

theorem evict_spec (h : WellFormed c pins) : ∃ c', c.evict = .ok c' ∧ WellFormed c' pins := by
  rw [Cache.evict]
  split
  · exact evictLoop_spec h
  · exact ⟨c, rfl, h⟩

end Operations

/-! ## Guards

The pins of a node are the variables with a valid guard on it, and a guard that is made, moved or
released changes one or two variables. -/

/-- A variable holds a valid guard on the address. -/
def refers (a : Address) : Option HandleGuard → Bool
  | none => false
  | some g => g.valid && g.node == some a

/-- The pins of a family of guards. -/
def pinCount {n : ℕ} (guards : Fin n → Option HandleGuard) (a : Address) : ℕ :=
  count (refers a) guards

section Guards

variable {n : ℕ} {c : Cache K V} {pins : Address → ℕ} {a : Address}

theorem refers_some (a : Address) (g : HandleGuard) : refers a (some g) = (g.target == some a) := by
  obtain ⟨node, cache⟩ := g
  cases cache <;> cases node <;> rfl

private theorem refers_of_target_eq_none {g : HandleGuard} (h : g.target = none) (a : Address) :
    refers a (some g) = false := by
  rw [refers_some, h]
  rfl

theorem guardOn_spec (h : WellFormed c pins) (ha : (c.heap a).isSome)
    (hroom : pins a + 1 < maxRef) :
    ∃ c' g, c.guardOn a = .ok (c', g) ∧
      WellFormed c' fun b ↦ pins b + (refers b (some g)).toNat := by
  obtain ⟨c', hrun, hc'⟩ := refNode_spec h ha hroom
  refine ⟨c', ⟨some a, true⟩, ?_, ?_⟩
  · rw [Cache.guardOn, hrun]
    rfl
  · have hpins : (fun b ↦ pins b + (refers b (some ⟨some a, true⟩)).toNat) =
        Function.update pins a (pins a + 1) := by
      funext b
      by_cases hb : b = a
      · subst hb
        simp [refers, HandleGuard.valid]
      · simp [refers, HandleGuard.valid, hb, Ne.symm hb]
    rwa [hpins]

theorem get_spec (h : WellFormed c pins) (key : K)
    (hroom : ∀ a ∈ c.map.lookup key, pins a + 1 < maxRef) :
    ∃ c' g, c.get key = .ok (c', g) ∧ WellFormed c' fun b ↦ pins b + (refers b (some g)).toNat := by
  rw [Cache.get]
  split
  · rename_i a hlookup
    obtain ⟨node, hnode, -⟩ := h.indexed.lookup_iff.mp hlookup
    exact guardOn_spec h (by rw [hnode]; rfl) (hroom a hlookup)
  · exact ⟨c, .null, rfl, h⟩

theorem WellFormed.setValue (h : WellFormed c pins) {node : Node K V}
    (hnode : c.heap a = some node) (value : V) :
    WellFormed (c.setNode a { node with value := value }) pins ∧
      ((c.setNode a { node with value := value }).heap a).isSome := by
  constructor
  · have hset := h.setNode hnode { node with value := value } rfl rfl (h.node hnode).2
      (by rw [Function.update_eq_self]; exact h.divided) rfl
    rwa [Function.update_eq_self] at hset
  · rw [Cache.setNode]
    dsimp only
    rw [Function.update_self]
    rfl

/-- The node of a new key is pinned before it can be evicted. -/
theorem WellFormed.guardOn_emplaceBack (h : WellFormed c pins) {key : K}
    (hlookup : c.map.lookup key = none) (ha : c.heap a = none) (value : V) :
    ((c.emplaceBack key value a).heap a).isSome ∧ ∃ c' g,
      (c.emplaceBack key value a).guardOn a = .ok (c', g) ∧
        WellFormed c' fun b ↦ pins b + (refers b (some g)).toNat := by
  have hexists : ((c.emplaceBack key value a).heap a).isSome := by
    rw [Cache.emplaceBack]
    dsimp only
    rw [Function.update_self]
    rfl
  refine ⟨hexists, guardOn_spec (h.emplaceBack hlookup ha value) hexists ?_⟩
  rw [h.pins_eq_zero ha]
  decide

theorem put_spec (h : WellFormed c pins) (key : K) (value : V) {fresh : Address}
    (hfresh : c.heap fresh = none) (hroom : ∀ a ∈ c.map.lookup key, pins a + 1 < maxRef) :
    ∃ c' g, c.put key value fresh = .ok (c', g) ∧
      WellFormed c' fun b ↦ pins b + (refers b (some g)).toNat := by
  rw [Cache.put]
  split
  · rename_i a hlookup
    obtain ⟨node, hnode, -⟩ := h.indexed.lookup_iff.mp hlookup
    obtain ⟨hvalue, hexists⟩ := h.setValue hnode value
    rw [deref_eq hnode, ok_bind]
    exact guardOn_spec hvalue hexists (hroom a hlookup)
  · rename_i hlookup
    obtain ⟨-, c', g, hguard, hc'⟩ := h.guardOn_emplaceBack hlookup hfresh value
    obtain ⟨c'', hevict, hc''⟩ := evict_spec hc'
    refine ⟨c'', g, ?_, hc''⟩
    rw [hguard, ok_bind]
    dsimp only
    rw [hevict]
    rfl

theorem get_eq_overflow (h : WellFormed c pins) {key : K} (hlookup : c.map.lookup key = some a)
    (hfull : ¬pins a + 1 < maxRef) : c.get key = .error .overflow := by
  obtain ⟨node, hnode, -⟩ := h.indexed.lookup_iff.mp hlookup
  rw [Cache.get, hlookup]
  dsimp only
  rw [Cache.guardOn, refNode_eq_overflow h hnode hfull]
  rfl

theorem put_eq_overflow (h : WellFormed c pins) {key : K} (hlookup : c.map.lookup key = some a)
    (hfull : ¬pins a + 1 < maxRef) (value : V) (fresh : Address) :
    c.put key value fresh = .error .overflow := by
  obtain ⟨node, hnode, -⟩ := h.indexed.lookup_iff.mp hlookup
  obtain ⟨hvalue, hexists⟩ := h.setValue hnode value
  obtain ⟨node', hnode'⟩ := Option.isSome_iff_exists.mp hexists
  rw [Cache.put, hlookup]
  dsimp only
  rw [deref_eq hnode, ok_bind, Cache.guardOn, refNode_eq_overflow hvalue hnode' hfull]
  rfl

/-- `reset` gives back the pin of the guard, and the guard refers to nothing afterwards. -/
theorem reset_spec {g : HandleGuard}
    (h : WellFormed c fun b ↦ pins b + (refers b (some g)).toNat) :
    ∃ c' g', c.reset g = .ok (c', g') ∧ WellFormed c' pins ∧ g'.target = none := by
  rw [Cache.reset]
  split
  · rename_i a htarget
    have hself : refers a (some g) = true := by rw [refers_some, htarget, beq_self_eq_true]
    obtain ⟨c', hrun, hc'⟩ := unrefNode_spec h (a := a) (by simp [hself])
    refine ⟨c', .null, by rw [hrun]; rfl, ?_, rfl⟩
    have hpins : Function.update (fun b ↦ pins b + (refers b (some g)).toNat) a
        (pins a + (refers a (some g)).toNat - 1) = pins := by
      funext b
      by_cases hb : b = a
      · rw [hb, Function.update_self, hself]
        rfl
      · have hother : refers b (some g) = false := by
          rw [refers_some, htarget]
          simp [Ne.symm hb]
        rw [Function.update_of_ne hb, hother]
        rfl
    rwa [hpins] at hc'
  · rename_i htarget
    refine ⟨c, g, rfl, ?_, htarget⟩
    simpa [refers_of_target_eq_none htarget] using h

theorem pinCount_update (guards : Fin n → Option HandleGuard) (x : Fin n) (g : Option HandleGuard)
    (a : Address) : pinCount (Function.update guards x g) a + (refers a (guards x)).toNat =
      pinCount guards a + (refers a g).toNat :=
  tally_update (fun g ↦ (refers a g).toNat) guards x g

theorem pinCount_store {guards : Fin n → Option HandleGuard} {x : Fin n} (hx : guards x = none)
    (g : HandleGuard) : pinCount (Function.update guards x (some g)) =
      fun a ↦ pinCount guards a + (refers a (some g)).toNat := by
  funext a
  rw [← pinCount_update guards x (some g) a, hx]
  rfl

theorem pinCount_split {guards : Fin n → Option HandleGuard} {x : Fin n} {g : HandleGuard}
    (hx : guards x = some g) : pinCount guards =
      fun a ↦ pinCount (Function.update guards x none) a + (refers a (some g)).toNat := by
  funext a
  rw [← hx, pinCount_update guards x none a]
  rfl

theorem pinCount_null {guards : Fin n → Option HandleGuard} {x : Fin n} {g : HandleGuard}
    (hg : g.target = none) :
    pinCount (Function.update guards x (some g)) = pinCount (Function.update guards x none) := by
  funext a
  have hstored := pinCount_update guards x (some g) a
  have hremoved := pinCount_update guards x none a
  rw [refers_of_target_eq_none hg] at hstored
  exact Nat.add_right_cancel (hstored.trans hremoved.symm)

/-- A guard is moved into a variable whose own guard is gone. -/
theorem pinCount_move {guards : Fin n → Option HandleGuard} {x y : Fin n} (hne : y ≠ x)
    {g : HandleGuard} (hy : guards y = some g) :
    pinCount (Function.update (Function.update guards x (some g)) y (some .null)) =
      pinCount (Function.update guards x none) := by
  funext a
  have hmoved := pinCount_update (Function.update guards x (some g)) y (some .null) a
  have hstored := pinCount_update guards x (some g) a
  have hremoved := pinCount_update guards x none a
  have hnull : refers a (some .null) = false := rfl
  have hnone : refers a none = false := rfl
  rw [Function.update_of_ne hne, hy, hnull] at hmoved
  rw [hnone] at hremoved
  simp only [Bool.toNat_false] at hmoved hremoved
  omega

end Guards

/-! ## Room for guards

A node with `maxRef - 1` guards has no room for another: its count is `maxRef`. Whether an operation
makes a guard on such a node can be seen from its key. -/

section Room

variable {n : ℕ}

/-- The node of the key, if there is one, can be given another guard. -/
def System.HasRoom (s : System K V n) (key : K) : Prop :=
  ∀ a ∈ s.cache.map.lookup key, pinCount s.guards a + 1 < maxRef

instance (s : System K V n) (key : K) : Decidable (s.HasRoom key) :=
  inferInstanceAs (Decidable (∀ a ∈ s.cache.map.lookup key, _))

/-- After the operation every node has fewer than `maxRef` guards. -/
def FewGuards (s : System K V n) : Action K V n → Prop
  | .get _ key | .put _ key _ _ => s.HasRoom key
  | _ => True

instance (s : System K V n) (a : Action K V n) : Decidable (FewGuards s a) :=
  match a with
  | .get _ key | .put _ key _ _ => inferInstanceAs (Decidable (s.HasRoom key))
  | .moveConstruct _ _ | .moveAssign _ _ | .reset _ | .destroy _ => .isTrue trivial

end Room

/-! ## Runs

The machine stops at a fault. Its invariant is that of the operations with the pins counted, and
that there has been none. -/

/-- **The representation invariant**: what holds after every operation. -/
structure RepInv {n : ℕ} (s : System K V n) : Prop where
  /-- No assertion has failed, no erased node has been used. -/
  no_fault : s.fault = none
  /-- The nodes in memory are those of the lists, and no node is in them twice. -/
  exists_iff : ∀ a, (s.cache.heap a).isSome ↔ a ∈ s.cache.notUse ++ s.cache.inUse
  nodup : (s.cache.notUse ++ s.cache.inUse).Nodup
  /-- The keys of the map are the keys of the nodes. -/
  mem_map_iff : ∀ key, key ∈ s.cache.map ↔ ∃ a node, s.cache.heap a = some node ∧ node.key = key
  /-- Each key is on one node. -/
  key_inj : ∀ {a b node node'}, s.cache.heap a = some node → s.cache.heap b = some node' →
    node.key = node'.key → a = b
  /-- Each iterator of the map points at the node with its key. -/
  lookup : ∀ {key a}, s.cache.map.lookup key = some a →
    ∃ node, s.cache.heap a = some node ∧ node.key = key
  size_map : s.cache.size = s.cache.map.keys.length
  size_lists : s.cache.size = s.cache.notUse.length + s.cache.inUse.length
  /-- The reference count is one more than the number of valid guards on the node. -/
  ref : ∀ {a node}, s.cache.heap a = some node → node.ref = 1 + pinCount s.guards a
  inUse_iff : ∀ {a node}, s.cache.heap a = some node → (a ∈ s.cache.inUse ↔ node.ref > 1)
  notUse_iff : ∀ {a node}, s.cache.heap a = some node → (a ∈ s.cache.notUse ↔ node.ref = 1)
  /-- The node of a valid guard exists. -/
  guarded : ∀ {x a}, refers a (s.guards x) → (s.cache.heap a).isSome

/-- The invariant of the machine. -/
structure Inv {n : ℕ} (s : System K V n) : Prop where
  no_fault : s.fault = none
  wellFormed : WellFormed s.cache (pinCount s.guards)

section Runs

variable {n : ℕ} {s s' : System K V n}

theorem inv_store (h : Inv s) {x : Fin n} {r : Except Fault (Cache K V × HandleGuard)}
    {c : Cache K V} {g : HandleGuard} (hrun : r = .ok (c, g))
    (hc : WellFormed c (pinCount (Function.update s.guards x (some g)))) : Inv (s.store x r) := by
  rw [hrun]
  exact ⟨h.no_fault, hc⟩

theorem Inv.reset (h : Inv s) {x : Fin n} {g : HandleGuard} (hx : s.guards x = some g) :
    ∃ c g', s.cache.reset g = .ok (c, g') ∧
      WellFormed c (pinCount (Function.update s.guards x none)) ∧ g'.target = none := by
  have hc := h.wellFormed
  rw [pinCount_split hx] at hc
  exact reset_spec hc

theorem inv_step {a : Action K V n} (h : Inv s) (hfew : FewGuards s a)
    (hstep : s.step a = some s') : Inv s' := by
  cases a with
  | get x key =>
    simp only [System.step] at hstep
    split at hstep
    · rename_i henabled
      obtain rfl := Option.some.inj hstep
      obtain ⟨c, g, hrun, hc⟩ := get_spec h.wellFormed key hfew
      rw [← pinCount_store henabled.2] at hc
      exact inv_store h hrun hc
    · cases hstep
  | put x key value fresh =>
    simp only [System.step] at hstep
    split at hstep
    · rename_i henabled
      obtain rfl := Option.some.inj hstep
      obtain ⟨-, hx, hfresh⟩ := henabled
      obtain ⟨c, g, hrun, hc⟩ :=
        put_spec h.wellFormed key value (Option.isNone_iff_eq_none.mp hfresh) hfew
      rw [← pinCount_store hx] at hc
      exact inv_store h hrun hc
    · cases hstep
  | moveConstruct x y =>
    simp only [System.step] at hstep
    split at hstep
    · rename_i g hfault hx hy
      obtain rfl := Option.some.inj hstep
      -- `x` is under construction, so the guard that is moved is another one
      have hne : y ≠ x := by
        rintro rfl
        rw [hx] at hy
        cases hy
      refine ⟨h.no_fault, ?_⟩
      dsimp only
      rw [pinCount_move hne hy, ← hx, Function.update_eq_self]
      exact h.wellFormed
    · cases hstep
  | moveAssign x y =>
    simp only [System.step] at hstep
    split at hstep
    · rename_i old g hfault hx hy
      split at hstep
      · obtain rfl := Option.some.inj hstep
        exact h
      · rename_i hne
        obtain rfl := Option.some.inj hstep
        obtain ⟨c, g', hrun, hc, -⟩ := h.reset hx
        rw [System.assign, hrun]
        refine ⟨h.no_fault, ?_⟩
        rw [← pinCount_move (Ne.symm hne) hy] at hc
        exact hc
    · cases hstep
  | reset x =>
    simp only [System.step] at hstep
    split at hstep
    · rename_i g hfault hx
      obtain rfl := Option.some.inj hstep
      obtain ⟨c, g', hrun, hc, hnull⟩ := h.reset hx
      rw [← pinCount_null hnull] at hc
      exact inv_store h hrun hc
    · cases hstep
  | destroy x =>
    simp only [System.step] at hstep
    split at hstep
    · rename_i g hfault hx
      obtain rfl := Option.some.inj hstep
      obtain ⟨c, g', hrun, hc, -⟩ := h.reset hx
      rw [System.discard, hrun]
      exact ⟨h.no_fault, hc⟩
    · cases hstep

theorem overflow_of_step {a : Action K V n} (h : Inv s) (hfew : ¬FewGuards s a)
    (hstep : s.step a = some s') : s'.fault = some .overflow := by
  have hfull : ∀ key, ¬s.HasRoom key → ∃ b, s.cache.map.lookup key = some b ∧
      ¬pinCount s.guards b + 1 < maxRef := by
    intro key hnone
    rw [System.HasRoom, not_forall] at hnone
    obtain ⟨b, hb⟩ := hnone
    exact ⟨b, Classical.not_imp.mp hb⟩
  cases a with
  | get x key =>
    obtain ⟨b, hlookup, hb⟩ := hfull key hfew
    simp only [System.step] at hstep
    split at hstep
    · obtain rfl := Option.some.inj hstep
      rw [get_eq_overflow h.wellFormed hlookup hb]
      rfl
    · cases hstep
  | put x key value fresh =>
    obtain ⟨b, hlookup, hb⟩ := hfull key hfew
    simp only [System.step] at hstep
    split at hstep
    · obtain rfl := Option.some.inj hstep
      rw [put_eq_overflow h.wellFormed hlookup hb]
      rfl
    · cases hstep
  | _ => exact absurd trivial hfew

theorem pinCount_init (capacity : ℕ) :
    pinCount (machine K V capacity n).init.guards = fun _ ↦ 0 := by
  funext a
  exact tally_eq_zero (fun g ↦ (refers a g).toNat) (fun _ : Fin n ↦ none) fun _ ↦ rfl

theorem inv_init (capacity : ℕ) : Inv (machine K V capacity n).init := by
  refine ⟨rfl, ?_⟩
  rw [pinCount_init]
  exact ⟨⟨List.nodup_nil, List.nodup_nil, by simp [machine, Cache.create],
    by simp [machine, Cache.create], by simp⟩, ⟨by simp [machine, Cache.create]⟩,
    by simp [machine, Cache.create], rfl, rfl⟩

theorem inv_of_reachableWhen {capacity : ℕ}
    (h : (machine K V capacity n).ReachableWhen FewGuards s) : Inv s :=
  Machine.Leads.invariant (I := Inv) h (inv_init capacity) fun hs hfew hstep ↦
    inv_step hs hfew hstep

theorem fault_eq_none_iff {capacity : ℕ} {actions : List (Action K V n)}
    (h : (machine K V capacity n).run (machine K V capacity n).init actions = some s) :
    s.fault = none ↔
      (machine K V capacity n).runWhen FewGuards (machine K V capacity n).init actions =
        some s := by
  constructor
  · refine Machine.run_invariant (J := fun actions s ↦ s.fault = none →
      (machine K V capacity n).runWhen FewGuards (machine K V capacity n).init actions = some s) h
      (fun _ ↦ rfl) fun {actions u a v} hrun hu hstep hnone ↦ ?_
    have hbefore : u.fault = none := by
      by_contra hfault
      obtain ⟨fault, hfault⟩ := Option.ne_none_iff_exists'.mp hfault
      have hstep' : u.step a = some v := hstep
      cases a <;> simp [System.step, hfault] at hstep'
    have hfew : FewGuards u a := by
      by_contra hfull
      have hinv := inv_of_reachableWhen (Machine.leads_of_runWhen (hu hbefore))
      rw [overflow_of_step hinv hfull hstep] at hnone
      cases hnone
    rw [Machine.runWhen_append, hu hbefore, Option.bind_some]
    exact Machine.runWhen_singleton.mpr ⟨hfew, hstep⟩
  · exact fun hrun ↦ (inv_of_reachableWhen (Machine.leads_of_runWhen hrun)).no_fault

theorem Inv.repInv (h : Inv s) : RepInv s := by
  obtain ⟨hfault, hc⟩ := h
  have hsome : ∀ {a node}, s.cache.heap a = some node → (s.cache.heap a).isSome := by
    intro a node hnode
    rw [hnode]
    rfl
  refine ⟨hfault, fun a ↦ hc.mem_nodes.symm, hc.nodes_nodup, ?_, ?_, hc.indexed.lookup_iff.mp,
    hc.size_map, hc.size_lists, fun hnode ↦ (hc.node hnode).2, ?_, ?_, ?_⟩
  · intro key
    rw [← AList.lookup_isSome, Option.isSome_iff_exists]
    exact exists_congr fun a ↦ hc.indexed.lookup_iff
  · intro a b node node' ha hb hkey
    have hlookup := hc.indexed.lookup_iff.mpr ⟨node, ha, hkey⟩
    exact Option.some.inj (hlookup.symm.trans (hc.indexed.lookup_iff.mpr ⟨node', hb, rfl⟩))
  · intro a node hnode
    rw [hc.divided.mem_inUse, (hc.node hnode).2, and_iff_right (hsome hnode)]
    omega
  · intro a node hnode
    rw [hc.divided.mem_notUse, (hc.node hnode).2, and_iff_right (hsome hnode)]
    omega
  · -- a node that is pinned at least once is in `in_use`, hence on the heap
    intro x a hrefers
    refine hc.divided.exists_of_pinned (Nat.pos_iff_ne_zero.mp ?_)
    have hle := le_tally (fun g ↦ (refers a g).toNat) s.guards x
    rw [hrefers] at hle
    exact hle

/-- **The representation invariant of the cache.** After every sequence of operations, for every
capacity and any number of guards, moved and released in any order, the invariant holds, as long as
no node is given more guards than its count can count: the map, the lists and the reference counts
agree, no assertion has failed and no node with a guard on it has been erased. -/
theorem repInv_of_reachable {capacity : ℕ}
    (h : (machine K V capacity n).ReachableWhen FewGuards s) : RepInv s :=
  (inv_of_reachableWhen h).repInv

/-! ## The limit

With enough variables the bound on the guards of a node can be reached by calls of `get`. -/

theorem get_of_lookup {c : Cache K V} {pins : Address → ℕ} (h : WellFormed c pins) {key : K}
    {a : Address} (hlookup : c.map.lookup key = some a) (hroom : pins a + 1 < maxRef) :
    ∃ c', c.get key = .ok (c', ⟨some a, true⟩) ∧ c'.map = c.map := by
  obtain ⟨node, hnode, -⟩ := h.indexed.lookup_iff.mp hlookup
  rw [Cache.get, hlookup]
  dsimp only
  by_cases hpins : pins a = 0
  · rw [Cache.guardOn, (refNode_eq_of_unpinned h hnode hpins).2]
    exact ⟨_, rfl, rfl⟩
  · rw [Cache.guardOn, refNode_eq_of_pinned h hnode hpins hroom]
    exact ⟨_, rfl, rfl⟩

/-- A node can be given as many guards as there are variables, up to the limit. -/
theorem exists_guarded {k : ℕ} (hk : k < n) (hroom : k + 1 < maxRef) :
    ∃ s : System Unit Unit n, (machine Unit Unit 1 n).ReachableWhen FewGuards s ∧
      (∃ a, s.cache.map.lookup () = some a ∧ pinCount s.guards a = k + 1) ∧
      ∀ x : Fin n, k < x.val → s.guards x = none := by
  induction k with
  | zero =>
    obtain ⟨s, hput, hlookup, hguards⟩ : ∃ s : System Unit Unit n,
        (machine Unit Unit 1 n).step (machine Unit Unit 1 n).init (.put ⟨0, hk⟩ () () 0) = some s ∧
          s.cache.map.lookup () = some 0 ∧
          s.guards = Function.update (machine Unit Unit 1 n).init.guards ⟨0, hk⟩
            (some ⟨some 0, true⟩) := ⟨_, rfl, rfl, rfl⟩
    refine ⟨s, Machine.Leads.refl.step (a := .put ⟨0, hk⟩ () () 0) (fun a ha ↦ by cases ha) hput,
      ⟨0, hlookup, ?_⟩, fun x hx ↦ ?_⟩
    · rw [hguards, pinCount_store rfl, pinCount_init]
      rfl
    · rw [hguards, Function.update_of_ne (Fin.ne_of_gt hx)]
      rfl
  | succ k ih =>
    obtain ⟨s, hs, ⟨a, hlookup, hpins⟩, hfree⟩ := ih (by omega) (by omega)
    have hinv := inv_of_reachableWhen hs
    have hx := hfree ⟨k + 1, hk⟩ (Nat.lt_succ_self k)
    have hmore : pinCount s.guards a + 1 < maxRef := by omega
    obtain ⟨c, hrun, hmap⟩ := get_of_lookup hinv.wellFormed hlookup hmore
    have hstep : s.step (.get ⟨k + 1, hk⟩ ()) = some (s.store ⟨k + 1, hk⟩ (s.cache.get ())) :=
      if_pos ⟨hinv.no_fault, hx⟩
    rw [hrun] at hstep
    refine ⟨_, hs.step (a := .get ⟨k + 1, hk⟩ ()) (fun b hb ↦ ?_) hstep, ⟨a, ?_, ?_⟩,
      fun x hx' ↦ ?_⟩
    · obtain rfl := Option.some.inj (hlookup.symm.trans hb)
      exact hmore
    · exact (congrArg (fun map ↦ AList.lookup () map) hmap).trans hlookup
    · change pinCount (Function.update s.guards ⟨k + 1, hk⟩ (some ⟨some a, true⟩)) a = k + 1 + 1
      rw [pinCount_store hx, ← hpins]
      simp [refers, HandleGuard.valid]
    · change Function.update s.guards ⟨k + 1, hk⟩ (some ⟨some a, true⟩) x = none
      rw [Function.update_of_ne (Fin.ne_of_gt hx')]
      exact hfree x (Nat.lt_of_succ_lt hx')

end Runs

/-- One entry, with a guard on it in every variable but the last: the last one is one too many. -/
theorem not_repInv_of_full : ∃ (s t : System Unit Unit maxRef) (a : Address) (x : Fin maxRef),
    (machine Unit Unit 1 maxRef).Reachable s ∧ RepInv s ∧ pinCount s.guards a = 2 ^ 31 - 2 ∧
      s.step (.get x ()) = some t ∧ t.fault = some .overflow ∧ ¬RepInv t := by
  have hlarge : 2 < maxRef := by decide
  obtain ⟨s, hs, ⟨a, hlookup, hpins⟩, hfree⟩ :=
    exists_guarded (n := maxRef) (k := maxRef - 2) (by omega) (by omega)
  have hinv := inv_of_reachableWhen hs
  let x : Fin maxRef := ⟨maxRef - 1, by omega⟩
  have hx : s.guards x = none := hfree x (by dsimp only [x]; omega)
  have hstep : s.step (.get x ()) = some (s.store x (s.cache.get ())) :=
    if_pos ⟨hinv.no_fault, hx⟩
  rw [get_eq_overflow hinv.wellFormed hlookup (by omega)] at hstep
  refine ⟨s, _, a, x, hs.reachable, hinv.repInv, ?_, hstep, rfl, fun hrep ↦ ?_⟩
  · rw [hpins, maxRef]
    decide
  · have hnone := hrep.no_fault
    cases hnone

/-- A cache for one entry: two entries are pinned at once, the first is released by a move
assignment, pinned again, and evicted by a `put` after its release. -/
theorem repInv_of_reachable_evicted :
    ∃ s : System ℕ String 3, (machine ℕ String 1 3).ReachableWhen FewGuards s ∧
      (s.cache.notUse = [] ∧ s.cache.inUse = [200, 300] ∧ s.cache.map.keys = [3, 2] ∧
        s.cache.disposed = ["one"]) ∧ RepInv s := by
  obtain ⟨s, hs, hfinal⟩ := Machine.exists_reachableWhen_of_run (M := machine ℕ String 1 3)
    (C := FewGuards) (fun s ↦ (s.cache.notUse, s.cache.inUse, s.cache.map.keys, s.cache.disposed))
    [.put 0 1 "one" 100, .put 1 2 "two" 200, .moveAssign 0 1, .get 2 1, .reset 2, .destroy 2,
      .put 2 3 "three" 300, .destroy 2, .put 2 3 "drei" 100]
    (b := ([], [200, 300], [3, 2], ["one"])) (by decide +kernel)
  simp only [Prod.mk.injEq] at hfinal
  exact ⟨s, hs, hfinal, repInv_of_reachable hs⟩

end LRUCache

end FoundationComponents
