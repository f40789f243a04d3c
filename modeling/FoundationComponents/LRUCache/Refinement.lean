import FoundationComponents.LRUCache.Invariant
import FoundationComponents.LRUCache.PinnedMap

/-!
# The cache is a pinned LRU map

The cache is related to a pinned map by what its nodes hold: the map of the cache leads to the node
of a key, the node holds the value, and the nodes of `not_use` are those of the waiting entries, in
the order of their release. Taking or giving up a guard changes no key and no value, so it concerns
only the last of these; `evict` is a loop, and what it leaves is computed once.

Every sequence of operations takes the cache and the map to related states. In such states, what
`get` finds and what `put` evicts can be read off the map.
-/

namespace FoundationComponents

namespace LRUCache

variable {K V : Type*} [DecidableEq K] {n : ℕ}

/-! ## Keys and values -/

namespace Cache

/-- The key of the node at an address. -/
def keyAt (c : Cache K V) (a : Address) : Option K := (c.heap a).map Node.key

/-- The value of the node at an address. -/
def valueAt (c : Cache K V) (a : Address) : Option V := (c.heap a).map Node.value

end Cache

/-- The entries are the same; counts and lists may differ. -/
structure SameEntries (c c' : Cache K V) : Prop where
  map : c'.map = c.map
  keyAt : c'.keyAt = c.keyAt
  valueAt : c'.valueAt = c.valueAt
  capacity : c'.capacity = c.capacity
  size : c'.size = c.size
  disposed : c'.disposed = c.disposed

section Entries

variable {c c' : Cache K V} {pins : Address → ℕ} {a : Address} {key : K}

omit [DecidableEq K] in
theorem SameEntries.refl (c : Cache K V) : SameEntries c c := ⟨rfl, rfl, rfl, rfl, rfl, rfl⟩

omit [DecidableEq K] in
theorem map_update_node {node : Node K V} {β : Type*} (f : Node K V → β)
    (hnode : c.heap a = some node) {node' : Node K V} (hf : f node' = f node) :
    (fun b ↦ (Function.update c.heap a (some node') b).map f) = fun b ↦ (c.heap b).map f := by
  funext b
  by_cases hb : b = a
  · rw [hb, Function.update_self, hnode, Option.map_some, Option.map_some, hf]
  · rw [Function.update_of_ne hb]

theorem WellFormed.lookup_iff (h : WellFormed c pins) :
    c.map.lookup key = some a ↔ c.keyAt a = some key := by
  rw [h.indexed.lookup_iff, Cache.keyAt, Option.map_eq_some_iff]

theorem WellFormed.keyAt_inj (h : WellFormed c pins) {b : Address} (ha : c.keyAt a = some key)
    (hb : c.keyAt b = some key) : a = b :=
  Option.some.inj ((h.lookup_iff.mpr ha).symm.trans (h.lookup_iff.mpr hb))

omit [DecidableEq K] in
theorem isSome_keyAt (c : Cache K V) (a : Address) : (c.keyAt a).isSome = (c.heap a).isSome :=
  Option.isSome_map ..

theorem refNode_entries (h : WellFormed c pins) (ha : (c.heap a).isSome)
    (hrun : c.refNode a = .ok c') :
    SameEntries c c' ∧ c'.notUse = if pins a = 0 then c.notUse.erase a else c.notUse := by
  obtain ⟨node, hnode⟩ := Option.isSome_iff_exists.mp ha
  by_cases hpins : pins a = 0
  · rw [(refNode_eq_of_unpinned h hnode hpins).2, Except.ok.injEq] at hrun
    rw [if_pos hpins, ← hrun]
    exact ⟨⟨rfl, map_update_node _ hnode rfl, map_update_node _ hnode rfl, rfl, rfl, rfl⟩, rfl⟩
  · rw [refNode_eq_of_pinned h hnode hpins (room_of_refNode h ha hrun), Except.ok.injEq] at hrun
    rw [if_neg hpins, ← hrun]
    exact ⟨⟨rfl, map_update_node _ hnode rfl, map_update_node _ hnode rfl, rfl, rfl, rfl⟩, rfl⟩

theorem unrefNode_entries (h : WellFormed c pins) (ha : pins a ≠ 0)
    (hrun : c.unrefNode a = .ok c') :
    SameEntries c c' ∧ c'.notUse = if pins a = 1 then c.notUse ++ [a] else c.notUse := by
  obtain ⟨node, hnode⟩ := Option.isSome_iff_exists.mp (h.divided.exists_of_pinned ha)
  by_cases hpins : pins a = 1
  · rw [(unrefNode_eq_of_last h hnode hpins).2, Except.ok.injEq] at hrun
    rw [if_pos hpins, ← hrun]
    exact ⟨⟨rfl, map_update_node _ hnode rfl, map_update_node _ hnode rfl, rfl, rfl, rfl⟩, rfl⟩
  · rw [unrefNode_eq_of_more h hnode (by omega), Except.ok.injEq] at hrun
    rw [if_neg hpins, ← hrun]
    exact ⟨⟨rfl, map_update_node _ hnode rfl, map_update_node _ hnode rfl, rfl, rfl, rfl⟩, rfl⟩

end Entries

/-! ## Eviction

Eviction takes nodes from the front of `not_use`, as many as there are entries too many, or all of
them. -/

/-- What eviction of the first `m` nodes of `not_use` leaves. -/
structure Evicted (m : ℕ) (c c' : Cache K V) : Prop where
  notUse : c'.notUse = c.notUse.drop m
  heap : ∀ a, c'.heap a = if a ∈ c.notUse.take m then none else c.heap a
  lookup : ∀ key, c'.map.lookup key =
    if key ∈ (c.notUse.take m).filterMap c.keyAt then none else c.map.lookup key
  capacity : c'.capacity = c.capacity
  size : c'.size + m = c.size
  disposed : c'.disposed = c.disposed ++ (c.notUse.take m).filterMap c.valueAt

section Evicted

variable {c c' : Cache K V} {pins : Address → ℕ}

theorem Evicted.none (c : Cache K V) : Evicted 0 c c := by
  refine ⟨rfl, fun a ↦ ?_, fun key ↦ ?_, rfl, rfl, ?_⟩
  · rw [List.take_zero, if_neg List.not_mem_nil]
  · rw [List.take_zero, List.filterMap_nil, if_neg List.not_mem_nil]
  · rw [List.take_zero, List.filterMap_nil, List.append_nil]

theorem filterMap_eraseFirst {a : Address} {rest : List Address} (hfree : a ∉ rest)
    {node : Node K V} (m : ℕ) {β : Type*} (f : Node K V → β) :
    ((rest.take m).filterMap fun b ↦ ((c.eraseFirst a rest node).heap b).map f) =
      (rest.take m).filterMap fun b ↦ (c.heap b).map f := by
  refine List.filterMap_congr fun b hb ↦ ?_
  have hne : b ≠ a := fun heq ↦ hfree (heq ▸ List.mem_of_mem_take hb)
  rw [Cache.eraseFirst]
  dsimp only
  rw [Function.update_of_ne hne]

theorem Evicted.cons {m : ℕ} {a : Address} {rest : List Address} {node : Node K V}
    (h : WellFormed c pins) (hnotUse : c.notUse = a :: rest) (hnode : c.heap a = some node)
    (hrest : Evicted m (c.eraseFirst a rest node) c') : Evicted (m + 1) c c' := by
  have hfree : a ∉ rest := by
    have hnodup := h.divided.notUse_nodup
    rw [hnotUse] at hnodup
    exact (List.nodup_cons.mp hnodup).1
  have hkey : c.keyAt a = some node.key := by rw [Cache.keyAt, hnode, Option.map_some]
  have hvalue : c.valueAt a = some node.value := by rw [Cache.valueAt, hnode, Option.map_some]
  have hkeys : (rest.take m).filterMap (c.eraseFirst a rest node).keyAt =
      (rest.take m).filterMap c.keyAt := filterMap_eraseFirst hfree m Node.key
  have hvalues : (rest.take m).filterMap (c.eraseFirst a rest node).valueAt =
      (rest.take m).filterMap c.valueAt := filterMap_eraseFirst hfree m Node.value
  have hpos : 1 ≤ c.size := by
    rw [h.size_lists, hnotUse, List.length_cons]
    omega
  refine ⟨?_, fun b ↦ ?_, fun key ↦ ?_, hrest.capacity, ?_, ?_⟩
  · rw [hrest.notUse, hnotUse, List.drop_succ_cons]
    rfl
  · have hb := hrest.heap b
    rw [Cache.eraseFirst] at hb
    dsimp only at hb
    rw [hb, hnotUse, List.take_succ_cons]
    by_cases hba : b = a
    · rw [hba, Function.update_self, if_pos List.mem_cons_self, ite_self]
    · simp only [Function.update_of_ne hba, List.mem_cons, hba, false_or]
  · have hk := hrest.lookup key
    rw [show (c.eraseFirst a rest node).notUse = rest from rfl, hkeys,
      show (c.eraseFirst a rest node).map = c.map.erase node.key from rfl] at hk
    rw [hk, hnotUse, List.take_succ_cons, List.filterMap_cons_some hkey]
    by_cases hself : key = node.key
    · rw [hself, AList.lookup_erase, if_pos List.mem_cons_self, ite_self]
    · simp only [AList.lookup_erase_ne hself, List.mem_cons, hself, false_or]
  · have hsize := hrest.size
    rw [show (c.eraseFirst a rest node).size = c.size - 1 from rfl] at hsize
    omega
  · rw [hrest.disposed, hnotUse, List.take_succ_cons, List.filterMap_cons_some hvalue,
      show (c.eraseFirst a rest node).notUse = rest from rfl, hvalues,
      show (c.eraseFirst a rest node).disposed = c.disposed ++ [node.value] from rfl,
      List.append_assoc, List.singleton_append]

/-- **The loop of `evict`** takes as many nodes from the front of `not_use` as there are entries
beyond the capacity, if it has so many. -/
theorem evictLoop_evicted (h : WellFormed c pins) (hrun : c.evictLoop c.notUse = .ok c') :
    Evicted (min c.notUse.length (c.size - c.capacity)) c c' := by
  generalize hnotUse : c.notUse = notUse at hrun ⊢
  induction notUse generalizing c with
  | nil =>
    obtain rfl := Except.ok.inj hrun
    rw [List.length_nil, Nat.zero_min]
    exact Evicted.none c
  | cons a rest ih =>
    rw [Cache.evictLoop] at hrun
    split at hrun
    · rename_i hbeyond
      have hmem : a ∈ c.notUse := by
        rw [hnotUse]
        exact List.mem_cons_self
      obtain ⟨node, hnode⟩ := Option.isSome_iff_exists.mp (h.divided.mem_notUse.mp hmem).1
      rw [deref_eq hnode, ok_bind] at hrun
      have hrest := ih (h.eraseFirst hnotUse hnode) rfl hrun
      have hcount : min (a :: rest).length (c.size - c.capacity) =
          min rest.length ((c.eraseFirst a rest node).size -
            (c.eraseFirst a rest node).capacity) + 1 := by
        rw [List.length_cons, show (c.eraseFirst a rest node).size = c.size - 1 from rfl,
          show (c.eraseFirst a rest node).capacity = c.capacity from rfl]
        omega
      rw [hcount]
      exact Evicted.cons h hnotUse hnode hrest
    · rename_i hfits
      obtain rfl := Except.ok.inj hrun
      rw [Nat.sub_eq_zero_of_le (Nat.not_lt.mp hfits), Nat.min_zero]
      exact Evicted.none c

/-- How many entries `evict` takes. -/
def Cache.excess (c : Cache K V) : ℕ :=
  if c.capacity > 0 then min c.notUse.length (c.size - c.capacity) else 0

theorem evict_evicted (h : WellFormed c pins) (hrun : c.evict = .ok c') :
    Evicted c.excess c c' := by
  rw [Cache.evict] at hrun
  rw [Cache.excess]
  split at hrun
  · rename_i hbounded
    rw [if_pos hbounded]
    exact evictLoop_evicted h hrun
  · rename_i hunbounded
    obtain rfl := Except.ok.inj hrun
    rw [if_neg hunbounded]
    exact Evicted.none c

end Evicted

/-! ## The relation

Of the order of release the cache keeps the list `not_use` only. What makes a list the right one is
that it has the waiting entries and is sorted by the times of the map. -/

/-- The cache, with its guards, stands for the pinned map. -/
structure Refines (c : Cache K V) (guards : Fin n → Option HandleGuard) (t : PinnedMap K V n) :
    Prop where
  values : ∀ key, t.values.lookup key = (c.map.lookup key).bind c.valueAt
  guards : ∀ x, t.guards x = (guards x).map fun g ↦ g.target.bind c.keyAt
  /-- `not_use` is in the order of release. -/
  sorted : (c.notUse.filterMap c.keyAt).Pairwise fun key key' ↦
    t.releasedAt key < t.releasedAt key'
  clock : ∀ key, t.releasedAt key < t.clock

section Refines

variable {c c' : Cache K V} {guards : Fin n → Option HandleGuard} {t : PinnedMap K V n}
  {a : Address} {key : K} {x : Fin n}

theorem pinCount_ne_zero_iff : pinCount guards a ≠ 0 ↔ ∃ x, refers a (guards x) = true := by
  constructor
  · intro hne
    by_contra hnone
    refine hne (tally_eq_zero (fun g ↦ (refers a g).toNat) guards fun x ↦ ?_)
    have hfalse : refers a (guards x) = false :=
      Bool.eq_false_iff.mpr fun hrefers ↦ hnone ⟨x, hrefers⟩
    rw [hfalse]
    rfl
  · rintro ⟨x, hx⟩
    have hle := le_tally (fun g ↦ (refers a g).toNat) guards x
    rw [hx] at hle
    exact Nat.pos_iff_ne_zero.mp hle

theorem target_of_refers {g : Option HandleGuard} (h : refers a g = true) :
    ∃ g', g = some g' ∧ g'.target = some a := by
  cases g with
  | none => cases h
  | some g =>
    rw [refers_some, beq_iff_eq] at h
    exact ⟨g, rfl, h⟩

theorem WellFormed.pinned_iff {pins : Address → ℕ} (h : WellFormed c pins)
    (hguards : ∀ x, t.guards x = (guards x).map fun g ↦ g.target.bind c.keyAt)
    (ha : c.keyAt a = some key) : t.pinned key = true ↔ pinCount guards a ≠ 0 := by
  rw [PinnedMap.pinned, decide_eq_true_iff, pinCount_ne_zero_iff]
  constructor
  · rintro ⟨x, hx⟩
    rw [hguards, Option.map_eq_some_iff] at hx
    obtain ⟨g, hg, htarget⟩ := hx
    obtain ⟨b, hb, hkey⟩ := Option.bind_eq_some_iff.mp htarget
    obtain rfl := h.keyAt_inj ha hkey
    refine ⟨x, ?_⟩
    rw [hg, refers_some, hb, beq_self_eq_true]
  · rintro ⟨x, hx⟩
    obtain ⟨g, hg, htarget⟩ := target_of_refers hx
    refine ⟨x, ?_⟩
    rw [hguards, hg, Option.map_some, htarget, Option.bind_some, ha]

theorem Refines.mem_values_iff (hr : Refines c guards t) (h : WellFormed c (pinCount guards)) :
    key ∈ t.values ↔ ∃ a, c.keyAt a = some key := by
  rw [← AList.lookup_isSome, hr.values]
  constructor
  · intro hsome
    cases hlookup : c.map.lookup key with
    | none =>
      rw [hlookup] at hsome
      cases hsome
    | some a => exact ⟨a, h.lookup_iff.mp hlookup⟩
  · rintro ⟨a, ha⟩
    have hexists : (c.heap a).isSome := by
      rw [← isSome_keyAt, ha]
      rfl
    rw [h.lookup_iff.mpr ha, Option.bind_some, Cache.valueAt, Option.isSome_map]
    exact hexists

theorem Refines.mem_values_iff_mem_map (hr : Refines c guards t)
    (h : WellFormed c (pinCount guards)) : key ∈ t.values ↔ key ∈ c.map := by
  rw [hr.mem_values_iff h, ← AList.lookup_isSome, Option.isSome_iff_exists]
  exact exists_congr fun a ↦ h.lookup_iff.symm

/-- **The order of `not_use`.** It lists the waiting entries in the order of their release. -/
theorem Refines.unpinned_eq (hr : Refines c guards t) (h : WellFormed c (pinCount guards)) :
    t.unpinned = c.notUse.filterMap c.keyAt := by
  refine PinnedMap.unpinned_eq hr.sorted fun key ↦ ?_
  rw [List.mem_filterMap, hr.mem_values_iff h]
  constructor
  · rintro ⟨a, hmem, ha⟩
    refine ⟨⟨a, ha⟩, ?_⟩
    rw [← Bool.not_eq_true, h.pinned_iff hr.guards ha, not_not]
    exact (h.divided.mem_notUse.mp hmem).2
  · rintro ⟨⟨a, ha⟩, hfree⟩
    refine ⟨a, ?_, ha⟩
    rw [← Bool.not_eq_true, h.pinned_iff hr.guards ha, not_not] at hfree
    rw [h.divided.mem_notUse, ← isSome_keyAt, ha]
    exact ⟨rfl, hfree⟩

theorem Refines.length_values (hr : Refines c guards t) (h : WellFormed c (pinCount guards)) :
    t.values.keys.length = c.size := by
  rw [h.size_map]
  refine List.Perm.length_eq ?_
  refine (List.perm_ext_iff_of_nodup t.values.keys_nodup c.map.keys_nodup).mpr fun key ↦ ?_
  rw [← AList.mem_keys, ← AList.mem_keys]
  exact hr.mem_values_iff_mem_map h

/-! ### Guards -/

/-- Nothing but counts changes, and some nodes leave `not_use`. -/
theorem Refines.same (hr : Refines c guards t) (hsame : SameEntries c c')
    (hnotUse : c'.notUse.Sublist c.notUse) : Refines c' guards t := by
  refine ⟨fun key ↦ ?_, fun x ↦ ?_, ?_, hr.clock⟩
  · rw [hsame.map, hsame.valueAt]
    exact hr.values key
  · rw [hsame.keyAt]
    exact hr.guards x
  · rw [hsame.keyAt]
    exact hr.sorted.sublist (hnotUse.filterMap _)

theorem Refines.hold (hr : Refines c guards t) (x : Fin n) (g : HandleGuard) :
    Refines c (Function.update guards x (some g)) (t.hold x (g.target.bind c.keyAt)) := by
  refine ⟨hr.values, fun y ↦ ?_, hr.sorted, hr.clock⟩
  rw [PinnedMap.hold]
  dsimp only
  by_cases hy : y = x
  · rw [hy, Function.update_self, Function.update_self]
    rfl
  · rw [Function.update_of_ne hy, Function.update_of_ne hy]
    exact hr.guards y

theorem Refines.drop (hr : Refines c guards t) (x : Fin n) :
    Refines c (Function.update guards x none)
      { t with guards := Function.update t.guards x none } := by
  refine ⟨hr.values, fun y ↦ ?_, hr.sorted, hr.clock⟩
  dsimp only
  by_cases hy : y = x
  · rw [hy, Function.update_self, Function.update_self]
    rfl
  · rw [Function.update_of_ne hy, Function.update_of_ne hy]
    exact hr.guards y

theorem guardOn_entries {pins : Address → ℕ} (h : WellFormed c pins) (ha : (c.heap a).isSome)
    {g : HandleGuard} (hrun : c.guardOn a = .ok (c', g)) :
    SameEntries c c' ∧ g = ⟨some a, true⟩ ∧
      c'.notUse = if pins a = 0 then c.notUse.erase a else c.notUse := by
  rw [Cache.guardOn] at hrun
  cases href : c.refNode a with
  | error fault =>
    rw [href] at hrun
    cases hrun
  | ok c'' =>
    rw [href, ok_bind] at hrun
    obtain ⟨rfl, rfl⟩ := Prod.mk.inj (Except.ok.inj hrun)
    obtain ⟨hsame, hnotUse⟩ := refNode_entries h ha href
    exact ⟨hsame, rfl, hnotUse⟩

theorem Refines.hold_on (hr : Refines c guards t) (ha : c.keyAt a = some key) (x : Fin n) :
    Refines c (Function.update guards x (some ⟨some a, true⟩)) (t.hold x (some key)) := by
  have hheld := hr.hold x ⟨some a, true⟩
  rwa [HandleGuard.target, if_pos rfl, Option.bind_some, ha] at hheld

theorem Refines.guardOn (hr : Refines c guards t) {pins : Address → ℕ} (h : WellFormed c pins)
    (ha : c.keyAt a = some key) (x : Fin n) {g : HandleGuard} (hrun : c.guardOn a = .ok (c', g)) :
    Refines c' (Function.update guards x (some g)) (t.hold x (some key)) := by
  have hexists : (c.heap a).isSome := by
    rw [← isSome_keyAt, ha]
    rfl
  obtain ⟨hsame, rfl, hnotUse⟩ := guardOn_entries h hexists hrun
  have hsub : c'.notUse.Sublist c.notUse := by
    rw [hnotUse]
    split
    · exact List.erase_sublist
    · exact List.Sublist.refl _
  exact (hr.same hsame hsub).hold_on (by rw [hsame.keyAt, ha]) x

/-- A node whose key is not waiting yet is put at the end of `not_use`, and its key is released. -/
theorem Refines.enqueue (hr : Refines c guards t) (hsame : SameEntries c c')
    (hnotUse : c'.notUse = c.notUse ++ [a]) (ha : c.keyAt a = some key)
    (hnew : ∀ b ∈ c.notUse, c.keyAt b ≠ some key) :
    Refines c' guards
      { t with
        releasedAt := Function.update t.releasedAt key t.clock
        clock := t.clock + 1 } := by
  refine ⟨fun k ↦ ?_, fun x ↦ ?_, ?_, fun k ↦ ?_⟩
  · rw [hsame.map, hsame.valueAt]
    exact hr.values k
  · rw [hsame.keyAt]
    exact hr.guards x
  · have hold : ∀ k ∈ c.notUse.filterMap c.keyAt,
        Function.update t.releasedAt key t.clock k = t.releasedAt k := by
      intro k hk
      obtain ⟨b, hb, hkey⟩ := List.mem_filterMap.mp hk
      have hne : k ≠ key := fun heq ↦ hnew b hb (heq ▸ hkey)
      exact Function.update_of_ne hne _ _
    rw [hsame.keyAt, hnotUse, List.filterMap_append, List.filterMap_cons_some ha,
      List.filterMap_nil, List.pairwise_append]
    refine ⟨hr.sorted.imp_of_mem fun hk hk' hlt ↦ ?_, List.pairwise_singleton _ _, ?_⟩
    · dsimp only
      rwa [hold _ hk, hold _ hk']
    · intro k hk k' hk'
      rw [List.mem_singleton] at hk'
      dsimp only
      rw [hk', hold k hk, Function.update_self]
      exact hr.clock k
  · dsimp only
    by_cases hk : k = key
    · rw [hk, Function.update_self]
      exact Nat.lt_succ_self _
    · rw [Function.update_of_ne hk]
      exact Nat.lt_succ_of_lt (hr.clock k)

/-! ### Entries -/

theorem Refines.setValue (hr : Refines c guards t) {pins : Address → ℕ} (h : WellFormed c pins)
    {node : Node K V} (hnode : c.heap a = some node) (hkey : node.key = key) (value : V) :
    Refines (c.setNode a { node with value := value }) guards
      { t with values := t.values.insert key value } := by
  have ha : c.keyAt a = some key := by rw [Cache.keyAt, hnode, Option.map_some, hkey]
  have hkeys : (c.setNode a { node with value := value }).keyAt = c.keyAt :=
    map_update_node _ hnode rfl
  refine ⟨fun k ↦ ?_, fun x ↦ ?_, ?_, hr.clock⟩
  · dsimp only [Cache.setNode]
    by_cases hk : k = key
    · rw [hk, AList.lookup_insert, h.lookup_iff.mpr ha, Option.bind_some, Cache.valueAt]
      dsimp only
      rw [Function.update_self]
      rfl
    · rw [AList.lookup_insert_ne hk, hr.values]
      refine Option.bind_congr fun b hb ↦ ?_
      have hne : b ≠ a := by
        rintro rfl
        exact hk (Option.some.inj ((h.lookup_iff.mp hb).symm.trans ha))
      rw [Cache.valueAt, Cache.valueAt]
      dsimp only
      rw [Function.update_of_ne hne]
  · rw [hkeys]
    exact hr.guards x
  · rw [hkeys]
    exact hr.sorted

omit [DecidableEq K] in
theorem map_update_of_isSome {β : Type*} (f : Node K V → β) (ha : c.heap a = none) (node : Node K V)
    {b : Address} (hb : (c.heap b).isSome) :
    (Function.update c.heap a (some node) b).map f = (c.heap b).map f := by
  have hne : b ≠ a := by
    rintro rfl
    rw [ha] at hb
    cases hb
  rw [Function.update_of_ne hne]

theorem Refines.insert (hr : Refines c guards t) (h : WellFormed c (pinCount guards))
    (hnew : c.map.lookup key = none) (ha : c.heap a = none) (value : V) :
    Refines { c.emplaceBack key value a with notUse := c.notUse } guards
      { t with values := t.values.insert key value } := by
  have hfresh : key ∉ c.map := AList.lookup_eq_none.mp hnew
  have hmap : (c.emplaceBack key value a).map = c.map.insert key a := if_neg hfresh
  have hkeys : ∀ {b}, (c.heap b).isSome → (c.emplaceBack key value a).keyAt b = c.keyAt b :=
    fun hb ↦ map_update_of_isSome _ ha _ hb
  refine ⟨fun k ↦ ?_, fun x ↦ ?_, ?_, hr.clock⟩
  · dsimp only
    rw [hmap]
    by_cases hk : k = key
    · rw [hk, AList.lookup_insert, AList.lookup_insert, Option.bind_some, Cache.valueAt,
        Cache.emplaceBack]
      dsimp only
      rw [Function.update_self]
      rfl
    · rw [AList.lookup_insert_ne hk, AList.lookup_insert_ne hk, hr.values]
      refine Option.bind_congr fun b hb ↦ ?_
      have hexists : (c.heap b).isSome := by
        rw [← isSome_keyAt, h.lookup_iff.mp hb]
        rfl
      exact (map_update_of_isSome _ ha _ hexists).symm
  · dsimp only
    rw [hr.guards]
    refine Option.map_congr fun g hg ↦ ?_
    refine Option.bind_congr fun b hb ↦ ?_
    have hpinned : pinCount guards b ≠ 0 :=
      pinCount_ne_zero_iff.mpr ⟨x, by rw [hg, refers_some, hb, beq_self_eq_true]⟩
    exact (hkeys (h.divided.exists_of_pinned hpinned)).symm
  · have hwaiting : c.notUse.filterMap (c.emplaceBack key value a).keyAt =
        c.notUse.filterMap c.keyAt :=
      List.filterMap_congr fun b hb ↦ hkeys (h.divided.mem_notUse.mp hb).1
    change (c.notUse.filterMap (c.emplaceBack key value a).keyAt).Pairwise _
    rw [hwaiting]
    exact hr.sorted

theorem Refines.evicted (hr : Refines c guards t) (h : WellFormed c (pinCount guards)) {m : ℕ}
    (hevicted : Evicted m c c') :
    Refines c' guards (t.remove ((c.notUse.take m).filterMap c.keyAt)) := by
  have hkept : ∀ {b}, b ∉ c.notUse.take m → c'.heap b = c.heap b := fun hb ↦ by
    rw [hevicted.heap, if_neg hb]
  refine ⟨fun k ↦ ?_, fun x ↦ ?_, ?_, hr.clock⟩
  · rw [PinnedMap.lookup_remove, hevicted.lookup]
    split
    · rfl
    · rename_i hk
      rw [hr.values]
      refine Option.bind_congr fun b hb ↦ ?_
      have hb' : b ∉ c.notUse.take m := fun hmem ↦
        hk (List.mem_filterMap.mpr ⟨b, hmem, h.lookup_iff.mp hb⟩)
      rw [Cache.valueAt, Cache.valueAt, hkept hb']
  · change t.guards x = _
    rw [hr.guards]
    refine Option.map_congr fun g hg ↦ ?_
    refine Option.bind_congr fun b hb ↦ ?_
    have hpinned : pinCount guards b ≠ 0 :=
      pinCount_ne_zero_iff.mpr ⟨x, by rw [hg, refers_some, hb, beq_self_eq_true]⟩
    have hb' : b ∉ c.notUse.take m := fun hmem ↦
      hpinned (h.divided.mem_notUse.mp (List.mem_of_mem_take hmem)).2
    rw [Cache.keyAt, Cache.keyAt, hkept hb']
  · have hrest : c'.notUse.filterMap c'.keyAt = (c.notUse.drop m).filterMap c.keyAt := by
      rw [hevicted.notUse]
      refine List.filterMap_congr fun b hb ↦ ?_
      have hb' : b ∉ c.notUse.take m := fun hmem ↦
        List.disjoint_take_drop h.divided.notUse_nodup (Nat.le_refl m) hmem hb
      rw [Cache.keyAt, Cache.keyAt, hkept hb']
    rw [hrest]
    exact hr.sorted.sublist ((List.drop_sublist m c.notUse).filterMap _)

theorem take_filterMap {β γ : Type*} (f : β → Option γ) {l : List β} (h : ∀ b ∈ l, (f b).isSome)
    (m : ℕ) : (l.filterMap f).take m = (l.take m).filterMap f := by
  induction l generalizing m with
  | nil => simp
  | cons b l ih =>
    obtain ⟨y, hy⟩ := Option.isSome_iff_exists.mp (h b List.mem_cons_self)
    cases m with
    | zero => rfl
    | succ m =>
      rw [List.filterMap_cons_some hy, List.take_succ_cons, List.take_succ_cons,
        List.filterMap_cons_some hy, ih fun b' hb' ↦ h b' (List.mem_cons_of_mem _ hb')]

/-- **Eviction.** The cache and the map evict the same entries. -/
theorem Refines.evict (hr : Refines c guards t) (h : WellFormed c (pinCount guards))
    (hrun : c.evict = .ok c') : Refines c' guards (t.evict c.capacity) := by
  have hr' := hr.evicted h (evict_evicted h hrun)
  have hexists : ∀ b ∈ c.notUse, (c.keyAt b).isSome := fun b hb ↦ by
    rw [isSome_keyAt]
    exact (h.divided.mem_notUse.mp hb).1
  rw [Cache.excess] at hr'
  rw [PinnedMap.evict]
  split
  · rename_i hbounded
    rw [if_pos hbounded] at hr'
    rw [hr.unpinned_eq h, hr.length_values h, take_filterMap _ hexists, List.take_eq_take_min,
      Nat.min_comm]
    exact hr'
  · rename_i hunbounded
    rwa [if_neg hunbounded] at hr'

/-- **Giving a guard up.** The variable is left without an object, and the entry is released if this
was its last guard. -/
theorem Refines.release (hr : Refines c guards t) (h : WellFormed c (pinCount guards))
    {g g' : HandleGuard} (hx : guards x = some g) (hrun : c.reset g = .ok (c', g'))
    (h' : WellFormed c' (pinCount (Function.update guards x none))) :
    SameEntries c c' ∧ Refines c' (Function.update guards x none) (t.release x) := by
  have htx := hr.guards x
  rw [hx, Option.map_some] at htx
  rw [Cache.reset] at hrun
  split at hrun
  · rename_i a htarget
    have hrefers : refers a (guards x) = true := by
      rw [hx, refers_some, htarget, beq_self_eq_true]
    have hpins : pinCount guards a ≠ 0 := pinCount_ne_zero_iff.mpr ⟨x, hrefers⟩
    obtain ⟨node, hnode⟩ := Option.isSome_iff_exists.mp (h.divided.exists_of_pinned hpins)
    have ha : c.keyAt a = some node.key := by rw [Cache.keyAt, hnode, Option.map_some]
    rw [htarget, Option.bind_some, ha] at htx
    obtain ⟨c'', hunref, -⟩ := unrefNode_spec h hpins
    rw [hunref, ok_bind] at hrun
    obtain ⟨rfl, -⟩ := Prod.mk.inj (Except.ok.inj hrun)
    obtain ⟨hsame, hnotUse⟩ := unrefNode_entries h hpins hunref
    refine ⟨hsame, ?_⟩
    -- the guard given up is one of the pins
    have hcount : pinCount (Function.update guards x none) a + 1 = pinCount guards a := by
      have htrade := pinCount_update guards x none a
      rwa [hrefers] at htrade
    have hdropped : Refines c (Function.update guards x none)
        { t with guards := Function.update t.guards x none } := hr.drop x
    rw [PinnedMap.release, htx]
    dsimp only
    split
    · -- other guards remain
      rename_i hpinned
      rw [h.pinned_iff hdropped.guards ha] at hpinned
      have hmore : pinCount guards a ≠ 1 := by omega
      rw [if_neg hmore] at hnotUse
      refine hdropped.same hsame ?_
      rw [hnotUse]
    · rename_i hfree
      rw [h.pinned_iff hdropped.guards ha, not_not] at hfree
      have hlast : pinCount guards a = 1 := by omega
      rw [if_pos hlast] at hnotUse
      exact hdropped.enqueue hsame hnotUse ha fun b hb hkey ↦ by
        rw [h.keyAt_inj hkey ha] at hb
        exact hpins (h.divided.mem_notUse.mp hb).2
  · rename_i htarget
    obtain ⟨rfl, rfl⟩ := Prod.mk.inj (Except.ok.inj hrun)
    rw [htarget, Option.bind_none] at htx
    refine ⟨SameEntries.refl c, ?_⟩
    rw [PinnedMap.release, htx]
    exact hr.drop x

end Refines

/-! ## What `get` finds and what `put` evicts -/

/-- What a call of `get` finds: the entry of the map, if there is one, and nothing is changed but
the guards on it. -/
structure Found (c : Cache K V) (t : PinnedMap K V n) (key : K) (c' : Cache K V) (g : HandleGuard) :
    Prop where
  valid_iff : g.valid = true ↔ key ∈ t.values
  value : g.target.bind c'.valueAt = t.values.lookup key
  miss : key ∉ t.values → c' = c
  sameEntries : SameEntries c c'

/-- How many entries the insertion of a new key evicts. -/
def Cache.victims (c : Cache K V) : ℕ :=
  if c.capacity > 0 then min c.notUse.length (c.size + 1 - c.capacity) else 0

/-- What a call of `put` evicts: nothing if the key is there, and otherwise a part of `not_use` from
its front, which is all of it unless the entries fit. -/
structure Inserted (c : Cache K V) (key : K) (c' : Cache K V) : Prop where
  hit : key ∈ c.map → c'.map = c.map ∧ c'.size = c.size ∧ c'.disposed = c.disposed
  notUse : key ∉ c.map → c'.notUse = c.notUse.drop c.victims
  size : key ∉ c.map → c'.size + c.victims = c.size + 1
  disposed : key ∉ c.map →
    c'.disposed = c.disposed ++ (c.notUse.take c.victims).filterMap c.valueAt
  mem_map : key ∉ c.map → ∀ k, k ∈ c'.map ↔
    k ∉ (c.notUse.take c.victims).filterMap c.keyAt ∧ (k = key ∨ k ∈ c.map)
  fits : key ∉ c.map → 0 < c.capacity → c'.size ≤ c.capacity ∨ c'.notUse = []
  capacity : c'.capacity = c.capacity

theorem Inserted.disposed_of_unbounded {c c' : Cache K V} {key : K} (h : Inserted c key c')
    (hunbounded : c.capacity = 0) : c'.disposed = c.disposed := by
  by_cases hin : key ∈ c.map
  · exact (h.hit hin).2.2
  · have hnone : c.victims = 0 := if_neg (by omega)
    rw [h.disposed hin, hnone, List.take_zero, List.filterMap_nil, List.append_nil]

section Operations

variable {c : Cache K V} {guards : Fin n → Option HandleGuard} {t : PinnedMap K V n} {x : Fin n}

theorem get_found (hr : Refines c guards t) (h : WellFormed c (pinCount guards)) (key : K)
    (hroom : ∀ a ∈ c.map.lookup key, pinCount guards a + 1 < maxRef) :
    ∃ c' g, c.get key = .ok (c', g) ∧ Found c t key c' g := by
  rw [Cache.get]
  have hmem : key ∈ t.values ↔ (c.map.lookup key).isSome := by
    rw [AList.lookup_isSome]
    exact hr.mem_values_iff_mem_map h
  split
  · rename_i a hlookup
    have hexists : (c.heap a).isSome := by
      rw [← isSome_keyAt, h.lookup_iff.mp hlookup]
      rfl
    have hin : key ∈ t.values := by
      rw [hmem, hlookup]
      rfl
    obtain ⟨c', g, hrun, -⟩ := guardOn_spec h hexists (hroom a hlookup)
    obtain ⟨hsame, rfl, -⟩ := guardOn_entries h hexists hrun
    refine ⟨c', _, hrun, iff_of_true rfl hin, ?_, fun hout ↦ absurd hin hout, hsame⟩
    rw [hr.values, hlookup, hsame.valueAt]
    rfl
  · rename_i hlookup
    have hout : key ∉ t.values := by
      rw [hmem, hlookup]
      exact Bool.false_ne_true
    refine ⟨c, .null, rfl, iff_of_false Bool.false_ne_true hout, ?_, fun _ ↦ rfl,
      SameEntries.refl c⟩
    rw [hr.values, hlookup]
    rfl

theorem get_refines (hr : Refines c guards t) (h : WellFormed c (pinCount guards)) (x : Fin n)
    {key : K} {c' : Cache K V} {g : HandleGuard} (hrun : c.get key = .ok (c', g)) :
    Refines c' (Function.update guards x (some g)) (t.get x key) := by
  rw [Cache.get] at hrun
  rw [PinnedMap.get]
  have hmem : key ∈ t.values ↔ (c.map.lookup key).isSome := by
    rw [AList.lookup_isSome]
    exact hr.mem_values_iff_mem_map h
  split at hrun
  · rename_i a hlookup
    rw [if_pos (hmem.mpr (by rw [hlookup]; rfl))]
    exact hr.guardOn h (h.lookup_iff.mp hlookup) x hrun
  · rename_i hlookup
    obtain ⟨rfl, rfl⟩ := Prod.mk.inj (Except.ok.inj hrun)
    rw [if_neg (by rw [hmem, hlookup]; exact Bool.false_ne_true)]
    exact hr.hold x .null

/-- What a `put` does that finds its key. -/
theorem put_of_hit {pins : Address → ℕ} (h : WellFormed c pins) {key : K} {a : Address}
    (hlookup : c.map.lookup key = some a) {value : V} {fresh : Address} {c' : Cache K V}
    {g : HandleGuard} (hrun : c.put key value fresh = .ok (c', g)) :
    ∃ node, c.heap a = some node ∧ node.key = key ∧
      (c.setNode a { node with value := value }).guardOn a = .ok (c', g) ∧
      SameEntries (c.setNode a { node with value := value }) c' := by
  obtain ⟨node, hnode, hkey⟩ := h.indexed.lookup_iff.mp hlookup
  obtain ⟨hvalue, hexists⟩ := h.setValue hnode value
  rw [Cache.put, hlookup] at hrun
  dsimp only at hrun
  rw [deref_eq hnode, ok_bind] at hrun
  exact ⟨node, hnode, hkey, hrun, (guardOn_entries hvalue hexists hrun).1⟩

/-- The two halves of a `put` of a new key. The new entry is pinned, which takes its node out of
`not_use` again, and then `evict` runs. -/
structure PutMiss (c : Cache K V) (pins : Address → ℕ) (key : K) (value : V) (fresh : Address)
    (c₁ c' : Cache K V) : Prop where
  sameEntries : SameEntries (c.emplaceBack key value fresh) c₁
  notUse : c₁.notUse = c.notUse
  wellFormed : WellFormed c₁ fun a ↦ pins a + (refers a (some ⟨some fresh, true⟩)).toNat
  evict : c₁.evict = .ok c'
  put : c.put key value fresh = .ok (c', ⟨some fresh, true⟩)

/-- A `put` of a new key. -/
theorem put_of_miss {pins : Address → ℕ} (h : WellFormed c pins) {key : K}
    (hlookup : c.map.lookup key = none) (value : V) {fresh : Address}
    (hfresh : c.heap fresh = none) : ∃ c₁ c', PutMiss c pins key value fresh c₁ c' := by
  obtain ⟨hexists, c₁, g, hguard, h₁⟩ := h.guardOn_emplaceBack hlookup hfresh value
  obtain ⟨hsame, rfl, hnotUse⟩ :=
    guardOn_entries (h.emplaceBack hlookup hfresh value) hexists hguard
  obtain ⟨c', hevict, -⟩ := evict_spec h₁
  refine ⟨c₁, c', hsame, ?_, h₁, hevict, ?_⟩
  · have hpins := h.pins_eq_zero hfresh
    have hunused : fresh ∉ c.notUse := fun hmem ↦ by
      have hsome := (h.divided.mem_notUse.mp hmem).1
      rw [hfresh] at hsome
      cases hsome
    rw [hnotUse, if_pos hpins, Cache.emplaceBack]
    dsimp only
    rw [List.erase_append_right _ hunused, List.erase_cons_head, List.append_nil]
  · rw [Cache.put, hlookup]
    dsimp only
    rw [hguard, ok_bind]
    dsimp only
    rw [hevict]
    rfl

theorem PutMiss.excess_eq {pins : Address → ℕ} {key : K} {value : V} {fresh : Address}
    {c₁ c' : Cache K V} (hput : PutMiss c pins key value fresh c₁ c') : c₁.excess = c.victims := by
  rw [Cache.excess, Cache.victims, hput.notUse, hput.sameEntries.capacity, hput.sameEntries.size]
  rfl

theorem PutMiss.inserted {pins : Address → ℕ} (h : WellFormed c pins) {key : K} {value : V}
    {fresh : Address} {c₁ c' : Cache K V} (hput : PutMiss c pins key value fresh c₁ c')
    (hout : key ∉ c.map) (hfresh : c.heap fresh = none) : Inserted c key c' := by
  have hsame := hput.sameEntries
  have hevicted := evict_evicted hput.wellFormed hput.evict
  rw [hput.excess_eq] at hevicted
  -- the nodes of `not_use` were there before
  have hkeys : (c.notUse.take c.victims).filterMap c₁.keyAt =
      (c.notUse.take c.victims).filterMap c.keyAt := by
    rw [hsame.keyAt]
    exact List.filterMap_congr fun b hb ↦
      map_update_of_isSome _ hfresh _ (h.divided.mem_notUse.mp (List.mem_of_mem_take hb)).1
  have hvalues : (c.notUse.take c.victims).filterMap c₁.valueAt =
      (c.notUse.take c.victims).filterMap c.valueAt := by
    rw [hsame.valueAt]
    exact List.filterMap_congr fun b hb ↦
      map_update_of_isSome _ hfresh _ (h.divided.mem_notUse.mp (List.mem_of_mem_take hb)).1
  have hsize : c'.size + c.victims = c.size + 1 := by
    rw [hevicted.size, hsame.size]
    rfl
  have hleft : c'.notUse = c.notUse.drop c.victims := by rw [hevicted.notUse, hput.notUse]
  refine ⟨fun hin ↦ absurd hin hout, fun _ ↦ hleft, fun _ ↦ hsize, fun _ ↦ ?_, fun _ k ↦ ?_,
    fun _ hbounded ↦ ?_, hevicted.capacity.trans hsame.capacity⟩
  · rw [hevicted.disposed, hput.notUse, hvalues, hsame.disposed]
    rfl
  · rw [← AList.lookup_isSome, hevicted.lookup, hput.notUse, hkeys, hsame.map,
      show (c.emplaceBack key value fresh).map = c.map.insert key fresh from if_neg hout]
    split
    · rename_i hvictim
      exact iff_of_false Bool.false_ne_true fun hk ↦ hk.1 hvictim
    · rename_i hsurvives
      rw [AList.lookup_isSome, AList.mem_insert, and_iff_right hsurvives]
  · rw [hleft]
    have hvictims : c.victims = min c.notUse.length (c.size + 1 - c.capacity) := if_pos hbounded
    by_cases hall : c.notUse.length ≤ c.victims
    · exact Or.inr (List.drop_eq_nil_of_le hall)
    · exact Or.inl (by omega)

theorem put_inserted {pins : Address → ℕ} (h : WellFormed c pins) (key : K) (value : V)
    {fresh : Address} (hfresh : c.heap fresh = none)
    (hroom : ∀ a ∈ c.map.lookup key, pins a + 1 < maxRef) :
    ∃ c' g, c.put key value fresh = .ok (c', g) ∧ Inserted c key c' := by
  cases hlookup : c.map.lookup key with
  | none =>
    obtain ⟨c₁, c', hput⟩ := put_of_miss h hlookup value hfresh
    exact ⟨c', _, hput.put, hput.inserted h (AList.lookup_eq_none.mp hlookup) hfresh⟩
  | some a =>
    obtain ⟨c', g, hput, -⟩ := put_spec h key value hfresh hroom
    obtain ⟨node, -, -, -, hsame⟩ := put_of_hit h hlookup hput
    have hin : key ∈ c.map := by
      rw [← AList.lookup_isSome, hlookup]
      rfl
    refine ⟨c', g, hput, fun _ ↦ ⟨hsame.map, hsame.size, hsame.disposed⟩, ?_, ?_, ?_, ?_, ?_,
      hsame.capacity⟩ <;> exact fun hout ↦ absurd hin hout

theorem put_refines (hr : Refines c guards t) (h : WellFormed c (pinCount guards))
    (hx : guards x = none) {key : K} {value : V} {fresh : Address} (hfresh : c.heap fresh = none)
    {c' : Cache K V} {g : HandleGuard} (hrun : c.put key value fresh = .ok (c', g)) :
    Refines c' (Function.update guards x (some g)) (t.put c.capacity x key value) := by
  simp only [PinnedMap.put, hr.mem_values_iff_mem_map h, ← AList.lookup_isSome]
  cases hlookup : c.map.lookup key with
  | none =>
    obtain ⟨c₁, c'', hput⟩ := put_of_miss h hlookup value hfresh
    obtain ⟨rfl, rfl⟩ := Prod.mk.inj (Except.ok.inj (hput.put.symm.trans hrun))
    have hsame := hput.sameEntries
    have hkey : (c.emplaceBack key value fresh).keyAt fresh = some key := by
      rw [Cache.keyAt, Cache.emplaceBack]
      dsimp only
      rw [Function.update_self, Option.map_some]
    have hr₁ : Refines c₁ (Function.update guards x (some ⟨some fresh, true⟩))
        ({ t with values := t.values.insert key value }.hold x (some key)) := by
      refine ((hr.insert h hlookup hfresh value).same ?_ ?_).hold_on ?_ x
      · exact ⟨hsame.map, hsame.keyAt, hsame.valueAt, hsame.capacity, hsame.size, hsame.disposed⟩
      · rw [hput.notUse]
      · rw [hsame.keyAt, hkey]
    have h₁ := hput.wellFormed
    rw [← pinCount_store hx] at h₁
    have hevicted := hr₁.evict h₁ hput.evict
    rw [hsame.capacity] at hevicted
    exact hevicted
  | some a =>
    obtain ⟨node, hnode, hkey, hguard, -⟩ := put_of_hit h hlookup hrun
    have ha : (c.setNode a { node with value := value }).keyAt a = some key := by
      rw [Cache.keyAt, Cache.setNode]
      dsimp only
      rw [Function.update_self, Option.map_some, hkey]
    exact (hr.setValue h hnode hkey value).guardOn (h.setValue hnode value).1 ha x hguard

end Operations

/-! ## Every sequence of operations -/

section Runs

variable {capacity : ℕ} {s s' : System K V n} {t : PinnedMap K V n}

/-- The state of the machine stands for the pinned map. -/
structure Stands (capacity : ℕ) (s : System K V n) (t : PinnedMap K V n) : Prop where
  inv : Inv s
  capacity_eq : s.cache.capacity = capacity
  refines : Refines s.cache s.guards t
  disposed : capacity = 0 → s.cache.disposed = []

theorem Stands.guard_eq (h : Stands capacity s t) {x : Fin n} {g : Option HandleGuard}
    (hx : s.guards x = g) : t.guards x = g.map fun g ↦ g.target.bind s.cache.keyAt := by
  rw [h.refines.guards, hx]

theorem Stands.no_guard (h : Stands capacity s t) {x : Fin n} (hx : s.guards x = none) :
    t.guards x = none := h.guard_eq hx

theorem Stands.sameEntries (h : Stands capacity s t) (hinv : Inv s')
    (hsame : SameEntries s.cache s'.cache) {t' : PinnedMap K V n}
    (hr : Refines s'.cache s'.guards t') : Stands capacity s' t' := by
  refine ⟨hinv, hsame.capacity.trans h.capacity_eq, hr, fun hzero ↦ ?_⟩
  rw [hsame.disposed, h.disposed hzero]

theorem Stands.release (h : Stands capacity s t) {x : Fin n} {g : HandleGuard}
    (hx : s.guards x = some g) : ∃ c g', s.cache.reset g = .ok (c, g') ∧ g'.target = none ∧
      SameEntries s.cache c ∧ Refines c (Function.update s.guards x none) (t.release x) := by
  obtain ⟨c, g', hrun, hc, hnull⟩ := h.inv.reset hx
  obtain ⟨hsame, hr⟩ := h.refines.release h.inv.wellFormed hx hrun hc
  exact ⟨c, g', hrun, hnull, hsame, hr⟩

theorem Refines.move {c : Cache K V} {guards : Fin n → Option HandleGuard} (hr : Refines c guards t)
    (x y : Fin n) (g : HandleGuard) :
    Refines c (Function.update (Function.update guards x (some g)) y (some .null))
      (t.move x y (g.target.bind c.keyAt)) :=
  (hr.hold x g).hold y .null

/-- **One step.** The map follows the cache. -/
theorem stands_step {a : Action K V n} (h : Stands capacity s t) (hfew : FewGuards s a)
    (hstep : s.step a = some s') :
    ∃ t', t.step capacity a = some t' ∧ Stands capacity s' t' := by
  have hinv := inv_step h.inv hfew hstep
  cases a with
  | get x key =>
    simp only [System.step] at hstep
    split at hstep
    · rename_i henabled
      obtain rfl := Option.some.inj hstep
      obtain ⟨c, g, hrun, hfound⟩ := get_found h.refines h.inv.wellFormed key hfew
      have hr := get_refines h.refines h.inv.wellFormed x hrun
      rw [hrun] at hinv ⊢
      refine ⟨t.get x key, ?_, h.sameEntries hinv hfound.sameEntries hr⟩
      rw [PinnedMap.step, if_pos (h.no_guard henabled.2)]
    · cases hstep
  | put x key value fresh =>
    simp only [System.step] at hstep
    split at hstep
    · rename_i henabled
      obtain ⟨-, hx, hisNone⟩ := henabled
      have hfresh := Option.isNone_iff_eq_none.mp hisNone
      obtain rfl := Option.some.inj hstep
      obtain ⟨c, g, hrun, hinserted⟩ := put_inserted h.inv.wellFormed key value hfresh hfew
      have hr := put_refines h.refines h.inv.wellFormed hx hfresh hrun
      rw [h.capacity_eq] at hr
      rw [hrun] at hinv ⊢
      refine ⟨t.put capacity x key value, ?_, hinv, hinserted.capacity.trans h.capacity_eq, hr,
        fun hzero ↦ ?_⟩
      · rw [PinnedMap.step, if_pos (h.no_guard hx)]
      · exact (hinserted.disposed_of_unbounded (h.capacity_eq.trans hzero)).trans
          (h.disposed hzero)
    · cases hstep
  | moveConstruct x y =>
    simp only [System.step] at hstep
    split at hstep
    · rename_i g hfault hx hy
      obtain rfl := Option.some.inj hstep
      refine ⟨t.move x y (g.target.bind s.cache.keyAt), ?_,
        h.sameEntries hinv (SameEntries.refl s.cache) (h.refines.move x y g)⟩
      rw [PinnedMap.step, h.guard_eq hx, h.guard_eq hy]
      rfl
    · cases hstep
  | moveAssign x y =>
    simp only [System.step] at hstep
    split at hstep
    · rename_i old g hfault hx hy
      rw [PinnedMap.step, h.guard_eq hx, h.guard_eq hy]
      split at hstep
      · rename_i heq
        obtain rfl := Option.some.inj hstep
        refine ⟨t, ?_, h⟩
        exact congrArg some (if_pos heq)
      · rename_i hne
        obtain rfl := Option.some.inj hstep
        obtain ⟨c, g', hrun, -, hsame, hr⟩ := h.release hx
        rw [hrun] at hinv ⊢
        have hmoved := hr.move x y g
        rw [Function.update_idem, hsame.keyAt] at hmoved
        refine ⟨(t.release x).move x y (g.target.bind s.cache.keyAt), ?_,
          h.sameEntries hinv hsame hmoved⟩
        exact congrArg some (if_neg hne)
    · cases hstep
  | reset x =>
    simp only [System.step] at hstep
    split at hstep
    · rename_i g hfault hx
      obtain rfl := Option.some.inj hstep
      obtain ⟨c, g', hrun, hnull, hsame, hr⟩ := h.release hx
      have hheld := hr.hold x g'
      rw [Function.update_idem, hnull] at hheld
      rw [hrun] at hinv ⊢
      refine ⟨(t.release x).hold x none, ?_, h.sameEntries hinv hsame hheld⟩
      rw [PinnedMap.step, h.guard_eq hx]
      rfl
    · cases hstep
  | destroy x =>
    simp only [System.step] at hstep
    split at hstep
    · rename_i g hfault hx
      obtain rfl := Option.some.inj hstep
      obtain ⟨c, g', hrun, -, hsame, hr⟩ := h.release hx
      rw [hrun] at hinv ⊢
      refine ⟨t.release x, ?_, h.sameEntries hinv hsame hr⟩
      rw [PinnedMap.step, h.guard_eq hx]
      rfl
    · cases hstep

theorem stands_init (capacity : ℕ) :
    Stands capacity (machine K V capacity n).init (pinnedMachine K V capacity n).init := by
  refine ⟨inv_init capacity, rfl, ⟨fun key ↦ ?_, fun x ↦ rfl, List.Pairwise.nil, fun key ↦ ?_⟩,
    fun _ ↦ rfl⟩
  · simp only [pinnedMachine, machine, Cache.create, AList.lookup_empty, Option.bind_none]
  · exact Nat.zero_lt_one

/-- Every sequence of operations takes the cache and the map to states that correspond. -/
theorem stands_of_run {actions : List (Action K V n)}
    (h : (machine K V capacity n).runWhen FewGuards (machine K V capacity n).init actions =
      some s) :
    ∃ t, (pinnedMachine K V capacity n).run (pinnedMachine K V capacity n).init actions = some t ∧
      Stands capacity s t :=
  Machine.runWhen_simulated (N := pinnedMachine K V capacity n) h (stands_init capacity)
    fun hs hfew hstep ↦ stands_step hs hfew hstep

/-- **The cache refines the pinned map.** Every sequence of operations in which no node is given
more guards than its count can count takes the cache and the map to states with the same entries and
guards, in which `not_use` holds the waiting entries in the order of their release; `get` then finds
the entry of the map, and `put` evicts from the front of `not_use` what does not fit. -/
theorem refines_pinnedMap {actions : List (Action K V n)}
    (h : (machine K V capacity n).runWhen FewGuards (machine K V capacity n).init actions =
      some s) :
    ∃ t, (pinnedMachine K V capacity n).run (pinnedMachine K V capacity n).init actions = some t ∧
      Refines s.cache s.guards t ∧ s.cache.capacity = capacity ∧
      t.unpinned = s.cache.notUse.filterMap s.cache.keyAt ∧
      (∀ key, s.HasRoom key → ∃ c g, s.cache.get key = .ok (c, g) ∧ Found s.cache t key c g) ∧
      (∀ key value fresh, s.HasRoom key → s.cache.heap fresh = none →
        ∃ c g, s.cache.put key value fresh = .ok (c, g) ∧ Inserted s.cache key c) ∧
      (capacity = 0 → s.cache.disposed = []) := by
  obtain ⟨t, ht, hstands⟩ := stands_of_run h
  have hwf := hstands.inv.wellFormed
  exact ⟨t, ht, hstands.refines, hstands.capacity_eq, hstands.refines.unpinned_eq hwf,
    fun key hroom ↦ get_found hstands.refines hwf key hroom,
    fun key value _ hroom hfresh ↦ put_inserted hwf key value hfresh hroom, hstands.disposed⟩

end Runs

/-- A cache for two entries: the entry that was put last is released first, pinned guards move, and
the next `put` evicts what was released first. -/
theorem refines_pinnedMap_releaseOrder :
    ∃ (s : System ℕ String 3) (t : PinnedMap ℕ String 3),
      (pinnedMachine ℕ String 2 3).run (pinnedMachine ℕ String 2 3).init
        [.put 0 1 "one" 100, .put 1 2 "two" 200, .moveConstruct 2 0, .destroy 1, .destroy 2,
          .put 1 3 "three" 300] = some t ∧
      t.unpinned = s.cache.notUse.filterMap s.cache.keyAt ∧
      s.cache.notUse = [100] ∧ s.cache.map.keys = [3, 1] ∧ s.cache.disposed = ["two"] := by
  have hrun : ((machine ℕ String 2 3).runWhen FewGuards (machine ℕ String 2 3).init
      [.put 0 1 "one" 100, .put 1 2 "two" 200, .moveConstruct 2 0, .destroy 1, .destroy 2,
        .put 1 3 "three" 300]).map
          (fun s ↦ (s.cache.notUse, s.cache.map.keys, s.cache.disposed)) =
      some ([100], [3, 1], ["two"]) := by decide +kernel
  obtain ⟨s, hs, hfinal⟩ := Option.map_eq_some_iff.mp hrun
  simp only [Prod.mk.injEq] at hfinal
  obtain ⟨t, ht, -, -, hunpinned, -⟩ := refines_pinnedMap hs
  exact ⟨s, t, ht, hunpinned, hfinal⟩

/-- One entry with as many guards as its count can count: `get` does not return a handle on it. -/
theorem get_overflows_of_full : ∃ s : System Unit Unit maxRef,
    (machine Unit Unit 1 maxRef).Reachable s ∧ s.fault = none ∧ () ∈ s.cache.map ∧
      s.cache.get () = .error .overflow := by
  have hlarge : 2 < maxRef := by decide
  obtain ⟨s, hs, ⟨a, hlookup, hpins⟩, -⟩ :=
    exists_guarded (n := maxRef) (k := maxRef - 2) (by omega) (by omega)
  have hinv := inv_of_reachableWhen hs
  refine ⟨s, hs.reachable, hinv.no_fault, ?_, get_eq_overflow hinv.wellFormed hlookup (by omega)⟩
  rw [← AList.lookup_isSome, hlookup]
  rfl

end LRUCache

end FoundationComponents
