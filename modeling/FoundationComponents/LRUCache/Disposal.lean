import FoundationComponents.LRUCache.Refinement

/-!
# Which values are disposed of

A value that `put` has stored is in a node, until the node is erased or receives another value.
`evict` and the destructor give the value of a node to `value_deleter` when they erase it. A `put`
that finds its key assigns the new value to the node, and nothing is done with the old one.

So the values that have been stored are, at any time, those disposed of, those in the nodes and
those replaced, and after the destructor those disposed of and those replaced. The first two parts
are exchanged by eviction, which takes nodes from `not_use`; no guard refers to these.
-/

namespace FoundationComponents

namespace LRUCache

variable {K V : Type*} [DecidableEq K] {n : ℕ}

namespace Cache

/-- The loop of the destructor; the list is `not_use`. -/
def destructLoop (c : Cache K V) : List Address → Except Fault (Cache K V)
  | [] => .ok c
  | a :: rest => do
      let node ← c.deref a
      destructLoop (c.eraseFirst a rest node) rest

/-- `~LRUCache`, if `assert(in_use.empty())` does not fail. -/
def destruct (c : Cache K V) : Option (Except Fault (Cache K V)) :=
  if c.inUse = [] then some (c.destructLoop c.notUse) else none

/-- The values in the nodes. -/
def values (c : Cache K V) : List V := (c.notUse ++ c.inUse).filterMap c.valueAt

end Cache

/-- The value that a call stores. -/
def Action.stored : Action K V n → List V
  | .put _ _ value _ => [value]
  | _ => []

/-- The value that a call replaces: `put` finds its key. -/
def System.replaced (s : System K V n) : Action K V n → List V
  | .put _ key _ _ => ((s.cache.map.lookup key).bind s.cache.valueAt).toList
  | _ => []

/-! ## The values in the nodes

Every node holds a value, and only `put` and `evict` change which. What is evicted leaves the nodes
and is disposed of. -/

section Values

variable {c c' : Cache K V} {pins pins' : Address → ℕ} {a : Address}

theorem WellFormed.values_perm (h : WellFormed c pins) {nodes : List Address}
    (hnodup : nodes.Nodup) (hmem : ∀ b, b ∈ nodes ↔ (c.heap b).isSome) :
    c.values.Perm (nodes.filterMap c.valueAt) := by
  refine List.Perm.filterMap _ ((List.perm_ext_iff_of_nodup h.nodes_nodup hnodup).mpr fun b ↦ ?_)
  rw [h.mem_nodes, hmem]

theorem SameEntries.values_perm (hsame : SameEntries c c') (h : WellFormed c pins)
    (h' : WellFormed c' pins') : c'.values.Perm c.values := by
  have hperm := h'.values_perm h.nodes_nodup fun b ↦ by
    rw [h.mem_nodes, ← isSome_keyAt, ← isSome_keyAt, hsame.keyAt]
  rwa [hsame.valueAt] at hperm

theorem WellFormed.values_setValue (h : WellFormed c pins) {node : Node K V}
    (hnode : c.heap a = some node) (value : V) :
    (node.value :: (c.setNode a { node with value := value }).values).Perm (value :: c.values) := by
  have hmem : a ∈ c.notUse ++ c.inUse := h.mem_nodes.mpr (by rw [hnode]; rfl)
  have hperm := List.perm_cons_erase hmem
  have hold : c.valueAt a = some node.value := by rw [Cache.valueAt, hnode, Option.map_some]
  have hnew : (c.setNode a { node with value := value }).valueAt a = some value := by
    rw [Cache.valueAt, Cache.setNode]
    dsimp only
    rw [Function.update_self, Option.map_some]
  -- the other nodes keep their values
  have hrest : ((c.notUse ++ c.inUse).erase a).filterMap
        (c.setNode a { node with value := value }).valueAt =
      ((c.notUse ++ c.inUse).erase a).filterMap c.valueAt := by
    refine List.filterMap_congr fun b hb ↦ ?_
    have hne : b ≠ a := (h.nodes_nodup.mem_erase_iff.mp hb).1
    rw [Cache.valueAt, Cache.valueAt, Cache.setNode]
    dsimp only
    rw [Function.update_of_ne hne]
  have hbefore := hperm.filterMap c.valueAt
  have hafter := hperm.filterMap (c.setNode a { node with value := value }).valueAt
  rw [List.filterMap_cons_some hold] at hbefore
  rw [List.filterMap_cons_some hnew, hrest] at hafter
  exact (hafter.cons _).trans ((List.Perm.swap ..).trans (hbefore.symm.cons _))

theorem WellFormed.values_emplaceBack (h : WellFormed c pins) {key : K}
    (hkey : c.map.lookup key = none) (ha : c.heap a = none) (value : V) :
    (c.emplaceBack key value a).values.Perm (value :: c.values) := by
  have hfree : a ∉ c.notUse ++ c.inUse := by
    rw [h.mem_nodes, ha]
    exact Bool.false_ne_true
  have hnew : (c.emplaceBack key value a).valueAt a = some value := by
    rw [Cache.valueAt, Cache.emplaceBack]
    dsimp only
    rw [Function.update_self, Option.map_some]
  have hperm := (h.emplaceBack hkey ha value).values_perm
    (List.nodup_cons.mpr ⟨hfree, h.nodes_nodup⟩) fun b ↦ by
      rw [List.mem_cons, h.mem_nodes, Cache.emplaceBack]
      dsimp only
      by_cases hb : b = a
      · rw [hb, Function.update_self]
        exact iff_of_true (Or.inl rfl) rfl
      · rw [Function.update_of_ne hb, or_iff_right hb]
  have hrest : (c.notUse ++ c.inUse).filterMap (c.emplaceBack key value a).valueAt = c.values :=
    List.filterMap_congr fun b hb ↦ map_update_of_isSome _ ha _ (h.mem_nodes.mp hb)
  rwa [List.filterMap_cons_some hnew, hrest] at hperm

/-- What eviction takes out of the nodes. -/
theorem Evicted.values_perm {m : ℕ} (hevicted : Evicted m c c') (h : WellFormed c pins)
    (h' : WellFormed c' pins) :
    ((c.notUse.take m).filterMap c.valueAt ++ c'.values).Perm c.values := by
  have hsplit : c.notUse.take m ++ (c.notUse.drop m ++ c.inUse) = c.notUse ++ c.inUse := by
    rw [← List.append_assoc, List.take_append_drop]
  have hnodup := h.nodes_nodup
  rw [← hsplit] at hnodup
  obtain ⟨-, hleft, hdisjoint⟩ := List.nodup_append.mp hnodup
  have hkept : ∀ b ∈ c.notUse.drop m ++ c.inUse, b ∉ c.notUse.take m :=
    fun b hb htaken ↦ hdisjoint b htaken b hb rfl
  have hperm := h'.values_perm hleft fun b ↦ by
    rw [hevicted.heap]
    split
    · rename_i htaken
      exact iff_of_false (fun hb ↦ hkept b hb htaken) Bool.false_ne_true
    · rename_i hfree
      rw [← h.mem_nodes, ← hsplit, List.mem_append (s := c.notUse.take m), or_iff_right hfree]
  have hsame : (c.notUse.drop m ++ c.inUse).filterMap c'.valueAt =
      (c.notUse.drop m ++ c.inUse).filterMap c.valueAt :=
    List.filterMap_congr fun b hb ↦ by
      rw [Cache.valueAt, Cache.valueAt, hevicted.heap, if_neg (hkept b hb)]
  have hvalues : c.values = (c.notUse.take m).filterMap c.valueAt ++
      (c.notUse.drop m ++ c.inUse).filterMap c.valueAt := by
    rw [Cache.values, ← hsplit, List.filterMap_append]
  rw [hsame] at hperm
  rw [hvalues]
  exact hperm.append_left _

/-- The loop of the destructor erases all nodes of `not_use`. -/
theorem destructLoop_evicted (h : WellFormed c pins) :
    ∃ c', c.destructLoop c.notUse = .ok c' ∧ WellFormed c' pins ∧
      Evicted c.notUse.length c c' := by
  generalize hnotUse : c.notUse = notUse
  induction notUse generalizing c with
  | nil => exact ⟨c, rfl, h, Evicted.none c⟩
  | cons a rest ih =>
    have hmem : a ∈ c.notUse := by
      rw [hnotUse]
      exact List.mem_cons_self
    obtain ⟨node, hnode⟩ := Option.isSome_iff_exists.mp (h.divided.mem_notUse.mp hmem).1
    obtain ⟨c', hrun, hc', hrest⟩ := ih (h.eraseFirst hnotUse hnode) rfl
    refine ⟨c', ?_, hc', Evicted.cons h hnotUse hnode hrest⟩
    rw [Cache.destructLoop, deref_eq hnode, ok_bind]
    exact hrun

/-- **The destructor** disposes of the values in the nodes, if none is pinned. -/
theorem destruct_spec (h : WellFormed c pins) (hfree : ∀ b, pins b = 0) :
    ∃ c', c.destruct = some (.ok c') ∧ c'.disposed = c.disposed ++ c.values ∧
      ∀ b, c'.heap b = none := by
  have hinUse : c.inUse = [] :=
    List.eq_nil_iff_forall_not_mem.mpr fun b hb ↦ (h.divided.mem_inUse.mp hb).2 (hfree b)
  obtain ⟨c', hrun, -, hevicted⟩ := destructLoop_evicted h
  refine ⟨c', ?_, ?_, fun b ↦ ?_⟩
  · rw [Cache.destruct, if_pos hinUse, hrun]
  · rw [hevicted.disposed, List.take_length, Cache.values, hinUse, List.append_nil]
  · rw [hevicted.heap, List.take_length]
    split
    · rfl
    · rename_i hout
      rw [← List.append_nil c.notUse, ← hinUse, h.mem_nodes, Bool.not_eq_true,
        Option.isSome_eq_false_iff] at hout
      exact Option.isNone_iff_eq_none.mp hout

end Values

/-! ## Steps

An operation that is not a `put` stores no value and disposes of none. A `put` stores one; where it
finds its key, the value it replaces is in no node any more and is not disposed of. -/

/-- What an operation disposes of: the values of the nodes that it erases. No guard refers to these,
neither before the operation nor after it. -/
structure Disposes (u v : System K V n) (victims : List Address) : Prop where
  erased : ∀ a, a ∈ victims ↔ (u.cache.heap a).isSome ∧ v.cache.heap a = none
  disposed : v.cache.disposed = u.cache.disposed ++ victims.filterMap u.cache.valueAt
  unpinned : ∀ a ∈ victims, pinCount u.guards a = 0 ∧ pinCount v.guards a = 0

/-- No value is lost by an operation, unless `put` replaces it. -/
structure Accounts (u : System K V n) (a : Action K V n) (v : System K V n)
    (victims : List Address) : Prop where
  disposes : Disposes u v victims
  balance : (victims.filterMap u.cache.valueAt ++ v.cache.values ++ u.replaced a).Perm
    (u.cache.values ++ a.stored)

section Steps

variable {capacity : ℕ} {u v : System K V n} {t : PinnedMap K V n} {a : Action K V n}

omit [DecidableEq K] in
theorem Disposes.none (hdisposed : v.cache.disposed = u.cache.disposed)
    (hheap : ∀ b, (v.cache.heap b).isSome = (u.cache.heap b).isSome) : Disposes u v [] := by
  refine ⟨fun b ↦ iff_of_false List.not_mem_nil ?_, ?_, fun b hb ↦ absurd hb List.not_mem_nil⟩
  · rintro ⟨hbefore, hafter⟩
    rw [← hheap, hafter] at hbefore
    cases hbefore
  · rw [hdisposed, List.filterMap_nil, List.append_nil]

theorem Accounts.of_sameEntries (hsame : SameEntries u.cache v.cache) (hu : Inv u) (hv : Inv v)
    (hstored : a.stored = []) (hreplaced : u.replaced a = []) : Accounts u a v [] := by
  refine ⟨.none hsame.disposed fun b ↦ ?_, ?_⟩
  · rw [← isSome_keyAt, ← isSome_keyAt, hsame.keyAt]
  · rw [hstored, hreplaced, List.filterMap_nil, List.nil_append, List.append_nil, List.append_nil]
    exact hsame.values_perm hu.wellFormed hv.wellFormed

/-- A `put` that finds its key: the old value is replaced. -/
theorem accounts_put_of_hit (hu : Inv u) (hv : Inv v) {x : Fin n} {key : K} {value : V}
    {fresh b : Address} {g : HandleGuard} (hlookup : u.cache.map.lookup key = some b)
    (hput : u.cache.put key value fresh = .ok (v.cache, g)) :
    Accounts u (.put x key value fresh) v [] := by
  obtain ⟨node, hnode, -, -, hsame⟩ := put_of_hit hu.wellFormed hlookup hput
  obtain ⟨hset, -⟩ := hu.wellFormed.setValue hnode value
  have hreplaced : u.replaced (.put x key value fresh) = [node.value] := by
    rw [System.replaced, hlookup, Option.bind_some, Cache.valueAt, hnode]
    rfl
  refine ⟨.none hsame.disposed fun b ↦ ?_, ?_⟩
  · have hkeys : v.cache.keyAt = u.cache.keyAt := hsame.keyAt.trans (map_update_node _ hnode rfl)
    rw [← isSome_keyAt, ← isSome_keyAt, hkeys]
  · have hvalues := (hsame.values_perm hset hv.wellFormed).cons node.value
    have hbalance := hvalues.trans (hu.wellFormed.values_setValue hnode value)
    rw [hreplaced, List.filterMap_nil, List.nil_append, Action.stored]
    exact (List.perm_append_singleton ..).trans
      (hbalance.trans (List.perm_append_singleton ..).symm)

/-- A `put` of a new key: what does not fit is evicted. -/
theorem accounts_put_of_miss (hu : Inv u) (hv : Inv v) {x : Fin n} {key : K} {value : V}
    {fresh : Address} {g : HandleGuard} (hlookup : u.cache.map.lookup key = none)
    (hfresh : u.cache.heap fresh = none)
    (hput : u.cache.put key value fresh = .ok (v.cache, g)) :
    ∃ victims, Accounts u (.put x key value fresh) v victims := by
  have hout : key ∉ u.cache.map := AList.lookup_eq_none.mp hlookup
  obtain ⟨c₁, c', hmiss⟩ := put_of_miss hu.wellFormed hlookup value hfresh
  obtain ⟨rfl, rfl⟩ := Prod.mk.inj (Except.ok.inj (hmiss.put.symm.trans hput))
  have hsame := hmiss.sameEntries
  obtain ⟨c'', hevict, hwf⟩ := evict_spec hmiss.wellFormed
  obtain rfl := Except.ok.inj (hevict.symm.trans hmiss.evict)
  have hevicted := evict_evicted hmiss.wellFormed hmiss.evict
  rw [hmiss.excess_eq] at hevicted
  have hdisposed := (hmiss.inserted hu.wellFormed hout hfresh).disposed hout
  -- the victims have been in the cache before the call, with the same values
  have hvictims : (c₁.notUse.take u.cache.victims).filterMap c₁.valueAt =
      (u.cache.notUse.take u.cache.victims).filterMap u.cache.valueAt := by
    have heq := hevicted.disposed.symm.trans hdisposed
    rw [hsame.disposed] at heq
    exact List.append_cancel_left heq
  refine ⟨u.cache.notUse.take u.cache.victims, ⟨fun b ↦ ?_, hdisposed, fun b hb ↦ ⟨?_, ?_⟩⟩, ?_⟩
  · rw [hevicted.heap, hmiss.notUse]
    constructor
    · intro hb
      exact ⟨(hu.wellFormed.divided.mem_notUse.mp (List.mem_of_mem_take hb)).1, if_pos hb⟩
    · rintro ⟨hexists, hgone⟩
      by_contra hb
      -- a node that was there and is not taken is still there
      have hkey : (c₁.keyAt b).isSome := by
        rw [hsame.keyAt, Cache.keyAt, Cache.emplaceBack]
        dsimp only
        rw [map_update_of_isSome _ hfresh _ hexists, Option.isSome_map]
        exact hexists
      rw [if_neg hb] at hgone
      rw [isSome_keyAt, hgone] at hkey
      cases hkey
  · exact (hu.wellFormed.divided.mem_notUse.mp (List.mem_of_mem_take hb)).2
  · by_contra hpinned
    have hexists := hv.wellFormed.divided.exists_of_pinned hpinned
    rw [hevicted.heap, hmiss.notUse, if_pos hb] at hexists
    cases hexists
  · have hafter := hevicted.values_perm hmiss.wellFormed hwf
    have hadded := hsame.values_perm (hu.wellFormed.emplaceBack hlookup hfresh value)
      hmiss.wellFormed
    have hbefore := hu.wellFormed.values_emplaceBack hlookup hfresh value
    have hreplaced : u.replaced (.put x key value fresh) = [] := by
      rw [System.replaced, hlookup]
      rfl
    rw [hvictims] at hafter
    rw [hreplaced, List.append_nil, Action.stored]
    exact hafter.trans (hadded.trans (hbefore.trans (List.perm_append_singleton ..).symm))

private theorem replaced_put_eq_nil_iff (hu : Inv u) {x : Fin n} {key : K} {value : V}
    {fresh : Address} :
    u.replaced (.put x key value fresh) = [] ↔ key ∉ u.cache.map := by
  rw [System.replaced, ← AList.lookup_eq_none]
  cases hlookup : u.cache.map.lookup key with
  | none => exact iff_of_true rfl rfl
  | some b =>
    obtain ⟨node, hnode, -⟩ := hu.wellFormed.indexed.lookup_iff.mp hlookup
    rw [Option.bind_some, Cache.valueAt, hnode]
    exact iff_of_false (List.cons_ne_nil _ _) (Option.some_ne_none _)

theorem step_entries (h : Stands capacity u t) (hfew : FewGuards u a) (hstep : u.step a = some v) :
    (a.stored = [] ∧ SameEntries u.cache v.cache) ∨
      ∃ x key value fresh g, a = .put x key value fresh ∧ u.cache.heap fresh = none ∧
        u.cache.put key value fresh = .ok (v.cache, g) := by
  cases a with
  | get x key =>
    simp only [System.step] at hstep
    split at hstep
    · obtain rfl := Option.some.inj hstep
      obtain ⟨c, g, hrun, hfound⟩ := get_found h.refines h.inv.wellFormed key hfew
      rw [hrun]
      exact Or.inl ⟨rfl, hfound.sameEntries⟩
    · cases hstep
  | put x key value fresh =>
    simp only [System.step] at hstep
    split at hstep
    · rename_i henabled
      have hfresh := Option.isNone_iff_eq_none.mp henabled.2.2
      obtain rfl := Option.some.inj hstep
      obtain ⟨c, g, hrun, -⟩ := put_inserted h.inv.wellFormed key value hfresh hfew
      rw [hrun]
      exact Or.inr ⟨x, key, value, fresh, g, rfl, hfresh, hrun⟩
    · cases hstep
  | moveConstruct x y =>
    simp only [System.step] at hstep
    split at hstep
    · obtain rfl := Option.some.inj hstep
      exact Or.inl ⟨rfl, SameEntries.refl _⟩
    · cases hstep
  | moveAssign x y =>
    simp only [System.step] at hstep
    split at hstep
    · rename_i old g hfault hx hy
      split at hstep
      · obtain rfl := Option.some.inj hstep
        exact Or.inl ⟨rfl, SameEntries.refl _⟩
      · obtain rfl := Option.some.inj hstep
        obtain ⟨c, g', hrun, -, hsame, -⟩ := h.release hx
        rw [hrun]
        exact Or.inl ⟨rfl, hsame⟩
    · cases hstep
  | reset x =>
    simp only [System.step] at hstep
    split at hstep
    · rename_i g hfault hx
      obtain rfl := Option.some.inj hstep
      obtain ⟨c, g', hrun, -, hsame, -⟩ := h.release hx
      rw [hrun]
      exact Or.inl ⟨rfl, hsame⟩
    · cases hstep
  | destroy x =>
    simp only [System.step] at hstep
    split at hstep
    · rename_i g hfault hx
      obtain rfl := Option.some.inj hstep
      obtain ⟨c, g', hrun, -, hsame, -⟩ := h.release hx
      rw [hrun]
      exact Or.inl ⟨rfl, hsame⟩
    · cases hstep

theorem accounts_step (h : Stands capacity u t) (hfew : FewGuards u a) (hstep : u.step a = some v) :
    ∃ victims, Accounts u a v victims := by
  have hv := inv_step h.inv hfew hstep
  rcases step_entries h hfew hstep with
    ⟨hstored, hsame⟩ | ⟨x, key, value, fresh, g, rfl, hfresh, hrun⟩
  · refine ⟨[], .of_sameEntries hsame h.inv hv hstored ?_⟩
    cases a with
    | put x key value fresh => cases hstored
    | _ => rfl
  · cases hlookup : u.cache.map.lookup key with
    | none => exact accounts_put_of_miss h.inv hv hlookup hfresh hrun
    | some b => exact ⟨[], accounts_put_of_hit h.inv hv hlookup hrun⟩

end Steps

/-! ## The whole lifetime

Over a run the values that have been stored are accounted for as a multiset. The destructor leaves
no node, so the values that are missing at the end are the replaced ones. -/

section Runs

variable {capacity : ℕ} {actions : List (Action K V n)} {s : System K V n}

/-- **Where the values are.** What has been stored has been disposed of, is in a node, or has been
replaced. -/
theorem stored_perm_of_run
    (h : (machine K V capacity n).runWhen FewGuards (machine K V capacity n).init actions =
      some s) :
    (s.cache.disposed ++ s.cache.values ++
      (machine K V capacity n).outputs System.replaced (machine K V capacity n).init actions).Perm
      (actions.flatMap Action.stored) := by
  refine Machine.runWhen_invariant (J := fun as u ↦ (u.cache.disposed ++ u.cache.values ++
    (machine K V capacity n).outputs System.replaced (machine K V capacity n).init as).Perm
      (as.flatMap Action.stored)) h (List.Perm.refl _) ?_
  intro as u a v hrun hbefore hfew hstep
  obtain ⟨t, -, hstands⟩ := stands_of_run hrun
  obtain ⟨victims, hdisposes, hbalance⟩ := accounts_step hstands hfew hstep
  rw [Machine.outputs_concat _ (Machine.run_of_runWhen hrun), hdisposes.disposed,
    List.flatMap_append, List.flatMap_singleton]
  classical
  rw [List.perm_iff_count] at hbefore hbalance ⊢
  intro value
  have hold := hbefore value
  have hnew := hbalance value
  simp only [List.count_append] at hold hnew ⊢
  omega

/-- The states on the way, and what the next operation does there. -/
theorem stands_of_cut
    (h : (machine K V capacity n).runWhen FewGuards (machine K V capacity n).init actions = some s)
    {before after : List (Action K V n)} {a : Action K V n} {u : System K V n}
    (hactions : actions = before ++ a :: after)
    (hu : (machine K V capacity n).run (machine K V capacity n).init before = some u) :
    (∃ t, Stands capacity u t) ∧ FewGuards u a := by
  rw [hactions] at h
  obtain ⟨u', v, hu', hfew, -⟩ := Machine.runWhen_cut h
  obtain rfl := Option.some.inj (hu.symm.trans (Machine.run_of_runWhen hu'))
  obtain ⟨t, -, hstands⟩ := stands_of_run hu'
  exact ⟨⟨t, hstands⟩, hfew⟩

private theorem replaced_eq_nil_iff
    (h : (machine K V capacity n).runWhen FewGuards (machine K V capacity n).init actions =
      some s) :
    (machine K V capacity n).outputs System.replaced (machine K V capacity n).init actions = [] ↔
      ∀ before x key value fresh after u, actions = before ++ .put x key value fresh :: after →
        (machine K V capacity n).run (machine K V capacity n).init before = some u →
        key ∉ u.cache.map := by
  rw [Machine.outputs_eq_nil_iff _ (Machine.run_of_runWhen h)]
  constructor
  · intro hnone before x key value fresh after u hactions hu
    obtain ⟨⟨t, hstands⟩, -⟩ := stands_of_cut h hactions hu
    exact (replaced_put_eq_nil_iff hstands.inv).mp (hnone before _ after u hactions hu)
  · intro hnew before a after u hactions hu
    obtain ⟨⟨t, hstands⟩, -⟩ := stands_of_cut h hactions hu
    cases a with
    | put x key value fresh =>
      exact (replaced_put_eq_nil_iff hstands.inv).mpr
        (hnew before x key value fresh after u hactions hu)
    | _ => rfl

/-- The operations run without a fault, and every value that has been stored is given to
`value_deleter` once, at the latest in the destructor, and never while a guard refers to its
node. -/
structure DisposesOnce (capacity : ℕ) (actions : List (Action K V n)) (s : System K V n) :
    Prop where
  no_fault : s.fault = none
  lifetime : ∃ c, s.cache.destruct = some (.ok c) ∧
    c.disposed.Perm (actions.flatMap Action.stored)
  unguarded : ∀ before a after u v, actions = before ++ a :: after →
    (machine K V capacity n).run (machine K V capacity n).init before = some u →
    u.step a = some v → ∃ victims, Disposes u v victims

theorem destruct_of_released {t : PinnedMap K V n} (h : Stands capacity s t)
    (hreleased : ∀ x g, s.guards x = some g → g.valid = false) :
    ∃ c, s.cache.destruct = some (.ok c) ∧ c.disposed = s.cache.disposed ++ s.cache.values := by
  have hfree : ∀ b, pinCount s.guards b = 0 := by
    intro b
    by_contra hpinned
    obtain ⟨x, hx⟩ := pinCount_ne_zero_iff.mp hpinned
    cases hg : s.guards x with
    | none =>
      rw [hg] at hx
      cases hx
    | some g =>
      rw [hg, refers, hreleased x g hg] at hx
      cases hx
  obtain ⟨c, hdestruct, hdisposed, -⟩ := destruct_spec h.inv.wellFormed hfree
  exact ⟨c, hdestruct, hdisposed⟩

/-- **Disposal.** Take any sequence of operations that leaves no guard valid, unless it has ended in
a fault. The operations and the destructor run, and every value is disposed of once, if and only if
no node has been given more guards than its count can count and no `put` has found its key. -/
theorem disposes_once_iff
    (h : (machine K V capacity n).run (machine K V capacity n).init actions = some s)
    (hreleased : s.fault = none → ∀ x g, s.guards x = some g → g.valid = false) :
    DisposesOnce capacity actions s ↔
      (machine K V capacity n).runWhen FewGuards (machine K V capacity n).init actions = some s ∧
      ∀ before x key value fresh after u, actions = before ++ .put x key value fresh :: after →
        (machine K V capacity n).run (machine K V capacity n).init before = some u →
        key ∉ u.cache.map := by
  rw [← fault_eq_none_iff h]
  constructor
  · intro honce
    have hrun := (fault_eq_none_iff h).mp honce.no_fault
    refine ⟨honce.no_fault, (replaced_eq_nil_iff hrun).mp ?_⟩
    obtain ⟨t, -, hstands⟩ := stands_of_run hrun
    obtain ⟨c, hdestruct, hdisposed⟩ := destruct_of_released hstands (hreleased honce.no_fault)
    have hstored := stored_perm_of_run hrun
    rw [← hdisposed] at hstored
    obtain ⟨c', hdestruct', hperm⟩ := honce.lifetime
    obtain rfl := Except.ok.inj (Option.some.inj (hdestruct'.symm.trans hdestruct))
    -- a value that is replaced is one too many
    have hlength := hstored.length_eq.trans hperm.length_eq.symm
    rw [List.length_append] at hlength
    exact List.length_eq_zero_iff.mp (Nat.add_eq_left.mp hlength)
  · rintro ⟨hfault, hnew⟩
    have hrun := (fault_eq_none_iff h).mp hfault
    obtain ⟨t, -, hstands⟩ := stands_of_run hrun
    obtain ⟨c, hdestruct, hdisposed⟩ := destruct_of_released hstands (hreleased hfault)
    have hstored := stored_perm_of_run hrun
    rw [← hdisposed, (replaced_eq_nil_iff hrun).mpr hnew, List.append_nil] at hstored
    refine ⟨hfault, ⟨c, hdestruct, hstored⟩, fun before a after u v hactions hu hv ↦ ?_⟩
    obtain ⟨⟨t, hstands⟩, hfew⟩ := stands_of_cut hrun hactions hu
    obtain ⟨victims, haccounts⟩ := accounts_step hstands hfew hv
    exact ⟨victims, haccounts.disposes⟩

end Runs

/-- One value is evicted, the others are disposed of in the destructor. -/
theorem disposes_once_iff_evicted :
    ∃ (actions : List (Action ℕ String 2)) (s : System ℕ String 2),
      actions.flatMap Action.stored = ["one", "two", "three"] ∧ s.cache.disposed = ["one"] ∧
        DisposesOnce 1 actions s := by
  have hrun : ((machine ℕ String 1 2).runWhen FewGuards (machine ℕ String 1 2).init
      [.put 0 1 "one" 100, .destroy 0, .put 0 2 "two" 200, .put 1 3 "three" 100, .reset 1,
        .destroy 0]).map (fun s ↦ (s.cache.disposed, s.guards 0, s.guards 1)) =
      some (["one"], none, some .null) := by decide +kernel
  obtain ⟨s, hs, hfinal⟩ := Option.map_eq_some_iff.mp hrun
  simp only [Prod.mk.injEq] at hfinal
  obtain ⟨hdisposed, hfirst, hsecond⟩ := hfinal
  refine ⟨_, s, rfl, hdisposed,
    (disposes_once_iff (Machine.run_of_runWhen hs) fun _ ↦ ?_).mpr ⟨hs, ?_⟩⟩
  · refine Fin.forall_fin_two.mpr ⟨fun g hg ↦ ?_, fun g hg ↦ ?_⟩
    · exact absurd (hfirst.symm.trans hg) (by simp)
    · obtain rfl := Option.some.inj (hsecond.symm.trans hg)
      rfl
  · exact (replaced_eq_nil_iff hs).mp (by decide +kernel)

/-- A key is put twice: the destructor disposes of the second value, and nothing of the first. -/
theorem not_disposes_once :
    ∃ s : System ℕ String 1, (machine ℕ String 2 1).run (machine ℕ String 2 1).init
        [.put 0 1 "old" 100, .destroy 0, .put 0 1 "new" 200, .destroy 0] = some s ∧
      (∀ x g, s.guards x = some g → g.valid = false) ∧
      (s.cache.destruct.map fun r ↦ r.toOption.map Cache.disposed) = some (some ["new"]) ∧
      ¬DisposesOnce 2 [.put 0 1 "old" 100, .destroy 0, .put 0 1 "new" 200, .destroy 0] s := by
  have hrun : ((machine ℕ String 2 1).run (machine ℕ String 2 1).init
      [.put 0 1 "old" 100, .destroy 0, .put 0 1 "new" 200, .destroy 0]).map
        (fun s ↦ (s.guards 0, s.cache.destruct.map fun r ↦ r.toOption.map Cache.disposed)) =
      some (none, some (some ["new"])) := by decide +kernel
  obtain ⟨s, hs, hfinal⟩ := Option.map_eq_some_iff.mp hrun
  simp only [Prod.mk.injEq] at hfinal
  obtain ⟨hguard, hdestruct⟩ := hfinal
  refine ⟨s, hs, Fin.forall_fin_one.mpr fun g hg ↦ ?_, hdestruct, fun honce ↦ ?_⟩
  · exact absurd (hguard.symm.trans hg) (by simp)
  · obtain ⟨c, hc, hperm⟩ := honce.lifetime
    rw [hc] at hdestruct
    have hdisposed : c.disposed = ["new"] := Option.some.inj (Option.some.inj hdestruct)
    rw [hdisposed] at hperm
    exact absurd hperm.length_eq (by decide)

end LRUCache

end FoundationComponents
