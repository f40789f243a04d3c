import FoundationComponents.LRUCache.Disposal

/-!
# The capacity of the cache

`evict` runs at one place only, at the end of the insertion of a new key. There it leaves no more
entries than the capacity, or else only pinned ones. A guard that is released later moves its entry
to `not_use` and evicts nothing, so that a cache which has grown over its capacity while its entries
were pinned keeps its size until the next insertion.

A run is therefore cut at its last insertion. The bound holds there, the size does not change
afterwards, and the bound can fail only after the last guard on some entry has been released in a
cache above its capacity.
-/

namespace FoundationComponents

namespace LRUCache

variable {K V : Type*} [DecidableEq K] {n : ℕ}

/-- The cache is above its capacity only if every entry in it is pinned. -/
def Cache.Fits (c : Cache K V) : Prop := c.size ≤ max c.capacity c.inUse.length

/-- The operation is a `put` of a new key. -/
def System.inserts (s : System K V n) : Action K V n → Bool
  | .put _ key _ _ => decide (key ∉ s.cache.map)
  | _ => false

/-- The step releases the last guard on an entry, which stays in the cache. -/
def Unpins (u v : System K V n) : Prop :=
  ∃ a, pinCount u.guards a ≠ 0 ∧ pinCount v.guards a = 0 ∧ (v.cache.heap a).isSome

section Steps

variable {capacity : ℕ} {u v : System K V n} {t : PinnedMap K V n} {a : Action K V n}

theorem Cache.fits_of_notUse_eq_nil {c : Cache K V} {pins : Address → ℕ} (h : WellFormed c pins)
    (hnone : c.notUse = []) : c.Fits := by
  have hsize := h.size_lists
  rw [hnone, List.length_nil, Nat.zero_add] at hsize
  exact hsize.le.trans (le_max_right _ _)

/-- **Insertion** establishes the bound, whether or not it held before. -/
theorem fits_of_inserts (h : Stands capacity u t) (hcapacity : 0 < capacity)
    (hfew : FewGuards u a) (hstep : u.step a = some v) (hinserts : u.inserts a = true) :
    v.cache.Fits := by
  have hv := inv_step h.inv hfew hstep
  rcases step_entries h hfew hstep with ⟨hstored, -⟩ | ⟨x, key, value, fresh, g, rfl, hfresh, hrun⟩
  · cases a with
    | put x key value fresh => cases hstored
    | _ => cases hinserts
  · obtain ⟨c, g', hrun', hinserted⟩ := put_inserted h.inv.wellFormed key value hfresh hfew
    obtain ⟨rfl, -⟩ := Prod.mk.inj (Except.ok.inj (hrun'.symm.trans hrun))
    have hout : key ∉ u.cache.map := of_decide_eq_true hinserts
    rcases hinserted.fits hout (h.capacity_eq.symm ▸ hcapacity) with hfits | hnone
    · rw [← hinserted.capacity] at hfits
      exact hfits.trans (le_max_left _ _)
    · exact Cache.fits_of_notUse_eq_nil hv.wellFormed hnone

/-- An operation that inserts nothing keeps the nodes. -/
theorem same_nodes_of_not_inserts (h : Stands capacity u t) (hfew : FewGuards u a)
    (hstep : u.step a = some v) (hinserts : u.inserts a = false) : v.cache.size = u.cache.size ∧
      ∀ b, (v.cache.heap b).isSome = (u.cache.heap b).isSome := by
  rcases step_entries h hfew hstep with ⟨-, hsame⟩ | ⟨x, key, value, fresh, g, rfl, hfresh, hrun⟩
  · refine ⟨hsame.size, fun b ↦ ?_⟩
    rw [← isSome_keyAt, ← isSome_keyAt, hsame.keyAt]
  · have hin : key ∈ u.cache.map := not_not.mp (of_decide_eq_false hinserts)
    obtain ⟨b, hlookup⟩ := Option.isSome_iff_exists.mp (AList.lookup_isSome.mpr hin)
    obtain ⟨node, hnode, -, -, hsame⟩ := put_of_hit h.inv.wellFormed hlookup hrun
    have hkeys : v.cache.keyAt = u.cache.keyAt := hsame.keyAt.trans (map_update_node _ hnode rfl)
    refine ⟨hsame.size, fun b ↦ ?_⟩
    rw [← isSome_keyAt, ← isSome_keyAt, hkeys]

/-- **Release.** Without an insertion, the bound is lost only by the release of the last guard on
an entry of a cache above its capacity. -/
theorem fits_or_unpins (h : Stands capacity u t) (hfew : FewGuards u a) (hstep : u.step a = some v)
    (hinserts : u.inserts a = false) (hfits : u.cache.Fits) :
    v.cache.Fits ∨ (Unpins u v ∧ capacity < u.cache.size) := by
  obtain ⟨t', -, hv⟩ := stands_step h hfew hstep
  obtain ⟨hsize, hnodes⟩ := same_nodes_of_not_inserts h hfew hstep hinserts
  by_cases hover : capacity < u.cache.size
  · -- everything has been pinned, so what is not pinned any more has just been released
    have hpinned : u.cache.notUse = [] := by
      have hlists := h.inv.wellFormed.size_lists
      rw [Cache.Fits, h.capacity_eq] at hfits
      exact List.length_eq_zero_iff.mp (by omega)
    cases hnotUse : v.cache.notUse with
    | nil => exact Or.inl (Cache.fits_of_notUse_eq_nil hv.inv.wellFormed hnotUse)
    | cons b rest =>
      refine Or.inr ⟨⟨b, fun hfree ↦ ?_, ?_⟩, hover⟩
      · have hb : b ∈ v.cache.notUse := hnotUse ▸ List.mem_cons_self
        have hexists := (hv.inv.wellFormed.divided.mem_notUse.mp hb).1
        rw [hnodes] at hexists
        have hmem := h.inv.wellFormed.divided.mem_notUse.mpr ⟨hexists, hfree⟩
        rw [hpinned] at hmem
        cases hmem
      · have hb : b ∈ v.cache.notUse := hnotUse ▸ List.mem_cons_self
        exact (hv.inv.wellFormed.divided.mem_notUse.mp hb).symm
  · refine Or.inl ?_
    rw [Cache.Fits, hsize, hv.capacity_eq]
    exact (not_lt.mp hover).trans (le_max_left _ _)

end Steps

/-! ## Runs

A run has a last insertion, or none. Up to it the bound may have been lost and come back any number
of times; after it, only the release of a guard can break it. -/

section Runs

variable {capacity : ℕ} {actions : List (Action K V n)} {s : System K V n}

/-- A run cut at its last insertion: `before` is empty or ends with an insertion, at whose end the
state is `u`, and the operations of `since` insert nothing. -/
structure CutAtInsertion (capacity : ℕ) (before since : List (Action K V n)) (u s : System K V n) :
    Prop where
  run_before : (machine K V capacity n).run (machine K V capacity n).init before = some u
  run_since : (machine K V capacity n).run u since = some s
  inserted : before = [] ∨ ∃ earlier a w, before = earlier ++ [a] ∧
    (machine K V capacity n).run (machine K V capacity n).init earlier = some w ∧
    w.inserts a = true
  quiet : ∀ pre a post w, since = pre ++ a :: post →
    (machine K V capacity n).run u pre = some w → w.inserts a = false

/-- Since the state `u`, the last guard on some entry has been released while the cache was above
its capacity. -/
def UnpinnedAbove (capacity : ℕ) (since : List (Action K V n)) (u : System K V n) : Prop :=
  ∃ pre a post w w', since = pre ++ a :: post ∧ (machine K V capacity n).run u pre = some w ∧
    w.step a = some w' ∧ Unpins w w' ∧ capacity < w.cache.size

/-- **The capacity bound.** Every run in which no node is given more guards than its count can count
can be cut at its last insertion. At the cut the cache is above its capacity only if every entry is
pinned; the size stays what it was there; and the bound still holds at the end, unless since the cut
the last guard on an entry has been released in a cache above its capacity. -/
theorem fits_of_run (hcapacity : 0 < capacity)
    (h : (machine K V capacity n).runWhen FewGuards (machine K V capacity n).init actions =
      some s) :
    ∃ before since u, actions = before ++ since ∧ CutAtInsertion capacity before since u s ∧
      u.cache.Fits ∧ s.cache.size = u.cache.size ∧
      (s.cache.Fits ∨ UnpinnedAbove capacity since u) := by
  refine Machine.runWhen_invariant (J := fun as s ↦ ∃ before since u, as = before ++ since ∧
    CutAtInsertion capacity before since u s ∧ u.cache.Fits ∧ s.cache.size = u.cache.size ∧
      (s.cache.Fits ∨ UnpinnedAbove capacity since u)) h ?_ ?_
  · have hfits : (machine K V capacity n).init.cache.Fits := Nat.zero_le _
    refine ⟨[], [], _, rfl, ⟨rfl, rfl, Or.inl rfl, fun pre a post w hnil ↦ ?_⟩, hfits, rfl,
      Or.inl hfits⟩
    exact absurd hnil (by simp)
  · rintro as v a v' hguarded ⟨before, since, u, rfl, hcut, hfits, hsize, hbound⟩ hfew hstep
    obtain ⟨t, -, hstands⟩ := stands_of_run hguarded
    have hrun := Machine.run_of_runWhen hguarded
    have hrun' : (machine K V capacity n).run (machine K V capacity n).init
        (before ++ since ++ [a]) = some v' := by
      rw [Machine.run_append, hrun, Option.bind_some, Machine.run_singleton]
      exact hstep
    cases hinserts : v.inserts a with
    | true =>
      have hfits' := fits_of_inserts hstands hcapacity hfew hstep hinserts
      refine ⟨before ++ since ++ [a], [], v', (List.append_nil _).symm,
        ⟨hrun', rfl, Or.inr ⟨_, a, v, rfl, hrun, hinserts⟩, fun pre b post w hnil ↦ ?_⟩,
        hfits', rfl, Or.inl hfits'⟩
      exact absurd hnil (by simp)
    | false =>
      have hsince : (machine K V capacity n).run u (since ++ [a]) = some v' := by
        rw [Machine.run_append, hcut.run_since, Option.bind_some, Machine.run_singleton]
        exact hstep
      have hquiet := Machine.forall_position_concat
        (P := fun pre b ↦ ∀ w, (machine K V capacity n).run u pre = some w → w.inserts b = false)
        (fun pre b post heq w ↦ hcut.quiet pre b post w heq) (a := a) (fun w hw ↦ by
          obtain rfl := Option.some.inj (hcut.run_since.symm.trans hw)
          exact hinserts)
      refine ⟨before, since ++ [a], u, List.append_assoc .., ⟨hcut.run_before, hsince,
        hcut.inserted, fun pre b post w heq ↦ hquiet pre b post heq w⟩, hfits,
        (same_nodes_of_not_inserts hstands hfew hstep hinserts).1.trans hsize, ?_⟩
      · rcases hbound with hbound | ⟨pre, b, post, w, w', rfl, hw, hw', hunpins⟩
        · refine (fits_or_unpins hstands hfew hstep hinserts hbound).imp_right fun hunpins ↦ ?_
          exact ⟨since, a, [], v, v', rfl, hcut.run_since, hstep, hunpins⟩
        · refine Or.inr ⟨pre, b, post ++ [a], w, w', ?_, hw, hw', hunpins⟩
          rw [List.append_assoc, List.cons_append]

end Runs

/-- A cache for one entry, in which two are pinned. -/
theorem fits_of_run_pinned : ∃ s : System ℕ String 2, s.cache.size = 2 ∧
    ∃ before since u, [.put 0 1 "one" 100, .put 1 2 "two" 200] = before ++ since ∧
      CutAtInsertion 1 before since u s ∧ u.cache.Fits ∧ s.cache.size = u.cache.size ∧
      (s.cache.Fits ∨ UnpinnedAbove 1 since u) := by
  have hrun : ((machine ℕ String 1 2).runWhen FewGuards (machine ℕ String 1 2).init
      [.put 0 1 "one" 100, .put 1 2 "two" 200]).map (fun s ↦ s.cache.size) = some 2 := by
    decide +kernel
  obtain ⟨s, hs, hsize⟩ := Option.map_eq_some_iff.mp hrun
  exact ⟨s, hsize, fits_of_run Nat.one_pos hs⟩

/-- Both guards are released: two entries stay in a cache for one, and neither is pinned. -/
theorem not_fits_of_released : ∃ s : System ℕ String 2,
    (machine ℕ String 1 2).run (machine ℕ String 1 2).init
      [.put 0 1 "one" 100, .put 1 2 "two" 200, .destroy 0, .destroy 1] = some s ∧
      s.cache.size = 2 ∧ s.cache.inUse = [] ∧ ¬s.cache.Fits := by
  have hrun : ((machine ℕ String 1 2).run (machine ℕ String 1 2).init
      [.put 0 1 "one" 100, .put 1 2 "two" 200, .destroy 0, .destroy 1]).map
        (fun s ↦ (s.cache.size, s.cache.inUse, s.cache.capacity)) = some (2, [], 1) := by
    decide +kernel
  obtain ⟨s, hs, hfinal⟩ := Option.map_eq_some_iff.mp hrun
  simp only [Prod.mk.injEq] at hfinal
  obtain ⟨hsize, hinUse, hcapacity⟩ := hfinal
  refine ⟨s, hs, hsize, hinUse, fun hfits ↦ ?_⟩
  rw [Cache.Fits, hsize, hinUse, hcapacity] at hfits
  exact absurd hfits (by decide)

end LRUCache

end FoundationComponents
