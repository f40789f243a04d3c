import FoundationComponents.LRUCache.Basic
import FoundationComponents.Sorting.Basic

/-!
# A pinned LRU map

What the cache is for, without nodes, lists and counts: a map from keys to values, of which the
entries with a guard on them are pinned. The other entries wait to be evicted, in the order of the
times at which they lost their last guard. Only the insertion of a new key evicts, and it evicts as
many of the longest waiting entries as there are entries beyond the capacity.
-/

namespace FoundationComponents

namespace LRUCache

/-- The entries, what the variables for guards hold (no object, a guard on nothing, or a guard on a
key), and for every key the time at which its entry lost its last guard. -/
structure PinnedMap (K V : Type*) (n : ℕ) where
  values : AList fun _ : K ↦ V
  guards : Fin n → Option (Option K)
  releasedAt : K → ℕ
  clock : ℕ

namespace PinnedMap

variable {K V : Type*} [DecidableEq K] {n : ℕ} (t : PinnedMap K V n)

/-- There is a guard on the key. -/
def pinned (key : K) : Bool := decide (∃ x, t.guards x = some (some key))

/-- The entries without a guard, those released first in front. -/
def unpinned : List K :=
  (t.values.keys.filter fun key ↦ !t.pinned key).insertionSort fun key key' ↦
    t.releasedAt key ≤ t.releasedAt key'

/-- Take entries out of the map. -/
def remove (keys : List K) : PinnedMap K V n :=
  { t with values := keys.foldl (fun values key ↦ values.erase key) t.values }

/-- Evict what is beyond the capacity, as far as it is not pinned. Capacity `0` means no bound. -/
def evict (capacity : ℕ) : PinnedMap K V n :=
  if capacity > 0 then t.remove (t.unpinned.take (t.values.keys.length - capacity)) else t

/-- The guard of a variable is given up, and the variable is left without an object. The entry is
released if this was its last guard. -/
def release (x : Fin n) : PinnedMap K V n :=
  let t' := { t with guards := Function.update t.guards x none }
  match t.guards x with
  | some (some key) =>
      if t'.pinned key then t'
      else
        { t' with
          releasedAt := Function.update t.releasedAt key t.clock
          clock := t.clock + 1 }
  | _ => t'

/-- A variable receives a guard. -/
def hold (x : Fin n) (g : Option K) : PinnedMap K V n :=
  { t with guards := Function.update t.guards x (some g) }

def get (x : Fin n) (key : K) : PinnedMap K V n :=
  t.hold x (if key ∈ t.values then some key else none)

def put (capacity : ℕ) (x : Fin n) (key : K) (value : V) : PinnedMap K V n :=
  let t' := { t with values := t.values.insert key value }.hold x (some key)
  if key ∈ t.values then t' else t'.evict capacity

/-- A guard is moved from one variable to another. -/
def move (x y : Fin n) (g : Option K) : PinnedMap K V n := (t.hold x g).hold y none

def step (capacity : ℕ) : Action K V n → Option (PinnedMap K V n)
  | .get x key => if t.guards x = none then some (t.get x key) else none
  | .put x key value _ => if t.guards x = none then some (t.put capacity x key value) else none
  | .moveConstruct x y =>
      match t.guards x, t.guards y with
      | none, some g => some (t.move x y g)
      | _, _ => none
  | .moveAssign x y =>
      match t.guards x, t.guards y with
      | some _, some g => some (if x = y then t else (t.release x).move x y g)
      | _, _ => none
  | .reset x => if (t.guards x).isSome then some ((t.release x).hold x none) else none
  | .destroy x => if (t.guards x).isSome then some (t.release x) else none

end PinnedMap

/-- An empty map and `n` variables. -/
def pinnedMachine (K V : Type*) [DecidableEq K] (capacity n : ℕ) :
    Machine (PinnedMap K V n) (Action K V n) where
  init := { values := ∅, guards := fun _ ↦ none, releasedAt := fun _ ↦ 0, clock := 1 }
  step t := t.step capacity

/-! ## The waiting entries

The times of release are pairwise different, so the order in which they have to be listed is
determined. -/

namespace PinnedMap

variable {K V : Type*} [DecidableEq K] {n : ℕ} {t : PinnedMap K V n}

theorem unpinned_eq {keys : List K}
    (hsorted : keys.Pairwise fun key key' ↦ t.releasedAt key < t.releasedAt key')
    (hmem : ∀ key, key ∈ keys ↔ key ∈ t.values ∧ t.pinned key = false) : t.unpinned = keys := by
  have hnodup : (keys.map t.releasedAt).Nodup :=
    (List.pairwise_map.mpr hsorted).imp fun hlt ↦ hlt.ne
  refine Sorting.insertionSort_eq ?_ hsorted
  refine (List.perm_ext_iff_of_nodup (t.values.keys_nodup.filter _) hnodup.of_map).mpr fun key ↦ ?_
  rw [hmem, List.mem_filter, AList.mem_keys, Bool.not_eq_true']

theorem lookup_remove (t : PinnedMap K V n) (keys : List K) (key : K) :
    (t.remove keys).values.lookup key = if key ∈ keys then none else t.values.lookup key := by
  induction keys generalizing t with
  | nil => rfl
  | cons head keys ih =>
    have hrest := ih { t with values := t.values.erase head }
    rw [remove] at hrest ⊢
    rw [List.foldl_cons, hrest]
    by_cases hmem : key ∈ keys
    · rw [if_pos hmem, if_pos (List.mem_cons_of_mem _ hmem)]
    · rw [if_neg hmem]
      by_cases hhead : key = head
      · rw [if_pos (by rw [hhead]; exact List.mem_cons_self), hhead]
        exact AList.lookup_erase _ _
      · rw [if_neg (by rw [List.mem_cons, not_or]; exact ⟨hhead, hmem⟩)]
        exact AList.lookup_erase_ne hhead

end PinnedMap

end LRUCache

end FoundationComponents
