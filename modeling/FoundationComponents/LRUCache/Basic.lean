import Mathlib.Algebra.Order.Ring.Nat
import Mathlib.Data.List.AList
import Mathlib.Data.Nat.Notation
import Mathlib.Logic.Function.Basic
import FoundationComponents.Machine.Basic

/-!
# The reference-counted cache

`LRUCache` keeps its entries in two linked lists: `not_use`, in the order of eviction, and `in_use`,
the entries some `HandleGuard` refers to. A hash map leads from keys to list nodes, and a guard
holds the address of a node. A node moves between the lists when its reference count leaves or
reaches one.

Nodes live in an explicit heap, from addresses to nodes; a list is the list of the addresses of its
nodes, and an iterator is an address. What is undefined in the source, or is excluded by an
assertion, is a *fault* here: the use of a node that has been erased, the splicing of a node out of
a list it is not in, the release of a node that is not referred to, and the overflow of a reference
count, which is an `int`.

The machine runs any sequence of operations on a cache and on `n` variables for guards. A fault is
recorded and ends the run.
-/

namespace FoundationComponents

namespace LRUCache

abbrev Address := ℕ

/-- `INT_MAX`, the largest reference count. -/
def maxRef : ℕ := 2 ^ 31 - 1

/-- `Node`. The reference count is an `int`; it starts at one, and `unref_node` leaves it
positive. -/
structure Node (K V : Type*) where
  key : K
  value : V
  ref : ℕ
  listPos : Address
  deriving Repr, DecidableEq

/-- What must not happen. -/
inductive Fault
  /-- A node is used after it has been erased. -/
  | erased
  /-- A node is spliced out of a list that does not contain it. -/
  | notInList
  /-- `assert(node->ref > 1)` fails. -/
  | unreferenced
  /-- `node->ref++` overflows. -/
  | overflow
  deriving Repr, DecidableEq

/-- A `HandleGuard` of this cache; `cache` says whether the pointer is not null. -/
structure HandleGuard where
  node : Option Address
  cache : Bool
  deriving Repr, DecidableEq

namespace HandleGuard

/-- The guard that refers to nothing. -/
def null : HandleGuard := ⟨none, false⟩

def valid (g : HandleGuard) : Bool := g.cache && g.node.isSome

/-- The node a valid guard refers to. -/
def target (g : HandleGuard) : Option Address := if g.cache then g.node else none

end HandleGuard

/-- The fields of the cache, the heap of its nodes, and the values given to `value_deleter`, oldest
first. -/
structure Cache (K V : Type*) where
  capacity : ℕ
  size : ℕ
  notUse : List Address
  inUse : List Address
  map : AList fun _ : K ↦ Address
  heap : Address → Option (Node K V)
  disposed : List V

namespace Cache

variable {K V : Type*} [DecidableEq K]

/-- The constructor. -/
def create (K V : Type*) [DecidableEq K] (capacity : ℕ) : Cache K V where
  capacity := capacity
  size := 0
  notUse := []
  inUse := []
  map := ∅
  heap _ := none
  disposed := []

variable (c : Cache K V)

def deref (a : Address) : Except Fault (Node K V) :=
  match c.heap a with
  | none => .error .erased
  | some node => .ok node

def setNode (a : Address) (node : Node K V) : Cache K V :=
  { c with heap := Function.update c.heap a (some node) }

/-- `in_use.splice(in_use.end(), not_use, pos)`. -/
def spliceInUse (pos : Address) : Except Fault (Cache K V) :=
  if pos ∈ c.notUse then
    .ok { c with notUse := c.notUse.erase pos, inUse := c.inUse ++ [pos] }
  else .error .notInList

/-- `not_use.splice(not_use.end(), in_use, pos)`. -/
def spliceNotUse (pos : Address) : Except Fault (Cache K V) :=
  if pos ∈ c.inUse then
    .ok { c with notUse := c.notUse ++ [pos], inUse := c.inUse.erase pos }
  else .error .notInList

/-- `ref_node`. -/
def refNode (a : Address) : Except Fault (Cache K V) := do
  let node ← c.deref a
  let c' ← if node.ref = 1 then c.spliceInUse node.listPos else .ok c
  if node.ref < maxRef then return c'.setNode a { node with ref := node.ref + 1 }
  else .error .overflow

/-- `unref_node`. -/
def unrefNode (a : Address) : Except Fault (Cache K V) := do
  let node ← c.deref a
  if node.ref > 1 then
    let c' := c.setNode a { node with ref := node.ref - 1 }
    -- only the reference of the cache itself is left
    if node.ref - 1 = 1 then c'.spliceNotUse node.listPos else .ok c'
  else .error .unreferenced

/-- Erase the first node of `not_use`. -/
def eraseFirst (a : Address) (rest : List Address) (node : Node K V) : Cache K V :=
  { c with
    map := c.map.erase node.key
    disposed := c.disposed ++ [node.value]
    heap := Function.update c.heap a none
    notUse := rest
    size := c.size - 1 }

/-- The loop of `evict`; the list is `not_use`. -/
def evictLoop (c : Cache K V) : List Address → Except Fault (Cache K V)
  | [] => .ok c
  | a :: rest =>
      if c.size > c.capacity then do
        let node ← c.deref a
        evictLoop (c.eraseFirst a rest node) rest
      else .ok c

def evict : Except Fault (Cache K V) := if c.capacity > 0 then c.evictLoop c.notUse else .ok c

/-- `HandleGuard(cache, node)`. -/
def guardOn (a : Address) : Except Fault (Cache K V × HandleGuard) := do
  return (← c.refNode a, ⟨some a, true⟩)

def get (key : K) : Except Fault (Cache K V × HandleGuard) :=
  match c.map.lookup key with
  | some a => c.guardOn a
  | none => .ok (c, .null)

/-- `not_use.emplace_back`, at the address the allocator chose, `cache.emplace` and `size++`. -/
def emplaceBack (key : K) (value : V) (a : Address) : Cache K V :=
  { c with
    heap := Function.update c.heap a (some ⟨key, value, 1, a⟩)
    notUse := c.notUse ++ [a]
    -- `emplace` does not replace an entry
    map := if key ∈ c.map then c.map else c.map.insert key a
    size := c.size + 1 }

def put (key : K) (value : V) (fresh : Address) : Except Fault (Cache K V × HandleGuard) :=
  match c.map.lookup key with
  | some a => do
      let node ← c.deref a
      (c.setNode a { node with value := value }).guardOn a
  | none => do
      -- the new node is pinned before `evict` runs, so it is not evicted itself
      let (c', handle) ← (c.emplaceBack key value fresh).guardOn fresh
      return (← c'.evict, handle)

/-- `HandleGuard::reset`. -/
def reset (g : HandleGuard) : Except Fault (Cache K V × HandleGuard) :=
  match g.target with
  | some a => do return (← c.unrefNode a, .null)
  | none => .ok (c, g)

end Cache

/-! ## The machine

Guards live in variables, which are constructed, moved from and destroyed by the program. A run ends
with the first fault, since nothing is promised after it. -/

/-- A cache, variables for guards, and the fault that has ended the run, if any. A variable holds no
object before its construction and after its destruction. -/
structure System (K V : Type*) (n : ℕ) where
  cache : Cache K V
  guards : Fin n → Option HandleGuard
  fault : Option Fault

/-- `put` allocates its node at any address that is free. -/
inductive Action (K V : Type*) (n : ℕ)
  | get (x : Fin n) (key : K)
  | put (x : Fin n) (key : K) (value : V) (fresh : Address)
  | moveConstruct (x y : Fin n)
  | moveAssign (x y : Fin n)
  | reset (x : Fin n)
  | destroy (x : Fin n)
  deriving Repr, DecidableEq

namespace System

variable {K V : Type*} [DecidableEq K] {n : ℕ} (s : System K V n)

/-- The operation has ended with a new cache and new guards, or with a fault. -/
def finish : Except Fault (Cache K V × (Fin n → Option HandleGuard)) → System K V n
  | .ok (cache, guards) => { s with cache := cache, guards := guards }
  | .error fault => { s with fault := some fault }

/-- Store the result of an operation in a variable. -/
def store (x : Fin n) (r : Except Fault (Cache K V × HandleGuard)) : System K V n :=
  s.finish (r.map fun (cache, g) ↦ (cache, Function.update s.guards x (some g)))

/-- The result of an operation on the guard of a variable that is destroyed afterwards. -/
def discard (x : Fin n) (r : Except Fault (Cache K V × HandleGuard)) : System K V n :=
  s.finish (r.map fun (cache, _) ↦ (cache, Function.update s.guards x none))

/-- The move assignment: the old target is released before the fields are moved. -/
def assign (x y : Fin n) (g : HandleGuard) (r : Except Fault (Cache K V × HandleGuard)) :
    System K V n :=
  s.finish (r.map fun (cache, _) ↦
    (cache, Function.update (Function.update s.guards x (some g)) y (some .null)))

def step : Action K V n → Option (System K V n)
  | .get x key =>
      if s.fault = none ∧ s.guards x = none then some (s.store x (s.cache.get key)) else none
  | .put x key value fresh =>
      if s.fault = none ∧ s.guards x = none ∧ (s.cache.heap fresh).isNone then
        some (s.store x (s.cache.put key value fresh))
      else none
  | .moveConstruct x y =>
      match s.fault, s.guards x, s.guards y with
      | none, none, some g =>
          some
            { s with
              guards := Function.update (Function.update s.guards x (some g)) y (some .null) }
      | _, _, _ => none
  | .moveAssign x y =>
      match s.fault, s.guards x, s.guards y with
      | none, some old, some g =>
          if x = y then some s else some (s.assign x y g (s.cache.reset old))
      | _, _, _ => none
  | .reset x =>
      match s.fault, s.guards x with
      | none, some g => some (s.store x (s.cache.reset g))
      | _, _ => none
  | .destroy x =>
      match s.fault, s.guards x with
      | none, some g => some (s.discard x (s.cache.reset g))
      | _, _ => none

end System

/-- A new cache and `n` variables. -/
def machine (K V : Type*) [DecidableEq K] (capacity n : ℕ) :
    Machine (System K V n) (Action K V n) where
  init := ⟨.create K V capacity, fun _ ↦ none, none⟩
  step := System.step

end LRUCache

end FoundationComponents
