import Mathlib.Algebra.Order.Ring.Nat
import Mathlib.Data.Int.Notation
import Mathlib.Data.List.AList
import Mathlib.Data.List.Sort
import Mathlib.Logic.Function.Basic
import FoundationComponents.Machine.Basic

/-!
# The memory leak detector

`MemoryLeakDetector` records every block that the global `operator new` hands out while it is
enabled: a map leads from the address of a block to its record, and a block leaves the map when it
is deleted. Besides it keeps statistics, and it numbers the records, so that the blocks that were
allocated after a snapshot and are still there can be listed.

Every method takes the mutex and does not throw, so a run is a sequence of calls. What the
environment decides is part of a call: the address the allocator returned, the calling thread, and
whether the insertion into the map succeeds. Counters are `size_t` or `uint64_t` and wrap around.

A run keeps a log of the calls since the last reset, each with the state it was made in.
-/

namespace FoundationComponents

namespace MemoryLeakDetector

/-- `void*`. -/
abbrev Address := BitVec 64

/-- Arithmetic of `size_t` and `uint64_t`. -/
def wrap (n : ℕ) : ℕ := n % 2 ^ 64

/-- The arguments of `recordAllocation`, with the calling thread. -/
structure Allocation where
  address : Address
  size : ℕ
  file : Option String
  line : ℤ
  arrayAllocation : Bool
  alignment : ℕ
  thread : ℕ
  deriving Repr, DecidableEq

/-- `MemoryAllocationRecord`. -/
structure Record where
  address : Address
  size : ℕ
  file : String
  line : ℤ
  arrayAllocation : Bool
  alignedAllocation : Bool
  alignment : ℕ
  sequence : ℕ
  threadId : ℕ
  deriving Repr, DecidableEq

/-- `MemoryLeakStats`. -/
structure Stats where
  liveAllocations : ℕ
  liveBytes : ℕ
  totalAllocations : ℕ
  totalBytes : ℕ
  totalFrees : ℕ
  peakLiveBytes : ℕ
  mismatchedDeletes : ℕ
  deriving Repr, DecidableEq

namespace Stats

/-- `MemoryLeakStats{}`. -/
def zero : Stats := ⟨0, 0, 0, 0, 0, 0, 0⟩

/-- A block leaves the map: its bytes are subtracted, unless that would be too much. -/
def subtract (stats : Stats) (size : ℕ) : Stats :=
  if stats.liveBytes ≥ size then { stats with liveBytes := stats.liveBytes - size }
  else { stats with liveBytes := 0 }

/-- The end of `recordAllocation`. -/
def add (stats : Stats) (size : ℕ) : Stats :=
  let liveBytes := wrap (stats.liveBytes + size)
  { stats with
    liveBytes := liveBytes
    totalAllocations := wrap (stats.totalAllocations + 1)
    totalBytes := wrap (stats.totalBytes + size)
    peakLiveBytes := max stats.peakLiveBytes liveBytes }

end Stats

/-- `MemoryLeakSnapshot`. -/
structure Snapshot where
  stats : Stats
  nextSequence : ℕ
  deriving Repr, DecidableEq

/-- The map of the live allocations. -/
abbrev Live := AList fun _ : Address ↦ Record

/-- The records of a map, in one of the orders in which it can be walked. -/
def recordsOf (live : Live) : List Record := live.entries.map Sigma.snd

/-- The sizes of the recorded blocks. -/
def bytesOf (live : Live) : ℕ := ((recordsOf live).map Record.size).sum

/-- `MemoryLeakDetector::State`. -/
structure State where
  liveAllocations : Live
  stats : Stats
  nextSequence : ℕ
  enabled : Bool

/-- The record of an allocation. What counts as aligned depends on the alignment that `operator new`
guarantees, a constant of the platform. -/
def Record.of (defaultNewAlignment : ℕ) (allocation : Allocation) (sequence : ℕ) : Record where
  address := allocation.address
  size := allocation.size
  file := allocation.file.getD "unknown"
  line := allocation.line
  arrayAllocation := allocation.arrayAllocation
  alignedAllocation := decide (allocation.alignment > defaultNewAlignment)
  alignment := allocation.alignment
  sequence := sequence
  threadId := allocation.thread

namespace State

/-- The state at the start of the process. -/
def initial : State := ⟨∅, .zero, 1, false⟩

variable (d : State)

def setEnabled (enabled : Bool) : State := { d with enabled := enabled }

def reset : State := { d with liveAllocations := ∅, stats := .zero, nextSequence := 1 }

/-- `recordAllocation`. If the insertion into the map throws, only the sequence number is used
up. -/
def recordAllocation (defaultNewAlignment : ℕ) (allocation : Allocation) (inserted : Bool) :
    State :=
  if allocation.address = 0#64 ∨ d.enabled = false then d
  else
    let record := Record.of defaultNewAlignment allocation d.nextSequence
    -- the number is taken before the map is touched
    let numbered := { d with nextSequence := wrap (d.nextSequence + 1) }
    match d.liveAllocations.lookup allocation.address with
    | some old =>
        -- `it->second = record`: neither the size of the map nor its counter changes
        { numbered with
          liveAllocations := d.liveAllocations.insert allocation.address record
          stats := (d.stats.subtract old.size).add allocation.size }
    | none =>
        if inserted then
          { numbered with
            liveAllocations := d.liveAllocations.insert allocation.address record
            stats :=
              { d.stats with liveAllocations := wrap (d.stats.liveAllocations + 1) }.add
                allocation.size }
        else numbered

/-- `recordDeallocation`, with the alignment it returns. -/
def recordDeallocation (address : Address) (arrayDelete : Bool) (fallbackAlignment : ℕ) :
    State × ℕ :=
  if address = 0#64 then (d, fallbackAlignment)
  else
    match d.liveAllocations.lookup address with
    | none => (d, fallbackAlignment)
    | some record =>
        let mismatched := if record.arrayAllocation != arrayDelete then 1 else 0
        let stats := d.stats.subtract record.size
        let live := d.liveAllocations.erase address
        ({ d with
            liveAllocations := live
            stats :=
              { stats with
                mismatchedDeletes := wrap (stats.mismatchedDeletes + mismatched)
                liveAllocations := live.keys.length
                totalFrees := wrap (stats.totalFrees + 1) } },
          if record.alignment ≠ 0 then record.alignment else fallbackAlignment)

def snapshot : Snapshot := ⟨d.stats, d.nextSequence⟩

end State

/-- `leaksSince`, for the order in which the map is walked. -/
def leaksSince (records : List Record) (snapshot : Snapshot) : List Record :=
  (records.filter fun record ↦ record.sequence ≥ snapshot.nextSequence).insertionSort
    fun record record' ↦ record.sequence ≤ record'.sequence

/-- `hasLeaksSince`, for the order in which the map is walked. -/
def hasLeaksSince (records : List Record) (snapshot : Snapshot) : Bool :=
  records.any fun record ↦ record.sequence ≥ snapshot.nextSequence

/-! ## Runs -/

inductive Call
  | setEnabled (enabled : Bool)
  | recordAllocation (allocation : Allocation) (inserted : Bool)
  | recordDeallocation (address : Address) (arrayDelete : Bool) (fallbackAlignment : ℕ)
  | reset
  deriving Repr, DecidableEq

namespace State

variable (d : State)

def call (defaultNewAlignment : ℕ) : Call → State
  | .setEnabled enabled => d.setEnabled enabled
  | .recordAllocation allocation inserted =>
      d.recordAllocation defaultNewAlignment allocation inserted
  | .recordDeallocation address arrayDelete fallbackAlignment =>
      (d.recordDeallocation address arrayDelete fallbackAlignment).1
  | .reset => d.reset

/-- The call is given a sequence number. -/
def numbers : Call → Bool
  | .recordAllocation allocation _ => allocation.address != 0#64 && d.enabled
  | _ => false

/-- The call replaces a record. -/
def replaces : Call → Bool
  | .recordAllocation allocation inserted =>
      d.numbers (.recordAllocation allocation inserted) &&
        (d.liveAllocations.lookup allocation.address).isSome
  | _ => false

/-- The call stores a record. -/
def stores : Call → Bool
  | .recordAllocation allocation inserted =>
      d.numbers (.recordAllocation allocation inserted) &&
        (inserted || (d.liveAllocations.lookup allocation.address).isSome)
  | _ => false

/-- The call frees a recorded block. -/
def frees : Call → Bool
  | .recordDeallocation address _ _ =>
      address != 0#64 && (d.liveAllocations.lookup address).isSome
  | _ => false

/-- The call frees a recorded block with the other form of `delete`. -/
def mismatches : Call → Bool
  | .recordDeallocation address arrayDelete _ =>
      address != 0#64 && (d.liveAllocations.lookup address).any fun record ↦
        record.arrayAllocation != arrayDelete
  | _ => false

end State

/-- The state after some calls, and the calls since the last reset, the latest in front. -/
structure Run where
  now : State
  log : List (State × Call)

namespace Run

variable (r : Run)

def call (defaultNewAlignment : ℕ) (c : Call) : Run where
  now := r.now.call defaultNewAlignment c
  log := if c = .reset then [] else (r.now, c) :: r.log

/-- The states since the last reset. -/
def states : List State := r.now :: r.log.map Prod.fst

/-- How many of the calls since the last reset are of a kind. -/
def count (kind : State → Call → Bool) : ℕ := r.log.countP fun e ↦ kind e.1 e.2

end Run

/-- Any sequence of calls. -/
def machine (defaultNewAlignment : ℕ) : Machine Run Call where
  init := ⟨.initial, []⟩
  step r c := some (r.call defaultNewAlignment c)

end MemoryLeakDetector

end FoundationComponents
