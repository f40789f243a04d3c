import Mathlib.Algebra.BigOperators.Group.List.Basic
import Mathlib.Algebra.Order.Monoid.Unbundled.MinMax
import Mathlib.Data.Finset.Card
import Mathlib.Data.Finset.Range
import FoundationComponents.MemoryLeakDetector.Basic

/-!
# The accounting of the memory leak detector

The statistics are compared with the map and with the log of the calls since the last reset. The map
gives the number and the bytes of the live blocks, as long as the sizes of the recorded blocks fit
into 64 bits, and the log gives the other counters. A block enters the map by an insertion or leaves
it by a free, or it takes the place of another, so the number of records that were stored is the sum
of the three.

Counters that only grow wrap around: they agree with the log modulo `2 ^ 64`, and a run of `2 ^ 64`
mismatched frees brings `mismatched_deletes` back to zero.
-/

namespace FoundationComponents

namespace MemoryLeakDetector

/-! ## The map

The number of entries and the sum of the sizes are those of the records, in whatever order the map
is walked. -/

section Live

variable {live : Live} {address : Address} {record : Record}

theorem recordsOf_insert (live : Live) (address : Address) (record : Record) :
    recordsOf (live.insert address record) = record :: recordsOf (live.erase address) := by
  rw [recordsOf, AList.entries_insert, List.map_cons]
  rfl

theorem recordsOf_erase (h : live.lookup address = some record) :
    (recordsOf live).Perm (record :: recordsOf (live.erase address)) := by
  have hmem : address ∈ live.entries.keys :=
    AList.mem_keys.mp (AList.lookup_isSome.mp (by rw [h]; rfl))
  obtain ⟨record', front, back, -, hentries, herase⟩ := List.exists_of_kerase hmem
  have hself : live.lookup address = some record' := by
    rw [← Option.mem_def, AList.mem_lookup_iff, hentries]
    exact List.mem_append_right _ List.mem_cons_self
  obtain rfl := Option.some.inj (h.symm.trans hself)
  have hrest : (live.erase address).entries = front ++ back := herase
  rw [recordsOf, recordsOf, hentries, hrest, List.map_append, List.map_cons, List.map_append]
  exact List.perm_middle

theorem erase_eq_self (h : live.lookup address = none) : live.erase address = live :=
  AList.ext (List.kerase_of_notMem_keys (AList.lookup_eq_none.mp h))

private theorem bytesOf_insert (live : Live) (address : Address) (record : Record) :
    bytesOf (live.insert address record) = record.size + bytesOf (live.erase address) := by
  rw [bytesOf, recordsOf_insert, List.map_cons, List.sum_cons]
  rfl

private theorem bytesOf_erase (h : live.lookup address = some record) :
    bytesOf live = record.size + bytesOf (live.erase address) := by
  rw [bytesOf, ((recordsOf_erase h).map Record.size).sum_eq, List.map_cons, List.sum_cons]
  rfl

private theorem length_keys_insert (h : live.lookup address = none) (record : Record) :
    (live.insert address record).keys.length = live.keys.length + 1 := by
  rw [AList.keys_insert, List.length_cons,
    List.erase_of_not_mem (AList.mem_keys.not.mp (AList.lookup_eq_none.mp h))]

private theorem length_keys_erase (h : live.lookup address = some record) :
    (live.erase address).keys.length + 1 = live.keys.length := by
  have hmem : address ∈ live.keys := AList.mem_keys.mp (AList.lookup_isSome.mp (by rw [h]; rfl))
  rw [AList.keys_erase, List.length_erase_of_mem hmem]
  have hpos := List.length_pos_of_mem hmem
  omega

private theorem length_keys_replace {old : Record} (h : live.lookup address = some old)
    (record : Record) :
    (live.insert address record).keys.length = live.keys.length := by
  rw [AList.keys_insert, List.length_cons, ← AList.keys_erase, length_keys_erase h]

/-- The map has less than `2 ^ 64` entries, as the null pointer is none of its keys. -/
theorem length_keys_lt (h : 0#64 ∉ live) : live.keys.length < 2 ^ 64 := by
  have hnodup : (live.keys.map BitVec.toNat).Nodup :=
    live.keys_nodup.map fun _ _ heq ↦ BitVec.eq_of_toNat_eq heq
  have hsub : (live.keys.map BitVec.toNat).toFinset ⊆ (Finset.range (2 ^ 64)).erase 0 := by
    intro n hn
    obtain ⟨a, ha, rfl⟩ := List.mem_map.mp (List.mem_toFinset.mp hn)
    rw [Finset.mem_erase, Finset.mem_range]
    refine ⟨fun hzero ↦ h ?_, a.isLt⟩
    rw [AList.mem_keys, ← show a = 0#64 from BitVec.eq_of_toNat_eq hzero]
    exact ha
  have hcard := Finset.card_le_card hsub
  rw [List.toFinset_card_of_nodup hnodup, List.length_map, Finset.card_erase_of_mem (by simp),
    Finset.card_range] at hcard
  omega

end Live

/-! ## What a call does

A call stores a record, takes one away or does nothing. The sizes that are subtracted saturate in
the source, and everything else wraps. -/

/-- What a call that is no reset does to the map and to the statistics. The four flags say whether
it stores a record, replaces one, frees a block, and frees it with the other form. -/
inductive Effect (d : State) (flags : Bool × Bool × Bool × Bool) (d' : State) : Prop
  | nothing (flags_eq : flags = (false, false, false, false))
      (live_eq : d'.liveAllocations = d.liveAllocations) (stats_eq : d'.stats = d.stats)
  | inserted (flags_eq : flags = (true, false, false, false)) {address : Address} {record : Record}
      (address_ne : address ≠ 0#64) (lookup_eq : d.liveAllocations.lookup address = none)
      (live_eq : d'.liveAllocations = d.liveAllocations.insert address record)
      (stats_eq : d'.stats =
        { d.stats with liveAllocations := wrap (d.stats.liveAllocations + 1) }.add record.size)
  | replaced (flags_eq : flags = (true, true, false, false)) {address : Address}
      {old record : Record} (address_ne : address ≠ 0#64)
      (lookup_eq : d.liveAllocations.lookup address = some old)
      (live_eq : d'.liveAllocations = d.liveAllocations.insert address record)
      (stats_eq : d'.stats = (d.stats.subtract old.size).add record.size)
  | freed {mismatched : Bool} (flags_eq : flags = (false, false, true, mismatched))
      {address : Address} {record : Record}
      (lookup_eq : d.liveAllocations.lookup address = some record)
      (live_eq : d'.liveAllocations = d.liveAllocations.erase address)
      (stats_eq : d'.stats =
        { d.stats.subtract record.size with
          mismatchedDeletes := wrap (d.stats.mismatchedDeletes + mismatched.toNat)
          liveAllocations := (d.liveAllocations.erase address).keys.length
          totalFrees := wrap (d.stats.totalFrees + 1) })

/-- The kinds of a call. -/
def State.flags (d : State) (c : Call) : Bool × Bool × Bool × Bool :=
  (d.stores c, d.replaces c, d.frees c, d.mismatches c)

section Effect

variable (defaultNewAlignment : ℕ) {d : State}

theorem effect_recordAllocation (allocation : Allocation) (inserted : Bool) :
    Effect d (d.flags (.recordAllocation allocation inserted))
      (d.recordAllocation defaultNewAlignment allocation inserted) := by
  simp only [State.flags, State.stores, State.replaces, State.numbers, State.frees,
    State.mismatches, State.recordAllocation]
  split
  · rename_i hignored
    refine .nothing ?_ rfl rfl
    rcases hignored with hnull | hdisabled
    · rw [hnull]
      rfl
    · rw [hdisabled, Bool.and_false]
      rfl
  · rename_i hnumbered
    rw [not_or, Bool.not_eq_false] at hnumbered
    obtain ⟨hne, henabled⟩ := hnumbered
    have hnumbers : (allocation.address != 0#64 && d.enabled) = true := by
      rw [henabled, Bool.and_true, bne_iff_ne]
      exact hne
    rw [hnumbers, Bool.true_and, Bool.true_and]
    cases hlookup : d.liveAllocations.lookup allocation.address with
    | some old => exact .replaced (by cases inserted <;> rfl) hne hlookup rfl rfl
    | none =>
      cases inserted with
      | true => exact .inserted rfl hne hlookup rfl rfl
      | false => exact .nothing rfl rfl rfl

private theorem subtract_mismatchedDeletes (stats : Stats) (size : ℕ) :
    (stats.subtract size).mismatchedDeletes = stats.mismatchedDeletes := by
  rw [Stats.subtract]
  split <;> rfl

private theorem subtract_totalFrees (stats : Stats) (size : ℕ) :
    (stats.subtract size).totalFrees = stats.totalFrees := by
  rw [Stats.subtract]
  split <;> rfl

theorem effect_recordDeallocation (address : Address) (arrayDelete : Bool) (fallbackAlignment : ℕ) :
    Effect d (d.flags (.recordDeallocation address arrayDelete fallbackAlignment))
      (d.recordDeallocation address arrayDelete fallbackAlignment).1 := by
  simp only [State.flags, State.stores, State.replaces, State.frees, State.mismatches,
    State.recordDeallocation]
  split
  · rename_i hnull
    refine .nothing ?_ rfl rfl
    rw [hnull]
    rfl
  · rename_i hne
    rw [bne_iff_ne.mpr hne, Bool.true_and, Bool.true_and]
    cases hlookup : d.liveAllocations.lookup address with
    | none => exact .nothing rfl rfl rfl
    | some record =>
      refine .freed rfl hlookup rfl ?_
      dsimp only
      rw [subtract_mismatchedDeletes, subtract_totalFrees, Option.any_some]
      cases record.arrayAllocation != arrayDelete <;> rfl

theorem effect_call {c : Call} (hc : c ≠ .reset) :
    Effect d (d.flags c) (d.call defaultNewAlignment c) := by
  cases c with
  | setEnabled enabled => exact .nothing rfl rfl rfl
  | recordAllocation allocation inserted => exact effect_recordAllocation _ allocation inserted
  | recordDeallocation address arrayDelete fallbackAlignment =>
    exact effect_recordDeallocation address arrayDelete fallbackAlignment
  | reset => exact absurd rfl hc

end Effect

/-! ## The invariant

The log counts what the calls have done since the last reset, and the map knows the sizes. As long
as the sizes fit, no subtraction saturates and no sum of them wraps. -/

/-- The statistics agree with the map and with the log. -/
structure Accounts (r : Run) : Prop where
  no_null : 0#64 ∉ r.now.liveAllocations
  fits : bytesOf r.now.liveAllocations < 2 ^ 64
  liveAllocations_eq : r.now.stats.liveAllocations = r.now.liveAllocations.keys.length
  liveBytes_eq : r.now.stats.liveBytes = bytesOf r.now.liveAllocations
  le_peak : ∀ d ∈ r.states, d.stats.liveBytes ≤ r.now.stats.peakLiveBytes
  exists_peak : ∃ d ∈ r.states, d.stats.liveBytes = r.now.stats.peakLiveBytes
  totalAllocations_eq : r.now.stats.totalAllocations = wrap (r.count State.stores)
  totalFrees_eq : r.now.stats.totalFrees = wrap (r.count State.frees)
  mismatchedDeletes_eq : r.now.stats.mismatchedDeletes = wrap (r.count State.mismatches)
  /-- Where the stored records are now. -/
  stored : r.count State.stores =
    r.count State.frees + r.now.liveAllocations.keys.length + r.count State.replaces

section Runs

variable (defaultNewAlignment : ℕ) {r : Run} {c : Call}

theorem wrap_succ (n : ℕ) : wrap (wrap n + 1) = wrap (n + 1) := Nat.mod_add_mod ..

theorem wrap_eq_of_lt {n : ℕ} (h : n < 2 ^ 64) : wrap n = n := Nat.mod_eq_of_lt h

theorem count_call (kind : State → Call → Bool) (hc : c ≠ .reset) :
    (r.call defaultNewAlignment c).count kind = r.count kind + (kind r.now c).toNat := by
  rw [Run.count, Run.count, Run.call, if_neg hc, List.countP_cons]
  cases kind r.now c <;> rfl

theorem counts_call (hc : c ≠ .reset) {stores replaces frees mismatches : Bool}
    (hflags : r.now.flags c = (stores, replaces, frees, mismatches)) :
    (r.call defaultNewAlignment c).count State.stores =
        r.count State.stores + stores.toNat ∧
      (r.call defaultNewAlignment c).count State.replaces =
        r.count State.replaces + replaces.toNat ∧
      (r.call defaultNewAlignment c).count State.frees = r.count State.frees + frees.toNat ∧
      (r.call defaultNewAlignment c).count State.mismatches =
        r.count State.mismatches + mismatches.toNat := by
  simp only [State.flags, Prod.mk.injEq] at hflags
  obtain ⟨rfl, rfl, rfl, rfl⟩ := hflags
  exact ⟨count_call _ _ hc, count_call _ _ hc, count_call _ _ hc, count_call _ _ hc⟩

/-- The peak is kept by a call that compares it with the new number of bytes, or leaves the bytes
below it. -/
theorem peak_call (h : Accounts r) (hc : c ≠ .reset)
    (hpeak : (r.call defaultNewAlignment c).now.stats.peakLiveBytes =
      max r.now.stats.peakLiveBytes (r.call defaultNewAlignment c).now.stats.liveBytes) :
    (∀ d ∈ (r.call defaultNewAlignment c).states,
      d.stats.liveBytes ≤ (r.call defaultNewAlignment c).now.stats.peakLiveBytes) ∧
    ∃ d ∈ (r.call defaultNewAlignment c).states,
      d.stats.liveBytes = (r.call defaultNewAlignment c).now.stats.peakLiveBytes := by
  have hstates : (r.call defaultNewAlignment c).states =
      (r.call defaultNewAlignment c).now :: r.states := by
    rw [Run.states, Run.call, if_neg hc]
    rfl
  rw [hstates, hpeak]
  constructor
  · intro d hd
    rcases List.mem_cons.mp hd with rfl | hbefore
    · exact le_max_right _ _
    · exact (h.le_peak d hbefore).trans (le_max_left _ _)
  · rcases max_choice r.now.stats.peakLiveBytes
      (r.call defaultNewAlignment c).now.stats.liveBytes with hleft | hright
    · obtain ⟨d, hd, heq⟩ := h.exists_peak
      exact ⟨d, List.mem_cons_of_mem _ hd, heq.trans hleft.symm⟩
    · exact ⟨_, List.mem_cons_self, hright.symm⟩

/-- The bytes of a recorded block are contained in the sum, so the subtraction does not saturate. -/
theorem Accounts.size_le (h : Accounts r) {address : Address} {record : Record}
    (hlookup : r.now.liveAllocations.lookup address = some record) :
    record.size ≤ r.now.stats.liveBytes := by
  rw [h.liveBytes_eq, bytesOf_erase hlookup]
  exact Nat.le_add_right _ _

theorem Accounts.subtract (h : Accounts r) {address : Address} {record : Record}
    (hlookup : r.now.liveAllocations.lookup address = some record) :
    r.now.stats.subtract record.size =
      { r.now.stats with liveBytes := bytesOf (r.now.liveAllocations.erase address) } := by
  have hbytes := bytesOf_erase hlookup
  rw [Stats.subtract, if_pos (h.size_le hlookup), h.liveBytes_eq, hbytes, Nat.add_sub_cancel_left]

theorem accounts_empty (nextSequence : ℕ) (enabled : Bool) :
    Accounts ⟨⟨∅, .zero, nextSequence, enabled⟩, []⟩ := by
  refine ⟨AList.notMem_empty _, Nat.two_pow_pos 64, rfl, rfl, fun d hd ↦ ?_, ?_, rfl, rfl, rfl, rfl⟩
  · rw [List.mem_singleton.mp hd]
    exact Nat.le_refl _
  · exact ⟨_, List.mem_cons_self, rfl⟩

/-- **One call.** The accounts stay right if the recorded blocks still fit. -/
theorem accounts_call (h : Accounts r)
    (hfits : bytesOf (r.call defaultNewAlignment c).now.liveAllocations < 2 ^ 64) :
    Accounts (r.call defaultNewAlignment c) := by
  by_cases hc : c = .reset
  · rw [hc]
    exact accounts_empty 1 r.now.enabled
  have hstored := h.stored
  have hno := h.no_null
  have heffect : Effect r.now (r.now.flags c) (r.call defaultNewAlignment c).now :=
    effect_call _ hc
  cases heffect with
  | nothing flags_eq live_eq stats_eq =>
    obtain ⟨hstores, hreplaces, hfrees, hmismatches⟩ := counts_call defaultNewAlignment hc flags_eq
    simp only [Bool.toNat_false, Nat.add_zero] at hstores hreplaces hfrees hmismatches
    obtain ⟨hle, hexists⟩ := peak_call defaultNewAlignment h hc (by
      rw [stats_eq, max_eq_left (h.le_peak r.now List.mem_cons_self)])
    refine ⟨?_, hfits, ?_, ?_, hle, hexists, ?_, ?_, ?_, ?_⟩
    · rw [live_eq]
      exact hno
    · rw [stats_eq, live_eq, h.liveAllocations_eq]
    · rw [stats_eq, live_eq, h.liveBytes_eq]
    · rw [stats_eq, hstores, h.totalAllocations_eq]
    · rw [stats_eq, hfrees, h.totalFrees_eq]
    · rw [stats_eq, hmismatches, h.mismatchedDeletes_eq]
    · rw [live_eq, hstores, hfrees, hreplaces, hstored]
  | @inserted flags_eq address record address_ne lookup_eq live_eq stats_eq =>
    obtain ⟨hstores, hreplaces, hfrees, hmismatches⟩ := counts_call defaultNewAlignment hc flags_eq
    simp only [Bool.toNat_true, Bool.toNat_false, Nat.add_zero]
      at hstores hreplaces hfrees hmismatches
    have hbytes : bytesOf (r.call defaultNewAlignment c).now.liveAllocations =
        record.size + bytesOf r.now.liveAllocations := by
      rw [live_eq, bytesOf_insert, erase_eq_self lookup_eq]
    have hnull : 0#64 ∉ (r.call defaultNewAlignment c).now.liveAllocations := by
      rw [live_eq, AList.mem_insert, not_or]
      exact ⟨address_ne.symm, hno⟩
    have hlength : (r.call defaultNewAlignment c).now.liveAllocations.keys.length =
        r.now.liveAllocations.keys.length + 1 := by
      rw [live_eq, length_keys_insert lookup_eq]
    obtain ⟨hle, hexists⟩ := peak_call defaultNewAlignment h hc (by
      rw [stats_eq]
      rfl)
    refine ⟨hnull, hfits, ?_, ?_, hle, hexists, ?_, ?_, ?_, ?_⟩
    · -- the addresses are not null, so there are less than `2 ^ 64` of them
      have hlt := length_keys_lt hnull
      rw [hlength] at hlt
      rw [stats_eq, hlength, Stats.add]
      dsimp only
      rw [h.liveAllocations_eq, wrap_eq_of_lt hlt]
    · rw [hbytes] at hfits
      rw [stats_eq, hbytes, Stats.add]
      dsimp only
      rw [h.liveBytes_eq, Nat.add_comm, wrap_eq_of_lt hfits]
    · rw [stats_eq, hstores, Stats.add]
      dsimp only
      rw [h.totalAllocations_eq, wrap_succ]
    · rw [stats_eq, hfrees, ← h.totalFrees_eq]
      rfl
    · rw [stats_eq, hmismatches, ← h.mismatchedDeletes_eq]
      rfl
    · rw [hstores, hfrees, hreplaces, hlength]
      omega
  | @replaced flags_eq address old record address_ne lookup_eq live_eq stats_eq =>
    obtain ⟨hstores, hreplaces, hfrees, hmismatches⟩ := counts_call defaultNewAlignment hc flags_eq
    simp only [Bool.toNat_true, Bool.toNat_false, Nat.add_zero]
      at hstores hreplaces hfrees hmismatches
    have hbytes : bytesOf (r.call defaultNewAlignment c).now.liveAllocations =
        record.size + bytesOf (r.now.liveAllocations.erase address) := by
      rw [live_eq, bytesOf_insert]
    have hlength : (r.call defaultNewAlignment c).now.liveAllocations.keys.length =
        r.now.liveAllocations.keys.length := by
      rw [live_eq, length_keys_replace lookup_eq]
    rw [h.subtract lookup_eq] at stats_eq
    obtain ⟨hle, hexists⟩ := peak_call defaultNewAlignment h hc (by
      rw [stats_eq]
      rfl)
    refine ⟨?_, hfits, ?_, ?_, hle, hexists, ?_, ?_, ?_, ?_⟩
    · rw [live_eq, AList.mem_insert, not_or]
      exact ⟨address_ne.symm, hno⟩
    · rw [stats_eq, hlength, ← h.liveAllocations_eq]
      rfl
    · rw [hbytes] at hfits
      rw [stats_eq, hbytes, Stats.add]
      dsimp only
      rw [Nat.add_comm, wrap_eq_of_lt hfits]
    · rw [stats_eq, hstores, Stats.add]
      dsimp only
      rw [h.totalAllocations_eq, wrap_succ]
    · rw [stats_eq, hfrees, ← h.totalFrees_eq]
      rfl
    · rw [stats_eq, hmismatches, ← h.mismatchedDeletes_eq]
      rfl
    · rw [hstores, hfrees, hreplaces, hlength]
      omega
  | @freed mismatched flags_eq address record lookup_eq live_eq stats_eq =>
    obtain ⟨hstores, hreplaces, hfrees, hmismatches⟩ := counts_call defaultNewAlignment hc flags_eq
    simp only [Bool.toNat_true, Bool.toNat_false, Nat.add_zero]
      at hstores hreplaces hfrees hmismatches
    have hlength := length_keys_erase lookup_eq
    rw [h.subtract lookup_eq] at stats_eq
    -- the peak is not compared here, but the bytes only get fewer
    have hless : (r.call defaultNewAlignment c).now.stats.liveBytes ≤
        r.now.stats.peakLiveBytes := by
      have hpeak := h.le_peak r.now List.mem_cons_self
      rw [h.liveBytes_eq, bytesOf_erase lookup_eq] at hpeak
      rw [stats_eq]
      exact (Nat.le_add_left _ _).trans hpeak
    obtain ⟨hle, hexists⟩ := peak_call defaultNewAlignment h hc (by
      rw [max_eq_left hless, stats_eq])
    refine ⟨?_, hfits, ?_, ?_, hle, hexists, ?_, ?_, ?_, ?_⟩
    · rw [live_eq, AList.mem_erase, not_and]
      exact fun _ ↦ hno
    · rw [stats_eq, live_eq]
    · rw [stats_eq, live_eq]
    · rw [stats_eq, hstores, ← h.totalAllocations_eq]
    · rw [stats_eq, hfrees]
      dsimp only
      rw [h.totalFrees_eq, wrap_succ]
    · rw [stats_eq, hmismatches]
      dsimp only
      rw [h.mismatchedDeletes_eq, wrap, wrap, Nat.mod_add_mod]
      rfl
    · rw [hstores, hfrees, hreplaces, live_eq]
      omega

/-- The recorded blocks fit into 64 bits after the call. -/
def Fits (r : Run) (c : Call) : Prop :=
  bytesOf (r.call defaultNewAlignment c).now.liveAllocations < 2 ^ 64

instance (r : Run) (c : Call) : Decidable (Fits defaultNewAlignment r c) := Nat.decLt _ _

variable {defaultNewAlignment}

theorem accounts_of_reachable
    (h : (machine defaultNewAlignment).ReachableWhen (Fits defaultNewAlignment) r) :
    Accounts r := by
  refine Machine.Leads.invariant h (accounts_empty 1 false) fun hr hfits hstep ↦ ?_
  obtain rfl := Option.some.inj hstep
  exact accounts_call _ hr hfits

/-- The statistics, as a reader of `MemoryLeakStats` understands them. -/
structure Balanced (r : Run) : Prop where
  liveAllocations : r.now.stats.liveAllocations = r.now.liveAllocations.keys.length
  liveBytes : r.now.stats.liveBytes = bytesOf r.now.liveAllocations
  /-- No subtraction saturates. -/
  size_le : ∀ {address record}, r.now.liveAllocations.lookup address = some record →
    record.size ≤ r.now.stats.liveBytes
  /-- The peak is the maximum over the states since the last reset. -/
  peakLiveBytes : (∀ d ∈ r.states, d.stats.liveBytes ≤ r.now.stats.peakLiveBytes) ∧
    ∃ d ∈ r.states, d.stats.liveBytes = r.now.stats.peakLiveBytes
  totalAllocations : r.now.stats.totalAllocations =
    wrap (r.now.stats.totalFrees + r.now.stats.liveAllocations + r.count State.replaces)
  mismatchedDeletes : r.now.stats.mismatchedDeletes = wrap (r.count State.mismatches)
  /-- Nothing wraps around as long as there have been less than `2 ^ 64` calls. -/
  exact : r.log.length < 2 ^ 64 →
    r.now.stats.totalAllocations =
        r.now.stats.totalFrees + r.now.stats.liveAllocations + r.count State.replaces ∧
      r.now.stats.mismatchedDeletes = r.count State.mismatches

/-- **The accounting.** After any sequence of calls in which the recorded blocks always fit into 64
bits, the statistics agree with the map and with the calls since the last reset. -/
theorem statistics_balanced
    (h : (machine defaultNewAlignment).ReachableWhen (Fits defaultNewAlignment) r) :
    Balanced r := by
  have hr := accounts_of_reachable h
  have hstored := hr.stored
  have htotal := hr.totalAllocations_eq
  have hfrees := hr.totalFrees_eq
  refine ⟨hr.liveAllocations_eq, hr.liveBytes_eq, hr.size_le, ⟨hr.le_peak, hr.exists_peak⟩, ?_,
    hr.mismatchedDeletes_eq, fun hlength ↦ ?_⟩
  · rw [htotal, hfrees, hr.liveAllocations_eq, hstored, wrap, wrap, wrap, Nat.add_assoc,
      Nat.add_assoc, Nat.mod_add_mod]
  · have hcount : ∀ kind, r.count kind < 2 ^ 64 := fun kind ↦
      (List.countP_le_length).trans_lt hlength
    rw [wrap_eq_of_lt (hcount _)] at htotal hfrees
    rw [htotal, hfrees, hr.liveAllocations_eq, hr.mismatchedDeletes_eq, wrap_eq_of_lt (hcount _)]
    exact ⟨hstored, rfl⟩

end Runs

/-- Two blocks, one of them recorded twice, and a mismatched `delete` of the other. -/
theorem statistics_balanced_replaced :
    ∃ r : Run, (machine 16).ReachableWhen (Fits 16) r ∧
      r.now.stats = ⟨1, 8, 3, 56, 1, 48, 1⟩ ∧ r.count State.replaces = 1 ∧ Balanced r := by
  let block (a : Address) (size : ℕ) : Allocation := ⟨a, size, none, 0, false, 0, 0⟩
  obtain ⟨r, hr, hfinal⟩ := Machine.exists_reachableWhen_of_run (M := machine 16) (C := Fits 16)
    (fun r ↦ (r.now.stats, r.count State.replaces))
    [.setEnabled true, .recordAllocation (block 32#64 16) true,
      .recordAllocation (block 64#64 32) true, .recordAllocation (block 32#64 8) true,
      .recordDeallocation 64#64 true 0]
    (b := (⟨1, 8, 3, 56, 1, 48, 1⟩, 1)) (by decide +kernel)
  obtain ⟨hstats, hreplaced⟩ := Prod.mk.inj hfinal
  exact ⟨r, hr, hstats, hreplaced, statistics_balanced hr⟩

/-! ## Wrapping around

The counter of mismatched frees is compared with the number of frees. Blocks without bytes can be
allocated and freed any number of times, so the counter can be made to wrap. -/

section Cycles

variable (defaultNewAlignment : ℕ) {r : Run}

/-- A block without bytes. -/
def tick : Allocation := ⟨1#64, 0, none, 0, false, 0, 0⟩

/-- The detector is enabled and the map is empty. -/
structure Idle (r : Run) : Prop where
  empty : r.now.liveAllocations = ∅
  enabled : r.now.enabled = true

theorem Idle.allocate (h : Idle r) :
    (r.call defaultNewAlignment (.recordAllocation tick true)).now.liveAllocations =
        AList.singleton 1#64 (Record.of defaultNewAlignment tick r.now.nextSequence) ∧
      (r.call defaultNewAlignment (.recordAllocation tick true)).now.enabled = true ∧
      Fits defaultNewAlignment r (.recordAllocation tick true) := by
  have hnumbered : ¬(tick.address = 0#64 ∨ r.now.enabled = false) := by
    rw [h.enabled, tick]
    decide
  have hlive : (r.now.recordAllocation defaultNewAlignment tick true).liveAllocations =
      AList.singleton 1#64 (Record.of defaultNewAlignment tick r.now.nextSequence) ∧
      (r.now.recordAllocation defaultNewAlignment tick true).enabled = true := by
    simp only [State.recordAllocation, if_neg hnumbered, h.empty, AList.lookup_empty]
    exact ⟨AList.insert_empty _ _, h.enabled⟩
  refine ⟨hlive.1, hlive.2, ?_⟩
  rw [Fits, show (r.call defaultNewAlignment (.recordAllocation tick true)).now.liveAllocations =
    AList.singleton 1#64 (Record.of defaultNewAlignment tick r.now.nextSequence) from hlive.1]
  exact Nat.two_pow_pos 64

theorem Idle.cycle (h : Idle r) :
    ∃ r', (machine defaultNewAlignment).Leads (Fits defaultNewAlignment) r r' ∧ Idle r' ∧
      r'.count State.mismatches = r.count State.mismatches + 1 ∧
      r'.count State.numbers = r.count State.numbers + 1 := by
  obtain ⟨hlive, henabled, hfits⟩ := h.allocate defaultNewAlignment
  generalize hr₁ : r.call defaultNewAlignment (.recordAllocation tick true) = r₁ at hlive henabled
  have hlookup : r₁.now.liveAllocations.lookup 1#64 =
      some (Record.of defaultNewAlignment tick r.now.nextSequence) := by
    rw [hlive]
    rfl
  have hfreed : (r₁.now.recordDeallocation 1#64 true 0).1.liveAllocations = ∅ ∧
      (r₁.now.recordDeallocation 1#64 true 0).1.enabled = true := by
    simp only [State.recordDeallocation, if_neg (show 1#64 ≠ 0#64 by decide), hlookup]
    refine ⟨?_, henabled⟩
    rw [hlive]
    rfl
  have hcount : ∀ kind : State → Call → Bool,
      (r₁.call defaultNewAlignment (.recordDeallocation 1#64 true 0)).count kind =
        r.count kind + (kind r.now (.recordAllocation tick true)).toNat +
          (kind r₁.now (.recordDeallocation 1#64 true 0)).toNat := by
    have hallocation : Call.recordAllocation tick true ≠ .reset := by simp
    have hdeallocation : Call.recordDeallocation 1#64 true 0 ≠ .reset := by simp
    intro kind
    rw [count_call _ _ hdeallocation, ← hr₁, count_call _ _ hallocation]
  refine ⟨r₁.call defaultNewAlignment (.recordDeallocation 1#64 true 0), ?_, ⟨hfreed.1, hfreed.2⟩,
    ?_, ?_⟩
  · refine (Machine.Leads.refl.step hfits (congrArg some hr₁)).step ?_ rfl
    rw [Fits,
      show (r₁.call defaultNewAlignment
        (.recordDeallocation 1#64 true 0)).now.liveAllocations = ∅ from hfreed.1]
    exact Nat.two_pow_pos 64
  · rw [hcount]
    simp only [State.mismatches, hlookup]
    rfl
  · rw [hcount]
    simp only [State.numbers, h.enabled]
    rfl

/-- There are arbitrarily long runs of this kind. -/
theorem exists_idle (n : ℕ) :
    ∃ r, (machine defaultNewAlignment).ReachableWhen (Fits defaultNewAlignment) r ∧ Idle r ∧
      r.count State.mismatches = n ∧ r.count State.numbers = n := by
  induction n with
  | zero =>
    refine ⟨(machine defaultNewAlignment).init.call defaultNewAlignment (.setEnabled true), ?_,
      ⟨rfl, rfl⟩, rfl, rfl⟩
    have hfits : Fits defaultNewAlignment (machine defaultNewAlignment).init (.setEnabled true) :=
      Nat.two_pow_pos 64
    exact Machine.Leads.refl.step hfits rfl
  | succ n ih =>
    obtain ⟨r, hr, hidle, hmismatches, hnumbers⟩ := ih
    obtain ⟨r', hleads, hidle', hmismatches', hnumbers'⟩ :=
      hidle.cycle defaultNewAlignment
    refine ⟨r', hr.trans hleads, hidle', ?_, ?_⟩
    · rw [hmismatches', hmismatches]
    · rw [hnumbers', hnumbers]

end Cycles

/-- After `2 ^ 64` frees with the other form of `delete`, `mismatched_deletes` is zero. -/
theorem mismatchedDeletes_wraps :
    ∃ r, (machine 16).ReachableWhen (Fits 16) r ∧ r.count State.mismatches = 2 ^ 64 ∧
      r.now.stats.mismatchedDeletes = 0 := by
  obtain ⟨r, hr, -, hmismatches, -⟩ := exists_idle 16 (2 ^ 64)
  refine ⟨r, hr, hmismatches, ?_⟩
  rw [(accounts_of_reachable hr).mismatchedDeletes_eq, hmismatches]
  exact Nat.mod_self _

end MemoryLeakDetector

end FoundationComponents
