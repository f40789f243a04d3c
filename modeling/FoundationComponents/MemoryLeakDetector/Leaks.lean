import FoundationComponents.MemoryLeakDetector.Accounting
import FoundationComponents.Sorting.Basic

/-!
# Leaks since a snapshot

From a snapshot on, the blocks that are allocated and not yet freed are kept in the order of their
allocation, each with whether the detector was enabled at the time. The allocator does not return
the address of one of them, insertions succeed, and there is no reset.

As long as the sequence numbers have not wrapped around, the records with a number from the snapshot
on are those of the blocks allocated while the detector was enabled: their numbers increase along
the list, and the record of a block is found under its address until the block is freed, whatever
happened to that address before. So `leaksSince` returns these records in this order.

With `2 ^ 64 - 1` allocations before it, the snapshot itself gets the number zero, and every live
block is a leak since then.
-/

namespace FoundationComponents

namespace MemoryLeakDetector

/-! ## The numbers of the records

Numbers grow with every allocation that is recorded, so the records from the snapshot on are the
younger ones, until the numbers wrap around. -/

section Records

variable {live : Live} {address : Address} {record : Record}

theorem mem_recordsOf : record ∈ recordsOf live ↔ ∃ address, live.lookup address = some record := by
  rw [recordsOf, List.mem_map]
  constructor
  · rintro ⟨entry, hentry, rfl⟩
    exact ⟨entry.1, AList.mem_lookup_iff.mpr hentry⟩
  · rintro ⟨address, hlookup⟩
    exact ⟨⟨address, record⟩, AList.mem_lookup_iff.mp hlookup, rfl⟩

/-- A record is found under its own address. -/
def Keyed (live : Live) : Prop :=
  ∀ address record, live.lookup address = some record → record.address = address

theorem Keyed.insert (h : Keyed live) (record : Record) :
    Keyed (live.insert record.address record) := by
  intro address record' hlookup
  by_cases haddress : address = record.address
  · rw [haddress, AList.lookup_insert, Option.some.injEq] at hlookup
    rw [← hlookup, haddress]
  · rw [AList.lookup_insert_ne haddress] at hlookup
    exact h _ _ hlookup

theorem Keyed.erase (h : Keyed live) (address : Address) : Keyed (live.erase address) := by
  intro address' record hlookup
  by_cases haddress : address' = address
  · rw [haddress, AList.lookup_erase] at hlookup
    cases hlookup
  · rw [AList.lookup_erase_ne haddress] at hlookup
    exact h _ _ hlookup

/-- Erasing an address takes the records with this address away. -/
theorem Keyed.recordsOf_erase_perm (h : Keyed live) (address : Address) :
    (recordsOf (live.erase address)).Perm
      ((recordsOf live).filter fun record ↦ record.address ≠ address) := by
  have hrest : (recordsOf (live.erase address)).filter (fun record ↦ record.address ≠ address) =
      recordsOf (live.erase address) := by
    refine List.filter_eq_self.mpr fun record hrecord ↦ ?_
    obtain ⟨address', hlookup⟩ := mem_recordsOf.mp hrecord
    rw [decide_eq_true_iff, h.erase address _ _ hlookup]
    rintro rfl
    rw [AList.lookup_erase] at hlookup
    cases hlookup
  cases hlookup : live.lookup address with
  | none =>
    rw [erase_eq_self hlookup] at hrest ⊢
    rw [hrest]
  | some record =>
    have hperm := (recordsOf_erase hlookup).filter fun record ↦ decide (record.address ≠ address)
    rw [List.filter_cons_of_neg (by rw [h _ _ hlookup]; simp), hrest] at hperm
    exact hperm.symm

private theorem mem_recordsOf_of_erase (h : record ∈ recordsOf (live.erase address)) :
    record ∈ recordsOf live :=
  ((List.kerase_sublist address live.entries).map Sigma.snd).subset h

end Records

section Numbers

variable (defaultNewAlignment : ℕ) {d : State} {r : Run} {c : Call}

theorem recordAllocation_ignored {allocation : Allocation} {inserted : Bool}
    (h : d.numbers (.recordAllocation allocation inserted) = false) :
    d.recordAllocation defaultNewAlignment allocation inserted = d := by
  rw [State.numbers, Bool.and_eq_false_iff, bne_eq_false_iff_eq] at h
  rw [State.recordAllocation, if_pos h]

theorem recordAllocation_numbered {allocation : Allocation} {inserted : Bool}
    (h : d.numbers (.recordAllocation allocation inserted) = true) :
    (d.recordAllocation defaultNewAlignment allocation inserted).nextSequence =
        wrap (d.nextSequence + 1) ∧
      ((d.recordAllocation defaultNewAlignment allocation inserted).liveAllocations =
          d.liveAllocations.insert allocation.address
            (.of defaultNewAlignment allocation d.nextSequence) ∨
        inserted = false ∧
          (d.recordAllocation defaultNewAlignment allocation inserted).liveAllocations =
            d.liveAllocations) := by
  rw [State.numbers, Bool.and_eq_true, bne_iff_ne] at h
  have hnumbered : ¬(allocation.address = 0#64 ∨ d.enabled = false) := by
    rw [not_or, Bool.not_eq_false]
    exact h
  simp only [State.recordAllocation, if_neg hnumbered]
  cases d.liveAllocations.lookup allocation.address with
  | some old => exact ⟨rfl, .inl rfl⟩
  | none =>
    cases inserted with
    | true => exact ⟨rfl, .inl rfl⟩
    | false => exact ⟨rfl, .inr ⟨rfl, rfl⟩⟩

theorem recordDeallocation_live (address : Address) (arrayDelete : Bool) (fallbackAlignment : ℕ) :
    (d.recordDeallocation address arrayDelete fallbackAlignment).1.nextSequence = d.nextSequence ∧
      (d.recordDeallocation address arrayDelete fallbackAlignment).1.liveAllocations =
        if address = 0#64 then d.liveAllocations else d.liveAllocations.erase address := by
  rw [State.recordDeallocation]
  split
  · exact ⟨rfl, rfl⟩
  · cases hlookup : d.liveAllocations.lookup address with
    | none => exact ⟨rfl, (erase_eq_self hlookup).symm⟩
    | some record => exact ⟨rfl, rfl⟩

/-- The numbers of the records, as long as they have not wrapped around. -/
structure Numbered (r : Run) : Prop where
  nextSequence_eq : r.now.nextSequence = wrap (1 + r.count State.numbers)
  keyed : Keyed r.now.liveAllocations
  sequence_le : r.count State.numbers < 2 ^ 64 → ∀ record ∈ recordsOf r.now.liveAllocations,
    record.sequence ≤ r.count State.numbers

theorem numbered_init : Numbered (machine defaultNewAlignment).init := by
  refine ⟨rfl, fun address record hlookup ↦ ?_, fun _ record hrecord ↦ ?_⟩
  · cases hlookup
  · cases hrecord

theorem numbered_call (h : Numbered r) : Numbered (r.call defaultNewAlignment c) := by
  cases c with
  | reset =>
    refine ⟨rfl, fun address record hlookup ↦ ?_, fun _ record hrecord ↦ ?_⟩
    · cases hlookup
    · cases hrecord
  | setEnabled enabled => exact ⟨h.nextSequence_eq, h.keyed, h.sequence_le⟩
  | recordDeallocation address arrayDelete fallbackAlignment =>
    have hcount : (r.call defaultNewAlignment
        (.recordDeallocation address arrayDelete fallbackAlignment)).count State.numbers =
        r.count State.numbers := count_call _ _ (by simp)
    obtain ⟨hnext, hlive⟩ :=
      recordDeallocation_live (d := r.now) address arrayDelete fallbackAlignment
    refine ⟨?_, ?_, fun hfew record hrecord ↦ ?_⟩
    · rw [hcount]
      exact hnext.trans h.nextSequence_eq
    · change
        Keyed (r.now.recordDeallocation address arrayDelete fallbackAlignment).1.liveAllocations
      rw [hlive]
      split
      · exact h.keyed
      · exact h.keyed.erase address
    · change record ∈
        recordsOf (r.now.recordDeallocation address arrayDelete
          fallbackAlignment).1.liveAllocations at hrecord
      rw [hcount] at hfew ⊢
      rw [hlive] at hrecord
      split at hrecord
      · exact h.sequence_le hfew record hrecord
      · exact h.sequence_le hfew record (mem_recordsOf_of_erase hrecord)
  | recordAllocation allocation inserted =>
    have hcount : (r.call defaultNewAlignment (.recordAllocation allocation inserted)).count
        State.numbers = r.count State.numbers +
          (r.now.numbers (.recordAllocation allocation inserted)).toNat :=
      count_call _ _ (by simp)
    cases hnumbers : r.now.numbers (.recordAllocation allocation inserted) with
    | false =>
      rw [hnumbers, Bool.toNat_false, Nat.add_zero] at hcount
      have hnow :
          (r.call defaultNewAlignment (.recordAllocation allocation inserted)).now = r.now :=
        recordAllocation_ignored _ hnumbers
      refine ⟨?_, ?_, ?_⟩
      · rw [hnow, hcount]
        exact h.nextSequence_eq
      · rw [hnow]
        exact h.keyed
      · rw [hnow, hcount]
        exact h.sequence_le
    | true =>
      rw [hnumbers, Bool.toNat_true] at hcount
      obtain ⟨hnext, hlive⟩ :=
        recordAllocation_numbered defaultNewAlignment hnumbers
      refine ⟨?_, ?_, fun hfew record hrecord ↦ ?_⟩
      · rw [hcount, ← Nat.add_assoc, ← wrap_succ, ← h.nextSequence_eq]
        exact hnext
      · rcases hlive with hlive | ⟨-, hlive⟩
        · exact hlive ▸ h.keyed.insert (.of defaultNewAlignment allocation r.now.nextSequence)
        · exact hlive ▸ h.keyed
      · rw [hcount] at hfew ⊢
        have hbefore : ∀ record ∈ recordsOf r.now.liveAllocations,
            record.sequence ≤ r.count State.numbers + 1 :=
          fun record hrecord ↦ Nat.le_succ_of_le (h.sequence_le (by omega) record hrecord)
        rcases hlive with hlive | ⟨-, hlive⟩
        · change record ∈ recordsOf (r.now.recordAllocation defaultNewAlignment allocation
            inserted).liveAllocations at hrecord
          rw [hlive, recordsOf_insert, List.mem_cons] at hrecord
          rcases hrecord with rfl | hrecord
          · rw [Record.of, h.nextSequence_eq, wrap_eq_of_lt (by omega), Nat.add_comm]
          · exact hbefore record (mem_recordsOf_of_erase hrecord)
        · exact hbefore record (hlive ▸ hrecord)

end Numbers

/-! ## The blocks since a snapshot

A block that was there at the snapshot may be freed and its address be used again. The records from
the snapshot on are those of younger blocks all the same. -/

/-- A block that the program has, and whether the detector was enabled when it was allocated. -/
structure Block where
  allocation : Allocation
  tracked : Bool
  deriving Repr, DecidableEq

/-- A run, and the blocks allocated since a snapshot and not yet freed, the oldest in front. -/
structure Tracked where
  run : Run
  blocks : List Block

namespace Tracked

variable (t : Tracked)

/-- The allocations that `leaksSince` is to report. -/
def leaked : List Allocation := (t.blocks.filter Block.tracked).map Block.allocation

/-- A call other than a reset. The allocator does not return the address of a block that is still
there, and insertions succeed. -/
def step (defaultNewAlignment : ℕ) : Call → Option Tracked
  | .setEnabled enabled =>
      some { t with run := t.run.call defaultNewAlignment (.setEnabled enabled) }
  | .recordAllocation allocation inserted =>
      if allocation.address = 0#64 then
        some
          { t with
            run := t.run.call defaultNewAlignment (.recordAllocation allocation inserted) }
      else if inserted ∧ ∀ block ∈ t.blocks, block.allocation.address ≠ allocation.address then
        some
          { run := t.run.call defaultNewAlignment (.recordAllocation allocation inserted)
            blocks := t.blocks ++ [⟨allocation, t.run.now.enabled⟩] }
      else none
  | .recordDeallocation address arrayDelete fallbackAlignment =>
      some
        { run := t.run.call defaultNewAlignment
            (.recordDeallocation address arrayDelete fallbackAlignment)
          blocks := t.blocks.filter fun block ↦ block.allocation.address ≠ address }
  | .reset => none

end Tracked

/-- Any sequence of calls since a snapshot at the end of a run. -/
def machineSince (defaultNewAlignment : ℕ) (r : Run) : Machine Tracked Call where
  init := ⟨r, []⟩
  step t := t.step defaultNewAlignment

/-- The record without its number. -/
def Record.unnumbered (record : Record) : Record := { record with sequence := 0 }

/-- The records with a number from `n` on are those of the leaked blocks. -/
structure Tracks (defaultNewAlignment n : ℕ) (t : Tracked) (records : List Record) : Prop where
  numbered : Numbered t.run
  le_next : n ≤ 1 + t.run.count State.numbers
  no_null : ∀ block ∈ t.blocks, block.allocation.address ≠ 0#64
  sorted : records.Pairwise fun record record' ↦ record.sequence < record'.sequence
  perm : ((recordsOf t.run.now.liveAllocations).filter fun record ↦ record.sequence ≥ n).Perm
    records
  unnumbered_eq : records.map Record.unnumbered =
    t.leaked.map fun allocation ↦ .of defaultNewAlignment allocation 0

section Tracks

variable {defaultNewAlignment n : ℕ} {r : Run} {t t' : Tracked} {records : List Record} {c : Call}

theorem tracks_init (hr : Numbered r) (hfew : 1 + r.count State.numbers < 2 ^ 64) :
    Tracks defaultNewAlignment (1 + r.count State.numbers) (machineSince defaultNewAlignment r).init
      [] := by
  refine ⟨hr, Nat.le_refl _, fun _ hblock ↦ (List.not_mem_nil hblock).elim, List.Pairwise.nil, ?_,
    rfl⟩
  rw [List.perm_nil, List.filter_eq_nil_iff]
  intro record hrecord
  have hle := hr.sequence_le (by omega) record hrecord
  rw [decide_eq_true_iff]
  omega

theorem Tracks.exists_block (h : Tracks defaultNewAlignment n t records) {record : Record}
    (hrecord : record ∈ records) :
    ∃ block ∈ t.blocks, block.allocation.address = record.address := by
  have hmem : record.unnumbered ∈ t.leaked.map fun allocation ↦
      Record.of defaultNewAlignment allocation 0 := by
    rw [← h.unnumbered_eq]
    exact List.mem_map_of_mem hrecord
  obtain ⟨allocation, hallocation, heq⟩ := List.mem_map.mp hmem
  obtain ⟨block, hblock, rfl⟩ := List.mem_map.mp hallocation
  exact ⟨block, List.mem_of_mem_filter hblock, congrArg Record.address heq⟩

/-- The records of the blocks at other addresses. -/
theorem Tracks.perm_deallocate (h : Tracks defaultNewAlignment n t records) (address : Address)
    (arrayDelete : Bool) (fallbackAlignment : ℕ) :
    ((recordsOf (t.run.now.recordDeallocation address arrayDelete
      fallbackAlignment).1.liveAllocations).filter fun record ↦ record.sequence ≥ n).Perm
      (records.filter fun record ↦ record.address ≠ address) := by
  rw [(recordDeallocation_live (d := t.run.now) address arrayDelete fallbackAlignment).2]
  split
  · rename_i hnull
    have hall : (records.filter fun record ↦ record.address ≠ address) = records := by
      refine List.filter_eq_self.mpr fun record hrecord ↦ ?_
      obtain ⟨block, hblock, haddress⟩ := h.exists_block hrecord
      rw [decide_eq_true_iff, ← haddress, hnull]
      exact h.no_null block hblock
    rw [hall]
    exact h.perm
  · refine ((h.numbered.keyed.recordsOf_erase_perm address).filter _).trans ?_
    rw [List.filter_comm]
    exact h.perm.filter _

theorem Tracks.deallocate (h : Tracks defaultNewAlignment n t records) (address : Address)
    (arrayDelete : Bool) (fallbackAlignment : ℕ) :
    Tracks defaultNewAlignment n
      { run := t.run.call defaultNewAlignment
          (.recordDeallocation address arrayDelete fallbackAlignment)
        blocks := t.blocks.filter fun block ↦ block.allocation.address ≠ address }
      (records.filter fun record ↦ record.address ≠ address) := by
  have hcount : (t.run.call defaultNewAlignment
      (.recordDeallocation address arrayDelete fallbackAlignment)).count State.numbers =
      t.run.count State.numbers := count_call _ _ (by simp)
  refine ⟨numbered_call _ h.numbered, ?_, fun block hblock ↦ ?_, h.sorted.filter _,
    h.perm_deallocate address arrayDelete fallbackAlignment, ?_⟩
  · rw [hcount]
    exact h.le_next
  · exact h.no_null block (List.mem_of_mem_filter hblock)
  · calc (records.filter fun record ↦ record.address ≠ address).map Record.unnumbered
        = (records.map Record.unnumbered).filter fun record ↦ record.address ≠ address := by
          rw [List.filter_map]
          rfl
      _ = (t.leaked.filter fun allocation ↦ allocation.address ≠ address).map
            fun allocation ↦ .of defaultNewAlignment allocation 0 := by
          rw [h.unnumbered_eq, List.filter_map]
          rfl
      _ = _ := by
          rw [Tracked.leaked, Tracked.leaked, List.filter_map, List.filter_comm]
          rfl

theorem Tracks.allocate (h : Tracks defaultNewAlignment n t records) {allocation : Allocation}
    (hnumbers : t.run.now.numbers (.recordAllocation allocation true) = true)
    (hnew : ∀ block ∈ t.blocks, block.allocation.address ≠ allocation.address)
    (hfew : t.run.count State.numbers + 1 < 2 ^ 64) :
    Tracks defaultNewAlignment n
      { run := t.run.call defaultNewAlignment (.recordAllocation allocation true)
        blocks := t.blocks ++ [⟨allocation, t.run.now.enabled⟩] }
      (records ++ [.of defaultNewAlignment allocation t.run.now.nextSequence]) := by
  have hcount : (t.run.call defaultNewAlignment (.recordAllocation allocation true)).count
      State.numbers = t.run.count State.numbers + 1 := by
    rw [count_call _ _ (by simp), hnumbers, Bool.toNat_true]
  have hnext : t.run.now.nextSequence = 1 + t.run.count State.numbers := by
    rw [h.numbered.nextSequence_eq, wrap_eq_of_lt (by omega)]
  have henabled : t.run.now.enabled = true ∧ allocation.address ≠ 0#64 := by
    rw [State.numbers, Bool.and_eq_true, bne_iff_ne] at hnumbers
    exact hnumbers.symm
  have hlive := (recordAllocation_numbered defaultNewAlignment hnumbers).2
  rw [or_iff_left (by simp)] at hlive
  refine ⟨numbered_call _ h.numbered, ?_, fun block hblock ↦ ?_, ?_, ?_, ?_⟩
  · rw [hcount]
    exact Nat.le_succ_of_le h.le_next
  · rcases List.mem_append.mp hblock with hblock | hblock
    · exact h.no_null block hblock
    · rw [List.mem_singleton.mp hblock]
      exact henabled.2
  · -- the new number is larger than all before it
    refine List.pairwise_append.mpr ⟨h.sorted, List.pairwise_singleton _ _, ?_⟩
    intro record hrecord record' hrecord'
    rw [List.mem_singleton.mp hrecord', Record.of, hnext]
    have hmem := List.mem_of_mem_filter (h.perm.mem_iff.mpr hrecord)
    have hle := h.numbered.sequence_le (by omega) record hmem
    dsimp only
    omega
  · change ((recordsOf (t.run.now.recordAllocation defaultNewAlignment allocation
      true).liveAllocations).filter fun record ↦ record.sequence ≥ n).Perm _
    rw [hlive, recordsOf_insert, List.filter_cons_of_pos (by
      rw [decide_eq_true_iff, Record.of, hnext]
      exact h.le_next)]
    refine List.Perm.trans ?_ (List.perm_append_singleton _ _).symm
    refine List.Perm.cons _ ?_
    refine ((h.numbered.keyed.recordsOf_erase_perm allocation.address).filter _).trans ?_
    rw [List.filter_comm]
    have hall : ((recordsOf t.run.now.liveAllocations).filter fun record ↦
        record.sequence ≥ n).filter (fun record ↦ record.address ≠ allocation.address) =
        (recordsOf t.run.now.liveAllocations).filter fun record ↦ record.sequence ≥ n := by
      refine List.filter_eq_self.mpr fun record hrecord ↦ ?_
      obtain ⟨block, hblock, haddress⟩ := h.exists_block (h.perm.mem_iff.mp hrecord)
      rw [decide_eq_true_iff, ← haddress]
      exact hnew block hblock
    rw [hall]
    exact h.perm
  · have hleaked : Tracked.leaked
        { run := t.run.call defaultNewAlignment (.recordAllocation allocation true)
          blocks := t.blocks ++ [⟨allocation, t.run.now.enabled⟩] } = t.leaked ++ [allocation] := by
      rw [Tracked.leaked, Tracked.leaked, List.filter_append, henabled.1, List.map_append]
      rfl
    rw [hleaked, List.map_append, List.map_append, h.unnumbered_eq]
    rfl

theorem tracks_step (h : Tracks defaultNewAlignment n t records)
    (hstep : t.step defaultNewAlignment c = some t') (hfew : t'.run.count State.numbers < 2 ^ 64) :
    ∃ records', Tracks defaultNewAlignment n t' records' := by
  cases c with
  | reset => cases hstep
  | setEnabled enabled =>
    obtain rfl := Option.some.inj hstep
    exact ⟨records, numbered_call _ h.numbered, h.le_next, h.no_null, h.sorted, h.perm,
      h.unnumbered_eq⟩
  | recordDeallocation address arrayDelete fallbackAlignment =>
    obtain rfl := Option.some.inj hstep
    exact ⟨_, h.deallocate address arrayDelete fallbackAlignment⟩
  | recordAllocation allocation inserted =>
    have hcount : (t.run.call defaultNewAlignment (.recordAllocation allocation inserted)).count
        State.numbers = t.run.count State.numbers +
          (t.run.now.numbers (.recordAllocation allocation inserted)).toNat :=
      count_call _ _ (by simp)
    -- a call that is ignored
    have hignored : ∀ blocks : List Block, (∀ block ∈ blocks, block.allocation.address ≠ 0#64) →
        Tracked.leaked ⟨t.run, blocks⟩ = t.leaked →
        t.run.now.numbers (.recordAllocation allocation inserted) = false →
        Tracks defaultNewAlignment n
          ⟨t.run.call defaultNewAlignment (.recordAllocation allocation inserted), blocks⟩
          records := by
      intro blocks hblocks hleaked hnumbers
      rw [hnumbers, Bool.toNat_false, Nat.add_zero] at hcount
      have hnow : (t.run.call defaultNewAlignment (.recordAllocation allocation inserted)).now =
          t.run.now := recordAllocation_ignored _ hnumbers
      refine ⟨numbered_call _ h.numbered, ?_, hblocks, h.sorted, ?_, ?_⟩
      · rw [hcount]
        exact h.le_next
      · rw [hnow]
        exact h.perm
      · exact h.unnumbered_eq.trans (congrArg _ hleaked.symm)
    rw [Tracked.step] at hstep
    split at hstep
    · rename_i hnull
      obtain rfl := Option.some.inj hstep
      refine ⟨records, hignored t.blocks h.no_null rfl ?_⟩
      rw [State.numbers, hnull]
      rfl
    · rename_i hne
      split at hstep
      · rename_i hallowed
        obtain ⟨hinserted, hnew⟩ := hallowed
        obtain rfl := Option.some.inj hstep
        cases hnumbers : t.run.now.numbers (.recordAllocation allocation inserted) with
        | true =>
          subst hinserted
          rw [hnumbers, Bool.toNat_true] at hcount
          dsimp only at hfew
          rw [hcount] at hfew
          exact ⟨_, h.allocate hnumbers hnew hfew⟩
        | false =>
          have hdisabled : t.run.now.enabled = false := by
            rwa [State.numbers, bne_iff_ne.mpr hne, Bool.true_and] at hnumbers
          refine ⟨records, hignored _ (fun block hblock ↦ ?_) ?_ hnumbers⟩
          · rcases List.mem_append.mp hblock with hblock | hblock
            · exact h.no_null block hblock
            · rw [List.mem_singleton.mp hblock]
              exact hne
          · rw [Tracked.leaked, Tracked.leaked, List.filter_append, hdisabled]
            exact congrArg _ (List.append_nil _)
      · cases hstep

theorem count_le_of_step (hstep : t.step defaultNewAlignment c = some t') :
    t.run.count State.numbers ≤ t'.run.count State.numbers := by
  have hle : c ≠ .reset →
      t.run.count State.numbers ≤ (t.run.call defaultNewAlignment c).count State.numbers := by
    intro hc
    rw [count_call _ _ hc]
    exact Nat.le_add_right _ _
  cases c with
  | reset => cases hstep
  | setEnabled enabled =>
    obtain rfl := Option.some.inj hstep
    exact hle (by simp)
  | recordDeallocation address arrayDelete fallbackAlignment =>
    obtain rfl := Option.some.inj hstep
    exact hle (by simp)
  | recordAllocation allocation inserted =>
    rw [Tracked.step] at hstep
    split at hstep
    · obtain rfl := Option.some.inj hstep
      exact hle (by simp)
    · split at hstep
      · obtain rfl := Option.some.inj hstep
        exact hle (by simp)
      · cases hstep

/-- **Calls since the snapshot.** -/
theorem tracks_of_leads (h : Tracks defaultNewAlignment n t records)
    (hleads : (machineSince defaultNewAlignment r).Leads (fun _ _ ↦ True) t t')
    (hfew : t'.run.count State.numbers < 2 ^ 64) :
    ∃ records', Tracks defaultNewAlignment n t' records' := by
  induction hleads with
  | refl => exact ⟨records, h⟩
  | step _ _ hstep ih =>
    obtain ⟨records', h'⟩ := ih ((count_le_of_step hstep).trans_lt hfew)
    exact tracks_step h' hstep hfew

theorem numbered_of_reachable (h : (machine defaultNewAlignment).Reachable r) : Numbered r := by
  refine Machine.Leads.invariant h (numbered_init _) fun hr _ hstep ↦ ?_
  obtain rfl := Option.some.inj hstep
  exact numbered_call _ hr

/-- What `leaksSince` returns for any later snapshot. -/
theorem Tracks.leaksSince_eq (h : Tracks defaultNewAlignment n t records) {order : List Record}
    (horder : order.Perm (recordsOf t.run.now.liveAllocations)) {snapshot : Snapshot}
    (hle : n ≤ snapshot.nextSequence) :
    leaksSince order snapshot =
      records.filter fun record ↦ record.sequence ≥ snapshot.nextSequence := by
  refine Sorting.insertionSort_eq ((horder.filter _).trans ?_) (h.sorted.filter _)
  have hlater := h.perm.filter fun record ↦ decide (record.sequence ≥ snapshot.nextSequence)
  rw [List.filter_filter] at hlater
  refine List.Perm.trans (List.Perm.of_eq ?_) hlater
  refine List.filter_congr fun record _ ↦ ?_
  rw [← Bool.decide_and, decide_eq_decide]
  omega

theorem hasLeaksSince_iff {order order' : List Record} (horder : order.Perm order')
    (snapshot : Snapshot) :
    hasLeaksSince order snapshot = true ↔ leaksSince order' snapshot ≠ [] := by
  rw [hasLeaksSince, List.any_eq_true]
  constructor
  · rintro ⟨record, hrecord, hlate⟩
    refine List.ne_nil_of_mem (a := record) ((List.mem_insertionSort _).mpr ?_)
    exact List.mem_filter.mpr ⟨horder.mem_iff.mp hrecord, hlate⟩
  · intro hne
    obtain ⟨record, hrecord⟩ := List.exists_mem_of_ne_nil _ hne
    obtain ⟨hrecord, hlate⟩ := List.mem_filter.mp ((List.mem_insertionSort _).mp hrecord)
    exact ⟨record, horder.mem_iff.mpr hrecord, hlate⟩

/-- **Snapshots report exactly the leaks.** After any run take a snapshot, and make any calls but
resets. In whatever order the map is walked, `leaksSince` returns the records of the blocks
allocated since then while the detector was enabled and not yet freed, in the order of their
allocation, and `hasLeaksSince` tells whether there are any. For a later snapshot it returns the end
of this list. -/
theorem leaksSince_spec (hr : (machine defaultNewAlignment).Reachable r)
    (hbefore : 1 + r.count State.numbers < 2 ^ 64)
    (ht : (machineSince defaultNewAlignment r).Reachable t)
    (hfew : t.run.count State.numbers < 2 ^ 64) {order order' : List Record}
    (horder : order.Perm (recordsOf t.run.now.liveAllocations))
    (horder' : order'.Perm (recordsOf t.run.now.liveAllocations)) :
    (leaksSince order r.now.snapshot).map Record.unnumbered =
        t.leaked.map (fun allocation ↦ .of defaultNewAlignment allocation 0) ∧
      (leaksSince order r.now.snapshot).Pairwise
        (fun record record' ↦ record.sequence < record'.sequence) ∧
      (hasLeaksSince order' r.now.snapshot = true ↔ leaksSince order r.now.snapshot ≠ []) ∧
      ∀ {t₁}, (machineSince defaultNewAlignment r).Reachable t₁ →
        (machineSince defaultNewAlignment r).Leads (fun _ _ ↦ True) t₁ t →
        1 + t₁.run.count State.numbers < 2 ^ 64 →
        leaksSince order' t₁.run.now.snapshot <:+ leaksSince order r.now.snapshot := by
  have hnumbered := numbered_of_reachable hr
  have hsnapshot : r.now.snapshot.nextSequence = 1 + r.count State.numbers :=
    hnumbered.nextSequence_eq.trans (wrap_eq_of_lt hbefore)
  have hinit : Tracks defaultNewAlignment _ (machineSince defaultNewAlignment r).init [] :=
    tracks_init hnumbered hbefore
  obtain ⟨records, h⟩ := tracks_of_leads hinit ht hfew
  have hleaks : leaksSince order r.now.snapshot = records := by
    rw [h.leaksSince_eq horder hsnapshot.ge, List.filter_eq_self]
    intro record hrecord
    rw [hsnapshot]
    exact (List.mem_filter.mp (h.perm.mem_iff.mpr hrecord)).2
  have hhas := hasLeaksSince_iff (horder'.trans horder.symm) r.now.snapshot
  rw [hleaks] at hhas ⊢
  refine ⟨h.unnumbered_eq, h.sorted, hhas, fun {t₁} ht₁ _ hbefore₁ ↦ ?_⟩
  obtain ⟨records₁, h₁⟩ := tracks_of_leads hinit ht₁ (by omega)
  have hlater : 1 + r.count State.numbers ≤ t₁.run.now.snapshot.nextSequence := by
    rw [show t₁.run.now.snapshot.nextSequence = 1 + t₁.run.count State.numbers from
      h₁.numbered.nextSequence_eq.trans (wrap_eq_of_lt hbefore₁)]
    exact h₁.le_next
  rw [h.leaksSince_eq horder' hlater]
  exact Sorting.filter_suffix h.sorted _

end Tracks

/-- An address is used again, the detector is switched off for one block and on again before a block
is freed. -/
theorem leaksSince_spec_reused :
    ∃ (r : Run) (t : Tracked), (machine 16).Reachable r ∧ (machineSince 16 r).Reachable t ∧
      t.leaked.map Allocation.size = [30, 50] ∧
      (leaksSince (recordsOf t.run.now.liveAllocations) r.now.snapshot).map Record.unnumbered =
        t.leaked.map (fun allocation ↦ .of 16 allocation 0) := by
  let block (a : Address) (size : ℕ) : Allocation := ⟨a, size, none, 0, false, 0, 0⟩
  let r : Run := ((machine 16).init.call 16 (.setEnabled true)).call 16
    (.recordAllocation (block 16#64 10) true)
  have hr : (machine 16).Reachable r :=
    (Machine.Leads.refl.step trivial rfl).step trivial rfl
  obtain ⟨t, ht, hfinal⟩ := Machine.exists_reachable_of_run (M := machineSince 16 r)
    (fun t ↦ (t.run.count State.numbers, t.leaked.map Allocation.size))
    [.recordAllocation (block 32#64 20) true, .recordAllocation (block 48#64 30) true,
      .setEnabled false, .recordAllocation (block 64#64 40) true,
      .recordDeallocation 32#64 false 0, .setEnabled true,
      .recordAllocation (block 32#64 50) true]
    (b := (4, [30, 50])) (by decide +kernel)
  obtain ⟨hcount, hleaked⟩ := Prod.mk.inj hfinal
  have hspec := leaksSince_spec hr (by decide +kernel) ht (by omega) (List.Perm.refl _)
    (List.Perm.refl _)
  exact ⟨r, t, hr, ht, hleaked, hspec.1⟩

/-- A snapshot after `2 ^ 64 - 1` allocations gets the number zero: the block that was allocated
last is reported, although nothing has happened since. -/
theorem leaksSince_wraps :
    ∃ r, (machine 16).Reachable r ∧ r.count State.numbers = 2 ^ 64 - 1 ∧
      (machineSince 16 r).Reachable ⟨r, []⟩ ∧
      leaksSince (recordsOf r.now.liveAllocations) r.now.snapshot ≠ [] := by
  obtain ⟨r, hr, hidle, -, hnumbers⟩ := exists_idle 16 (2 ^ 64 - 2)
  obtain ⟨hlive, henabled, -⟩ := hidle.allocate 16
  have hcount : (r.call 16 (.recordAllocation tick true)).count State.numbers = 2 ^ 64 - 1 := by
    have htaken : r.now.numbers (.recordAllocation tick true) = true := by
      rw [State.numbers, hidle.enabled]
      rfl
    rw [count_call _ _ (by simp), htaken, hnumbers]
    rfl
  have hreachable : (machine 16).Reachable (r.call 16 (.recordAllocation tick true)) :=
    hr.reachable.step trivial rfl
  have hnext := (numbered_of_reachable hreachable).nextSequence_eq
  rw [hcount] at hnext
  refine ⟨_, hreachable, hcount, Machine.Leads.refl, ?_⟩
  rw [hlive, leaksSince, State.snapshot, hnext]
  exact List.ne_nil_of_mem (a := .of 16 tick r.now.nextSequence)
    ((List.mem_insertionSort _).mpr (List.mem_filter.mpr ⟨List.mem_cons_self, rfl⟩))

end MemoryLeakDetector

end FoundationComponents
