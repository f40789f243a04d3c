import FoundationComponents.MemoryLeakDetector.Leaks

/-!
# Snapshots across resets

A snapshot keeps the next sequence number, and what has a smaller number counts as older. A reset
starts the numbers again, but the snapshots that are around keep theirs. The first blocks after the
reset therefore get numbers that an old snapshot takes for older than itself.

To state when this happens, every block is kept with its place in two orders: how many allocations
have been given a number before it since the start of the process, which tells whether it is younger
than a snapshot, and how many since the last reset, which gives its sequence number. Without a reset
the two orders agree. After one, a snapshot overlooks the blocks that come too early after it: those
before which fewer allocations have been made since the reset than had been made before the
snapshot.
-/

namespace FoundationComponents

namespace MemoryLeakDetector

/-- A block of the program that the detector was told of while it was enabled: whether it has a
record, and how many allocations had been given a number before it, since the last reset and since
the start. -/
structure Entry where
  allocation : Allocation
  recorded : Bool
  number : ℕ
  born : ℕ
  deriving Repr, DecidableEq

/-- The record of the block. -/
def Entry.record (defaultNewAlignment : ℕ) (e : Entry) : Record :=
  .of defaultNewAlignment e.allocation (wrap (1 + e.number))

/-- A run; how many allocations have been given a number since the start, how many of them before
the last reset; and the blocks that have not been freed. -/
structure History where
  run : Run
  total : ℕ
  base : ℕ
  blocks : List Entry

namespace History

variable (t : History)

/-- Any call. The allocator does not return the address of a block that has not been freed. -/
def step (defaultNewAlignment : ℕ) : Call → Option History
  | .setEnabled enabled =>
      some { t with run := t.run.call defaultNewAlignment (.setEnabled enabled) }
  | .recordAllocation allocation inserted =>
      let run := t.run.call defaultNewAlignment (.recordAllocation allocation inserted)
      if t.run.now.numbers (.recordAllocation allocation inserted) = false then
        some { t with run := run }
      else if ∀ e ∈ t.blocks, e.allocation.address ≠ allocation.address then
        some
          { t with
            run := run
            total := t.total + 1
            blocks := t.blocks ++ [⟨allocation, inserted, t.run.count State.numbers, t.total⟩] }
      else none
  | .recordDeallocation address arrayDelete fallbackAlignment =>
      some
        { t with
          run := t.run.call defaultNewAlignment
            (.recordDeallocation address arrayDelete fallbackAlignment)
          blocks := t.blocks.filter fun e ↦ e.allocation.address ≠ address }
  | .reset =>
      -- blocks that are still there lose their records
      some
        { run := t.run.call defaultNewAlignment .reset
          total := t.total
          base := t.total
          blocks := t.blocks.map fun e ↦ { e with recorded := false } }

/-- The blocks allocated since the state `u`. -/
def since (u : History) : List Entry := t.blocks.filter fun e ↦ u.total ≤ e.born

/-- The snapshot of `u` reports, in `t`, the blocks allocated since then and not yet freed. The map
is walked in any order. -/
def Reports (defaultNewAlignment : ℕ) (u t : History) : Prop :=
  ∀ order, order.Perm (recordsOf t.run.now.liveAllocations) →
    (leaksSince order u.run.now.snapshot).Perm
      ((t.since u).map (Entry.record defaultNewAlignment)) ∧
    (hasLeaksSince order u.run.now.snapshot = true ↔ t.since u ≠ [])

/-- The numbers tell which blocks of `t` are younger than `u`. -/
def Distinguishes (u t : History) : Prop :=
  ∀ e ∈ t.blocks, u.total ≤ e.born ↔
    e.recorded = true ∧ wrap (1 + u.run.count State.numbers) ≤ wrap (1 + e.number)

/-- The blocks of `t` that are younger than `u` have their records: the insertion has not failed,
and no reset has come while they were there. -/
def YoungRecorded (u t : History) : Prop :=
  ∀ e ∈ t.blocks, e.recorded = false → e.born < u.total

/-- Before each block of `t` that has a record, at least as many allocations have been made since
the last reset as had been made before `u` since the reset before it. -/
def LateEnough (u t : History) : Prop :=
  ∀ e ∈ t.blocks, e.recorded = true → u.run.count State.numbers ≤ e.number

instance (u t : History) : Decidable (YoungRecorded u t) :=
  inferInstanceAs (Decidable (∀ e ∈ t.blocks, e.recorded = false → _))

instance (u t : History) : Decidable (LateEnough u t) :=
  inferInstanceAs (Decidable (∀ e ∈ t.blocks, e.recorded = true → _))

end History

/-- Any sequence of calls. -/
def historyMachine (defaultNewAlignment : ℕ) : Machine History Call where
  init := ⟨(machine defaultNewAlignment).init, 0, 0, []⟩
  step t := t.step defaultNewAlignment

/-! ## The records of the blocks

A block with a record is known by its address, as the allocator does not hand out what has not been
freed. The number of a record counts from the last reset. -/

/-- The map holds the records of the blocks. -/
structure Recorded (defaultNewAlignment : ℕ) (t : History) : Prop where
  numbered : Numbered t.run
  no_null : ∀ e ∈ t.blocks, e.allocation.address ≠ 0#64
  distinct : (t.blocks.map fun e ↦ e.allocation.address).Nodup
  perm : (recordsOf t.run.now.liveAllocations).Perm
    ((t.blocks.filter Entry.recorded).map (Entry.record defaultNewAlignment))
  total_eq : t.total = t.base + t.run.count State.numbers
  born_eq : ∀ e ∈ t.blocks, e.recorded = true → e.born = t.base + e.number
  born_lt : ∀ e ∈ t.blocks, e.born < t.total

section Recorded

variable {defaultNewAlignment : ℕ} {t t' : History}

theorem recorded_init : Recorded defaultNewAlignment (historyMachine defaultNewAlignment).init where
  numbered := numbered_init defaultNewAlignment
  no_null _ he := absurd he List.not_mem_nil
  distinct := List.nodup_nil
  perm := List.Perm.refl _
  total_eq := rfl
  born_eq _ he := absurd he List.not_mem_nil
  born_lt _ he := absurd he List.not_mem_nil

theorem Recorded.ignored (h : Recorded defaultNewAlignment t) {c : Call}
    (hlive : (t.run.call defaultNewAlignment c).now.liveAllocations = t.run.now.liveAllocations)
    (hcount : (t.run.call defaultNewAlignment c).count State.numbers = t.run.count State.numbers) :
    Recorded defaultNewAlignment { t with run := t.run.call defaultNewAlignment c } where
  numbered := numbered_call _ h.numbered
  no_null := h.no_null
  distinct := h.distinct
  perm := hlive ▸ h.perm
  total_eq := hcount.symm ▸ h.total_eq
  born_eq := h.born_eq
  born_lt := h.born_lt

theorem Recorded.free (h : Recorded defaultNewAlignment t) (address : Address) (arrayDelete : Bool)
    (fallbackAlignment : ℕ) :
    Recorded defaultNewAlignment
      { t with
        run := t.run.call defaultNewAlignment
          (.recordDeallocation address arrayDelete fallbackAlignment)
        blocks := t.blocks.filter fun e ↦ e.allocation.address ≠ address } where
  numbered := numbered_call _ h.numbered
  no_null e he := h.no_null e (List.mem_of_mem_filter he)
  distinct := (List.filter_sublist.map _).nodup h.distinct
  perm := by
    have hrest : (((t.blocks.filter fun e ↦ e.allocation.address ≠ address).filter
        Entry.recorded).map (Entry.record defaultNewAlignment)) =
        ((t.blocks.filter Entry.recorded).map (Entry.record defaultNewAlignment)).filter
          fun record ↦ record.address ≠ address := by
      rw [List.filter_map, List.filter_comm]
      rfl
    rw [hrest]
    change (recordsOf (t.run.now.recordDeallocation address arrayDelete
      fallbackAlignment).1.liveAllocations).Perm _
    rw [(recordDeallocation_live (d := t.run.now) address arrayDelete fallbackAlignment).2]
    split
    · rename_i hnull
      refine h.perm.trans (List.Perm.of_eq (List.filter_eq_self.mpr fun record hrecord ↦ ?_).symm)
      obtain ⟨e, he, rfl⟩ := List.mem_map.mp hrecord
      rw [decide_eq_true_iff, hnull]
      exact h.no_null e (List.mem_of_mem_filter he)
    · exact (h.numbered.keyed.recordsOf_erase_perm address).trans (h.perm.filter _)
  total_eq := by
    rw [count_call _ _ (by simp)]
    exact h.total_eq
  born_eq e he := h.born_eq e (List.mem_of_mem_filter he)
  born_lt e he := h.born_lt e (List.mem_of_mem_filter he)

theorem Recorded.lookup_eq_none (h : Recorded defaultNewAlignment t) {address : Address}
    (hnew : ∀ e ∈ t.blocks, e.allocation.address ≠ address) :
    t.run.now.liveAllocations.lookup address = none := by
  cases hlookup : t.run.now.liveAllocations.lookup address with
  | none => rfl
  | some record =>
    have hmem := h.perm.mem_iff.mp (mem_recordsOf.mpr ⟨address, hlookup⟩)
    obtain ⟨e, he, rfl⟩ := List.mem_map.mp hmem
    exact absurd (h.numbered.keyed _ _ hlookup) (hnew e (List.mem_of_mem_filter he))

theorem Recorded.allocate (h : Recorded defaultNewAlignment t) {allocation : Allocation}
    {inserted : Bool}
    (hnumbers : t.run.now.numbers (.recordAllocation allocation inserted) = true)
    (hnew : ∀ e ∈ t.blocks, e.allocation.address ≠ allocation.address) :
    Recorded defaultNewAlignment
      { t with
        run := t.run.call defaultNewAlignment (.recordAllocation allocation inserted)
        total := t.total + 1
        blocks := t.blocks ++ [⟨allocation, inserted, t.run.count State.numbers, t.total⟩] } where
  numbered := numbered_call _ h.numbered
  no_null e he := by
    rcases List.mem_append.mp he with he | he
    · exact h.no_null e he
    · rw [State.numbers, Bool.and_eq_true, bne_iff_ne] at hnumbers
      rw [List.mem_singleton.mp he]
      exact hnumbers.1
  distinct := by
    rw [List.map_append, List.nodup_append]
    refine ⟨h.distinct, List.nodup_singleton _, fun a ha b hb ↦ ?_⟩
    obtain ⟨e, he, rfl⟩ := List.mem_map.mp ha
    rw [List.mem_singleton.mp hb]
    exact hnew e he
  perm := by
    change (recordsOf (t.run.now.recordAllocation defaultNewAlignment allocation
      inserted).liveAllocations).Perm _
    rw [List.filter_append, List.map_append]
    have hlookup := h.lookup_eq_none hnew
    have hlive : (t.run.now.recordAllocation defaultNewAlignment allocation
        inserted).liveAllocations = if inserted then
          t.run.now.liveAllocations.insert allocation.address
            (.of defaultNewAlignment allocation t.run.now.nextSequence)
          else t.run.now.liveAllocations := by
      rw [State.numbers, Bool.and_eq_true, bne_iff_ne] at hnumbers
      rw [State.recordAllocation, if_neg (by simp [hnumbers]), hlookup]
      cases inserted <;> rfl
    rw [hlive]
    cases inserted with
    | false =>
      rw [if_neg Bool.false_ne_true]
      exact h.perm.trans (List.Perm.of_eq (List.append_nil _).symm)
    | true =>
      rw [if_pos rfl, recordsOf_insert, erase_eq_self hlookup, h.numbered.nextSequence_eq]
      exact (h.perm.cons _).trans (List.perm_append_singleton _ _).symm
  total_eq := by
    rw [count_call _ _ (by simp), hnumbers, h.total_eq]
    rfl
  born_eq e he hrecorded := by
    rcases List.mem_append.mp he with he | he
    · exact h.born_eq e he hrecorded
    · rw [List.mem_singleton.mp he]
      exact h.total_eq
  born_lt e he := by
    rcases List.mem_append.mp he with he | he
    · exact Nat.lt_succ_of_lt (h.born_lt e he)
    · rw [List.mem_singleton.mp he]
      exact Nat.lt_succ_self _

theorem Recorded.reset (h : Recorded defaultNewAlignment t) :
    Recorded defaultNewAlignment
      { run := t.run.call defaultNewAlignment .reset
        total := t.total
        base := t.total
        blocks := t.blocks.map fun e ↦ { e with recorded := false } } where
  numbered := numbered_call _ h.numbered
  no_null e he := by
    obtain ⟨e', he', rfl⟩ := List.mem_map.mp he
    exact h.no_null e' he'
  distinct := by
    rw [List.map_map]
    exact h.distinct
  perm := by
    rw [List.filter_map, List.filter_eq_nil_iff.mpr (by simp)]
    exact List.Perm.refl _
  total_eq := rfl
  born_eq e he hrecorded := by
    obtain ⟨e, -, rfl⟩ := List.mem_map.mp he
    cases hrecorded
  born_lt e he := by
    obtain ⟨e', he', rfl⟩ := List.mem_map.mp he
    exact h.born_lt e' he'

theorem recorded_step (h : Recorded defaultNewAlignment t) {c : Call}
    (hstep : t.step defaultNewAlignment c = some t') : Recorded defaultNewAlignment t' := by
  cases c with
  | setEnabled enabled =>
    obtain rfl := Option.some.inj hstep
    exact h.ignored rfl (count_call _ _ (by simp))
  | recordAllocation allocation inserted =>
    rw [History.step] at hstep
    split at hstep
    · rename_i hnumbers
      obtain rfl := Option.some.inj hstep
      refine h.ignored (congrArg State.liveAllocations (recordAllocation_ignored _ hnumbers)) ?_
      rw [count_call _ _ (by simp), hnumbers]
      rfl
    · rename_i hnumbers
      split at hstep
      · rename_i hnew
        obtain rfl := Option.some.inj hstep
        exact h.allocate (Bool.eq_true_of_not_eq_false hnumbers) hnew
      · cases hstep
  | recordDeallocation address arrayDelete fallbackAlignment =>
    obtain rfl := Option.some.inj hstep
    exact h.free address arrayDelete fallbackAlignment
  | reset =>
    obtain rfl := Option.some.inj hstep
    exact h.reset

theorem recorded_of_reachable (h : (historyMachine defaultNewAlignment).Reachable t) :
    Recorded defaultNewAlignment t :=
  Machine.Leads.invariant h recorded_init fun hs _ hstep ↦ recorded_step hs hstep

end Recorded

/-! ## Old snapshots

A snapshot compares numbers. They order two allocations rightly unless a reset has come in between
and fewer have been made since than before. -/

section Snapshots

variable {defaultNewAlignment : ℕ} {u t : History}

private theorem mem_since {e : Entry} : e ∈ t.since u ↔ e ∈ t.blocks ∧ u.total ≤ e.born := by
  rw [History.since, List.mem_filter, decide_eq_true_iff]

theorem Recorded.eq_of_record_eq (h : Recorded defaultNewAlignment t) {e e' : Entry}
    (he : e ∈ t.blocks) (he' : e' ∈ t.blocks)
    (heq : e'.record defaultNewAlignment = e.record defaultNewAlignment) : e' = e :=
  List.inj_on_of_nodup_map h.distinct he' he (congrArg Record.address heq)

theorem Recorded.leaksSince_perm (h : Recorded defaultNewAlignment t) {order : List Record}
    (horder : order.Perm (recordsOf t.run.now.liveAllocations)) (snapshot : Snapshot) :
    (leaksSince order snapshot).Perm
      ((t.blocks.filter fun e ↦ e.recorded && snapshot.nextSequence ≤ wrap (1 + e.number)).map
        (Entry.record defaultNewAlignment)) := by
  refine (List.perm_insertionSort _ _).trans ((horder.filter _).trans ((h.perm.filter _).trans ?_))
  rw [List.filter_map, List.filter_filter]
  refine List.Perm.of_eq (congrArg _ (List.filter_congr fun e _ ↦ ?_))
  rw [Bool.and_comm]
  rfl

theorem Recorded.mem_map_record (h : Recorded defaultNewAlignment t) {l : List Entry}
    (hl : ∀ e ∈ l, e ∈ t.blocks) {e : Entry} (he : e ∈ t.blocks) :
    e.record defaultNewAlignment ∈ l.map (Entry.record defaultNewAlignment) ↔ e ∈ l := by
  refine ⟨fun hmem ↦ ?_, fun hmem ↦ List.mem_map_of_mem hmem⟩
  obtain ⟨e', he', heq⟩ := List.mem_map.mp hmem
  exact h.eq_of_record_eq he (hl e' he') heq ▸ he'

/-- What a snapshot reports is right if and only if the numbers are. -/
theorem reports_iff_distinguishes (hu : (historyMachine defaultNewAlignment).Reachable u)
    (ht : (historyMachine defaultNewAlignment).Leads (fun _ _ ↦ True) u t) :
    History.Reports defaultNewAlignment u t ↔ History.Distinguishes u t := by
  have h := recorded_of_reachable (hu.trans ht)
  have hsnapshot : u.run.now.snapshot.nextSequence = wrap (1 + u.run.count State.numbers) :=
    (recorded_of_reachable hu).numbered.nextSequence_eq
  constructor
  · intro hreports e he
    have hperm := (h.leaksSince_perm (List.Perm.refl _) u.run.now.snapshot).symm.trans
      (hreports _ (List.Perm.refl _)).1
    have hiff := hperm.mem_iff (a := e.record defaultNewAlignment)
    rw [h.mem_map_record (fun _ hmem ↦ List.mem_of_mem_filter hmem) he,
      h.mem_map_record (fun _ hmem ↦ (mem_since.mp hmem).1) he, mem_since, List.mem_filter,
      Bool.and_eq_true, decide_eq_true_iff, hsnapshot] at hiff
    exact ⟨fun hborn ↦ (hiff.mpr ⟨he, hborn⟩).2, fun hnumber ↦ (hiff.mp ⟨he, hnumber⟩).2⟩
  · intro hdistinguishes order horder
    have hperm := h.leaksSince_perm horder u.run.now.snapshot
    have hsame : (t.blocks.filter fun e ↦
        e.recorded && u.run.now.snapshot.nextSequence ≤ wrap (1 + e.number)) = t.since u := by
      refine List.filter_congr fun e he ↦ ?_
      rw [Bool.eq_iff_iff, Bool.and_eq_true, decide_eq_true_iff, decide_eq_true_iff, hsnapshot]
      exact (hdistinguishes e he).symm
    rw [hsame] at hperm
    refine ⟨hperm, (hasLeaksSince_iff (List.Perm.refl order) _).trans (not_congr ?_)⟩
    rw [← List.length_eq_zero_iff, hperm.length_eq, List.length_map, List.length_eq_zero_iff]

/-- The last reset was before the snapshot, or it is among the calls made since. -/
theorem base_of_run {calls : List Call}
    (ht : (historyMachine defaultNewAlignment).run u calls = some t) :
    u.total ≤ t.total ∧ (.reset ∈ calls → u.total ≤ t.base) ∧
      (.reset ∉ calls → t.base = u.base) := by
  refine Machine.run_invariant (J := fun calls t ↦ u.total ≤ t.total ∧
    (.reset ∈ calls → u.total ≤ t.base) ∧ (.reset ∉ calls → t.base = u.base)) ht
    ⟨Nat.le_refl _, fun hmem ↦ absurd hmem List.not_mem_nil, fun _ ↦ rfl⟩ ?_
  rintro calls v c w - ⟨htotal, hreset, hsame⟩ hstep
  rw [List.mem_append, List.mem_singleton]
  have hother : c ≠ .reset → w.base = v.base → (.reset ∈ calls ∨ .reset = c → u.total ≤ w.base) ∧
      (¬(.reset ∈ calls ∨ .reset = c) → w.base = u.base) := by
    intro hc hbase
    rw [or_iff_left hc.symm, hbase]
    exact ⟨hreset, hsame⟩
  cases c with
  | setEnabled enabled =>
    obtain rfl := Option.some.inj hstep
    exact ⟨htotal, hother (fun heq ↦ by cases heq) rfl⟩
  | recordAllocation allocation inserted =>
    simp only [historyMachine, History.step] at hstep
    split at hstep
    · obtain rfl := Option.some.inj hstep
      exact ⟨htotal, hother (fun heq ↦ by cases heq) rfl⟩
    · split at hstep
      · obtain rfl := Option.some.inj hstep
        exact ⟨Nat.le_succ_of_le htotal, hother (fun heq ↦ by cases heq) rfl⟩
      · cases hstep
  | recordDeallocation address arrayDelete fallbackAlignment =>
    obtain rfl := Option.some.inj hstep
    exact ⟨htotal, hother (fun heq ↦ by cases heq) rfl⟩
  | reset =>
    obtain rfl := Option.some.inj hstep
    exact ⟨htotal, fun _ ↦ htotal, fun hnone ↦ absurd (Or.inr rfl) hnone⟩

/-- **Old snapshots.** Take a snapshot at any time of any run, and go on with any calls, resets
included, with fewer than `2 ^ 64` numbered allocations after each reset. The snapshot reports
exactly the blocks allocated since then and not yet freed if and only if each of these has its
record, and either no reset has been made since, or the blocks that are there come late enough after
the last one. -/
theorem reports_iff (hu : (historyMachine defaultNewAlignment).Reachable u) {calls : List Call}
    (ht : (historyMachine defaultNewAlignment).run u calls = some t)
    (hbefore : 1 + u.run.count State.numbers < 2 ^ 64)
    (hfew : 1 + t.run.count State.numbers ≤ 2 ^ 64) :
    History.Reports defaultNewAlignment u t ↔
      History.YoungRecorded u t ∧ (.reset ∉ calls ∨ History.LateEnough u t) := by
  have hleads := Machine.leads_of_runWhen ht
  rw [reports_iff_distinguishes hu hleads]
  have h := recorded_of_reachable (hu.trans hleads)
  have htotal := (recorded_of_reachable hu).total_eq
  obtain ⟨-, hreset, hsame⟩ := base_of_run ht
  have hsnapshot : wrap (1 + u.run.count State.numbers) = 1 + u.run.count State.numbers :=
    wrap_eq_of_lt hbefore
  -- among the blocks with a record nothing has wrapped around
  have hnumber : ∀ e ∈ t.blocks, e.recorded = true →
      e.born = t.base + e.number ∧ wrap (1 + e.number) = 1 + e.number := by
    intro e he hrecorded
    have hborn := h.born_eq e he hrecorded
    have hlt := h.born_lt e he
    have htotal' := h.total_eq
    exact ⟨hborn, wrap_eq_of_lt (by omega)⟩
  constructor
  · intro hdistinguishes
    refine ⟨fun e he hrecorded ↦ ?_, or_iff_not_imp_left.mpr fun hmem e he hrecorded ↦ ?_⟩
    · by_contra hyoung
      have hrecorded' := ((hdistinguishes e he).mp (Nat.not_lt.mp hyoung)).1
      rw [hrecorded] at hrecorded'
      cases hrecorded'
    · obtain ⟨hborn, hwrap⟩ := hnumber e he hrecorded
      have hlater := hreset (not_not.mp hmem)
      have hle := ((hdistinguishes e he).mp (by omega)).2
      rw [hsnapshot, hwrap] at hle
      omega
  · rintro ⟨hyoung, hlate⟩ e he
    cases hrecorded : e.recorded with
    | false =>
      have hold := hyoung e he hrecorded
      exact iff_of_false (Nat.not_le.mpr hold) fun hboth ↦ absurd hboth.1 Bool.false_ne_true
    | true =>
      obtain ⟨hborn, hwrap⟩ := hnumber e he hrecorded
      rw [hsnapshot, hwrap, and_iff_right rfl]
      by_cases hmem : .reset ∈ calls
      · have hlater := hreset hmem
        have hle := (hlate.resolve_left (not_not.mpr hmem)) e he hrecorded
        omega
      · have hbase := hsame hmem
        omega

end Snapshots

/-- The snapshot is taken when nothing has been numbered since a reset. Another reset follows, and
the block after it is reported. -/
theorem reports_iff_fresh : ∃ u t : History, (historyMachine 16).Reachable u ∧
    (historyMachine 16).run u
        [.reset, .recordAllocation ⟨32#64, 10, none, 0, false, 0, 0⟩ true] = some t ∧
      (u.total = 1 ∧ t.total = 2) ∧ (t.since u).length = 1 ∧ History.Reports 16 u t := by
  let block (a : Address) : Allocation := ⟨a, 10, none, 0, false, 0, 0⟩
  obtain ⟨u, t, hu, ht, hfinal⟩ := Machine.exists_reachable_of_runs (M := historyMachine 16)
    (fun u t ↦ ((u.total, u.run.count State.numbers), (t.total, t.run.count State.numbers),
      (t.since u).length, decide (History.YoungRecorded u t), decide (History.LateEnough u t)))
    [.setEnabled true, .recordAllocation (block 16#64) true, .recordDeallocation 16#64 false 0,
      .reset]
    [.reset, .recordAllocation (block 32#64) true]
    (b := ((1, 0), (2, 1), 1, true, true)) (by decide +kernel)
  simp only [Prod.mk.injEq, decide_eq_true_eq] at hfinal
  obtain ⟨⟨htotal, hcount⟩, ⟨htotal', hcount'⟩, hsince, hyoung, hlate⟩ := hfinal
  have hreports := (reports_iff hu ht (by rw [hcount]; decide) (by rw [hcount']; decide)).mpr
    ⟨hyoung, Or.inr hlate⟩
  exact ⟨u, t, hu, ht, ⟨htotal, htotal'⟩, hsince, hreports⟩

/-- A block is freed, a snapshot is taken, nothing is there at the reset, and the block allocated
after it is not reported: it gets the number 1, and the snapshot starts at 2. -/
theorem not_reports_after_reset : ∃ u t : History, (historyMachine 16).Reachable u ∧
    u.blocks = [] ∧ u.run.now.snapshot.nextSequence = 2 ∧
      (historyMachine 16).run u
        [.reset, .recordAllocation ⟨32#64, 10, none, 0, false, 0, 0⟩ true] = some t ∧
      (t.since u).length = 1 ∧
      leaksSince (recordsOf t.run.now.liveAllocations) u.run.now.snapshot = [] ∧
      ¬History.Reports 16 u t := by
  let block (a : Address) : Allocation := ⟨a, 10, none, 0, false, 0, 0⟩
  obtain ⟨u, t, hu, ht, hfinal⟩ := Machine.exists_reachable_of_runs (M := historyMachine 16)
    (fun u t ↦ (u.blocks, u.run.now.snapshot.nextSequence, (t.since u).length,
      leaksSince (recordsOf t.run.now.liveAllocations) u.run.now.snapshot))
    [.setEnabled true, .recordAllocation (block 16#64) true, .recordDeallocation 16#64 false 0]
    [.reset, .recordAllocation (block 32#64) true] (b := ([], 2, 1, [])) (by decide +kernel)
  simp only [Prod.mk.injEq] at hfinal
  obtain ⟨hblocks, hnext, hsince, hleaks⟩ := hfinal
  refine ⟨u, t, hu, hblocks, hnext, ht, hsince, hleaks, fun hreports ↦ ?_⟩
  have hlength := (hreports _ (List.Perm.refl _)).1.length_eq
  rw [hleaks, List.length_map, hsince] at hlength
  cases hlength

end MemoryLeakDetector

end FoundationComponents
