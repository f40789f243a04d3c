import Mathlib.Algebra.BigOperators.Group.List.Basic
import Mathlib.Algebra.Order.BigOperators.Group.List
import Mathlib.Algebra.Order.Ring.Nat
import FoundationComponents.HighPerformanceTimer.Agreement

/-!
# Every timer ends once

A timer leaves the map in one of four ways: a one-shot timer fires, `cancel` returns true for it,
`cancelAll` removes it, or `shutdown` drops it. The history records which. Every section that makes
one of these observable finds the timer in the map and takes it out, and ids are not handed out
twice while fewer than `2 ^ 64 - 1` timers have been scheduled. So for every id the number of timers
scheduled under it, which is one, is the number of its outcomes plus one if it is still in the map.

Generations play no part in this: they may wrap, and an item that is current by accident can only
fire a timer that is in the map.
-/

namespace FoundationComponents

namespace HighPerformanceTimer

variable {γ : Type*} {Q : Heap}

/-! ## Counting events

An outcome of a timer is an event that takes it out of the map. As a weight of events, outcomes can
be added up over a history. -/

/-- The sum of a weight over the events. -/
def total (weight : Event γ → ℕ) (history : List (Event γ)) : ℕ := (history.map weight).sum

private theorem total_append (weight : Event γ → ℕ) (history events : List (Event γ)) :
    total weight (history ++ events) = total weight history + total weight events := by
  rw [total, List.map_append, List.sum_append, total, total]

private theorem total_singleton (weight : Event γ → ℕ) (event : Event γ) :
    total weight [event] = weight event := by
  rw [total, List.map_singleton, List.sum_singleton]

theorem total_add (weight weight' : Event γ → ℕ) (history : List (Event γ)) :
    total (fun event ↦ weight event + weight' event) history =
      total weight history + total weight' history :=
  List.sum_map_add

private theorem total_congr {weight weight' : Event γ → ℕ} {history : List (Event γ)}
    (h : ∀ event ∈ history, weight event = weight' event) :
    total weight history = total weight' history := by
  rw [total, total, List.map_congr_left h]

namespace Event

/-- The callback of the timer is put into `due_callbacks`. -/
def firings (id : ℕ) : Event γ → ℕ
  | .fired entry => if entry.id = id then 1 else 0
  | _ => 0

/-- `cancel` returns true for the timer. -/
def cancellations (id : ℕ) : Event γ → ℕ
  | .cancelled id' => if id' = id then 1 else 0
  | _ => 0

/-- `cancelAll` removes the timer. -/
def removals (id : ℕ) : Event γ → ℕ
  | .cancelledAll ids => ids.count id
  | _ => 0

/-- `shutdown` drops the timer. -/
def drops (id : ℕ) : Event γ → ℕ
  | .dropped ids => ids.count id
  | _ => 0

/-- A one-shot timer fires. -/
def oneShotFirings : Event γ → ℕ
  | .fired entry => if entry.repeating then 0 else 1
  | _ => 0

/-- The number of timers dropped by `shutdown`. -/
def droppedTimers : Event γ → ℕ
  | .dropped ids => ids.length
  | _ => 0

/-- The timer leaves the map. -/
def outcomes (id : ℕ) : Event γ → ℕ
  | .fired entry => if entry.repeating then 0 else if entry.id = id then 1 else 0
  | event => event.cancellations id + event.removals id + event.drops id

theorem outcomes_scheduled (id : ℕ) (entry : TimerEntry γ) :
    (Event.scheduled entry).outcomes id = 0 := rfl

end Event

/-- The ids of the timers scheduled, oldest first. -/
def scheduledIds (history : List (Event γ)) : List ℕ :=
  history.filterMap fun
    | .scheduled entry => some entry.id
    | _ => none

private theorem scheduledIds_append (history events : List (Event γ)) :
    scheduledIds (history ++ events) = scheduledIds history ++ scheduledIds events :=
  List.filterMap_append ..

private theorem mem_scheduledIds {history : List (Event γ)} {id : ℕ} :
    id ∈ scheduledIds history ↔ ∃ entry, .scheduled entry ∈ history ∧ entry.id = id := by
  rw [scheduledIds, List.mem_filterMap]
  constructor
  · rintro ⟨event, hevent, hid⟩
    cases event with
    | scheduled entry => exact ⟨entry, hevent, Option.some.inj hid⟩
    | cancelled _ => cases hid
    | cancelledAll _ => cases hid
    | dropped _ => cases hid
    | fired _ => cases hid
  · rintro ⟨entry, hentry, rfl⟩
    exact ⟨.scheduled entry, hentry, rfl⟩

private theorem eq_of_scheduled {history : List (Event γ)} {entry other : TimerEntry γ}
    (hnodup : (scheduledIds history).Nodup) (hentry : .scheduled entry ∈ history)
    (hother : .scheduled other ∈ history) (hid : entry.id = other.id) : entry = other := by
  obtain ⟨earlier, later, rfl⟩ := List.append_of_mem hentry
  have hids : scheduledIds (earlier ++ .scheduled entry :: later) =
      scheduledIds earlier ++ entry.id :: scheduledIds later := by
    rw [scheduledIds_append]
    rfl
  rw [hids, List.nodup_middle, List.nodup_cons, List.mem_append, not_or] at hnodup
  obtain ⟨⟨hearlier, hlater⟩, -⟩ := hnodup
  rw [List.mem_append, List.mem_cons] at hother
  rcases hother with hmem | heq | hmem
  · exact absurd (mem_scheduledIds.mpr ⟨other, hmem, hid.symm⟩) hearlier
  · exact (Event.scheduled.inj heq).symm
  · exact absurd (mem_scheduledIds.mpr ⟨other, hmem, hid.symm⟩) hlater

/-- No timer fires after `cancel` has returned true for it. -/
def CancelPreventsFiring (history : List (Event γ)) : Prop :=
  history.Pairwise fun earlier later ↦
    ∀ id entry, earlier = .cancelled id → later = .fired entry → entry.id ≠ id

/-! ## The invariant -/

/-- Some timer was scheduled under the id, repeating or not as the entry is. -/
def Originates (history : List (Event γ)) (entry : TimerEntry γ) : Prop :=
  ∃ origin, .scheduled origin ∈ history ∧ origin.id = entry.id ∧
    origin.repeating = entry.repeating

/-- The books of the timer, for a state and the events that led to it. -/
structure Accounted (st : State γ Q) (history : List (Event γ)) : Prop where
  nextId_eq : st.nextId = st.scheduled + 1
  /-- Ids are handed out once, in order. -/
  ids : scheduledIds history = List.range' 1 st.scheduled
  /-- A timer is in the map or has had its outcome. -/
  balance : ∀ id, (scheduledIds history).count id =
    (if id ∈ st.timers then 1 else 0) + total (Event.outcomes id) history
  entry_id : ∀ {id entry}, st.timers.lookup id = some entry → entry.id = id
  entry_origin : ∀ {id entry}, st.timers.lookup id = some entry → Originates history entry
  fired_origin : ∀ {entry}, .fired entry ∈ history → Originates history entry
  stats : st.scheduled = st.timers.entries.length + st.cancelled +
    total Event.oneShotFirings history + total Event.droppedTimers history
  silent : CancelPreventsFiring history

theorem Originates.append {history : List (Event γ)} {entry : TimerEntry γ}
    (h : Originates history entry) (events : List (Event γ)) :
    Originates (history ++ events) entry := by
  obtain ⟨origin, hmem, hsame⟩ := h
  exact ⟨origin, List.mem_append_left _ hmem, hsame⟩

namespace Accounted

variable {st st' : State γ Q} {history : List (Event γ)}

theorem count_le_one (h : Accounted st history) (id : ℕ) : (scheduledIds history).count id ≤ 1 := by
  rw [h.ids]
  exact List.nodup_iff_count_le_one.mp List.nodup_range' id

theorem outcomes_eq_zero (h : Accounted st history) {id : ℕ} (hid : id ∈ st.timers) :
    total (Event.outcomes id) history = 0 := by
  have hbalance := h.balance id
  have hle := h.count_le_one id
  rw [if_pos hid] at hbalance
  omega

theorem not_cancelled (h : Accounted st history) {id : ℕ} (hid : id ∈ st.timers) :
    .cancelled id ∉ history := by
  intro hmem
  have hle := List.single_le_sum (l := history.map (Event.outcomes id)) (fun _ _ ↦ Nat.zero_le _)
    _ (List.mem_map_of_mem hmem)
  rw [← total, h.outcomes_eq_zero hid] at hle
  simp [Event.outcomes, Event.cancellations] at hle

/-- **An event that is not a new timer.** Every timer it reports leaves the map, what stays in the
map was there, and a timer it fires was in the map. -/
theorem extend (h : Accounted st history) (event : Event γ) (hnextId : st'.nextId = st.nextId)
    (hscheduled : st'.scheduled = st.scheduled) (hquiet : ∀ entry, event ≠ .scheduled entry)
    (hbalance : ∀ id, (if id ∈ st'.timers then 1 else 0) + event.outcomes id =
      if id ∈ st.timers then 1 else 0)
    (hentry : ∀ {id entry}, st'.timers.lookup id = some entry →
      ∃ old, st.timers.lookup id = some old ∧ old.id = entry.id ∧ old.repeating = entry.repeating)
    (hfired : ∀ {entry}, event = .fired entry → st.timers.lookup entry.id = some entry)
    (hstats : st'.timers.entries.length + st'.cancelled + event.oneShotFirings +
      event.droppedTimers = st.timers.entries.length + st.cancelled) :
    Accounted st' (history ++ [event]) := by
  have hids : scheduledIds (history ++ [event]) = scheduledIds history := by
    have hnone : scheduledIds [event] = [] := by
      cases event with
      | scheduled entry => exact absurd rfl (hquiet entry)
      | _ => rfl
    rw [scheduledIds_append, hnone, List.append_nil]
  refine ⟨?_, ?_, ?_, ?_, ?_, ?_, ?_, ?_⟩
  · rw [hnextId, hscheduled]
    exact h.nextId_eq
  · rw [hids, hscheduled]
    exact h.ids
  · intro id
    have hbefore := h.balance id
    have htrade := hbalance id
    rw [hids, total_append, total_singleton]
    omega
  · intro id entry hlookup
    obtain ⟨old, hold, hid, -⟩ := hentry hlookup
    rw [← hid]
    exact h.entry_id hold
  · intro id entry hlookup
    obtain ⟨old, hold, hid, hrepeating⟩ := hentry hlookup
    obtain ⟨origin, hmem, hid', hrepeating'⟩ := h.entry_origin hold
    exact ⟨origin, List.mem_append_left _ hmem, hid'.trans hid, hrepeating'.trans hrepeating⟩
  · intro entry hmem
    apply Originates.append
    rw [List.mem_append, List.mem_singleton] at hmem
    rcases hmem with hold | hnew
    · exact h.fired_origin hold
    · exact h.entry_origin (hfired hnew.symm)
  · have hbefore := h.stats
    rw [total_append, total_append, total_singleton, total_singleton, hscheduled]
    omega
  · rw [CancelPreventsFiring, List.pairwise_append]
    refine ⟨h.silent, List.pairwise_singleton _ _, ?_⟩
    rintro earlier hearlier later hlater id entry rfl hfire rfl
    rw [List.mem_singleton] at hlater
    -- what fires now is in the map, and what was cancelled is not
    have hlookup := hfired (hlater.symm.trans hfire)
    exact h.not_cancelled (AList.lookup_isSome.mp (Option.isSome_of_eq_some hlookup)) hearlier

theorem congr (h : Accounted st history) (htimers : st'.timers = st.timers)
    (hnextId : st'.nextId = st.nextId) (hscheduled : st'.scheduled = st.scheduled)
    (hcancelled : st'.cancelled = st.cancelled) : Accounted st' history where
  nextId_eq := by rw [hnextId, hscheduled, h.nextId_eq]
  ids := by rw [hscheduled, h.ids]
  balance := by rw [htimers]; exact h.balance
  entry_id := by rw [htimers]; exact h.entry_id
  entry_origin := by rw [htimers]; exact h.entry_origin
  fired_origin := h.fired_origin
  stats := by rw [htimers, hscheduled, hcancelled, ← h.stats]
  silent := h.silent

/-- For the id of a one-shot timer every firing is an outcome. -/
theorem outcomes_eq (h : Accounted st history) {entry : TimerEntry γ}
    (hentry : .scheduled entry ∈ history) (honeShot : entry.repeating = false) :
    total (Event.outcomes entry.id) history =
      total (Event.firings entry.id) history + total (Event.cancellations entry.id) history +
        total (Event.removals entry.id) history + total (Event.drops entry.id) history := by
  have hnodup : (scheduledIds history).Nodup := by
    rw [h.ids]
    exact List.nodup_range'
  rw [← total_add, ← total_add, ← total_add]
  apply total_congr
  intro event hevent
  cases event with
  | fired e =>
    by_cases hid : e.id = entry.id
    · -- the entry that fires was scheduled under this id, so it is a one-shot timer as well
      obtain ⟨origin, horigin, hid', hrepeating⟩ := h.fired_origin hevent
      obtain rfl := eq_of_scheduled hnodup hentry horigin (hid'.trans hid).symm
      have hfalse : ¬e.repeating = true := by rw [← hrepeating, honeShot]; exact Bool.false_ne_true
      rw [Event.outcomes, if_neg hfalse]
      rfl
    · simp only [Event.outcomes, Event.firings, Event.cancellations, Event.removals, Event.drops,
        hid, if_false, ite_self]
  | _ => simp only [Event.outcomes, Event.firings, Nat.zero_add]

/-! ### The sections -/

theorem nextId_notMem (h : Accounted st history) : st.nextId ∉ st.timers := by
  intro hmem
  have hbalance := h.balance st.nextId
  rw [if_pos hmem, h.ids, h.nextId_eq] at hbalance
  have hpos : 0 < (List.range' 1 st.scheduled).count (st.scheduled + 1) := by omega
  have hrange := List.mem_range'_1.mp (List.count_pos_iff.mp hpos)
  omega

theorem discardStaleHeapItems (h : Accounted st history) :
    Accounted st.discardStaleHeapItems history :=
  h.congr rfl rfl rfl rfl

theorem schedule (h : Accounted st history) {new : TimerEntry γ} (hid : new.id = st.nextId)
    (hnextId : st'.nextId = st.nextId + 1) (hscheduled : st'.scheduled = st.scheduled + 1)
    (hcancelled : st'.cancelled = st.cancelled)
    (htimers : st'.timers = st.timers.insert st.nextId new) :
    Accounted st' (history ++ [.scheduled new]) := by
  have hfresh := h.nextId_notMem
  have hids : scheduledIds [Event.scheduled new] = [st.nextId] := congrArg (fun id ↦ [id]) hid
  have hcases : ∀ {id e}, st'.timers.lookup id = some e →
      id = st.nextId ∧ e = new ∨ st.timers.lookup id = some e := by
    intro id e hlookup
    rw [htimers] at hlookup
    by_cases hself : id = st.nextId
    · rw [hself, AList.lookup_insert, Option.some.injEq] at hlookup
      exact Or.inl ⟨hself, hlookup.symm⟩
    · rw [AList.lookup_insert_ne hself] at hlookup
      exact Or.inr hlookup
  refine ⟨?_, ?_, ?_, ?_, ?_, ?_, ?_, ?_⟩
  · rw [hnextId, hscheduled, h.nextId_eq]
  · rw [scheduledIds_append, hids, hscheduled, h.ids, h.nextId_eq, List.range'_1_concat,
      Nat.add_comm 1]
  · intro id
    have hbalance := h.balance id
    have hmem : id ∈ st'.timers ↔ id = st.nextId ∨ id ∈ st.timers := by
      rw [htimers, AList.mem_insert]
    rw [scheduledIds_append, hids, List.count_append, total_append, total_singleton,
      Event.outcomes_scheduled, List.count_singleton, hbalance]
    by_cases hself : id = st.nextId
    · rw [if_pos (hmem.mpr (Or.inl hself)), if_neg (hself ▸ hfresh), if_pos (by simp [hself])]
      omega
    · have hne : ¬(st.nextId == id) = true := by simpa using Ne.symm hself
      rw [if_congr (hmem.trans (or_iff_right hself)) rfl rfl, if_neg hne]
      omega
  · intro id e hlookup
    rcases hcases hlookup with ⟨rfl, rfl⟩ | hold
    · exact hid
    · exact h.entry_id hold
  · intro id e hlookup
    rcases hcases hlookup with ⟨-, rfl⟩ | hold
    · exact ⟨e, List.mem_append_right _ List.mem_cons_self, rfl, rfl⟩
    · exact (h.entry_origin hold).append _
  · intro e hmem
    rw [List.mem_append, List.mem_singleton] at hmem
    rcases hmem with hold | hfired
    · exact (h.fired_origin hold).append _
    · cases hfired
  · rw [total_append, total_append, total_singleton, total_singleton, htimers, hcancelled,
      AList.entries_insert_of_notMem hfresh, List.length_cons, hscheduled, h.stats]
    simp only [Event.oneShotFirings, Event.droppedTimers]
    omega
  · rw [CancelPreventsFiring, List.pairwise_append]
    refine ⟨h.silent, List.pairwise_singleton _ _, ?_⟩
    rintro earlier - later hlater id e - hfired
    rw [List.mem_singleton] at hlater
    rw [hlater] at hfired
    cases hfired

theorem insertTimer (h : Accounted st history) (entry : TimerEntry γ)
    (hbound : (st.insertTimer entry).1.scheduled < 2 ^ 64 - 1) :
    Accounted (st.insertTimer entry).1
      (history ++ System.scheduledEvents (st.insertTimer entry).1 (st.insertTimer entry).2) := by
  rw [State.insertTimer] at hbound ⊢
  split
  · rw [System.scheduledEvents, if_pos rfl, List.append_nil]
    exact h
  rename_i hopen
  rw [if_neg hopen] at hbound
  have hscheduled : st.scheduled + 1 < 2 ^ 64 - 1 := hbound
  have hvalid : st.nextId ≠ invalidTimerId := by
    rw [h.nextId_eq]
    exact Nat.succ_ne_zero _
  have hemplace : ∀ e, st.emplace st.nextId e = st.timers.insert st.nextId e := fun e ↦
    if_neg h.nextId_notMem
  dsimp only
  rw [System.scheduledEvents, if_neg hvalid, hemplace, AList.lookup_insert]
  exact h.schedule rfl (State.followingId_eq (by rw [h.nextId_eq]; omega)) rfl rfl rfl

private theorem length_keys (timers : AList fun _ : ℕ ↦ TimerEntry γ) :
    timers.keys.length = timers.entries.length :=
  List.length_map _

private theorem length_entries_erase {timers : AList fun _ : ℕ ↦ TimerEntry γ} {id : ℕ}
    (hid : id ∈ timers) : (timers.erase id).entries.length + 1 = timers.entries.length := by
  have hkeys : (timers.keys.erase id).length + 1 = timers.keys.length := by
    rw [List.length_erase_of_mem hid]
    exact Nat.succ_pred_eq_of_pos (List.length_pos_of_mem hid)
  rwa [← AList.keys_erase, length_keys, length_keys] at hkeys

/-- Taking one timer out of the map. -/
theorem mem_erase_trade (timers : AList fun _ : ℕ ↦ TimerEntry γ) {id : ℕ} (hid : id ∈ timers)
    (k : ℕ) : ((if k ∈ timers.erase id then 1 else 0) + if id = k then 1 else 0) =
      if k ∈ timers then 1 else 0 := by
  by_cases hk : k = id
  · subst hk
    rw [if_neg fun hmem ↦ (AList.mem_erase.mp hmem).1 rfl, if_pos rfl, if_pos hid]
  · rw [if_neg (Ne.symm hk), Nat.add_zero]
    exact if_congr (AList.mem_erase.trans (and_iff_right hk)) rfl rfl

theorem fire {κ : TimeArith} {now : ℤ} {fuel : ℕ} {item : HeapItem} {entry : TimerEntry γ}
    (h : Accounted st history) (hlookup : st.timers.lookup item.id = some entry)
    (hfire : st.fire κ now fuel item entry = some st') :
    Accounted st' (history ++ [.fired entry]) := by
  have hid := h.entry_id hlookup
  have hmem : item.id ∈ st.timers := AList.lookup_isSome.mp (Option.isSome_of_eq_some hlookup)
  have hself : ∀ {e}, Event.fired entry = .fired e → st.timers.lookup e.id = some e := by
    rintro e ⟨⟩
    rwa [hid]
  rw [State.fire] at hfire
  split at hfire
  · rename_i hrepeating
    obtain ⟨next, -, rfl⟩ := Option.map_eq_some_iff.mp hfire
    refine h.extend _ rfl rfl (by simp) ?_ ?_ hself ?_
    · intro id
      have hsame : id = item.id ∨ id ∈ st.timers ↔ id ∈ st.timers :=
        or_iff_right_of_imp fun heq ↦ heq ▸ hmem
      simp only [Event.outcomes, hrepeating, if_true, Nat.add_zero, AList.mem_insert, hsame]
    · intro id e he
      dsimp only at he
      by_cases hk : id = item.id
      · rw [hk, AList.lookup_insert, Option.some.injEq] at he
        refine ⟨entry, hk ▸ hlookup, ?_, ?_⟩ <;> rw [← he]
      · rw [AList.lookup_insert_ne hk] at he
        exact ⟨e, he, rfl, rfl⟩
    · have hlength := length_entries_erase hmem
      simp only [Event.oneShotFirings, hrepeating, if_true, Event.droppedTimers,
        AList.entries_insert, List.length_cons, ← hlength]
      rfl
  · rename_i honeShot
    obtain rfl := Option.some.inj hfire
    refine h.extend _ rfl rfl (by simp) ?_ ?_ hself ?_
    · intro id
      rw [Event.outcomes, if_neg honeShot, hid]
      exact mem_erase_trade _ hmem id
    · intro id e he
      exact ⟨e, (State.lookup_of_lookup_erase he).1, rfl, rfl⟩
    · have hlength := length_entries_erase hmem
      simp only [Event.oneShotFirings, if_neg honeShot, Event.droppedTimers]
      omega

theorem cancel (h : Accounted st history) (id : ℕ) :
    Accounted (st.cancel id).1 (history ++ if (st.cancel id).2 then [.cancelled id] else []) := by
  rw [State.cancel]
  split
  · rwa [if_neg Bool.false_ne_true, List.append_nil]
  split
  · rename_i hmem
    rw [if_pos rfl]
    refine h.extend _ rfl rfl (by simp) ?_ ?_ (by simp) ?_
    · intro k
      exact mem_erase_trade _ hmem k
    · intro k e he
      exact ⟨e, (State.lookup_of_lookup_erase he).1, rfl, rfl⟩
    · have hlength := length_entries_erase hmem
      simp only [Event.oneShotFirings, Event.droppedTimers]
      omega
  · rwa [if_neg Bool.false_ne_true, List.append_nil]

theorem count_keys (timers : AList fun _ : ℕ ↦ TimerEntry γ) (id : ℕ) :
    timers.keys.count id = if id ∈ timers then 1 else 0 := by
  by_cases hid : id ∈ timers
  · rw [if_pos hid]
    exact List.count_eq_one_of_mem timers.keys_nodup hid
  · rw [if_neg hid]
    exact List.count_eq_zero_of_not_mem hid

theorem cancelAll (h : Accounted st history) :
    Accounted st.cancelAll.1 (history ++ [.cancelledAll st.timers.keys]) := by
  refine h.extend _ rfl rfl (by simp) ?_ nofun (by simp) ?_
  · intro id
    simp only [State.cancelAll, Event.outcomes, Event.cancellations, Event.removals, Event.drops,
      count_keys, AList.notMem_empty, if_false]
    omega
  · simp only [State.cancelAll, Event.oneShotFirings, Event.droppedTimers, AList.empty_entries,
      List.length_nil]
    omega

theorem shutdown (h : Accounted st history) :
    Accounted st.shutdown (history ++ [.dropped st.timers.keys]) := by
  refine h.extend _ rfl rfl (by simp) ?_ nofun (by simp) ?_
  · intro id
    simp only [State.shutdown, Event.outcomes, Event.cancellations, Event.removals, Event.drops,
      count_keys, AList.notMem_empty, if_false]
    omega
  · simp only [State.shutdown, Event.oneShotFirings, Event.droppedTimers, AList.empty_entries,
      List.length_nil, length_keys]
    omega

theorem schedulerPass {κ : TimeArith} {now now' : ℤ} {fuel : ℕ} {pass : State.Pass γ}
    (h : Accounted st history) (hpass : st.schedulerPass κ now now' fuel = some (st', pass)) :
    Accounted st' (history ++ System.firedEvents pass) := by
  have hevents : System.firedEvents pass = pass.due.map Event.fired := by
    cases pass <;> rfl
  have hstart : Accounted st (history ++ ([] : List (TimerEntry γ)).map Event.fired) := by
    rwa [List.map_nil, List.append_nil]
  rw [hevents]
  refine State.schedulerPass_rule
    (I := fun st taken ↦ Accounted st (history ++ taken.map Event.fired)) discardStaleHeapItems ?_
    hstart hpass
  intro st st' taken fuel item entry hbooks _ hlookup _ _ hfire
  rw [List.map_append, List.map_singleton, ← List.append_assoc]
  exact hbooks.fire hlookup hfire

end Accounted

/-! ## Every reachable state

Ids wrap after `2 ^ 64 - 1` timers, and from then on they are handed out again. The books are kept
up to there. -/

section Reachable

variable {κ : TimeArith} {s s' : System γ Q} {a : Action γ}

/-- The books are right as long as the ids have not wrapped. -/
def System.BooksInv (s : System γ Q) : Prop :=
  s.state.scheduled < 2 ^ 64 - 1 → Accounted s.state s.history

theorem booksInv_init : (machine κ γ Q).init.BooksInv := by
  intro _
  refine ⟨rfl, rfl, fun _ ↦ rfl, nofun, nofun, nofun, rfl, List.Pairwise.nil⟩

theorem booksInv_step (h : s.BooksInv) (hstep : s.step κ a = some s') : s'.BooksInv := by
  intro hbound
  cases a with
  | addTimer now deadline interval repeating callback =>
    simp only [System.step] at hstep
    split at hstep
    · obtain rfl := Option.some.inj hstep
      exact h hbound
    · rename_i st id hok
      obtain rfl := Option.some.inj hstep
      obtain ⟨entry, hentry⟩ := State.exists_of_addTimer_eq_ok hok
      obtain ⟨rfl, rfl⟩ := Prod.mk.inj hentry
      refine (h ?_).insertTimer entry hbound
      exact lt_of_le_of_lt (State.scheduled_le_insertTimer entry) hbound
  | cancel id =>
    obtain rfl := Option.some.inj hstep
    refine (h ?_).cancel id
    dsimp only at hbound
    rw [State.cancel] at hbound
    split at hbound
    · exact hbound
    split at hbound
    · exact hbound
    · exact hbound
  | cancelAll =>
    obtain rfl := Option.some.inj hstep
    exact (h hbound).cancelAll
  | shutdown =>
    obtain rfl := Option.some.inj hstep
    exact (h hbound).shutdown
  | schedulerPass now now' fuel =>
    obtain ⟨⟨st, pass⟩, hpass, rfl⟩ := Option.map_eq_some_iff.mp hstep
    refine (h ?_).schedulerPass hpass
    rwa [← State.schedulerPass_scheduled hpass]

theorem accounted_of_reachable (h : (machine κ γ Q).Reachable s)
    (hscheduled : s.state.scheduled < 2 ^ 64 - 1) : Accounted s.state s.history := by
  have hinv : s.BooksInv :=
    Machine.Leads.invariant h booksInv_init fun hs _ hstep ↦ booksInv_step hs hstep
  exact hinv hscheduled

/-- **Every one-shot timer ends once, and a cancelled timer is silent.** In every state reached with
the mutex free, as long as fewer than `2 ^ 64 - 1` timers have been scheduled: a one-shot timer is
in the map or has had exactly one of its outcomes (it fired, was cancelled, was removed by
`cancelAll`, or was dropped by `shutdown`), once; no timer fires after it was cancelled; and the
statistics add up. -/
theorem ends_once (h : (machine κ γ Q).Reachable s)
    (hscheduled : s.state.scheduled < 2 ^ 64 - 1) :
    (∀ entry, .scheduled entry ∈ s.history → entry.repeating = false →
      total (Event.firings entry.id) s.history + total (Event.cancellations entry.id) s.history +
        total (Event.removals entry.id) s.history + total (Event.drops entry.id) s.history +
        (if entry.id ∈ s.state.timers then 1 else 0) = 1) ∧
    CancelPreventsFiring s.history ∧
    s.state.scheduled = s.state.timers.entries.length + s.state.cancelled +
      total Event.oneShotFirings s.history + total Event.droppedTimers s.history := by
  have hbooks := accounted_of_reachable h hscheduled
  refine ⟨?_, hbooks.silent, hbooks.stats⟩
  intro entry hentry honeShot
  have hbalance := hbooks.balance entry.id
  have hone : (scheduledIds s.history).count entry.id = 1 := by
    have hpos := List.count_pos_iff.mpr (mem_scheduledIds.mpr ⟨entry, hentry, rfl⟩)
    have hle := hbooks.count_le_one entry.id
    omega
  rw [hone, hbooks.outcomes_eq hentry honeShot] at hbalance
  rw [Nat.add_comm, ← hbalance]

end Reachable

/-- Four one-shot timers: the first fires, the second is cancelled, the third is removed by
`cancelAll`, and the last is dropped by `shutdown`. -/
def fourOutcomes : List (Action Unit) :=
  [.addTimer 0 5 0 false (some ()), .addTimer 0 2000000 0 false (some ()),
    .addTimer 0 2000000 0 false (some ()), .schedulerPass 10 10 3, .cancel 2, .cancelAll,
    .addTimer 0 2000000 0 false (some ()), .shutdown]

theorem ends_once_fourOutcomes :
    ∃ s, (machine .exact Unit (.sortedList HeapItem.after)).Reachable s ∧
      CancelPreventsFiring s.history ∧ s.state.cancelled = 2 ∧
      4 = s.state.timers.entries.length + s.state.cancelled +
        total Event.oneShotFirings s.history + total Event.droppedTimers s.history := by
  obtain ⟨s, hs, hf⟩ := Machine.exists_reachable_of_run
    (M := machine .exact Unit (.sortedList HeapItem.after))
    (fun s ↦ (s.state.scheduled, s.state.cancelled)) fourOutcomes (b := (4, 2))
    (by decide +kernel)
  obtain ⟨hscheduled, hcancelled⟩ := Prod.mk.inj hf
  obtain ⟨-, hsilent, hstats⟩ := ends_once hs (by rw [hscheduled]; decide)
  rw [hscheduled] at hstats
  exact ⟨s, hs, hsilent, hcancelled, hstats⟩

end HighPerformanceTimer

end FoundationComponents
