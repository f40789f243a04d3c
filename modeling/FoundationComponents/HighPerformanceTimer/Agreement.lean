import Mathlib.Data.Multiset.Count
import FoundationComponents.HighPerformanceTimer.Basic

/-!
# The queue and the map agree

Lazy deletion leaves stale items in the queue. The invariant says which: an item is current exactly
if it is the item of the entry of its id, and every other item of that id has a smaller generation.
Ids are handed out once and generations only grow, as long as neither counter wraps, so a stale item
stays stale; and every entry has its one item, so no active timer is lost and none fires twice.

Neither counter wraps while fewer than `2 ^ 64 - 1` timers have been scheduled and fired. Both
counts only grow, so it suffices to assume this of the last state of a run.
-/

namespace FoundationComponents

namespace HighPerformanceTimer

variable {γ : Type*} {Q : Heap}

/-! ## The invariant

Generations and ids must not repeat. Both are counted by counters that only grow, so the bound is on
the counters. -/

/-- Neither the ids nor the generations have wrapped. -/
structure State.Bounded (st : State γ Q) : Prop where
  scheduled_lt : st.scheduled < 2 ^ 64 - 1
  fired_lt : st.fired < 2 ^ 64 - 1

/-- The queue and the map agree up to stale items. -/
structure State.Agrees (st : State γ Q) : Prop where
  nextId_eq : st.nextId = st.scheduled + 1
  entry_id : ∀ {id entry}, st.timers.lookup id = some entry → entry.id = id ∧ id < st.nextId
  generation_le : ∀ {id entry}, st.timers.lookup id = some entry →
    entry.generation ≤ st.fired + 1
  item_id : ∀ item ∈ Q.items st.heap, item.id < st.nextId
  count_item : ∀ {id entry}, st.timers.lookup id = some entry →
    (Q.items st.heap).count entry.item = 1
  item_generation : ∀ item ∈ Q.items st.heap, ∀ {entry}, st.timers.lookup item.id = some entry →
    item = entry.item ∨ item.generation < entry.generation

namespace State

variable {st : State γ Q} {item : HeapItem} {entry : TimerEntry γ}

theorem isCurrent_iff (h : st.Agrees) :
    st.isCurrent item = true ↔ ∃ entry, st.timers.lookup item.id = some entry ∧
      item = entry.item := by
  rw [isCurrent]
  constructor
  · split
    · intro hfalse
      cases hfalse
    · rename_i entry hlookup
      intro hcurrent
      rw [Bool.and_eq_true, decide_eq_true_iff, decide_eq_true_iff] at hcurrent
      refine ⟨entry, hlookup, ?_⟩
      rw [TimerEntry.item, hcurrent.1, hcurrent.2, (h.entry_id hlookup).1]
  · rintro ⟨entry, hlookup, hitem⟩
    rw [hlookup]
    simp [hitem, TimerEntry.item]

/-! ## Sections of the public operations

Taking an entry out of the map only makes items stale. An entry comes into the map together with its
item, under an id that has no newer ones. -/

theorem Agrees.forget {timers : AList fun _ : ℕ ↦ TimerEntry γ} {shuttingDown : Bool}
    {cancelled : ℕ} (h : st.Agrees)
    (hsub : ∀ {id entry}, timers.lookup id = some entry → st.timers.lookup id = some entry) :
    Agrees { st with
      timers := timers, shuttingDown := shuttingDown, cancelled := cancelled } where
  nextId_eq := h.nextId_eq
  entry_id hlookup := h.entry_id (hsub hlookup)
  generation_le hlookup := h.generation_le (hsub hlookup)
  item_id := h.item_id
  count_item hlookup := h.count_item (hsub hlookup)
  item_generation item hitem _ hlookup := h.item_generation item hitem (hsub hlookup)

theorem lookup_of_lookup_erase {timers : AList fun _ : ℕ ↦ TimerEntry γ} {id k : ℕ}
    (h : (timers.erase id).lookup k = some entry) : timers.lookup k = some entry ∧ k ≠ id := by
  by_cases hk : k = id
  · subst hk
    rw [AList.lookup_erase] at h
    cases h
  · exact ⟨by rwa [AList.lookup_erase_ne hk] at h, hk⟩

/-- Adding an entry together with its item, for an id that has no entry and only items of smaller
generations. Both a new timer and a rescheduled one are added in this way. -/
theorem Agrees.put {st' : State γ Q} (h : st.Agrees) (entry : TimerEntry γ)
    (hgeneration : ∀ item ∈ Q.items st.heap, item.id = entry.id →
      item.generation < entry.generation)
    (hitems : Q.items st'.heap = entry.item ::ₘ Q.items st.heap)
    (hself : st'.timers.lookup entry.id = some entry)
    (hother : ∀ k ≠ entry.id, st'.timers.lookup k = st.timers.lookup k)
    (hnextId : st'.nextId = st'.scheduled + 1) (hle : st.nextId ≤ st'.nextId)
    (hlt : entry.id < st'.nextId) (hfired : st.fired ≤ st'.fired)
    (hentry : entry.generation ≤ st'.fired + 1) : st'.Agrees := by
  -- what the map holds afterwards: the new entry, or an old one of another id
  have hcases : ∀ {k e}, st'.timers.lookup k = some e →
      (k = entry.id ∧ e = entry) ∨ (k ≠ entry.id ∧ st.timers.lookup k = some e) := by
    intro k e hlookup
    by_cases hk : k = entry.id
    · rw [hk, hself, Option.some.injEq] at hlookup
      exact Or.inl ⟨hk, hlookup.symm⟩
    · exact Or.inr ⟨hk, by rwa [hother k hk] at hlookup⟩
  have hfresh : entry.item ∉ Q.items st.heap := fun hmem ↦
    Nat.lt_irrefl _ (hgeneration _ hmem rfl)
  refine ⟨hnextId, ?_, ?_, ?_, ?_, ?_⟩
  · intro k e hlookup
    rcases hcases hlookup with ⟨rfl, rfl⟩ | ⟨-, hold⟩
    · exact ⟨rfl, hlt⟩
    · exact ⟨(h.entry_id hold).1, (h.entry_id hold).2.trans_le hle⟩
  · intro k e hlookup
    rcases hcases hlookup with ⟨-, rfl⟩ | ⟨-, hold⟩
    · exact hentry
    · exact (h.generation_le hold).trans (Nat.succ_le_succ hfired)
  · intro item hitem
    rw [hitems, Multiset.mem_cons] at hitem
    rcases hitem with rfl | hitem
    · exact hlt
    · exact (h.item_id item hitem).trans_le hle
  · intro k e hlookup
    rw [hitems]
    rcases hcases hlookup with ⟨-, rfl⟩ | ⟨hk, hold⟩
    · rw [Multiset.count_cons_self, Multiset.count_eq_zero_of_notMem hfresh]
    · have hne : e.item ≠ entry.item := by
        intro heq
        have hid : e.id = entry.id := congrArg HeapItem.id heq
        rw [(h.entry_id hold).1] at hid
        exact hk hid
      rw [Multiset.count_cons_of_ne hne]
      exact h.count_item hold
  · intro item hitem e hlookup
    rw [hitems, Multiset.mem_cons] at hitem
    rcases hcases hlookup with ⟨hid, rfl⟩ | ⟨hid, hold⟩
    · rcases hitem with rfl | hitem
      · exact Or.inl rfl
      · exact Or.inr (hgeneration item hitem hid)
    · rcases hitem with rfl | hitem
      · exact absurd rfl hid
      · exact h.item_generation item hitem hold

theorem exists_of_addTimer_eq_ok {now deadline interval : ℤ} {repeating : Bool}
    {callback : Option γ} {next : State γ Q × ℕ}
    (h : st.addTimer now deadline interval repeating callback = .ok next) :
    ∃ entry, next = st.insertTimer entry := by
  cases callback with
  | none => cases h
  | some callback =>
    simp only [addTimer] at h
    split at h
    · cases h
    · exact ⟨_, (Except.ok.inj h).symm⟩

theorem followingId_eq (h : st.nextId + 1 < 2 ^ 64) : st.followingId = st.nextId + 1 := by
  rw [followingId, Nat.mod_eq_of_lt h]
  exact if_neg (Nat.succ_ne_zero _)

theorem Agrees.insertTimer (h : st.Agrees) (hbound : (st.insertTimer entry).1.Bounded) :
    (st.insertTimer entry).1.Agrees := by
  rw [State.insertTimer] at hbound ⊢
  split
  · exact h
  rename_i hopen
  rw [if_neg hopen] at hbound
  have hscheduled : st.scheduled + 1 < 2 ^ 64 - 1 := hbound.scheduled_lt
  have hfollowing : st.followingId = st.nextId + 1 :=
    followingId_eq (by rw [h.nextId_eq]; omega)
  have hfresh : st.timers.lookup st.nextId = none := by
    cases hlookup : st.timers.lookup st.nextId with
    | none => rfl
    | some old => exact absurd (h.entry_id hlookup).2 (Nat.lt_irrefl _)
  have hemplace : ∀ e, st.emplace st.nextId e = st.timers.insert st.nextId e := fun e ↦
    if_neg (AList.lookup_eq_none.mp hfresh)
  let new : TimerEntry γ := { entry with id := st.nextId, generation := 1 }
  refine h.put new ?_ (Q.items_push _ _) ?_ ?_ ?_ ?_ ?_ (Nat.le_refl _) ?_
  · intro item hitem hid
    exact absurd (h.item_id item hitem) (by rw [hid]; exact Nat.lt_irrefl _)
  · dsimp only
    rw [hemplace]
    exact AList.lookup_insert _
  · intro k hk
    dsimp only
    rw [hemplace]
    exact AList.lookup_insert_ne hk
  · rw [hfollowing, h.nextId_eq]
  · rw [hfollowing]
    exact Nat.le_succ _
  · rw [hfollowing]
    exact Nat.lt_succ_self _
  · exact Nat.le_add_left _ _

/-! ## The scheduler

The drain loop pops, discards and fires, in an order that the queue decides. What these three keep
it keeps, whatever it finds. -/

theorem count_discardStaleHeapItems (hcurrent : st.isCurrent item = true) :
    (Q.items st.discardStaleHeapItems.heap).count item = (Q.items st.heap).count item :=
  MinQueue.count_discardWhile (by rw [hcurrent]; rfl)

theorem Agrees.discardStaleHeapItems (h : st.Agrees) : st.discardStaleHeapItems.Agrees := by
  have hmem : ∀ item ∈ Q.items st.discardStaleHeapItems.heap, item ∈ Q.items st.heap :=
    fun _ hitem ↦ MinQueue.mem_of_mem_discardWhile hitem
  refine ⟨h.nextId_eq, h.entry_id, h.generation_le,
    fun item hitem ↦ h.item_id item (hmem item hitem), ?_,
    fun item hitem ↦ h.item_generation item (hmem item hitem)⟩
  intro id entry hlookup
  have hcurrent : st.isCurrent entry.item = true :=
    (isCurrent_iff h).mpr ⟨entry, by rwa [TimerEntry.item, (h.entry_id hlookup).1], rfl⟩
  exact (count_discardStaleHeapItems hcurrent).trans (h.count_item hlookup)

theorem Agrees.popErase (h : st.Agrees) (htop : Q.top st.heap = some item) (fired : ℕ)
    (hfired : st.fired ≤ fired) :
    Agrees { st with
      heap := Q.pop st.heap, timers := st.timers.erase item.id, fired := fired } := by
  have hitems := Q.items_of_top_eq_some htop
  have hmem : ∀ x ∈ Q.items (Q.pop st.heap), x ∈ Q.items st.heap :=
    fun _ hx ↦ MinQueue.mem_of_mem_pop htop hx
  refine ⟨h.nextId_eq, ?_, ?_, fun x hx ↦ h.item_id x (hmem x hx), ?_, ?_⟩
  · intro id e hlookup
    exact h.entry_id (lookup_of_lookup_erase hlookup).1
  · intro id e hlookup
    exact (h.generation_le (lookup_of_lookup_erase hlookup).1).trans (Nat.succ_le_succ hfired)
  · intro id e hlookup
    obtain ⟨hold, hne⟩ := lookup_of_lookup_erase hlookup
    have hcount := h.count_item hold
    have hdiff : e.item ≠ item := by
      rintro rfl
      exact hne (h.entry_id hold).1.symm
    rwa [hitems, Multiset.count_cons_of_ne hdiff] at hcount
  · intro x hx e hlookup
    exact h.item_generation x (hmem x hx) (lookup_of_lookup_erase hlookup).1

theorem generation_succ_mod (h : st.Agrees) {id : ℕ} (hlookup : st.timers.lookup id = some entry)
    (hbound : st.fired + 1 < 2 ^ 64 - 1) :
    (entry.generation + 1) % 2 ^ 64 = entry.generation + 1 := by
  have hle := h.generation_le hlookup
  exact Nat.mod_eq_of_lt (by omega)

theorem fire_fired {κ : TimeArith} {now : ℤ} {fuel : ℕ} {st' : State γ Q}
    (hfire : st.fire κ now fuel item entry = some st') : st'.fired = st.fired + 1 := by
  rw [fire] at hfire
  split at hfire
  · obtain ⟨next, -, rfl⟩ := Option.map_eq_some_iff.mp hfire
    rfl
  · obtain rfl := Option.some.inj hfire
    rfl

/-- **One firing.** The item on top is popped; a one-shot timer leaves the map, a repeating one gets
a new item with the next generation. -/
theorem Agrees.fire {κ : TimeArith} {now : ℤ} {fuel : ℕ} {st' : State γ Q} (h : st.Agrees)
    (htop : Q.top st.heap = some item) (hlookup : st.timers.lookup item.id = some entry)
    (hitem : item = entry.item) (hfire : st.fire κ now fuel item entry = some st')
    (hbound : st'.fired < 2 ^ 64 - 1) : st'.Agrees := by
  rw [fire_fired hfire] at hbound
  rw [State.fire] at hfire
  split at hfire
  · obtain ⟨next, -, rfl⟩ := Option.map_eq_some_iff.mp hfire
    have hmod := generation_succ_mod h hlookup hbound
    have hitems := Q.items_of_top_eq_some htop
    have hid := h.entry_id hlookup
    -- the item just popped was the only one of the entry
    have hgone : entry.item ∉ Q.items (Q.pop st.heap) := by
      have hcount := h.count_item hlookup
      rw [hitems, hitem, Multiset.count_cons_self, Nat.add_eq_right] at hcount
      exact Multiset.count_eq_zero.mp hcount
    let entry' : TimerEntry γ :=
      { entry with deadline := next, generation := (entry.generation + 1) % 2 ^ 64 }
    refine (h.popErase htop (st.fired + 1) (Nat.le_succ _)).put entry' ?_ (Q.items_push _ _)
      ?_ ?_ h.nextId_eq (Nat.le_refl _) ?_ (Nat.le_refl _) ?_
    · intro x hx hxid
      have hx' : x ∈ Q.items st.heap := MinQueue.mem_of_mem_pop htop hx
      have hxlookup : st.timers.lookup x.id = some entry := by
        rw [hxid]
        exact hid.1 ▸ hlookup
      change x.generation < (entry.generation + 1) % 2 ^ 64
      rw [hmod]
      rcases h.item_generation x hx' hxlookup with rfl | hlt
      · exact absurd hx hgone
      · exact Nat.lt_succ_of_lt hlt
    · change AList.lookup entry.id (st.timers.insert item.id entry') = some entry'
      rw [hid.1]
      exact AList.lookup_insert _
    · intro k hk
      have hk' : k ≠ item.id := fun heq ↦ hk (heq.trans hid.1.symm)
      change (st.timers.insert item.id entry').lookup k = (st.timers.erase item.id).lookup k
      rw [AList.lookup_insert_ne hk', AList.lookup_erase_ne hk']
    · change entry.id < st.nextId
      rw [hid.1]
      exact hid.2
    · change (entry.generation + 1) % 2 ^ 64 ≤ st.fired + 1 + 1
      rw [hmod]
      exact Nat.succ_le_succ (h.generation_le hlookup)
  · obtain rfl := Option.some.inj hfire
    exact h.popErase htop _ (Nat.le_succ _)

/-- **The rule for the drain loop.** The invariant may speak about the entries taken so far. What
discarding stale items and firing a due current item keep, the loop keeps; it never finds a stale
item after discarding. -/
theorem drain_rule {κ : TimeArith} {now : ℤ} {I : State γ Q → List (TimerEntry γ) → Prop}
    (hdiscard : ∀ {st : State γ Q} {taken}, I st taken → I st.discardStaleHeapItems taken)
    (hfire : ∀ {st st' : State γ Q} {taken} {fuel : ℕ} {item : HeapItem} {entry : TimerEntry γ},
      I st taken → Q.top st.heap = some item → item.deadline ≤ now →
      st.timers.lookup item.id = some entry → entry.generation = item.generation →
      entry.deadline = item.deadline → st.fire κ now fuel item entry = some st' →
      I st' (taken ++ [entry]))
    (taken : List (TimerEntry γ)) {fuel : ℕ} {st st' : State γ Q} {due : List (TimerEntry γ)}
    (h : I st taken) (hdrain : drain κ now fuel st = some (st', due)) : I st' (taken ++ due) := by
  induction fuel generalizing st taken due with
  | zero => cases hdrain
  | succ fuel ih =>
    rw [drain] at hdrain
    split at hdrain
    · obtain ⟨rfl, rfl⟩ := Prod.mk.inj (Option.some.inj hdrain)
      rwa [List.append_nil]
    have hdiscarded := hdiscard h
    dsimp only at hdrain
    split at hdrain
    · obtain ⟨rfl, rfl⟩ := Prod.mk.inj (Option.some.inj hdrain)
      rwa [List.append_nil]
    rename_i item htop
    have hcurrent : st.isCurrent item = true := by
      have hkept := MinQueue.top_discardWhile htop
      rwa [Bool.not_eq_false'] at hkept
    rw [isCurrent] at hcurrent
    split at hdrain
    · obtain ⟨rfl, rfl⟩ := Prod.mk.inj (Option.some.inj hdrain)
      rwa [List.append_nil]
    rename_i hdue
    split at hdrain
    · rename_i hnone
      rw [show st.timers.lookup item.id = none from hnone] at hcurrent
      cases hcurrent
    rename_i entry hlookup
    rw [show st.timers.lookup item.id = some entry from hlookup] at hcurrent
    rw [Bool.and_eq_true, decide_eq_true_iff, decide_eq_true_iff] at hcurrent
    rw [if_neg (by rw [not_or, not_ne_iff, not_ne_iff]; exact hcurrent)] at hdrain
    obtain ⟨st₁, hst₁, hrest⟩ := Option.bind_eq_some_iff.mp hdrain
    obtain ⟨⟨st₂, due₂⟩, hst₂, hpair⟩ := Option.map_eq_some_iff.mp hrest
    obtain ⟨rfl, rfl⟩ := Prod.mk.inj hpair
    have hrun := ih (taken ++ [entry])
      (hfire hdiscarded htop (not_lt.mp hdue) hlookup hcurrent.1 hcurrent.2 hst₁) hst₂
    rwa [List.append_assoc, List.singleton_append] at hrun

theorem fire_scheduled {κ : TimeArith} {now : ℤ} {fuel : ℕ} {st' : State γ Q}
    (hfire : st.fire κ now fuel item entry = some st') : st'.scheduled = st.scheduled := by
  rw [fire] at hfire
  split at hfire
  · obtain ⟨next, -, rfl⟩ := Option.map_eq_some_iff.mp hfire
    rfl
  · obtain rfl := Option.some.inj hfire
    rfl

/-- The entries whose callbacks a pass puts into `due_callbacks`. -/
def Pass.due : Pass γ → List (TimerEntry γ)
  | .enqueue due => due
  | _ => []

/-- **The rule for a pass.** What discarding stale items and firing a due current item keep, a pass
keeps. -/
theorem schedulerPass_rule {κ : TimeArith} {now now' : ℤ} {fuel : ℕ}
    {I : State γ Q → List (TimerEntry γ) → Prop}
    (hdiscard : ∀ {st : State γ Q} {taken}, I st taken → I st.discardStaleHeapItems taken)
    (hfire : ∀ {st st' : State γ Q} {taken} {fuel : ℕ} {item : HeapItem} {entry : TimerEntry γ},
      I st taken → Q.top st.heap = some item → st.timers.lookup item.id = some entry →
      entry.generation = item.generation → entry.deadline = item.deadline →
      st.fire κ now' fuel item entry = some st' → I st' (taken ++ [entry]))
    {st st' : State γ Q} {pass : Pass γ} (h : I st [])
    (hpass : st.schedulerPass κ now now' fuel = some (st', pass)) : I st' pass.due := by
  rw [schedulerPass] at hpass
  split at hpass
  · obtain ⟨rfl, rfl⟩ := Prod.mk.inj (Option.some.inj hpass)
    exact h
  dsimp only at hpass
  split at hpass
  · obtain ⟨rfl, rfl⟩ := Prod.mk.inj (Option.some.inj hpass)
    exact hdiscard h
  split at hpass
  · obtain ⟨rfl, rfl⟩ := Prod.mk.inj (Option.some.inj hpass)
    exact hdiscard h
  · obtain ⟨⟨st₁, due⟩, hdrain, hpair⟩ := Option.map_eq_some_iff.mp hpass
    obtain ⟨rfl, rfl⟩ := Prod.mk.inj hpair
    exact drain_rule hdiscard (fun hI htop _ ↦ hfire hI htop) [] (hdiscard h) hdrain

theorem schedulerPass_scheduled {κ : TimeArith} {now now' : ℤ} {fuel : ℕ} {st' : State γ Q}
    {pass : Pass γ} (hpass : st.schedulerPass κ now now' fuel = some (st', pass)) :
    st'.scheduled = st.scheduled := by
  refine schedulerPass_rule (I := fun st₁ _ ↦ st₁.scheduled = st.scheduled) id ?_ rfl hpass
  intro _ _ _ _ _ _ heq _ _ _ _ hfire
  exact (fire_scheduled hfire).trans heq

theorem scheduled_le_insertTimer (entry : TimerEntry γ) :
    st.scheduled ≤ (st.insertTimer entry).1.scheduled := by
  rw [insertTimer]
  split
  · exact Nat.le_refl _
  · exact Nat.le_succ _

/-! ## Stale items stay stale

An id that has lost its entry does not get one again, and the generation of an entry only grows. -/

/-- The id of the item has been handed out, and its entry, if it still has one, has a larger
generation. -/
structure Stale (st : State γ Q) (item : HeapItem) : Prop where
  id_lt : item.id < st.nextId
  generation_lt : ∀ {entry}, st.timers.lookup item.id = some entry →
    item.generation < entry.generation

theorem Stale.isCurrent_eq (h : st.Stale item) : st.isCurrent item = false := by
  rw [isCurrent]
  split
  · rfl
  · rename_i entry hlookup
    have hne : entry.generation ≠ item.generation := Nat.ne_of_gt (h.generation_lt hlookup)
    rw [decide_eq_false hne, Bool.false_and]

theorem stale_of_not_current (h : st.Agrees) (hitem : item ∈ Q.items st.heap)
    (hcurrent : st.isCurrent item = false) : st.Stale item := by
  refine ⟨h.item_id item hitem, fun {entry} hlookup ↦ ?_⟩
  rcases h.item_generation item hitem hlookup with heq | hlt
  · rw [(isCurrent_iff h).mpr ⟨entry, hlookup, heq⟩] at hcurrent
    cases hcurrent
  · exact hlt

theorem Stale.forget {st' : State γ Q} (h : st.Stale item) (hnextId : st.nextId ≤ st'.nextId)
    (hsub : ∀ {entry}, st'.timers.lookup item.id = some entry →
      st.timers.lookup item.id = some entry) : st'.Stale item :=
  ⟨h.id_lt.trans_le hnextId, fun hlookup ↦ h.generation_lt (hsub hlookup)⟩

theorem Stale.insertTimer (h : st.Stale item) (hagrees : st.Agrees)
    (hbound : (st.insertTimer entry).1.Bounded) : (st.insertTimer entry).1.Stale item := by
  have hnextId := (hagrees.insertTimer hbound).nextId_eq
  rw [State.insertTimer] at hnextId ⊢
  split
  · exact h
  rename_i hopen
  rw [if_neg hopen] at hnextId
  have hle : st.nextId ≤ st.followingId := by
    rw [show st.followingId = st.scheduled + 1 + 1 from hnextId, hagrees.nextId_eq]
    exact Nat.le_succ _
  refine h.forget hle fun {e} hlookup ↦ ?_
  dsimp only at hlookup
  rw [emplace] at hlookup
  split at hlookup
  · exact hlookup
  · rwa [AList.lookup_insert_ne (Nat.ne_of_lt h.id_lt)] at hlookup

theorem Stale.fire {κ : TimeArith} {now : ℤ} {fuel : ℕ} {st' : State γ Q} {top : HeapItem}
    (h : st.Stale item) (hagrees : st.Agrees) (hlookup : st.timers.lookup top.id = some entry)
    (hfire : st.fire κ now fuel top entry = some st') (hbound : st'.fired < 2 ^ 64 - 1) :
    st'.Stale item := by
  rw [fire_fired hfire] at hbound
  rw [State.fire] at hfire
  split at hfire
  · obtain ⟨next, -, rfl⟩ := Option.map_eq_some_iff.mp hfire
    refine ⟨h.id_lt, fun {e} he ↦ ?_⟩
    dsimp only at he
    by_cases hid : item.id = top.id
    · rw [hid, AList.lookup_insert, Option.some.injEq] at he
      rw [← he]
      dsimp only
      rw [generation_succ_mod hagrees hlookup hbound]
      exact Nat.lt_succ_of_lt (h.generation_lt (hid ▸ hlookup))
    · rw [AList.lookup_insert_ne hid] at he
      exact h.generation_lt he
  · obtain rfl := Option.some.inj hfire
    exact h.forget (Nat.le_refl _) fun he ↦ (lookup_of_lookup_erase he).1

end State

/-! ## Every reachable state

The set of items that have been seen stale is part of the invariant, so that one induction gives
both halves. -/

section Reachable

variable {κ : TimeArith} {s s' : System γ Q} {a : Action γ}

/-- The queue and the map agree, and the given items are stale. -/
structure Lazy (stale : HeapItem → Prop) (st : State γ Q) : Prop where
  agrees : st.Agrees
  stale : ∀ item, stale item → st.Stale item

/-- `Lazy`, as long as the counters have not wrapped. -/
def LazyInv (stale : HeapItem → Prop) (st : State γ Q) : Prop := st.Bounded → Lazy stale st

variable {stale : HeapItem → Prop}

theorem lazyInv_discard {st : State γ Q} (h : LazyInv stale st) :
    LazyInv stale st.discardStaleHeapItems := by
  intro hbound
  have hst : Lazy stale st := h ⟨hbound.scheduled_lt, hbound.fired_lt⟩
  exact ⟨hst.agrees.discardStaleHeapItems,
    fun item hitem ↦ (hst.stale item hitem).forget (Nat.le_refl _) id⟩

theorem lazyInv_schedulerPass {st st' : State γ Q} {now now' : ℤ} {fuel : ℕ} {pass : State.Pass γ}
    (h : LazyInv stale st) (hpass : st.schedulerPass κ now now' fuel = some (st', pass)) :
    LazyInv stale st' := by
  refine State.schedulerPass_rule (I := fun st _ ↦ LazyInv stale st) lazyInv_discard ?_ h hpass
  intro st st' _ fuel item entry hinv htop hlookup hgeneration hdeadline hfire hbound
  have hfired := State.fire_fired hfire
  have hscheduled := State.fire_scheduled hfire
  obtain ⟨hbound₁, hbound₂⟩ := hbound
  obtain ⟨hagrees, hstale⟩ := hinv ⟨by rwa [hscheduled] at hbound₁, by omega⟩
  have hitem : item = entry.item := by
    rw [TimerEntry.item, hgeneration, hdeadline, (hagrees.entry_id hlookup).1]
  exact ⟨hagrees.fire htop hlookup hitem hfire hbound₂,
    fun x hx ↦ (hstale x hx).fire hagrees hlookup hfire hbound₂⟩

theorem lazyInv_insertTimer {st : State γ Q} (h : LazyInv stale st) (entry : TimerEntry γ) :
    LazyInv stale (st.insertTimer entry).1 := by
  intro hbound
  have hst : st.Bounded := by
    obtain ⟨hscheduled, hfired⟩ := hbound
    rw [State.insertTimer] at hscheduled hfired
    split at hscheduled
    · rename_i hclosed
      rw [if_pos hclosed] at hfired
      exact ⟨hscheduled, hfired⟩
    · rename_i hopen
      rw [if_neg hopen] at hfired
      exact ⟨Nat.lt_of_succ_lt hscheduled, hfired⟩
  obtain ⟨hagrees, hstale⟩ := h hst
  exact ⟨hagrees.insertTimer hbound, fun x hx ↦ (hstale x hx).insertTimer hagrees hbound⟩

theorem lazyInv_forget {st : State γ Q} {timers : AList fun _ : ℕ ↦ TimerEntry γ}
    {shuttingDown : Bool} {cancelled : ℕ} (h : LazyInv stale st)
    (hsub : ∀ {id entry}, timers.lookup id = some entry → st.timers.lookup id = some entry) :
    LazyInv stale
      { st with timers := timers, shuttingDown := shuttingDown, cancelled := cancelled } := by
  intro hbound
  obtain ⟨hagrees, hstale⟩ := h ⟨hbound.scheduled_lt, hbound.fired_lt⟩
  exact ⟨hagrees.forget hsub, fun x hx ↦ (hstale x hx).forget (Nat.le_refl _) hsub⟩

theorem lazyInv_step (h : LazyInv stale s.state) (hstep : s.step κ a = some s') :
    LazyInv stale s'.state := by
  cases a with
  | addTimer now deadline interval repeating callback =>
    simp only [System.step] at hstep
    split at hstep
    · obtain rfl := Option.some.inj hstep
      exact h
    · rename_i st id hok
      obtain rfl := Option.some.inj hstep
      obtain ⟨entry, hentry⟩ := State.exists_of_addTimer_eq_ok hok
      rw [show st = (s.state.insertTimer entry).1 from congrArg Prod.fst hentry]
      exact lazyInv_insertTimer h entry
  | cancel id =>
    obtain rfl := Option.some.inj hstep
    dsimp only
    rw [State.cancel]
    split
    · exact h
    split
    · exact lazyInv_forget h fun hlookup ↦ (State.lookup_of_lookup_erase hlookup).1
    · exact h
  | cancelAll =>
    obtain rfl := Option.some.inj hstep
    exact lazyInv_forget h fun hlookup ↦ by cases hlookup
  | shutdown =>
    obtain rfl := Option.some.inj hstep
    exact lazyInv_forget h fun hlookup ↦ by cases hlookup
  | schedulerPass now now' fuel =>
    obtain ⟨⟨st, pass⟩, hpass, rfl⟩ := Option.map_eq_some_iff.mp hstep
    exact lazyInv_schedulerPass h hpass

theorem lazyInv_init : LazyInv (fun _ ↦ False) (machine κ γ Q).init.state := by
  intro _
  refine ⟨⟨rfl, ?_, ?_, ?_, ?_, ?_⟩, fun _ hfalse ↦ hfalse.elim⟩
  · intro id entry hlookup
    cases hlookup
  · intro id entry hlookup
    cases hlookup
  · intro item hitem
    rw [show Q.items (machine κ γ Q).init.state.heap = 0 from Q.items_empty] at hitem
    exact absurd hitem (Multiset.notMem_zero _)
  · intro id entry hlookup
    cases hlookup
  · intro item _ entry hlookup
    cases hlookup

theorem agrees_of_reachable (h : (machine κ γ Q).Reachable s) (hbound : s.state.Bounded) :
    s.state.Agrees := by
  have hinv : LazyInv (fun _ ↦ False) s.state :=
    Machine.Leads.invariant (I := fun s ↦ LazyInv (fun _ ↦ False) s.state) h lazyInv_init
      fun hs _ hstep ↦ lazyInv_step hs hstep
  exact (hinv hbound).agrees

/-- **The queue and the map agree under lazy deletion.** In every state reached with the mutex free,
as long as fewer than `2 ^ 64 - 1` timers have been scheduled and fired: every active timer has
exactly one item in the queue with its id, deadline and generation, every item's id has been handed
out, and an item that is not current is not current in any later state. -/
theorem heap_agrees_with_timers (h : (machine κ γ Q).Reachable s)
    (hscheduled : s.state.scheduled < 2 ^ 64 - 1) (hfired : s.state.fired < 2 ^ 64 - 1) :
    (∀ id entry, s.state.timers.lookup id = some entry →
      (Q.items s.state.heap).count ⟨entry.deadline, id, entry.generation⟩ = 1) ∧
    (∀ item ∈ Q.items s.state.heap, item.id < s.state.nextId) ∧
    (∀ item ∈ Q.items s.state.heap, s.state.isCurrent item = false →
      ∀ s', (machine κ γ Q).Leads (fun _ _ ↦ True) s s' →
        s'.state.scheduled < 2 ^ 64 - 1 → s'.state.fired < 2 ^ 64 - 1 →
        s'.state.isCurrent item = false) := by
  have hagrees := agrees_of_reachable h ⟨hscheduled, hfired⟩
  refine ⟨?_, hagrees.item_id, ?_⟩
  · intro id entry hlookup
    have hcount := hagrees.count_item hlookup
    rwa [TimerEntry.item, (hagrees.entry_id hlookup).1] at hcount
  · intro item hitem hcurrent s' hleads hscheduled' hfired'
    have hstale := State.stale_of_not_current hagrees hitem hcurrent
    have hinv : LazyInv (fun x ↦ x = item) s'.state := by
      refine Machine.Leads.invariant (I := fun s ↦ LazyInv (fun x ↦ x = item) s.state) hleads ?_
        fun hs _ hstep ↦ lazyInv_step hs hstep
      intro _
      refine ⟨hagrees, ?_⟩
      rintro x rfl
      exact hstale
    exact ((hinv ⟨hscheduled', hfired'⟩).stale item rfl).isCurrent_eq

end Reachable

/-- A repeating timer and a one-shot timer; the one-shot one is cancelled and the repeating one is
fired, which leaves a stale item of the first and a rescheduled item of the second. -/
def cancelAndReschedule : List (Action Unit) :=
  [.addTimer 0 5 1 true (some ()), .addTimer 0 2000000 0 false (some ()), .cancel 2,
    .schedulerPass 10 10 3]

theorem heap_agrees_with_timers_cancelAndReschedule :
    ∃ s, (machine .exact Unit (.sortedList HeapItem.after)).Reachable s ∧
      s.state.heap.1 = [⟨1000005, 1, 2⟩, ⟨2000000, 2, 1⟩] ∧
      s.state.isCurrent ⟨2000000, 2, 1⟩ = false ∧
      ∀ s', (machine .exact Unit (.sortedList HeapItem.after)).Leads (fun _ _ ↦ True) s s' →
        s'.state.scheduled < 2 ^ 64 - 1 → s'.state.fired < 2 ^ 64 - 1 →
        s'.state.isCurrent ⟨2000000, 2, 1⟩ = false := by
  obtain ⟨s, hs, hf⟩ := Machine.exists_reachable_of_run
    (M := machine .exact Unit (.sortedList HeapItem.after))
    (fun s ↦ (s.state.scheduled, s.state.fired, s.state.heap.1,
      s.state.isCurrent ⟨2000000, 2, 1⟩)) cancelAndReschedule
    (b := (2, 1, [⟨1000005, 1, 2⟩, ⟨2000000, 2, 1⟩], false)) (by decide +kernel)
  simp only [Prod.mk.injEq] at hf
  obtain ⟨hscheduled, hfired, hheap, hcurrent⟩ := hf
  obtain ⟨-, -, hstale⟩ := heap_agrees_with_timers hs (by rw [hscheduled]; decide)
    (by rw [hfired]; decide)
  refine ⟨s, hs, hheap, hcurrent, hstale _ ?_ hcurrent⟩
  change _ ∈ s.state.heap.1
  rw [hheap]
  exact List.mem_cons_of_mem _ List.mem_cons_self

end HighPerformanceTimer

end FoundationComponents
