import FoundationComponents.HighPerformanceTimer.Outcomes
import FoundationComponents.HighPerformanceTimer.Sleep

/-!
# A pass fires the due timers in order

The drain loop pushes items into the queue that it drains. What keeps it in order is that a
rescheduled timer is not due any more: the items that are due only get fewer, and those of active
timers come off the queue by deadline and id. What a drained queue leaves in the map follows from
the other half of the invariant: every active timer has its item in the queue, so none is due when
nothing due is on top.

Both facts hold for any arithmetic of deadlines, since the inner loop ends with a deadline that is
not due. That it ends at all, and with it the drain loop, needs the additions to be exact.
-/

namespace FoundationComponents

namespace HighPerformanceTimer

variable {γ : Type*} {Q : Heap}

/-! ## What becomes of an entry

A timer that has fired is gone or has a deadline that is not due, whatever arithmetic has found the
deadline. -/

namespace TimerEntry

/-- The order by deadline, and by id among equal deadlines. -/
def before (entry other : TimerEntry γ) : Prop :=
  entry.deadline < other.deadline ∨ entry.deadline = other.deadline ∧ entry.id < other.id

/-- The entry with its next deadline. -/
def reschedule (entry : TimerEntry γ) (next : ℤ) : TimerEntry γ :=
  { entry with deadline := next, generation := (entry.generation + 1) % 2 ^ 64 }

/-- The loop that looks for the next deadline ends with it. -/
def Next (κ : TimeArith) (now : ℤ) (entry : TimerEntry γ) (next : ℤ) : Prop :=
  ∃ fuel, State.advance κ now entry.interval fuel (κ.addMillis entry.deadline entry.interval)
    = some next

/-- What the map holds for a timer after it has fired. -/
inductive Fired (κ : TimeArith) (now : ℤ) (entry : TimerEntry γ) : Option (TimerEntry γ) → Prop
  | once (hrepeating : entry.repeating = false) : Fired κ now entry none
  | again (hrepeating : entry.repeating = true) {next : ℤ} (hlt : now < next)
      (hnext : entry.Next κ now next) : Fired κ now entry (some (entry.reschedule next))

theorem before_irrefl (entry : TimerEntry γ) : ¬entry.before entry := by
  rintro (hlt | ⟨-, hlt⟩)
  · exact lt_irrefl _ hlt
  · exact lt_irrefl _ hlt

theorem before.asymm {entry other : TimerEntry γ} (h : entry.before other) :
    ¬other.before entry := by
  rw [before] at h ⊢
  omega

theorem Fired.lt_deadline {κ : TimeArith} {now : ℤ} {entry other : TimerEntry γ}
    (h : entry.Fired κ now (some other)) : now < other.deadline := by
  cases h with
  | again _ hlt _ => exact hlt

end TimerEntry

namespace State

variable {st st' st₀ : State γ Q} {κ : TimeArith} {now : ℤ} {fuel : ℕ} {item : HeapItem}
  {entry : TimerEntry γ} {due taken : List (TimerEntry γ)}

theorem lt_of_advance {interval deadline next : ℤ}
    (h : advance κ now interval fuel deadline = some next) : now < next := by
  induction fuel generalizing deadline with
  | zero =>
    rw [advance] at h
    split at h
    · cases h
    · rename_i hgt
      obtain rfl := Option.some.inj h
      exact not_le.mp hgt
  | succ fuel ih =>
    rw [advance] at h
    split at h
    · exact ih h
    · rename_i hgt
      obtain rfl := Option.some.inj h
      exact not_le.mp hgt

/-- What firing does to the map. -/
theorem timers_of_fire (h : st.fire κ now fuel item entry = some st') :
    entry.Fired κ now (st'.timers.lookup item.id) ∧
      ∀ k ≠ item.id, st'.timers.lookup k = st.timers.lookup k := by
  rw [fire] at h
  split at h
  · rename_i hrepeating
    obtain ⟨next, hnext, rfl⟩ := Option.map_eq_some_iff.mp h
    refine ⟨?_, fun k hk ↦ AList.lookup_insert_ne hk⟩
    dsimp only
    rw [AList.lookup_insert]
    exact .again hrepeating (lt_of_advance hnext) ⟨fuel, hnext⟩
  · rename_i honce
    obtain rfl := Option.some.inj h
    refine ⟨?_, fun k hk ↦ AList.lookup_erase_ne hk⟩
    dsimp only
    rw [AList.lookup_erase]
    exact .once (Bool.eq_false_iff.mpr honce)

/-! ## The drain loop

As no timer becomes due while the loop runs, what is on top comes before everything that is still
due. So the order in which entries are taken is the one by deadline and id. -/

/-- The loop at `now` has started in `st₀`, has come to `st` and has taken some entries: those of
the ids it has fired are as the firing has left them, all others are untouched, and whatever is due
comes after what has been taken. -/
structure Draining (κ : TimeArith) (now : ℤ) (st₀ st : State γ Q) (taken : List (TimerEntry γ)) :
    Prop where
  covered : st.Covered
  fired_eq : st.fired = st₀.fired + taken.length
  taken_due : ∀ entry ∈ taken, st₀.timers.lookup entry.id = some entry ∧ entry.deadline ≤ now
  sorted : taken.Pairwise TimerEntry.before
  before_due : ∀ earlier ∈ taken, ∀ {id entry}, st.timers.lookup id = some entry →
    entry.deadline ≤ now → earlier.before entry
  untouched : ∀ {id}, (∀ entry ∈ taken, entry.id ≠ id) →
    st.timers.lookup id = st₀.timers.lookup id
  fired : ∀ entry ∈ taken, entry.Fired κ now (st.timers.lookup entry.id)

theorem Draining.discardStaleHeapItems (h : Draining κ now st₀ st taken) :
    Draining κ now st₀ st.discardStaleHeapItems taken :=
  ⟨h.covered.discardStaleHeapItems, h.fired_eq, h.taken_due, h.sorted, h.before_due, h.untouched,
    h.fired⟩

theorem Draining.not_taken (h : Draining κ now st₀ st taken) {id : ℕ}
    (hlookup : st.timers.lookup id = some entry) (hdue : entry.deadline ≤ now) :
    ∀ other ∈ taken, other.id ≠ id := by
  rintro other hother rfl
  have hfired := h.fired other hother
  rw [hlookup] at hfired
  exact absurd hfired.lt_deadline (not_lt.mpr hdue)

/-- The item on top belongs to the first of the timers that are due. -/
theorem before_of_top (h : st.Covered) (htop : Q.top st.heap = some item)
    (hitem : item = entry.item) {id : ℕ} {other : TimerEntry γ}
    (hlookup : st.timers.lookup id = some other) (hne : entry.id ≠ other.id) :
    entry.before other := by
  have hle := HeapItem.after_eq_false_iff.mp (Q.top_le htop _ (h.mem_items hlookup))
  rw [hitem] at hle
  refine hle.imp_right fun heq ↦ ⟨heq.1, lt_of_le_of_ne heq.2 hne⟩

theorem Draining.fire (h : Draining κ now st₀ st taken) (htop : Q.top st.heap = some item)
    (hdue : item.deadline ≤ now) (hlookup : st.timers.lookup item.id = some entry)
    (hgeneration : entry.generation = item.generation) (hdeadline : entry.deadline = item.deadline)
    (hfire : st.fire κ now fuel item entry = some st') :
    Draining κ now st₀ st' (taken ++ [entry]) := by
  have hid : entry.id = item.id := h.covered.entry_id hlookup
  have hitem : item = entry.item := by
    rw [TimerEntry.item, hgeneration, hdeadline, hid]
  have hentry : entry.deadline ≤ now := hdeadline.trans_le hdue
  have hfresh := h.not_taken hlookup hentry
  obtain ⟨hfired, hother⟩ := timers_of_fire hfire
  refine ⟨h.covered.fire htop hlookup hfire, ?_, ?_, ?_, ?_, ?_, ?_⟩
  · rw [fire_fired hfire, h.fired_eq, List.length_append, List.length_singleton, Nat.add_assoc]
  · intro other hmem
    rcases List.mem_append.mp hmem with hold | hnew
    · exact h.taken_due other hold
    · obtain rfl := List.mem_singleton.mp hnew
      rw [hid, ← h.untouched hfresh]
      exact ⟨hlookup, hentry⟩
  · rw [List.pairwise_append]
    refine ⟨h.sorted, List.pairwise_singleton _ _, fun other hold new hnew ↦ ?_⟩
    obtain rfl := List.mem_singleton.mp hnew
    exact h.before_due other hold hlookup hentry
  · intro earlier hmem id other hlookup' hdue'
    -- the timer just fired is not due, so the other one was there before
    have hne : id ≠ item.id := by
      rintro rfl
      rw [hlookup'] at hfired
      exact absurd hfired.lt_deadline (not_lt.mpr hdue')
    rw [hother id hne] at hlookup'
    rcases List.mem_append.mp hmem with hold | hnew
    · exact h.before_due earlier hold hlookup' hdue'
    · obtain rfl := List.mem_singleton.mp hnew
      refine before_of_top h.covered htop hitem hlookup' ?_
      rw [hid, h.covered.entry_id hlookup']
      exact hne.symm
  · intro id hnone
    have hne : id ≠ item.id := by
      rintro rfl
      exact hnone entry (List.mem_append_right _ List.mem_cons_self) hid
    rw [hother id hne]
    exact h.untouched fun other hold ↦ hnone other (List.mem_append_left _ hold)
  · intro other hmem
    rcases List.mem_append.mp hmem with hold | hnew
    · rw [hother _ (hfresh other hold)]
      exact h.fired other hold
    · obtain rfl := List.mem_singleton.mp hnew
      rwa [hid]

/-- The loop ends when nothing due is on top. -/
theorem lt_top_of_drain (h : drain κ now fuel st = some (st', due))
    (htop : Q.top st'.heap = some item) : now < item.deadline := by
  induction fuel generalizing st due with
  | zero => cases h
  | succ fuel ih =>
    rw [drain] at h
    split at h
    · rename_i hempty
      obtain ⟨rfl, rfl⟩ := Prod.mk.inj (Option.some.inj h)
      rw [htop] at hempty
      cases hempty
    dsimp only at h
    split at h
    · rename_i hempty
      obtain ⟨rfl, rfl⟩ := Prod.mk.inj (Option.some.inj h)
      rw [htop] at hempty
      cases hempty
    rename_i first hfirst
    split at h
    · rename_i hlater
      obtain ⟨rfl, rfl⟩ := Prod.mk.inj (Option.some.inj h)
      rw [htop, Option.some.injEq] at hfirst
      rwa [hfirst]
    split at h
    · exact ih h
    split at h
    · exact ih h
    · obtain ⟨st₁, -, hrest⟩ := Option.bind_eq_some_iff.mp h
      obtain ⟨⟨st₂, due₂⟩, hst₂, hpair⟩ := Option.map_eq_some_iff.mp hrest
      obtain ⟨rfl, rfl⟩ := Prod.mk.inj hpair
      exact ih hst₂

/-- What a pass at `now` has done when its loop has ended: it has taken the timers that were due and
no others, in their order, has left the others as they were, and no timer in the map is due. -/
structure Drained (κ : TimeArith) (now : ℤ) (st st' : State γ Q) (due : List (TimerEntry γ)) :
    Prop where
  mem_due : ∀ entry, entry ∈ due ↔
    st.timers.lookup entry.id = some entry ∧ entry.deadline ≤ now
  sorted : due.Pairwise TimerEntry.before
  fired_eq : st'.fired = st.fired + due.length
  fired : ∀ {id entry}, st.timers.lookup id = some entry → entry.deadline ≤ now →
    entry.Fired κ now (st'.timers.lookup id)
  later : ∀ {id entry}, st.timers.lookup id = some entry → now < entry.deadline →
    st'.timers.lookup id = some entry
  absent : ∀ {id}, st.timers.lookup id = none → st'.timers.lookup id = none
  lt_deadline : ∀ {id entry}, st'.timers.lookup id = some entry → now < entry.deadline

theorem draining_start (h : st.Covered) : Draining κ now st st [] :=
  ⟨h, rfl, fun _ hmem ↦ absurd hmem List.not_mem_nil, List.Pairwise.nil,
    fun _ hmem ↦ absurd hmem List.not_mem_nil, fun _ ↦ rfl,
    fun _ hmem ↦ absurd hmem List.not_mem_nil⟩

theorem Draining.drained (h : Draining κ now st st' due)
    (htop : ∀ item, Q.top st'.heap = some item → now < item.deadline) :
    Drained κ now st st' due := by
  have hlt : ∀ {id entry}, st'.timers.lookup id = some entry → now < entry.deadline := by
    intro id entry hlookup
    have hmem := h.covered.mem_items hlookup
    cases hfirst : Q.top st'.heap with
    | none =>
      rw [Q.items_of_top_eq_none hfirst] at hmem
      exact absurd hmem (Multiset.notMem_zero _)
    | some item =>
      have hle := HeapItem.after_eq_false_iff.mp (Q.top_le hfirst _ hmem)
      change item.deadline < entry.deadline ∨ item.deadline = entry.deadline ∧ _ at hle
      have hitem := htop item hfirst
      omega
  -- a timer that was due would still be, had it not been taken
  have htaken : ∀ {id entry}, st.timers.lookup id = some entry → entry.deadline ≤ now →
      entry.id = id ∧ entry ∈ due := by
    intro id entry hlookup hdue
    by_contra hnot
    have huntouched : ∀ other ∈ due, other.id ≠ id := by
      rintro other hother rfl
      obtain ⟨hother', -⟩ := h.taken_due other hother
      rw [hlookup, Option.some.injEq] at hother'
      subst hother'
      exact hnot ⟨rfl, hother⟩
    have hstill := h.untouched huntouched
    rw [hlookup] at hstill
    exact absurd (hlt hstill) (not_lt.mpr hdue)
  refine ⟨fun entry ↦ ⟨h.taken_due entry, fun hentry ↦ (htaken hentry.1 hentry.2).2⟩, h.sorted,
    h.fired_eq, ?_, ?_, ?_, hlt⟩
  · intro id entry hlookup hdue
    obtain ⟨rfl, hmem⟩ := htaken hlookup hdue
    exact h.fired entry hmem
  · intro id entry hlookup hlater
    rw [h.untouched, hlookup]
    rintro other hother rfl
    obtain ⟨hother', hdue⟩ := h.taken_due other hother
    rw [hlookup, Option.some.injEq] at hother'
    rw [hother'] at hlater
    exact absurd hlater (not_lt.mpr hdue)
  · intro id hlookup
    rw [h.untouched, hlookup]
    rintro other hother rfl
    obtain ⟨hother', -⟩ := h.taken_due other hother
    rw [hlookup] at hother'
    cases hother'

/-- **The drain loop**, when it ends. -/
theorem drained_of_drain (h : st.Covered) (hdrain : drain κ now fuel st = some (st', due)) :
    Drained κ now st st' due :=
  Draining.drained
    (drain_rule Draining.discardStaleHeapItems
      (fun hI htop hdue hlookup hgeneration hdeadline hfire ↦
        hI.fire htop hdue hlookup hgeneration hdeadline hfire)
      [] (draining_start h) hdrain)
    fun _ htop ↦ lt_top_of_drain hdrain htop

/-- A pass drains the queue, or takes nothing and leaves the map alone. -/
theorem drained_of_schedulerPass {now' : ℤ} {pass : Pass γ} (h : st.Covered)
    (hpass : st.schedulerPass κ now now' fuel = some (st', pass)) :
    st'.timers = st.timers ∧ pass.due = [] ∨ Drained κ now' st st' pass.due := by
  rw [schedulerPass] at hpass
  split at hpass
  · obtain ⟨rfl, rfl⟩ := Prod.mk.inj (Option.some.inj hpass)
    exact Or.inl ⟨rfl, rfl⟩
  dsimp only at hpass
  split at hpass
  · obtain ⟨rfl, rfl⟩ := Prod.mk.inj (Option.some.inj hpass)
    exact Or.inl ⟨rfl, rfl⟩
  split at hpass
  · obtain ⟨rfl, rfl⟩ := Prod.mk.inj (Option.some.inj hpass)
    exact Or.inl ⟨rfl, rfl⟩
  · obtain ⟨⟨st₁, due₁⟩, hdrain, hpair⟩ := Option.map_eq_some_iff.mp hpass
    obtain ⟨rfl, rfl⟩ := Prod.mk.inj hpair
    have hdrained := drained_of_drain h.discardStaleHeapItems hdrain
    exact Or.inr ⟨hdrained.mem_due, hdrained.sorted, hdrained.fired_eq, hdrained.fired,
      hdrained.later, hdrained.absent, hdrained.lt_deadline⟩

/-! ## Termination

Each iteration takes a due item off the queue and puts none in. The loop for the next deadline ends
since each addition moves it on, by at least a nanosecond if the additions are exact. -/

/-- The deadlines that the pass at `now` comes past do not overflow. -/
def AddsExactly (κ : TimeArith) (now : ℤ) (st : State γ Q) : Prop :=
  ∀ {id entry}, st.timers.lookup id = some entry → entry.repeating = true →
    ∀ time, entry.deadline ≤ time → time ≤ now →
      κ.addMillis time entry.interval = time + entry.interval * 10 ^ 6

/-- The deadlines do not overflow, and none is further back than the bound. -/
structure Steady (κ : TimeArith) (now : ℤ) (bound : ℕ) (st : State γ Q) : Prop where
  exact : st.AddsExactly κ now
  lag : ∀ {id entry}, st.timers.lookup id = some entry → now < entry.deadline + bound

private theorem advance_succ {interval deadline next : ℤ}
    (h : advance κ now interval fuel deadline = some next) :
    advance κ now interval (fuel + 1) deadline = some next := by
  induction fuel generalizing deadline with
  | zero =>
    rw [advance] at h
    split at h
    · cases h
    · rename_i hgt
      rwa [advance, if_neg hgt]
  | succ fuel ih =>
    rw [advance] at h
    rw [advance]
    split at h
    · rename_i hle
      rw [if_pos hle]
      exact ih h
    · rename_i hgt
      rwa [if_neg hgt]

private theorem advance_add {interval deadline next : ℤ} (more : ℕ)
    (h : advance κ now interval fuel deadline = some next) :
    advance κ now interval (fuel + more) deadline = some next := by
  induction more with
  | zero => exact h
  | succ more ih => exact advance_succ ih

private theorem fire_succ (h : st.fire κ now fuel item entry = some st') :
    st.fire κ now (fuel + 1) item entry = some st' := by
  rw [fire] at h ⊢
  split at h
  · rename_i hrepeating
    obtain ⟨next, hnext, rfl⟩ := Option.map_eq_some_iff.mp h
    rw [if_pos hrepeating, advance_succ hnext]
    rfl
  · rename_i honce
    rwa [if_neg honce]

private theorem drain_succ (h : drain κ now fuel st = some (st', due)) :
    drain κ now (fuel + 1) st = some (st', due) := by
  induction fuel generalizing st due with
  | zero => cases h
  | succ fuel ih =>
    rw [drain] at h ⊢
    split at h
    · rename_i hempty
      rwa [if_pos hempty]
    rename_i hsome
    rw [if_neg hsome]
    dsimp only at h ⊢
    split at h
    · exact h
    split at h
    · rename_i hlater
      rwa [if_pos hlater]
    rename_i hdue
    rw [if_neg hdue]
    split at h
    · exact ih h
    split at h
    · rename_i hstale
      rw [if_pos hstale]
      exact ih h
    · rename_i hcurrent
      rw [if_neg hcurrent]
      obtain ⟨st₁, hst₁, hrest⟩ := Option.bind_eq_some_iff.mp h
      obtain ⟨⟨st₂, due₂⟩, hst₂, hpair⟩ := Option.map_eq_some_iff.mp hrest
      obtain ⟨rfl, rfl⟩ := Prod.mk.inj hpair
      rw [fire_succ hst₁, Option.bind_some, ih hst₂]
      rfl

theorem drain_add (more : ℕ) (h : drain κ now fuel st = some (st', due)) :
    drain κ now (fuel + more) st = some (st', due) := by
  induction more with
  | zero => exact h
  | succ more ih => exact drain_succ ih

private theorem exists_advance {interval start time : ℤ} (hpos : 0 < interval)
    (hexact : ∀ time, start ≤ time → time ≤ now →
      κ.addMillis time interval = time + interval * 10 ^ 6)
    (hstart : start ≤ time) (hfuel : now < time + fuel) :
    ∃ next, advance κ now interval fuel time = some next := by
  induction fuel generalizing time with
  | zero =>
    rw [advance, if_neg (by omega)]
    exact ⟨time, rfl⟩
  | succ fuel ih =>
    rw [advance]
    split
    · rename_i hle
      rw [hexact time hstart hle]
      exact ih (by omega) (by push_cast at hfuel; omega)
    · exact ⟨time, rfl⟩

/-- The number of items that are due. -/
def dueItems (now : ℤ) (st : State γ Q) : ℕ :=
  (Q.items st.heap).countP fun item ↦ item.deadline ≤ now

theorem dueItems_discardStaleHeapItems (now : ℤ) (st : State γ Q) :
    st.discardStaleHeapItems.dueItems now ≤ st.dueItems now := by
  obtain ⟨lost, hitems, -⟩ :=
    MinQueue.items_discardWhile (fun item ↦ !st.isCurrent item) st.heap
  rw [dueItems, dueItems, hitems, Multiset.countP_add]
  exact Nat.le_add_left _ _

theorem dueItems_pop (htop : Q.top st.heap = some item) (hdue : item.deadline ≤ now) :
    dueItems now { st with heap := Q.pop st.heap } + 1 = st.dueItems now := by
  rw [dueItems, dueItems, Q.items_of_top_eq_some htop,
    Multiset.countP_cons_of_pos (p := fun item : HeapItem ↦ item.deadline ≤ now) _ hdue]

theorem dueItems_fire (htop : Q.top st.heap = some item) (hdue : item.deadline ≤ now)
    (hfire : st.fire κ now fuel item entry = some st') :
    st'.dueItems now + 1 = st.dueItems now := by
  rw [← dueItems_pop htop hdue]
  rw [fire] at hfire
  split at hfire
  · obtain ⟨next, hnext, rfl⟩ := Option.map_eq_some_iff.mp hfire
    rw [dueItems, Q.items_push, Multiset.countP_cons_of_neg
      (p := fun item : HeapItem ↦ item.deadline ≤ now) _ (not_le.mpr (lt_of_advance hnext))]
    rfl
  · obtain rfl := Option.some.inj hfire
    rfl

/-- The loop for the next deadline of any timer that is due ends within the bound. -/
def Ends (κ : TimeArith) (now : ℤ) (bound : ℕ) (st : State γ Q) : Prop :=
  ∀ {id entry}, st.timers.lookup id = some entry → entry.repeating = true →
    entry.deadline ≤ now → ∃ next, advance κ now entry.interval bound
      (κ.addMillis entry.deadline entry.interval) = some next

theorem Steady.ends {bound : ℕ} (h : Steady κ now bound st) : Ends κ now bound st := by
  intro id entry hlookup hrepeating hdue
  have hpos := entry.interval_pos hrepeating
  have hexact := h.exact hlookup hrepeating
  have hlag := h.lag hlookup
  rw [hexact _ (le_refl _) hdue]
  exact exists_advance hpos hexact (by omega) (by omega)

private theorem exists_fire {bound : ℕ} (hends : Ends κ now bound st)
    (hlookup : st.timers.lookup item.id = some entry) (hdue : entry.deadline ≤ now)
    (hfuel : bound ≤ fuel) : ∃ st', st.fire κ now fuel item entry = some st' := by
  rw [fire]
  split
  · rename_i hrepeating
    obtain ⟨next, hnext⟩ := hends hlookup hrepeating hdue
    obtain ⟨more, rfl⟩ := Nat.exists_eq_add_of_le hfuel
    rw [advance_add more hnext]
    exact ⟨_, rfl⟩
  · exact ⟨_, rfl⟩

theorem Ends.fire {bound : ℕ} (h : Ends κ now bound st)
    (hfire : st.fire κ now fuel item entry = some st') : Ends κ now bound st' := by
  obtain ⟨hfired, hother⟩ := timers_of_fire hfire
  intro id e hlookup hrepeating hdue
  by_cases hid : id = item.id
  · subst hid
    rw [hlookup] at hfired
    exact absurd hfired.lt_deadline (not_lt.mpr hdue)
  · exact h (hother id hid ▸ hlookup) hrepeating hdue

/-- **The drain loop ends.** Every iteration takes one due item off the queue. -/
theorem exists_drain_of_ends {bound : ℕ} (hends : Ends κ now bound st)
    (hfuel : st.dueItems now + bound < fuel) : ∃ next, drain κ now fuel st = some next := by
  induction fuel generalizing st with
  | zero => exact absurd hfuel (Nat.not_lt_zero _)
  | succ fuel ih =>
    rw [drain]
    split
    · exact ⟨_, rfl⟩
    have hdiscarded := dueItems_discardStaleHeapItems now st
    have hends' : Ends κ now bound st.discardStaleHeapItems := hends
    dsimp only
    generalize st.discardStaleHeapItems = st₁ at hdiscarded hends' ⊢
    split
    · exact ⟨_, rfl⟩
    rename_i first htop
    split
    · exact ⟨_, rfl⟩
    rename_i hdue
    rw [not_lt] at hdue
    have hpop := dueItems_pop htop hdue
    have hbound : bound ≤ fuel := by omega
    have hskip : ∃ next, drain κ now fuel { st₁ with heap := Q.pop st₁.heap } = some next :=
      ih hends' (by omega)
    split
    · exact hskip
    rename_i entry hlookup
    split
    · exact hskip
    rename_i hcurrent
    rw [not_or, not_ne_iff, not_ne_iff] at hcurrent
    obtain ⟨st₂, hst₂⟩ := exists_fire hends' hlookup (hcurrent.2.trans_le hdue) hbound
    have hfired := dueItems_fire htop hdue hst₂
    obtain ⟨next, hnext⟩ := ih (hends'.fire hst₂) (by omega)
    rw [hst₂, Option.bind_some, hnext]
    exact ⟨_, rfl⟩

/-- There are finitely many timers, so none is too far back. -/
theorem exists_steady (hexact : st.AddsExactly κ now) : ∃ bound, Steady κ now bound st := by
  have hlag : ∀ entries : List (Sigma fun _ : ℕ ↦ TimerEntry γ),
      ∃ bound : ℕ, ∀ entry ∈ entries, now < entry.2.deadline + bound := by
    intro entries
    induction entries with
    | nil => exact ⟨0, fun _ hmem ↦ absurd hmem List.not_mem_nil⟩
    | cons first rest ih =>
      obtain ⟨bound, hbound⟩ := ih
      refine ⟨bound + (now - first.2.deadline).toNat + 1, fun entry hmem ↦ ?_⟩
      push_cast
      rcases List.mem_cons.mp hmem with rfl | hmem
      · omega
      · have hlt := hbound entry hmem
        omega
  obtain ⟨bound, hbound⟩ := hlag st.timers.entries
  exact ⟨bound, hexact, fun hlookup ↦ hbound ⟨_, _⟩ (AList.mem_lookup_iff.mp hlookup)⟩

/-! ## The agreement of the queue and the map

A pass keeps it if no item is newer than its timer: such an item would become current when the timer
is rescheduled with its generation and deadline. -/

/-- Every active timer has exactly one current item; whatever else is in the queue is stale. -/
structure OneCurrent (st : State γ Q) : Prop where
  entry_id : ∀ {id entry}, st.timers.lookup id = some entry → entry.id = id
  count_item : ∀ {id entry}, st.timers.lookup id = some entry →
    (Q.items st.heap).count entry.item = 1

/-- No item of an active timer is of a newer generation than the timer. -/
def NoneNewer (st : State γ Q) : Prop :=
  ∀ item ∈ Q.items st.heap, ∀ {entry}, st.timers.lookup item.id = some entry →
    item.generation ≤ entry.generation

theorem OneCurrent.covered (h : st.OneCurrent) : st.Covered where
  entry_id := h.entry_id
  mem_items hlookup := Multiset.count_pos.mp (by rw [h.count_item hlookup]; exact Nat.one_pos)

theorem OneCurrent.discardStaleHeapItems (h : st.OneCurrent) :
    st.discardStaleHeapItems.OneCurrent := by
  refine ⟨h.entry_id, fun {id entry} hlookup ↦ ?_⟩
  rw [count_discardStaleHeapItems (h.covered.isCurrent hlookup)]
  exact h.count_item hlookup

theorem NoneNewer.discardStaleHeapItems (h : st.NoneNewer) :
    st.discardStaleHeapItems.NoneNewer :=
  fun item hitem ↦ h item (MinQueue.mem_of_mem_discardWhile hitem)

theorem OneCurrent.count_pop (h : st.OneCurrent) (htop : Q.top st.heap = some item) {id : ℕ}
    (hlookup : st.timers.lookup id = some entry) (hne : id ≠ item.id) :
    (Q.items (Q.pop st.heap)).count entry.item = 1 := by
  have hcount := h.count_item hlookup
  have hdiff : entry.item ≠ item := by
    rintro rfl
    exact hne (h.entry_id hlookup).symm
  rwa [Q.items_of_top_eq_some htop, Multiset.count_cons_of_ne hdiff] at hcount

theorem OneCurrent.put (h : st.OneCurrent) (hnewer : st.NoneNewer) {new : TimerEntry γ}
    (hid : new.id = item.id) (htop : Q.top st.heap = some item)
    (hfresh : ∀ x ∈ Q.items st.heap, x.id = item.id → x.generation < new.generation)
    (hitems : Q.items st'.heap = new.item ::ₘ Q.items (Q.pop st.heap))
    (htimers : st'.timers = st.timers.insert item.id new) : st'.OneCurrent ∧ st'.NoneNewer := by
  have hmem : ∀ x ∈ Q.items (Q.pop st.heap), x ∈ Q.items st.heap :=
    fun _ hx ↦ MinQueue.mem_of_mem_pop htop hx
  have hcases : ∀ {id e}, st'.timers.lookup id = some e →
      id = item.id ∧ e = new ∨ id ≠ item.id ∧ st.timers.lookup id = some e := by
    intro id e hlookup
    rw [htimers] at hlookup
    by_cases hself : id = item.id
    · rw [hself, AList.lookup_insert, Option.some.injEq] at hlookup
      exact Or.inl ⟨hself, hlookup.symm⟩
    · rw [AList.lookup_insert_ne hself] at hlookup
      exact Or.inr ⟨hself, hlookup⟩
  refine ⟨⟨fun {id e} hlookup ↦ ?_, fun {id e} hlookup ↦ ?_⟩, fun x hx e hlookup ↦ ?_⟩
  · rcases hcases hlookup with ⟨rfl, rfl⟩ | ⟨-, hold⟩
    · exact hid
    · exact h.entry_id hold
  · rw [hitems]
    rcases hcases hlookup with ⟨-, rfl⟩ | ⟨hne, hold⟩
    · have hgone : e.item ∉ Q.items (Q.pop st.heap) := fun hin ↦
        absurd (hfresh _ (hmem _ hin) hid) (Nat.lt_irrefl _)
      rw [Multiset.count_cons_self, Multiset.count_eq_zero_of_notMem hgone]
    · have hdiff : e.item ≠ new.item := by
        intro heq
        have hsame : e.id = new.id := congrArg HeapItem.id heq
        rw [h.entry_id hold, hid] at hsame
        exact hne hsame
      rw [Multiset.count_cons_of_ne hdiff]
      exact h.count_pop htop hold hne
  · rw [hitems, Multiset.mem_cons] at hx
    rcases hcases hlookup with ⟨hself, rfl⟩ | ⟨hne, hold⟩
    · rcases hx with rfl | hx
      · exact Nat.le_refl _
      · exact (hfresh x (hmem x hx) hself).le
    · rcases hx with rfl | hx
      · exact absurd hid hne
      · exact hnewer x (hmem x hx) hold

/-- **One firing.** A timer that goes on has one item again, the new one. -/
theorem OneCurrent.fire (h : st.OneCurrent) (hnewer : st.NoneNewer)
    (hwrap : entry.generation + 1 < 2 ^ 64) (htop : Q.top st.heap = some item)
    (hlookup : st.timers.lookup item.id = some entry)
    (hfire : st.fire κ now fuel item entry = some st') : st'.OneCurrent ∧ st'.NoneNewer := by
  have hentry : entry.id = item.id := h.entry_id hlookup
  rw [State.fire] at hfire
  split at hfire
  · obtain ⟨next, -, rfl⟩ := Option.map_eq_some_iff.mp hfire
    have hid : (entry.reschedule next).id = item.id := hentry
    have hitems := Q.items_push (entry.reschedule next).item (Q.pop st.heap)
    refine h.put hnewer hid htop ?_ hitems rfl
    intro x hx hxid
    have hle := hnewer x hx (hxid ▸ hlookup)
    change x.generation < (entry.generation + 1) % 2 ^ 64
    rw [Nat.mod_eq_of_lt hwrap]
    exact Nat.lt_succ_of_le hle
  · obtain rfl := Option.some.inj hfire
    refine ⟨⟨fun hlookup' ↦ h.entry_id (lookup_of_lookup_erase hlookup').1,
      fun hlookup' ↦ ?_⟩, fun x hx _ hlookup' ↦ ?_⟩
    · obtain ⟨hold, hne⟩ := lookup_of_lookup_erase hlookup'
      exact h.count_pop htop hold hne
    · exact hnewer x (MinQueue.mem_of_mem_pop htop hx) (lookup_of_lookup_erase hlookup').1

theorem oneCurrent_of_drain (h : st.OneCurrent) (hnewer : st.NoneNewer)
    (hwrap : ∀ {id entry}, st.timers.lookup id = some entry → entry.generation + 1 < 2 ^ 64)
    (hdrain : drain κ now fuel st = some (st', due)) : st'.OneCurrent ∧ st'.NoneNewer := by
  refine (drain_rule (I := fun st₁ taken ↦ Draining κ now st st₁ taken ∧ st₁.OneCurrent ∧
    st₁.NoneNewer) ?_ ?_ [] ⟨draining_start h.covered, h, hnewer⟩ hdrain).2
  · rintro st₁ taken ⟨hI, hone, hnone⟩
    exact ⟨hI.discardStaleHeapItems, hone.discardStaleHeapItems, hnone.discardStaleHeapItems⟩
  · rintro st₁ st₂ taken fuel item entry ⟨hI, hone, hnone⟩ htop hdue hlookup hgeneration hdeadline
      hfire
    refine ⟨hI.fire htop hdue hlookup hgeneration hdeadline hfire, hone.fire hnone ?_ htop hlookup
      hfire⟩
    have hfresh := hI.not_taken hlookup (hdeadline.trans_le hdue)
    exact hwrap (hI.untouched hfresh ▸ hlookup)

end State

/-! ## Order over runs

Sections between two passes may cancel a timer or drop it. So the order of two firings is stated for
timers that are in the map until they fire. -/

section Runs

variable {κ : TimeArith} {s t : System γ Q} {a : Action γ}

theorem firedEvents_eq (pass : State.Pass γ) :
    System.firedEvents pass = pass.due.map Event.fired := by
  cases pass <;> rfl

private theorem lookup_insertTimer {st : State γ Q} {id : ℕ} {entry : TimerEntry γ}
    (new : TimerEntry γ) (hlookup : st.timers.lookup id = some entry) :
    (st.insertTimer new).1.timers.lookup id = some entry := by
  rw [State.insertTimer]
  split
  · exact hlookup
  dsimp only
  rw [State.emplace]
  split
  · exact hlookup
  · rename_i hfresh
    have hne : id ≠ st.nextId := by
      rintro rfl
      rw [AList.lookup_eq_none.mpr hfresh] at hlookup
      cases hlookup
    rwa [AList.lookup_insert_ne hne]

/-- What a section does to the timers in the map, with what it makes observable. It fires nothing,
and what it takes out of the map is observable; or it drains the queue. -/
inductive SectionChange (κ : TimeArith) (s : System γ Q) (a : Action γ) (t : System γ Q)
    (events : List (Event γ)) : Prop
  | quiet (hquiet : ∀ entry, Event.fired entry ∉ events)
      (hkept : ∀ {id entry}, s.state.timers.lookup id = some entry →
        t.state.timers.lookup id = some entry ∨
          t.state.timers.lookup id = none ∧ ∃ event ∈ events, event.outcomes id ≠ 0)
  | drain {now now' : ℤ} {fuel : ℕ} {due : List (TimerEntry γ)}
      (haction : a = .schedulerPass now now' fuel) (hevents : events = due.map Event.fired)
      (hdrained : State.Drained κ now' s.state t.state due)

theorem section_change (hcovered : s.state.Covered) (hstep : s.step κ a = some t) :
    ∃ events, t.history = s.history ++ events ∧ SectionChange κ s a t events := by
  have hkeys : ∀ {id entry}, s.state.timers.lookup id = some entry →
      s.state.timers.keys.count id = 1 := by
    intro id entry hlookup
    rw [Accounted.count_keys,
      if_pos (AList.lookup_isSome.mp (Option.isSome_of_eq_some hlookup))]
  cases a with
  | addTimer now deadline interval repeating callback =>
    rw [System.step] at hstep
    split at hstep
    · obtain rfl := Option.some.inj hstep
      exact ⟨[], (List.append_nil _).symm, .quiet (fun _ ↦ List.not_mem_nil) Or.inl⟩
    · rename_i st id hadd
      obtain rfl := Option.some.inj hstep
      obtain ⟨new, hnew⟩ := State.exists_of_addTimer_eq_ok hadd
      obtain rfl : st = (s.state.insertTimer new).1 := congrArg Prod.fst hnew
      refine ⟨_, rfl, .quiet (fun entry hmem ↦ ?_) fun hlookup ↦
        Or.inl (lookup_insertTimer new hlookup)⟩
      rw [System.scheduledEvents] at hmem
      split at hmem
      · exact absurd hmem List.not_mem_nil
      · rw [Option.mem_toList, Option.map_eq_some_iff] at hmem
        obtain ⟨_, -, heq⟩ := hmem
        cases heq
  | cancel other =>
    obtain rfl := Option.some.inj hstep
    refine ⟨_, rfl, .quiet (fun entry hmem ↦ ?_) fun {id entry} hlookup ↦ ?_⟩
    · split at hmem
      · exact absurd (List.mem_singleton.mp hmem) (by simp)
      · exact absurd hmem List.not_mem_nil
    · dsimp only
      rw [State.cancel]
      split
      · exact Or.inl hlookup
      split
      · by_cases hid : id = other
        · subst hid
          refine Or.inr ⟨AList.lookup_erase _ _, .cancelled id, List.mem_cons_self, ?_⟩
          simp [Event.outcomes, Event.cancellations]
        · exact Or.inl ((AList.lookup_erase_ne hid).trans hlookup)
      · exact Or.inl hlookup
  | cancelAll =>
    obtain rfl := Option.some.inj hstep
    refine ⟨_, rfl, .quiet (fun entry hmem ↦ ?_) fun {id entry} hlookup ↦
      Or.inr ⟨rfl, _, List.mem_cons_self, ?_⟩⟩
    · exact absurd (List.mem_singleton.mp hmem) (by simp)
    · simp [Event.outcomes, Event.removals, hkeys hlookup]
  | shutdown =>
    obtain rfl := Option.some.inj hstep
    refine ⟨_, rfl, .quiet (fun entry hmem ↦ ?_) fun {id entry} hlookup ↦
      Or.inr ⟨rfl, _, List.mem_cons_self, ?_⟩⟩
    · exact absurd (List.mem_singleton.mp hmem) (by simp)
    · simp [Event.outcomes, Event.drops, hkeys hlookup]
  | schedulerPass now now' fuel =>
    obtain ⟨⟨st, pass⟩, hpass, rfl⟩ := Option.map_eq_some_iff.mp hstep
    refine ⟨_, rfl, ?_⟩
    rw [firedEvents_eq]
    obtain ⟨htimers, hdue⟩ | hdrained := State.drained_of_schedulerPass hcovered hpass
    · rw [hdue]
      refine .quiet (fun _ ↦ List.not_mem_nil) fun hlookup ↦ Or.inl ?_
      dsimp only
      rwa [htimers]
    · exact .drain rfl rfl hdrained

theorem SectionChange.active {entry : TimerEntry γ} {events : List (Event γ)}
    (h : SectionChange κ s a t events) (hrepeating : entry.repeating = false)
    (hlookup : s.state.timers.lookup entry.id = some entry)
    (hout : ∀ event ∈ events, event.outcomes entry.id = 0) :
    t.state.timers.lookup entry.id = some entry := by
  cases h with
  | quiet _ hkept =>
    refine (hkept hlookup).resolve_right ?_
    rintro ⟨-, event, hmem, hne⟩
    exact hne (hout event hmem)
  | @drain now now' fuel due _ hevents hdrained =>
    by_cases hdue : entry.deadline ≤ now'
    · -- it would have fired
      have hmem : Event.fired entry ∈ events := by
        rw [hevents]
        exact List.mem_map_of_mem ((hdrained.mem_due entry).mpr ⟨hlookup, hdue⟩)
      have hfired := hout _ hmem
      simp [Event.outcomes, hrepeating] at hfired
    · exact hdrained.later hlookup (not_le.mp hdue)

theorem SectionChange.first_left {first second : TimerEntry γ}
    {events earlier later : List (Event γ)} (h : SectionChange κ s a t events)
    (hrepeating : first.repeating = false) (hfirst : s.state.timers.lookup first.id = some first)
    (hbefore : first.before second) (hevents : events = earlier ++ .fired second :: later) :
    ∃ event ∈ earlier, event.outcomes first.id ≠ 0 := by
  cases h with
  | quiet hquiet _ =>
    refine absurd ?_ (hquiet second)
    rw [hevents]
    exact List.mem_append_right _ List.mem_cons_self
  | @drain now now' fuel due _ hdue hdrained =>
    rw [hdue] at hevents
    obtain ⟨taken, rest, rfl, rfl, hrest⟩ := List.map_eq_append_iff.mp hevents
    obtain ⟨entry, rest, rfl, hentry, -⟩ := List.map_eq_cons_iff.mp hrest
    obtain rfl := Event.fired.inj hentry
    have hsecond := (hdrained.mem_due entry).mp (List.mem_append_right _ List.mem_cons_self)
    have hdeadline : first.deadline ≤ now' := by
      rcases hbefore with hlt | ⟨heq, -⟩
      · exact hlt.le.trans hsecond.2
      · exact heq.trans_le hsecond.2
    -- the first one is due too, and the second one does not come before it
    have hmem := (hdrained.mem_due first).mpr ⟨hfirst, hdeadline⟩
    have hsorted := hdrained.sorted
    rw [List.pairwise_append, List.pairwise_cons] at hsorted
    rw [List.mem_append, List.mem_cons] at hmem
    obtain htaken | rfl | hrest' := hmem
    · refine ⟨_, List.mem_map_of_mem htaken, ?_⟩
      simp [Event.outcomes, hrepeating]
    · exact absurd hbefore (TimerEntry.before_irrefl _)
    · exact absurd hbefore (hsorted.2.1.1 first hrest').asymm

/-- A timer fires after the given events, and is in the map until then. -/
structure FiresAfter (earlier events : List (Event γ)) (entry : TimerEntry γ) : Prop where
  exists_later : ∃ later, events = earlier ++ .fired entry :: later
  active : ∀ event ∈ earlier, event.outcomes entry.id = 0

/-- What a run has made observable since two one-shot timers were active: the first one is still
active or has left, and the second one has not fired before that. -/
structure Ordered (first second : TimerEntry γ) (events : List (Event γ)) (st : State γ Q) :
    Prop where
  covered : st.Covered
  active : (∀ event ∈ events, event.outcomes first.id = 0) →
    st.timers.lookup first.id = some first
  first_left : ∀ {earlier later}, events = earlier ++ .fired second :: later →
    ∃ event ∈ earlier, event.outcomes first.id ≠ 0

theorem Ordered.step {first second : TimerEntry γ} {events : List (Event γ)}
    (h : Ordered first second events s.state) (hrepeating : first.repeating = false)
    (hbefore : first.before second) (hstep : s.step κ a = some t) :
    ∃ new, t.history = s.history ++ new ∧ Ordered first second (events ++ new) t.state := by
  obtain ⟨new, hhistory, hchange⟩ := section_change h.covered hstep
  refine ⟨new, hhistory, covered_step h.covered hstep, fun hout ↦ ?_, ?_⟩
  · obtain ⟨hold, hnew⟩ := List.forall_mem_append.mp hout
    exact hchange.active hrepeating (h.active hold) hnew
  · intro earlier later heq
    -- a firing in this section; `middle` is what the section has made observable before it
    have hhere : ∀ {middle}, new = middle ++ .fired second :: later →
        ∃ event ∈ events ++ middle, event.outcomes first.id ≠ 0 := by
      intro middle hnew
      by_cases hleft : ∃ event ∈ events, event.outcomes first.id ≠ 0
      · obtain ⟨event, hmem, hne⟩ := hleft
        exact ⟨event, List.mem_append_left _ hmem, hne⟩
      · push Not at hleft
        obtain ⟨event, hmem, hne⟩ := hchange.first_left hrepeating (h.active hleft) hbefore hnew
        exact ⟨event, List.mem_append_right _ hmem, hne⟩
    rcases List.append_eq_append_iff.mp heq with ⟨middle, rfl, hnew⟩ | ⟨middle, rfl, hrest⟩
    · exact hhere hnew
    · cases middle with
      | nil =>
        rw [List.append_nil] at hhere
        have hnew : new = [] ++ .fired second :: later := hrest.symm
        have hleft := hhere hnew
        rwa [List.append_nil] at hleft
      | cons event middle =>
        obtain ⟨rfl, -⟩ := List.cons.inj hrest
        exact h.first_left rfl

/-- Of two timers active at the same moment, the later one does not fire before the earlier one has
left the map. -/
theorem ordered_of_leads (hs : (machine κ γ Q).Reachable s)
    (hleads : (machine κ γ Q).Leads (fun _ _ ↦ True) s t) {first second : TimerEntry γ}
    (hfirst : s.state.timers.lookup first.id = some first) (hrepeating : first.repeating = false)
    (hbefore : first.before second) :
    ∃ events, t.history = s.history ++ events ∧ Ordered first second events t.state := by
  refine Machine.Leads.invariant (I := fun t : System γ Q ↦
    ∃ events, t.history = s.history ++ events ∧ Ordered first second events t.state) hleads ?_ ?_
  · refine ⟨[], (List.append_nil _).symm, covered_of_reachable hs, fun _ ↦ hfirst, ?_⟩
    intro earlier later heq
    exact absurd heq.symm (List.append_ne_nil_of_right_ne_nil _ (List.cons_ne_nil _ _))
  · rintro u a v ⟨events, hhistory, hordered⟩ - hstep
    obtain ⟨new, hhistory', hordered'⟩ := hordered.step hrepeating hbefore hstep
    exact ⟨events ++ new, by rw [hhistory', hhistory, List.append_assoc], hordered'⟩

private theorem exists_events_of_leads (hs : (machine κ γ Q).Reachable s)
    (hleads : (machine κ γ Q).Leads (fun _ _ ↦ True) s t) :
    ∃ events, t.history = s.history ++ events := by
  refine (Machine.Leads.invariant (I := fun t : System γ Q ↦
    t.state.Covered ∧ ∃ events, t.history = s.history ++ events) hleads
    ⟨covered_of_reachable hs, [], (List.append_nil _).symm⟩ ?_).2
  rintro u a v ⟨hcovered, events, hhistory⟩ - hstep
  obtain ⟨new, hhistory', -⟩ := section_change hcovered hstep
  exact ⟨covered_step hcovered hstep, events ++ new,
    by rw [hhistory', hhistory, List.append_assoc]⟩

theorem fires_first (hs : (machine κ γ Q).Reachable s)
    (hleads : (machine κ γ Q).Leads (fun _ _ ↦ True) s t) {events earlier earlier' : List (Event γ)}
    (hevents : t.history = s.history ++ events) {first second : TimerEntry γ}
    (hfirst : s.state.timers.lookup first.id = some first) (hrepeating : first.repeating = false)
    (hbefore : first.before second) (hfires : FiresAfter earlier events first)
    (hfires' : FiresAfter earlier' events second) : earlier.length < earlier'.length := by
  obtain ⟨events', hevents', hordered⟩ := ordered_of_leads hs hleads hfirst hrepeating hbefore
  obtain rfl := List.append_cancel_left (hevents.symm.trans hevents')
  obtain ⟨later', hlater'⟩ := hfires'.exists_later
  obtain ⟨event, hmem, hne⟩ := hordered.first_left hlater'
  by_contra hle
  -- then the first timer would have left the map before it fires
  have hinitial : earlier' <+: earlier := by
    obtain ⟨later, hlater⟩ := hfires.exists_later
    exact List.prefix_of_prefix_length_le ⟨_, hlater'.symm⟩ ⟨_, hlater.symm⟩ (not_lt.mp hle)
  exact hne (hfires.active event (hinitial.subset hmem))

theorem oneCurrent_of_reachable (hs : (machine κ γ Q).Reachable s) (hbound : s.state.Bounded) :
    s.state.OneCurrent ∧ s.state.NoneNewer := by
  have hagrees := agrees_of_reachable hs hbound
  refine ⟨⟨fun hlookup ↦ (hagrees.entry_id hlookup).1, hagrees.count_item⟩,
    fun item hitem entry hlookup ↦ ?_⟩
  rcases hagrees.item_generation item hitem hlookup with rfl | hlt
  · exact Nat.le_refl _
  · exact hlt.le

/-- **A pass fires exactly the due timers, in order.** From any state in which every active timer
has exactly one current item, and any time up to which no deadline overflows, the drain loop ends
and has taken the due timers as `Drained` says. The agreement holds again if no item of an active
timer is newer than the timer and no generation wraps. Over any run, of two one-shot timers that are
active at the same moment and both fire, the earlier one by deadline and id fires first. -/
theorem pass_fires_due (κ : TimeArith) (γ : Type*) (Q : Heap) :
    (∀ (st : State γ Q) (now : ℤ), st.OneCurrent → st.AddsExactly κ now →
      ∃ fuel st' due, (∀ more, State.drain κ now (fuel + more) st = some (st', due)) ∧
        State.Drained κ now st st' due ∧
        (st.NoneNewer →
          (∀ id entry, st.timers.lookup id = some entry → entry.generation + 1 < 2 ^ 64) →
          st'.OneCurrent ∧ st'.NoneNewer)) ∧
    ∀ s t : System γ Q, (machine κ γ Q).Reachable s →
      (machine κ γ Q).Leads (fun _ _ ↦ True) s t → ∃ events, t.history = s.history ++ events ∧
        ∀ first second : TimerEntry γ, s.state.timers.lookup first.id = some first →
          s.state.timers.lookup second.id = some second → first.repeating = false →
          second.repeating = false → first.before second →
          ∀ {earlier earlier'}, FiresAfter earlier events first →
            FiresAfter earlier' events second → earlier.length < earlier'.length := by
  constructor
  · intro st now hone hexact
    obtain ⟨bound, hsteady⟩ := State.exists_steady hexact
    obtain ⟨⟨st', due⟩, hdrain⟩ := State.exists_drain_of_ends hsteady.ends (Nat.lt_succ_self _)
    exact ⟨_, st', due, fun more ↦ State.drain_add more hdrain,
      State.drained_of_drain hone.covered hdrain,
      fun hnewer hwrap ↦ State.oneCurrent_of_drain hone hnewer (fun h ↦ hwrap _ _ h) hdrain⟩
  · intro s t hs hleads
    obtain ⟨events, hevents⟩ := exists_events_of_leads hs hleads
    exact ⟨events, hevents, fun first second hfirst _ hrepeating _ hbefore _ _ hfires hfires' ↦
      fires_first hs hleads hevents hfirst hrepeating hbefore hfires hfires'⟩

end Runs

/-- One timer, due at 5 and repeating after a millisecond, with its item and another one. -/
def repeatingTimer (other : HeapItem) : State Unit (.sortedList HeapItem.after) where
  heap := (MinQueue.sortedList HeapItem.after).push ⟨5, 1, 1⟩
    ((MinQueue.sortedList HeapItem.after).push other (MinQueue.sortedList HeapItem.after).empty)
  timers := (∅ : AList fun _ : ℕ ↦ TimerEntry Unit).insert 1 ⟨1, 5, 1, true, 1, (), by decide⟩
  shuttingDown := false
  nextId := 2
  scheduled := 1
  cancelled := 0
  fired := 0

private theorem eq_of_lookup_repeatingTimer {other : HeapItem} {id : ℕ} {entry : TimerEntry Unit}
    (h : (repeatingTimer other).timers.lookup id = some entry) :
    id = 1 ∧ entry = ⟨1, 5, 1, true, 1, (), by decide⟩ := by
  rw [repeatingTimer] at h
  by_cases hid : id = 1
  · subst hid
    rw [AList.lookup_insert, Option.some.injEq] at h
    exact ⟨rfl, h.symm⟩
  · rw [AList.lookup_insert_ne hid] at h
    cases h

theorem oneCurrent_repeatingTimer {other : HeapItem} (hne : other ≠ ⟨5, 1, 1⟩) :
    (repeatingTimer other).OneCurrent := by
  refine ⟨fun hlookup ↦ ?_, fun hlookup ↦ ?_⟩
  · obtain ⟨rfl, rfl⟩ := eq_of_lookup_repeatingTimer hlookup
    rfl
  · obtain ⟨rfl, rfl⟩ := eq_of_lookup_repeatingTimer hlookup
    rw [repeatingTimer, MinQueue.items_push, MinQueue.items_push, MinQueue.items_empty]
    rw [TimerEntry.item, Multiset.count_cons_self, Multiset.count_cons_of_ne hne.symm,
      Multiset.count_zero]

/-- The other item is stale, and is the one that the timer gets when it is rescheduled. -/
theorem not_oneCurrent_after_pass :
    (repeatingTimer ⟨1000005, 1, 2⟩).OneCurrent ∧
      (repeatingTimer ⟨1000005, 1, 2⟩).AddsExactly .exact 10 ∧
      ∃ st' due, State.drain .exact 10 4 (repeatingTimer ⟨1000005, 1, 2⟩) = some (st', due) ∧
        ¬st'.OneCurrent := by
  refine ⟨oneCurrent_repeatingTimer (by decide), fun _ _ _ _ _ ↦ rfl, ?_⟩
  have hrun : (State.drain .exact 10 4 (repeatingTimer ⟨1000005, 1, 2⟩)).map
      (fun next ↦ (next.1.heap.1, (next.1.timers.lookup 1).map TimerEntry.item)) =
        some ([⟨1000005, 1, 2⟩, ⟨1000005, 1, 2⟩], some ⟨1000005, 1, 2⟩) := by decide +kernel
  obtain ⟨⟨st', due⟩, hdrain, hnext⟩ := Option.map_eq_some_iff.mp hrun
  obtain ⟨hheap, hitem⟩ := Prod.mk.inj hnext
  refine ⟨st', due, hdrain, fun hone ↦ ?_⟩
  obtain ⟨entry, hlookup, hentry⟩ := Option.map_eq_some_iff.mp hitem
  have hcount := hone.count_item hlookup
  rw [hentry] at hcount
  change Multiset.count _ (st'.heap.1 : Multiset HeapItem) = 1 at hcount
  rw [hheap] at hcount
  revert hcount
  decide

/-- A one-shot timer that has not been rescheduled. -/
def oneShotTimer (id : ℕ) (deadline : ℤ) : TimerEntry Unit :=
  ⟨id, deadline, 0, false, 1, (), by decide⟩

/-- A timer that repeats every millisecond and has not been rescheduled. -/
def everyMilli (id : ℕ) (deadline : ℤ) : TimerEntry Unit :=
  ⟨id, deadline, 1, true, 1, (), by decide⟩

/-- Four timers are active in a reachable state: two one-shot timers that are due at 10, the later
one with the smaller id, a repeating one that is due before them, and one that is not due. -/
theorem pass_fires_due_oneShotTimer : ∃ s t : System Unit (.sortedList HeapItem.after),
    (machine .exact Unit (.sortedList HeapItem.after)).Reachable s ∧
      (machine .exact Unit (.sortedList HeapItem.after)).run s [.schedulerPass 10 10 9] = some t ∧
      (∃ fuel st' due, State.drain .exact 10 fuel s.state = some (st', due) ∧
        State.Drained .exact 10 s.state st' due ∧ oneShotTimer 2 5 ∈ due ∧ oneShotTimer 1 7 ∈ due ∧
        oneShotTimer 4 50 ∉ due ∧ st'.OneCurrent) ∧
      ∃ events earlier earlier', t.history = s.history ++ events ∧
        FiresAfter earlier events (oneShotTimer 2 5) ∧
        FiresAfter earlier' events (oneShotTimer 1 7) ∧ earlier.length < earlier'.length := by
  obtain ⟨s, t, hs, ht, hfinal⟩ := Machine.exists_reachable_of_runs
    (M := machine .exact Unit (.sortedList HeapItem.after))
    (fun s t ↦ ((decide (s.state.scheduled = 4 ∧ s.state.fired = 0 ∧ t.history = s.history ++
      [.fired (everyMilli 3 3), .fired (oneShotTimer 2 5), .fired (oneShotTimer 1 7)]),
      s.state.timers.lookup 1, s.state.timers.lookup 2) :
        Bool × Option (TimerEntry Unit) × Option (TimerEntry Unit)))
    [.addTimer 0 7 0 false (some ()), .addTimer 0 5 0 false (some ()),
      .addTimer 0 3 1 true (some ()), .addTimer 0 50 0 false (some ())]
    [.schedulerPass 10 10 9]
    (b := (true, some (oneShotTimer 1 7), some (oneShotTimer 2 5))) (by decide +kernel)
  simp only [Prod.mk.injEq, decide_eq_true_iff] at hfinal
  obtain ⟨⟨hscheduled, hfired, hhistory⟩, hlater, hfirst⟩ := hfinal
  have hbound : s.state.Bounded := ⟨by rw [hscheduled]; decide, by rw [hfired]; decide⟩
  obtain ⟨hone, hnewer⟩ := oneCurrent_of_reachable hs hbound
  have hagrees := agrees_of_reachable hs hbound
  obtain ⟨fuel, st', due, hdrain, hdrained, hagain⟩ :=
    (pass_fires_due .exact Unit (.sortedList HeapItem.after)).1 s.state 10 hone
      fun _ _ _ _ _ ↦ rfl
  obtain ⟨events, hevents, hordered⟩ :=
    (pass_fires_due .exact Unit (.sortedList HeapItem.after)).2 s t hs (Machine.leads_of_runWhen ht)
  obtain rfl := List.append_cancel_left (hevents.symm.trans hhistory)
  have hfires : FiresAfter [.fired (everyMilli 3 3)] [.fired (everyMilli 3 3),
      .fired (oneShotTimer 2 5), .fired (oneShotTimer 1 7)] (oneShotTimer 2 5) :=
    ⟨⟨_, rfl⟩, by decide⟩
  have hfires' : FiresAfter [.fired (everyMilli 3 3), .fired (oneShotTimer 2 5)]
      [.fired (everyMilli 3 3), .fired (oneShotTimer 2 5), .fired (oneShotTimer 1 7)]
      (oneShotTimer 1 7) := ⟨⟨_, rfl⟩, by decide⟩
  refine ⟨s, t, hs, ht, ⟨fuel, st', due, hdrain 0, hdrained, ?_, ?_, ?_, (hagain hnewer ?_).1⟩,
    _, _, _, hevents, hfires, hfires',
    hordered _ _ hfirst hlater rfl rfl (Or.inl (by decide)) hfires hfires'⟩
  · exact (hdrained.mem_due _).mpr ⟨hfirst, by decide⟩
  · exact (hdrained.mem_due _).mpr ⟨hlater, by decide⟩
  · intro hmem
    exact absurd ((hdrained.mem_due _).mp hmem).2 (by decide)
  · intro id entry hlookup
    have hle := hagrees.generation_le hlookup
    rw [hfired] at hle
    omega

end HighPerformanceTimer

end FoundationComponents
