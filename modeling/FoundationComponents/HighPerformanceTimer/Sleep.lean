import FoundationComponents.HighPerformanceTimer.Threads

/-!
# The scheduler does not oversleep

Stale items may be in the queue, and are discarded only from its top. What a deadline to sleep until
needs is the other half: every active timer has an item, so no deadline in the map is before the one
on top. This holds without any bound on ids and generations, since a section changes the items of
one id only, and adds the new one with the entry.

A deadline that was right when the scheduler fell asleep stays right until a section changes the
map; and the thread that ran the section notifies the scheduler afterwards. The scheduler sleeps on,
at most, until the first notification after the change.
-/

namespace FoundationComponents

namespace HighPerformanceTimer

variable {γ : Type*} {Q : Heap}

namespace State

/-- Every active timer has an item in the queue. -/
structure Covered (st : State γ Q) : Prop where
  entry_id : ∀ {id entry}, st.timers.lookup id = some entry → entry.id = id
  mem_items : ∀ {id entry}, st.timers.lookup id = some entry → entry.item ∈ Q.items st.heap

/-- The scheduler may sleep until the deadline, or for ever if there is none. -/
structure MaySleep (st : State γ Q) (deadline : Option ℤ) : Prop where
  not_shuttingDown : st.shuttingDown = false
  le_deadline : ∀ {id entry}, st.timers.lookup id = some entry →
    ∃ time, deadline = some time ∧ time ≤ entry.deadline

section Sections

variable {st st' : State γ Q} {item : HeapItem} {entry : TimerEntry γ}

theorem Covered.forget {timers : AList fun _ : ℕ ↦ TimerEntry γ} (h : st.Covered)
    (hsub : ∀ {id entry}, timers.lookup id = some entry → st.timers.lookup id = some entry)
    (shuttingDown : Bool) (cancelled : ℕ) :
    Covered { st with timers := timers, shuttingDown := shuttingDown, cancelled := cancelled } where
  entry_id hlookup := h.entry_id (hsub hlookup)
  mem_items hlookup := h.mem_items (hsub hlookup)

/-- The entry of one id is set, and its item pushed; another item of that id may go. -/
theorem Covered.put (h : st.Covered) (entry : TimerEntry γ) (hmem : entry.item ∈ Q.items st'.heap)
    (hself : ∀ {e}, st'.timers.lookup entry.id = some e → e = entry)
    (hother : ∀ k ≠ entry.id, st'.timers.lookup k = st.timers.lookup k)
    (hitems : ∀ x ∈ Q.items st.heap, x.id ≠ entry.id → x ∈ Q.items st'.heap) : st'.Covered := by
  refine ⟨fun {id e} hlookup ↦ ?_, fun {id e} hlookup ↦ ?_⟩
  · by_cases hid : id = entry.id
    · subst hid
      rw [hself hlookup]
    · rw [hother id hid] at hlookup
      exact h.entry_id hlookup
  · by_cases hid : id = entry.id
    · subst hid
      rwa [hself hlookup]
    · rw [hother id hid] at hlookup
      refine hitems _ (h.mem_items hlookup) ?_
      change e.id ≠ entry.id
      rwa [h.entry_id hlookup]

theorem Covered.insertTimer (h : st.Covered) (entry : TimerEntry γ) :
    (st.insertTimer entry).1.Covered := by
  rw [State.insertTimer]
  split
  · exact h
  dsimp only
  rw [State.emplace]
  have hkept : ∀ x ∈ Q.items st.heap, x ∈ Q.items
      (Q.push (TimerEntry.item { entry with id := st.nextId, generation := 1 }) st.heap) := by
    intro x hx
    rw [Q.items_push]
    exact Multiset.mem_cons_of_mem hx
  split
  · -- the id is in use: `emplace` leaves the entry as it is
    exact ⟨h.entry_id, fun hlookup ↦ hkept _ (h.mem_items hlookup)⟩
  · refine h.put { entry with id := st.nextId, generation := 1 } ?_ ?_ ?_ fun x hx _ ↦ hkept x hx
    · rw [Q.items_push]
      exact Multiset.mem_cons_self _ _
    · intro e hlookup
      exact (Option.some.inj ((AList.lookup_insert _).symm.trans hlookup)).symm
    · intro k hk
      exact AList.lookup_insert_ne hk

theorem Covered.isCurrent (h : st.Covered) {id : ℕ} (hlookup : st.timers.lookup id = some entry) :
    st.isCurrent entry.item = true := by
  have hid : entry.item.id = id := h.entry_id hlookup
  rw [State.isCurrent, hid, hlookup]
  simp [TimerEntry.item]

theorem Covered.discardStaleHeapItems (h : st.Covered) : st.discardStaleHeapItems.Covered := by
  refine ⟨h.entry_id, fun {id entry} hlookup ↦ ?_⟩
  rw [← Multiset.count_pos, count_discardStaleHeapItems (h.isCurrent hlookup)]
  exact Multiset.count_pos.mpr (h.mem_items hlookup)

private theorem mem_pop (htop : Q.top st.heap = some item) {x : HeapItem} (hx : x ∈ Q.items st.heap)
    (hid : x.id ≠ item.id) : x ∈ Q.items (Q.pop st.heap) := by
  rw [Q.items_of_top_eq_some htop, Multiset.mem_cons] at hx
  exact hx.resolve_left fun heq ↦ hid (congrArg HeapItem.id heq)

theorem Covered.fire {κ : TimeArith} {now : ℤ} {fuel : ℕ} (h : st.Covered)
    (htop : Q.top st.heap = some item) (hlookup : st.timers.lookup item.id = some entry)
    (hfire : st.fire κ now fuel item entry = some st') : st'.Covered := by
  have hid := h.entry_id hlookup
  rw [State.fire] at hfire
  split at hfire
  · obtain ⟨next, -, rfl⟩ := Option.map_eq_some_iff.mp hfire
    refine h.put
      { entry with deadline := next, generation := (entry.generation + 1) % 2 ^ 64 } ?_ ?_ ?_ ?_
    · rw [Q.items_push]
      exact Multiset.mem_cons_self _ _
    · intro e hlookup'
      have hinsert : ∀ e' : TimerEntry γ,
          (st.timers.insert item.id e').lookup entry.id = some e' := fun e' ↦ by
        rw [hid]
        exact AList.lookup_insert _
      exact (Option.some.inj ((hinsert _).symm.trans hlookup')).symm
    · intro k hk
      dsimp only at hk ⊢
      rw [hid] at hk
      exact AList.lookup_insert_ne hk
    · intro x hx hne
      dsimp only at hne ⊢
      rw [hid] at hne
      rw [Q.items_push]
      exact Multiset.mem_cons_of_mem (mem_pop htop hx hne)
  · obtain rfl := Option.some.inj hfire
    refine ⟨fun hlookup' ↦ h.entry_id (lookup_of_lookup_erase hlookup').1, fun hlookup' ↦ ?_⟩
    obtain ⟨hold, hne⟩ := lookup_of_lookup_erase hlookup'
    refine mem_pop htop (h.mem_items hold) ?_
    rw [← h.entry_id hold] at hne
    exact hne

theorem Covered.schedulerPass {κ : TimeArith} {now now' : ℤ} {fuel : ℕ} {pass : Pass γ}
    (h : st.Covered) (hpass : st.schedulerPass κ now now' fuel = some (st', pass)) : st'.Covered :=
  schedulerPass_rule (I := fun st _ ↦ st.Covered) Covered.discardStaleHeapItems
    (fun hst htop hlookup _ _ hfire ↦ hst.fire htop hlookup hfire) h hpass

/-- **A pass that ends with a wait** waits for the deadline on top, before which nothing is due. -/
theorem schedulerPass_wait {κ : TimeArith} {now now' : ℤ} {fuel : ℕ} {deadline : Option ℤ}
    (h : st.Covered) (hpass : st.schedulerPass κ now now' fuel = some (st', .wait deadline)) :
    st'.MaySleep deadline := by
  rw [State.schedulerPass] at hpass
  split at hpass
  · cases hpass
  rename_i hopen
  have hcovered := h.discardStaleHeapItems
  dsimp only at hpass
  split at hpass
  · rename_i htop
    obtain ⟨rfl, hwait⟩ := Prod.mk.inj (Option.some.inj hpass)
    refine ⟨Bool.eq_false_iff.mpr hopen, fun {id entry} hlookup ↦ ?_⟩
    have hmem := hcovered.mem_items hlookup
    rw [Q.items_of_top_eq_none htop] at hmem
    exact absurd hmem (Multiset.notMem_zero _)
  rename_i item htop
  split at hpass
  · obtain ⟨rfl, hwait⟩ := Prod.mk.inj (Option.some.inj hpass)
    refine ⟨Bool.eq_false_iff.mpr hopen, fun {id entry} hlookup ↦
      ⟨item.deadline, (Pass.wait.inj hwait).symm, ?_⟩⟩
    have hle := HeapItem.after_eq_false_iff.mp (Q.top_le htop _ (hcovered.mem_items hlookup))
    change item.deadline < entry.deadline ∨ item.deadline = entry.deadline ∧ _ at hle
    omega
  · obtain ⟨next, -, hpair⟩ := Option.map_eq_some_iff.mp hpass
    cases hpair

end Sections

end State

section Sections

variable {κ : TimeArith}

theorem covered_step {t t' : System γ Q} {action : Action γ} (h : t.state.Covered)
    (hstep : t.step κ action = some t') : t'.state.Covered := by
  cases action with
  | addTimer now deadline interval repeating callback =>
    rw [System.step] at hstep
    split at hstep
    · obtain rfl := Option.some.inj hstep
      exact h
    · rename_i hadd
      obtain rfl := Option.some.inj hstep
      obtain ⟨entry, hnext⟩ := State.exists_of_addTimer_eq_ok hadd
      have hinsert := h.insertTimer entry
      rwa [← hnext] at hinsert
  | cancel id =>
    obtain rfl := Option.some.inj hstep
    rw [State.cancel]
    dsimp only
    split
    · exact h
    split
    · exact h.forget (fun hlookup ↦ (State.lookup_of_lookup_erase hlookup).1) _ _
    · exact h
  | cancelAll =>
    obtain rfl := Option.some.inj hstep
    exact h.forget (fun hlookup ↦ by cases hlookup) _ _
  | shutdown =>
    obtain rfl := Option.some.inj hstep
    exact h.forget (fun hlookup ↦ by cases hlookup) _ _
  | schedulerPass now now' fuel =>
    obtain ⟨⟨state, pass⟩, hpass, rfl⟩ := Option.map_eq_some_iff.mp hstep
    exact h.schedulerPass hpass

/-- **Every active timer has an item**, after any sections in any order. -/
theorem covered_of_reachable {t : System γ Q} (h : (machine κ γ Q).Reachable t) :
    t.state.Covered :=
  Machine.Leads.invariant (I := fun t : System γ Q ↦ t.state.Covered) h
    ⟨(fun hlookup ↦ by cases hlookup), (fun hlookup ↦ by cases hlookup)⟩
    fun ht _ hstep ↦ covered_step ht hstep

end Sections

/-! ## The sleeping scheduler

A section that may bring a deadline forward is followed by a notification. Until it is sent the
scheduler may oversleep; afterwards it looks at the queue again. -/

section Threads

variable {n m : ℕ} {κ : TimeArith} {s s' : Threads γ Q n m} {a : Move γ n m}

/-- If the scheduler sleeps, it may sleep, or a thread is about to notify it. -/
def Attended (s : Threads γ Q n m) : Prop :=
  ∀ deadline, s.scheduler = .blocked deadline →
    s.timer.MaySleep deadline ∨ ∃ x, (s.calls x).notifiesScheduler = true

theorem Scheduler.notified_ne_blocked (scheduler : Scheduler γ) (deadline : Option ℤ) :
    scheduler.notified ≠ .blocked deadline := by
  cases scheduler <;> simp [Scheduler.notified]

theorem Attended.setCall (h : Attended s) {x : Caller n m} (call : Call)
    (hcall : (s.calls x).notifiesScheduler = false) : Attended (s.setCall x call) := by
  intro deadline hblocked
  refine (h deadline hblocked).imp_right ?_
  rintro ⟨y, hy⟩
  have hne : y ≠ x := by
    rintro rfl
    rw [hcall] at hy
    cases hy
  refine ⟨y, ?_⟩
  rw [Threads.setCall]
  dsimp only
  rwa [Function.update_of_ne hne]

theorem attended_step (hcovered : s.timer.Covered) (h : Attended s) (hchange : Change κ s a s') :
    Attended s' := by
  cases hchange with
  | @call x operation hmay =>
    obtain ⟨timer, call, hcall, hentered⟩ := call_eq operation (idle_of_mayCall hmay)
    have hx : (s.call x operation).calls x = call := by
      rw [hcall]
      exact Function.update_self ..
    cases hentered with
    | unchanged =>
      have hsame : s.call x operation = s := hcall.trans (setCall_idle (idle_of_mayCall hmay))
      rwa [hsame]
    | notifyOne | cancelAll | shutdown => exact fun deadline _ ↦ Or.inr ⟨x, by rw [hx]; rfl⟩
  | notifyScheduler =>
    exact fun deadline hblocked ↦ absurd hblocked (Scheduler.notified_ne_blocked _ _)
  | joinScheduler hcall => exact h.setCall _ (by rw [hcall]; rfl)
  | @stopCallbacks x hcall =>
    have hset : Attended { s with callbackStopping := true } := h
    exact hset.setCall _ (by rw [hcall]; rfl)
  | notifyWorkers hcall =>
    have hset : Attended s.notifyWorkers := h
    exact hset.setCall _ (by rw [Threads.notifyWorkers, hcall]; rfl)
  | joinWorkers hcall =>
    have hset : Attended { s with returned := true } := h
    exact hset.setCall _ (by rw [hcall]; rfl)
  | @pass now now' fuel timer pass hready hpass =>
    intro deadline hblocked
    cases pass with
    | wait deadline' =>
      obtain rfl := Scheduler.blocked.inj hblocked
      exact Or.inl (State.schedulerPass_wait hcovered hpass)
    | exit => cases hblocked
    | enqueue due => cases hblocked
  | skip | enqueue | announce | wakeScheduler => exact fun deadline hblocked ↦ by cases hblocked
  | take | exit | block | invoke | finish | wakeWorker => exact h

theorem attended_of_reachable (h : (threadMachine κ γ Q n m).Reachable s) : Attended s := by
  refine (Machine.Leads.invariant (I := fun s : Threads γ Q n m ↦
    (threadMachine κ γ Q n m).Reachable s ∧ Attended s) h
    ⟨.refl, fun deadline hblocked ↦ by cases hblocked⟩ ?_).2
  rintro u a v ⟨hu, hattended⟩ - hstep
  obtain ⟨t, ht, htimer⟩ := exists_sections hu
  have hcovered := covered_of_reachable ht
  rw [htimer] at hcovered
  exact ⟨hu.step trivial hstep, attended_step hcovered hattended (step_change hstep)⟩

/-- **The scheduler never oversleeps.** Whatever calls, from inside callbacks or outside, are
interleaved with the scheduler: when it sleeps and no thread is about to notify it, the timer is not
shutting down, and there is no timer, or none with a deadline before the one it sleeps until. -/
theorem never_oversleeps (h : (threadMachine κ γ Q n m).Reachable s) {deadline : Option ℤ}
    (hblocked : s.scheduler = .blocked deadline)
    (hquiet : ∀ x, (s.calls x).notifiesScheduler = false) :
    s.timer.shuttingDown = false ∧ (deadline = none → s.timer.timers = ∅) ∧
      ∀ time, deadline = some time → ∀ id entry, s.timer.timers.lookup id = some entry →
        time ≤ entry.deadline := by
  have hsleep : s.timer.MaySleep deadline := by
    refine (attended_of_reachable h deadline hblocked).resolve_right ?_
    rintro ⟨x, hx⟩
    rw [hquiet x] at hx
    cases hx
  refine ⟨hsleep.not_shuttingDown, fun hnone ↦ ?_, fun time hsome id entry hlookup ↦ ?_⟩
  · refine AList.ext (List.eq_nil_iff_forall_not_mem.mpr ?_)
    rintro ⟨id, entry⟩ hmem
    obtain ⟨time, hsome, -⟩ := hsleep.le_deadline (AList.mem_lookup_iff.mpr hmem)
    rw [hnone] at hsome
    cases hsome
  · obtain ⟨time', hsome', hle⟩ := hsleep.le_deadline hlookup
    rw [hsome, Option.some.injEq] at hsome'
    rwa [hsome']

end Threads

/-- Two threads add timers and one of them cancels the earlier one; the scheduler falls asleep
between a section and its notification, and its last sleep is for the timer that is left. -/
theorem never_oversleeps_cancelled :
    ∃ s : Threads String (.sortedList HeapItem.after) 2 1,
      (threadMachine .exact String (.sortedList HeapItem.after) 2 1).Reachable s ∧
      s.scheduler = .blocked (some 20) ∧ s.timer.timers.keys = [1] ∧
      ∀ time, some 20 = some time → ∀ id entry, s.timer.timers.lookup id = some entry →
        time ≤ entry.deadline := by
  obtain ⟨s, hs, hfinal⟩ := Machine.exists_reachable_of_run
    (M := threadMachine .exact String (.sortedList HeapItem.after) 2 1)
    (fun s ↦ (s.scheduler, s.timer.timers.keys, s.calls (.inl 0), s.calls (.inl 1),
      s.calls (.inr 0)))
    [.scheduler 0 0 5, .call (.inl 0) (.addTimer 0 20 0 false (some "late")),
      .call (.inl 1) (.addTimer 0 10 0 false (some "early")), .proceed (.inl 0),
      .scheduler 3 3 5, .proceed (.inl 1), .scheduler 4 4 5, .call (.inl 0) (.cancel 2),
      .wakeScheduler, .scheduler 6 6 5, .proceed (.inl 0), .scheduler 7 7 5]
    (b := (.blocked (some 20), [1], .idle, .idle, .idle)) (by decide +kernel)
  simp only [Prod.mk.injEq] at hfinal
  obtain ⟨hblocked, hkeys, hfirst, hsecond, hworker⟩ := hfinal
  refine ⟨s, hs, hblocked, hkeys, (never_oversleeps hs hblocked ?_).2.2⟩
  intro x
  cases x with
  | inl i =>
    revert i
    refine Fin.forall_fin_two.mpr ⟨?_, ?_⟩
    · rw [hfirst]
      rfl
    · rw [hsecond]
      rfl
  | inr i =>
    revert i
    refine Fin.forall_fin_one.mpr ?_
    rw [hworker]
    rfl

end HighPerformanceTimer

end FoundationComponents
