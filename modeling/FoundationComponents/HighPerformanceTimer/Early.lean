import FoundationComponents.HighPerformanceTimer.Due
import FoundationComponents.Wrapping.Basic

/-!
# The first firing of a timer

`scheduleAfter` and `scheduleEvery` count the first deadline from the clock, in 64-bit nanoseconds.
A pass fires a timer when its deadline is not after the clock, so a deadline that does not overflow
is never too early.

A deadline that overflows is: it comes out at a time that the clock can show, and a time in the past
is moved to the present, so the next pass finds the timer due. Only one thing can keep it from being
fired, and the other timers with it. If the wrapped interval leads to no later time at all, the loop
that looks for the second deadline of a repeating timer never ends.
-/

namespace FoundationComponents

namespace HighPerformanceTimer

variable {γ : Type*} {Q : Heap}

/-! ## Scheduling from the clock

Both functions read the clock, add the delay and call `addTimer`, which reads the clock again. What
is promised is about the first reading. -/

/-- Time points of 64 bits. The milliseconds are converted, and then added. -/
def TimeArith.wrapping : TimeArith where
  addMillis time milliseconds := (time + (milliseconds * 10 ^ 6).bmod (2 ^ 64)).bmod (2 ^ 64)

namespace State

variable (st : State γ Q)

/-- `scheduleAt`; `now` is the reading of the clock in `addTimer`. -/
def scheduleAt (now deadline : ℤ) (callback : Option γ) : Except String (State γ Q × ℕ) :=
  st.addTimer now deadline 0 false callback

/-- `scheduleAfter`, which reads the clock at `time` first. -/
def scheduleAfter (κ : TimeArith) (time now delay : ℤ) (callback : Option γ) :
    Except String (State γ Q × ℕ) :=
  let delay := if delay < 0 then 0 else delay
  st.scheduleAt now (κ.addMillis time delay) callback

/-- `scheduleEvery`, which reads the clock at `time` first. -/
def scheduleEvery (κ : TimeArith) (time now interval : ℤ) (callback : Option γ) :
    Except String (State γ Q × ℕ) :=
  st.addTimer now (κ.addMillis time interval) interval true callback

end State

/-- The timer stays in the map from `s` to `u` without being fired, and then a pass with the given
readings of the clock fires it. -/
structure FiresFirst (κ : TimeArith) (s u : System γ Q) (id : ℕ) (now now' : ℤ) : Prop where
  leads : (machine κ γ Q).Leads (fun _ _ ↦ True) s u
  waiting : ∃ events, u.history = s.history ++ events ∧
    ∀ event ∈ events, event.outcomes id = 0 ∧ event.firings id = 0
  fires : ∃ fuel v new, u.step κ (.schedulerPass now now' fuel) = some v ∧
    v.history = u.history ++ new ∧ ∃ event ∈ new, event.firings id ≠ 0

/-- No pass fires the timer for the first time before `earliest`, if the call that schedules it has
read the clock at `time` and put the timer into the map under a new id. -/
def NotFiredBefore (earliest time : ℤ)
    (schedule : State γ Q → ℤ → Except String (State γ Q × ℕ)) : Prop :=
  ∀ {s u : System γ Q} {now now₁ now₂ st id}, (machine .wrapping γ Q).Reachable s →
    time ≤ now → schedule s.state now = .ok (st, id) → id ≠ invalidTimerId →
    id ∉ s.state.timers →
    FiresFirst .wrapping ⟨st, s.history ++ System.scheduledEvents st id⟩ u id now₁ now₂ →
    now ≤ now₁ → now₁ ≤ now₂ → now₂ < 2 ^ 63 → earliest ≤ now₂

/-! ## What a call stores -/

section Stored

variable {κ : TimeArith} {st st' : State γ Q} {now deadline interval : ℤ} {repeating : Bool}
  {id : ℕ}

private theorem exists_stored {callback : Option γ}
    (h : st.addTimer now deadline interval repeating callback = .ok (st', id))
    (hid : id ≠ invalidTimerId) (hfresh : id ∉ st.timers) :
    ∃ entry, st'.timers.lookup id = some entry ∧ entry.deadline = max deadline now ∧
      entry.interval = interval ∧ entry.repeating = repeating := by
  cases callback with
  | none => cases h
  | some callback =>
    rw [State.addTimer] at h
    split at h
    · cases h
    rw [Except.ok.injEq, State.insertTimer] at h
    split at h
    · exact absurd (Prod.mk.inj h).2.symm hid
    obtain ⟨rfl, rfl⟩ := Prod.mk.inj h
    dsimp only
    rw [State.emplace, if_neg hfresh, AList.lookup_insert]
    refine ⟨_, rfl, ?_, rfl, rfl⟩
    dsimp only
    split <;> omega

theorem reachable_of_addTimer {s : System γ Q} {callback : Option γ}
    (hs : (machine κ γ Q).Reachable s)
    (h : s.state.addTimer now deadline interval repeating callback = .ok (st', id)) :
    (machine κ γ Q).Reachable ⟨st', s.history ++ System.scheduledEvents st' id⟩ := by
  have hstep : s.step κ (.addTimer now deadline interval repeating callback) =
      some ⟨st', s.history ++ System.scheduledEvents st' id⟩ := by
    rw [System.step, h]
  exact Machine.Leads.step (a := .addTimer now deadline interval repeating callback) hs trivial
    hstep

private theorem exists_first (κ : TimeArith) (γ : Type*) (Q : Heap) (now deadline : ℤ)
    (hvalid : repeating = true → 0 < interval) (callback : γ) :
    ∃ st' entry, (machine κ γ Q).init.state.addTimer now deadline interval repeating
        (some callback) = .ok (st', 1) ∧ st'.shuttingDown = false ∧
      st'.timers.lookup 1 = some entry ∧
      ∀ {k other}, st'.timers.lookup k = some other → other = entry := by
  have hok : ¬(repeating = true ∧ interval ≤ 0) := fun hbad ↦
    absurd hbad.2 (not_le.mpr (hvalid hbad.1))
  rw [State.addTimer, dif_neg hok]
  refine ⟨_, _, rfl, rfl, AList.lookup_insert _, fun {k other} hlookup ↦ ?_⟩
  by_cases hk : k = 1
  · rw [hk] at hlookup
    exact (Option.some.inj ((AList.lookup_insert _).symm.trans hlookup)).symm
  · have hempty := (AList.lookup_insert_ne hk).symm.trans hlookup
    cases (AList.lookup_empty k).symm.trans hempty

end Stored

/-! ## What a first firing says about the deadline

A pass fires what is due by its own reading of the clock, so a timer is early only if its deadline
is. Conversely a deadline that is early is met by some pass. -/

section Firing

variable {κ : TimeArith} {s u : System γ Q} {id : ℕ} {now now' : ℤ} {entry : TimerEntry γ}

theorem SectionChange.lookup_eq {t : System γ Q} {a : Action γ} {events : List (Event γ)}
    (h : SectionChange κ s a t events) (hid : entry.id = id)
    (hlookup : s.state.timers.lookup id = some entry)
    (hwaiting : ∀ event ∈ events, event.outcomes id = 0 ∧ event.firings id = 0) :
    t.state.timers.lookup id = some entry := by
  cases h with
  | quiet _ hkept =>
    refine (hkept hlookup).resolve_right ?_
    rintro ⟨-, event, hmem, hne⟩
    exact hne (hwaiting event hmem).1
  | @drain now now' fuel due _ hevents hdrained =>
    by_cases hdue : entry.deadline ≤ now'
    · have hmem : Event.fired entry ∈ events := by
        rw [hevents]
        exact List.mem_map_of_mem ((hdrained.mem_due entry).mpr ⟨hid ▸ hlookup, hdue⟩)
      have hfired := (hwaiting _ hmem).2
      rw [Event.firings, if_pos hid] at hfired
      cases hfired
    · exact hdrained.later hlookup (not_le.mp hdue)

/-- The first firing is for the deadline that the timer had, and the pass has found the next one
if there is one. -/
theorem FiresFirst.due (h : FiresFirst κ s u id now now') (hcovered : s.state.Covered)
    (hlookup : s.state.timers.lookup id = some entry) :
    entry.deadline ≤ now' ∧ (entry.repeating = true → ∃ next, entry.Next κ now' next) := by
  have hid := hcovered.entry_id hlookup
  obtain ⟨hleads, ⟨events, hhistory, hwaiting⟩, fuel, v, new, hstep, hnew, event, hevent, hfired⟩ :=
    h
  -- at the pass the entry is still as it was stored
  obtain ⟨hcovered', events', hevents', hstored⟩ := Machine.Leads.invariant
    (I := fun t : System γ Q ↦ t.state.Covered ∧ ∃ events, t.history = s.history ++ events ∧
      ((∀ event ∈ events, event.outcomes id = 0 ∧ event.firings id = 0) →
        t.state.timers.lookup id = some entry)) hleads
    ⟨hcovered, [], (List.append_nil _).symm, fun _ ↦ hlookup⟩ (by
      rintro t a t' ⟨hcov, old, hold, hlook⟩ - ht'
      obtain ⟨more, hmore, hchange⟩ := section_change hcov ht'
      refine ⟨covered_step hcov ht', old ++ more, by rw [hmore, hold, List.append_assoc], ?_⟩
      intro hall
      obtain ⟨hall₁, hall₂⟩ := List.forall_mem_append.mp hall
      exact hchange.lookup_eq hid (hlook hall₁) hall₂)
  obtain rfl := List.append_cancel_left (hhistory.symm.trans hevents')
  have hentry := hstored hwaiting
  obtain ⟨new', hnew', hchange⟩ := section_change hcovered' hstep
  obtain rfl := List.append_cancel_left (hnew.symm.trans hnew')
  cases hchange with
  | quiet hquiet _ =>
    cases event with
    | fired other => exact absurd hevent (hquiet other)
    | _ => exact absurd rfl hfired
  | drain haction hevents hdrained =>
    obtain ⟨-, rfl, -⟩ := Action.schedulerPass.inj haction
    rw [hevents] at hevent
    obtain ⟨other, hother, rfl⟩ := List.mem_map.mp hevent
    obtain ⟨hlookup', hdue⟩ := (hdrained.mem_due other).mp hother
    rw [Event.firings, ite_ne_right_iff] at hfired
    rw [hfired.1, hentry, Option.some.injEq] at hlookup'
    subst hlookup'
    refine ⟨hdue, fun hrepeating ↦ ?_⟩
    have hfate := hdrained.fired hentry hdue
    generalize v.state.timers.lookup id = result at hfate
    cases hfate with
    | once honce => rw [hrepeating] at honce; cases honce
    | again _ _ hnext => exact ⟨_, hnext⟩

/-- A pass at the deadline of a timer fires it, if the loops for the next deadlines end. -/
theorem exists_firesFirst {bound : ℕ} (hcovered : s.state.Covered)
    (hopen : s.state.shuttingDown = false) (hlookup : s.state.timers.lookup id = some entry)
    (hends : s.state.Ends κ entry.deadline bound) :
    FiresFirst κ s s id entry.deadline entry.deadline := by
  have hid := hcovered.entry_id hlookup
  refine ⟨.refl, ⟨[], (List.append_nil _).symm, nofun⟩, ?_⟩
  have hends' : s.state.discardStaleHeapItems.Ends κ entry.deadline bound := hends
  obtain ⟨fuel, hfuel⟩ := exists_gt (s.state.discardStaleHeapItems.dueItems entry.deadline + bound)
  obtain ⟨⟨st', due⟩, hdrain⟩ := State.exists_drain_of_ends hends' hfuel
  have hdrained := State.drained_of_drain hcovered.discardStaleHeapItems hdrain
  have hmem := hcovered.discardStaleHeapItems.mem_items hlookup
  -- the item on top is due, since that of the timer is
  have hpass : s.state.schedulerPass κ entry.deadline entry.deadline fuel =
      some (st', .enqueue due) := by
    rw [State.schedulerPass, if_neg (Bool.eq_false_iff.mp hopen)]
    dsimp only
    split
    · rename_i htop
      rw [Q.items_of_top_eq_none htop] at hmem
      exact absurd hmem (Multiset.notMem_zero _)
    · rename_i item htop
      have hle := HeapItem.after_eq_false_iff.mp (Q.top_le htop _ hmem)
      change item.deadline < entry.deadline ∨ item.deadline = entry.deadline ∧ _ at hle
      rw [if_neg (by omega), hdrain, Option.map_some]
  refine ⟨fuel, ⟨st', _⟩, due.map Event.fired, ?_, rfl, .fired entry, ?_, ?_⟩
  · rw [System.step, hpass]
    rfl
  · exact List.mem_map_of_mem ((hdrained.mem_due entry).mpr ⟨hid ▸ hlookup, le_rfl⟩)
  · rw [Event.firings, if_pos hid]
    exact one_ne_zero

end Firing

/-! ## Overflow

Whether a pass at a given time can fire a repeating timer depends on the loop for its next deadline,
which with wrapped additions need not end. -/

private theorem addMillis_wrapping (time milliseconds : ℤ) :
    TimeArith.wrapping.addMillis time milliseconds =
      Wrapping.stride (2 ^ 64) (milliseconds * 10 ^ 6) time :=
  Wrapping.stride_bmod ..

/-- The loop for the next deadline ends if and only if some number of additions leads past `now`. -/
theorem exists_advance_iff {κ : TimeArith} {now interval time : ℤ} :
    (∃ fuel next, State.advance κ now interval fuel time = some next) ↔
      ∃ k, now < (fun t ↦ κ.addMillis t interval)^[k] time := by
  constructor
  · rintro ⟨fuel, next, h⟩
    induction fuel generalizing time with
    | zero =>
      rw [State.advance] at h
      split at h
      · cases h
      · rename_i hlater
        exact ⟨0, not_le.mp hlater⟩
    | succ fuel ih =>
      rw [State.advance] at h
      split at h
      · obtain ⟨k, hk⟩ := ih h
        exact ⟨k + 1, hk⟩
      · rename_i hlater
        exact ⟨0, not_le.mp hlater⟩
  · rintro ⟨k, hk⟩
    induction k generalizing time with
    | zero => exact ⟨0, time, if_neg (not_le.mpr hk)⟩
    | succ k ih =>
      obtain ⟨fuel, next, h⟩ := ih hk
      by_cases hdue : time ≤ now
      · exact ⟨fuel + 1, next, by rw [State.advance, if_pos hdue, h]⟩
      · exact ⟨0, time, by rw [State.advance, if_neg hdue]⟩

section Overflow

variable {time deadline interval now : ℤ}

private theorem exists_advance_wrapping_iff (hfits : Wrapping.Fits (2 ^ 64) deadline) :
    (∃ fuel next, State.advance .wrapping deadline interval fuel
        (TimeArith.wrapping.addMillis deadline interval) = some next) ↔
      deadline + Int.gcd (interval * 10 ^ 6) (2 ^ 64) < 2 ^ 63 := by
  have hwalk : (fun t ↦ TimeArith.wrapping.addMillis t interval) =
      Wrapping.stride (2 ^ 64) (interval * 10 ^ 6) := funext fun t ↦ addMillis_wrapping t interval
  have hiff := Wrapping.exists_lt_iterate_iff (p := interval * 10 ^ 6) (by norm_num) hfits
  have hpast : deadline + Int.gcd (interval * 10 ^ 6) (2 ^ 64) < 2 ^ 63 ↔
      ∃ k, deadline < (Wrapping.stride (2 ^ 64) (interval * 10 ^ 6))^[k] deadline := by
    rw [hiff]
    norm_num
  rw [exists_advance_iff, hwalk, hpast, addMillis_wrapping]
  constructor
  · rintro ⟨k, hk⟩
    exact ⟨k + 1, hk⟩
  · rintro ⟨k, hk⟩
    cases k with
    | zero => exact absurd hk (lt_irrefl _)
    | succ k => exact ⟨k, hk⟩

theorem lt_of_exists_advance {next : ℤ} {fuel : ℕ} (hfits : Wrapping.Fits (2 ^ 64) deadline)
    (hle : deadline ≤ now) (h : State.advance .wrapping now interval fuel
      (TimeArith.wrapping.addMillis deadline interval) = some next) :
    deadline + Int.gcd (interval * 10 ^ 6) (2 ^ 64) < 2 ^ 63 := by
  rw [← exists_advance_wrapping_iff hfits, exists_advance_iff]
  obtain ⟨k, hk⟩ := exists_advance_iff.mp ⟨fuel, next, h⟩
  exact ⟨k, hle.trans_lt hk⟩

/-- **The first firing** of a timer whose first deadline, as the arithmetic has it, is `deadline`.
It is never before `earliest` if the deadline is not, or if no pass can fire the timer at all. -/
theorem notFiredBefore_iff (γ : Type*) (Q : Heap) (callback : γ) (earliest interval : ℤ)
    (repeating : Bool) (htime : 0 ≤ time) (htime' : time < 2 ^ 63)
    (hfits : Wrapping.Fits (2 ^ 64) deadline) (hpos : repeating = true → 0 < interval) :
    NotFiredBefore (Q := Q) earliest time
        (fun st now ↦ st.addTimer now deadline interval repeating (some callback)) ↔
      earliest ≤ max deadline time ∨ repeating = true ∧
        2 ^ 63 ≤ max deadline time + Int.gcd (interval * 10 ^ 6) (2 ^ 64) := by
  rw [Wrapping.fits_64_iff] at hfits
  constructor
  · intro hnever
    by_contra hnot
    rw [not_or] at hnot
    obtain ⟨st, entry, hok, hopen, hlookup, honly⟩ :=
      exists_first .wrapping γ Q time deadline hpos callback
    have hs := reachable_of_addTimer .refl hok
    obtain ⟨stored, hstored, hdeadline, hinterval, hrepeating⟩ :=
      exists_stored hok one_ne_zero (AList.notMem_empty 1)
    obtain rfl := honly hstored
    -- the only timer of the pass has a next deadline, if it needs one
    have hends : ∃ bound, st.Ends .wrapping stored.deadline bound := by
      cases repeating with
      | false =>
        refine ⟨0, fun hother hrep _ ↦ ?_⟩
        rw [honly hother, hrepeating] at hrep
        cases hrep
      | true =>
        have hlt : stored.deadline + Int.gcd (stored.interval * 10 ^ 6) (2 ^ 64) < 2 ^ 63 := by
          rw [hdeadline, hinterval]
          exact not_le.mp fun hle ↦ hnot.2 ⟨rfl, hle⟩
        have hfits : Wrapping.Fits (2 ^ 64) stored.deadline :=
          Wrapping.fits_64_iff.mpr (by rw [hdeadline]; omega)
        obtain ⟨bound, next, hnext⟩ := (exists_advance_wrapping_iff hfits).mpr hlt
        refine ⟨bound, fun hother _ _ ↦ ?_⟩
        rw [honly hother]
        exact ⟨next, hnext⟩
    obtain ⟨bound, hends⟩ := hends
    have hfires := exists_firesFirst (covered_of_reachable hs) hopen hlookup hends
    have hearly := hnever .refl le_rfl hok one_ne_zero (AList.notMem_empty 1) hfires
      (by rw [hdeadline]; exact le_max_right _ _) le_rfl (by rw [hdeadline]; omega)
    rw [hdeadline] at hearly
    exact hnot.1 hearly
  · intro hcond s u now now₁ now₂ st id hs htime₁ hok hid hfresh hfires h₁ h₂ h₃
    obtain ⟨entry, hlookup, hdeadline, hinterval, hrepeating⟩ := exists_stored hok hid hfresh
    obtain ⟨hdue, hnext⟩ := hfires.due (covered_of_reachable (reachable_of_addTimer hs hok)) hlookup
    rcases hcond with hle | ⟨hrep, hstuck⟩
    · omega
    · obtain ⟨next, fuel, hadvance⟩ := hnext (hrepeating.trans hrep)
      have hlt := lt_of_exists_advance (Wrapping.fits_64_iff.mpr (by omega)) hdue hadvance
      rw [hdeadline, hinterval] at hlt
      omega

theorem fits_addMillis (time milliseconds : ℤ) :
    Wrapping.Fits (2 ^ 64) (TimeArith.wrapping.addMillis time milliseconds) :=
  Wrapping.fits_bmod (by norm_num) _

/-- The first deadline is as late as it is meant to be if and only if that can be represented. -/
theorem le_max_addMillis_iff (htime : 0 ≤ time) (htime' : time < 2 ^ 63) {milliseconds : ℤ}
    (hnonneg : 0 ≤ milliseconds) :
    time + milliseconds * 10 ^ 6 ≤ max (TimeArith.wrapping.addMillis time milliseconds) time ↔
      time + milliseconds * 10 ^ 6 < 2 ^ 63 := by
  have hfits := Wrapping.fits_64_iff.mp (fits_addMillis time milliseconds)
  constructor
  · intro hle
    omega
  · intro hlt
    have hexact := (Wrapping.fits_64_iff.mpr ⟨by omega, hlt⟩).bmod_eq
    rw [addMillis_wrapping, Wrapping.stride, hexact]
    exact le_max_left _ _

private theorem scheduleAfter_notFiredBefore_iff (γ : Type*) (Q : Heap) (callback : γ)
    (htime : 0 ≤ time) (htime' : time < 2 ^ 63) {delay : ℤ} (hdelay : 0 ≤ delay) :
    NotFiredBefore (Q := Q) (time + delay * 10 ^ 6) time
        (fun st now ↦ st.scheduleAfter .wrapping time now delay (some callback)) ↔
      time + delay * 10 ^ 6 < 2 ^ 63 := by
  have hiff := notFiredBefore_iff γ Q callback (time + delay * 10 ^ 6) 0 false htime htime'
    (fits_addMillis time delay) nofun
  rw [le_max_addMillis_iff htime htime' hdelay] at hiff
  simp only [State.scheduleAfter, State.scheduleAt, if_neg (not_lt.mpr hdelay)]
  simpa using hiff

end Overflow

/-- **When timers are not early.** A call reads the clock at `time` and puts a timer into the map.
No pass fires a `scheduleAfter` timer for the first time before its delay has gone by if and only if
the end of the delay can be represented. The same holds for `scheduleEvery`, except that the timer
is not fired at all, early or not, if the search for its second deadline cannot end. -/
theorem never_early_iff (γ : Type*) (Q : Heap) (callback : γ) {time : ℤ} (htime : 0 ≤ time)
    (htime' : time < 2 ^ 63) :
    (∀ delay, 0 ≤ delay →
      (NotFiredBefore (Q := Q) (time + delay * 10 ^ 6) time
          (fun st now ↦ st.scheduleAfter .wrapping time now delay (some callback)) ↔
        time + delay * 10 ^ 6 < 2 ^ 63)) ∧
    ∀ interval, 0 < interval →
      (NotFiredBefore (Q := Q) (time + interval * 10 ^ 6) time
          (fun st now ↦ st.scheduleEvery .wrapping time now interval (some callback)) ↔
        time + interval * 10 ^ 6 < 2 ^ 63 ∨
          2 ^ 63 ≤ max ((time + interval * 10 ^ 6).bmod (2 ^ 64)) time +
            Int.gcd (interval * 10 ^ 6) (2 ^ 64)) := by
  refine ⟨fun delay hdelay ↦ scheduleAfter_notFiredBefore_iff γ Q callback htime htime' hdelay,
    fun interval hpos ↦ ?_⟩
  have hiff := notFiredBefore_iff γ Q callback (time + interval * 10 ^ 6) interval true htime
    htime' (fits_addMillis time interval) (fun _ ↦ hpos)
  rw [le_max_addMillis_iff htime htime' hpos.le, addMillis_wrapping, Wrapping.stride] at hiff
  simpa only [State.scheduleEvery, true_and, addMillis_wrapping, Wrapping.stride] using hiff

/-- A delay of an hour. -/
theorem never_early_iff_hour :
    NotFiredBefore (Q := .sortedList HeapItem.after) (5 + 3600000 * 10 ^ 6) 5
      (fun st now ↦ st.scheduleAfter .wrapping 5 now 3600000 (some ())) :=
  ((never_early_iff Unit _ () (by norm_num) (by norm_num)).1 3600000 (by norm_num)).mpr
    (by norm_num)

/-- The longest delay, `std::chrono::milliseconds::max()`, is over at once. -/
theorem fires_early_maxDelay :
    ¬NotFiredBefore (Q := .sortedList HeapItem.after) (5 + (2 ^ 63 - 1) * 10 ^ 6) 5
      (fun st now ↦ st.scheduleAfter .wrapping 5 now (2 ^ 63 - 1) (some ())) := by
  rw [scheduleAfter_notFiredBefore_iff Unit _ () (by norm_num) (by norm_num) (by norm_num)]
  norm_num

end HighPerformanceTimer

end FoundationComponents
