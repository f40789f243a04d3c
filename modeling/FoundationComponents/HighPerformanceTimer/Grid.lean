import Mathlib.Order.Bounds.Basic
import FoundationComponents.HighPerformanceTimer.Due

/-!
# Repeating timers stay on their grid

The next deadline of a repeating timer is counted from the last one, never from the clock, and the
loop that looks for it stops at the first one that is not due. So the deadlines are points of one
grid, and a late pass goes to the first point after it, however many it has missed.

As each firing is for the deadline that the timer had, the firings of a timer are for points of the
grid too, each for a later one than those before.
-/

namespace FoundationComponents

namespace HighPerformanceTimer

variable {γ : Type*} {Q : Heap}

/-! ## The grid

The loop for the next deadline adds intervals to the last one until the result is not due, so it
visits points of the grid and stops at the first that will do. -/

/-- The deadline of the timer, and the times that are a number of intervals after it. -/
def TimerEntry.gridPoint (origin : TimerEntry γ) (k : ℕ) : ℤ :=
  origin.deadline + k * (origin.interval * 10 ^ 6)

section Grid

variable {κ : TimeArith} {now next : ℤ} {origin entry : TimerEntry γ}

theorem gridPoint_lt_gridPoint (hpos : 0 < origin.interval) {i j : ℕ} :
    origin.gridPoint i < origin.gridPoint j ↔ i < j := by
  refine (strictMono_nat_of_lt_succ fun k ↦ ?_).lt_iff_lt
  rw [TimerEntry.gridPoint, TimerEntry.gridPoint, Nat.cast_succ, add_mul, one_mul]
  omega

/-- The additions along the grid are exact up to the given time. -/
def GridExact (κ : TimeArith) (origin : TimerEntry γ) (now : ℤ) : Prop :=
  ∀ k, origin.gridPoint k ≤ now →
    κ.addMillis (origin.gridPoint k) origin.interval = origin.gridPoint (k + 1)

theorem gridExact_exact (origin : TimerEntry γ) (now : ℤ) : GridExact .exact origin now := by
  intro k _
  rw [TimerEntry.gridPoint, TimerEntry.gridPoint, Nat.cast_succ, add_mul, one_mul, ← add_assoc]
  rfl

private theorem exists_of_advance (hexact : GridExact κ origin now) {fuel k : ℕ}
    (h : State.advance κ now origin.interval fuel (origin.gridPoint k) = some next) :
    ∃ j, next = origin.gridPoint j ∧ ∀ i, k ≤ i → i < j → origin.gridPoint i ≤ now := by
  induction fuel generalizing k with
  | zero =>
    rw [State.advance] at h
    split at h
    · cases h
    · obtain rfl := Option.some.inj h
      exact ⟨k, rfl, fun i hle hlt ↦ absurd hlt (Nat.not_lt.mpr hle)⟩
  | succ fuel ih =>
    rw [State.advance] at h
    split at h
    · rename_i hdue
      rw [hexact k hdue] at h
      obtain ⟨j, hnext, hbehind⟩ := ih h
      refine ⟨j, hnext, fun i hle hlt ↦ ?_⟩
      rcases Nat.eq_or_lt_of_le hle with rfl | hlt'
      · exact hdue
      · exact hbehind i hlt' hlt
    · obtain rfl := Option.some.inj h
      exact ⟨k, rfl, fun i hle hlt ↦ absurd hlt (Nat.not_lt.mpr hle)⟩

/-- **The next deadline** of a timer that is due on its grid is the first point of the grid that is
not due. -/
theorem isLeast_of_next (hexact : GridExact κ origin now) (hpos : 0 < origin.interval)
    (hinterval : entry.interval = origin.interval) {k : ℕ}
    (hdeadline : entry.deadline = origin.gridPoint k) (hdue : entry.deadline ≤ now)
    (hnext : entry.Next κ now next) :
    ∃ j, k < j ∧ next = origin.gridPoint j ∧
      IsLeast {time | now < time ∧ ∃ i, time = origin.gridPoint i} next := by
  obtain ⟨fuel, hadvance⟩ := hnext
  have hlt := State.lt_of_advance hadvance
  rw [hdeadline] at hdue
  rw [hinterval, hdeadline, hexact k hdue] at hadvance
  obtain ⟨j, rfl, hbehind⟩ := exists_of_advance hexact hadvance
  have hkj : k < j := (gridPoint_lt_gridPoint hpos).mp (hdue.trans_lt hlt)
  refine ⟨j, hkj, rfl, ⟨hlt, j, rfl⟩, ?_⟩
  rintro time ⟨hlater, i, rfl⟩
  by_contra hless
  rw [not_le, gridPoint_lt_gridPoint hpos] at hless
  -- the points before the next one are due: those of the loop, and those before them
  have hi : origin.gridPoint i ≤ now := by
    rcases Nat.lt_or_ge k i with hki | hik
    · exact hbehind i hki hless
    · have hnot := mt (gridPoint_lt_gridPoint hpos).mp (Nat.not_lt.mpr hik)
      exact (not_lt.mp hnot).trans hdue
  exact absurd hlater (not_lt.mpr hi)

end Grid

/-! ## The firings of a timer

A pass that comes late fires the timer once, for the deadline it had, and the points that were
missed are skipped. -/

/-- The deadline for which the timer is fired, if it is. -/
def Event.firingTime (id : ℕ) : Event γ → Option ℤ
  | .fired entry => if entry.id = id then some entry.deadline else none
  | _ => none

/-- The deadlines for which a timer has been fired, oldest first. -/
def firingTimes (id : ℕ) (events : List (Event γ)) : List ℤ :=
  events.filterMap (Event.firingTime id)

private theorem firingTimes_append (id : ℕ) (events new : List (Event γ)) :
    firingTimes id (events ++ new) = firingTimes id events ++ firingTimes id new :=
  List.filterMap_append ..

private theorem firingTimes_eq_nil {id : ℕ} {events : List (Event γ)}
    (h : ∀ entry, .fired entry ∈ events → entry.id ≠ id) : firingTimes id events = [] := by
  rw [firingTimes, List.filterMap_eq_nil_iff]
  intro event hmem
  cases event with
  | fired entry => exact if_neg (h entry hmem)
  | scheduled _ => rfl
  | cancelled _ => rfl
  | cancelledAll _ => rfl
  | dropped _ => rfl

section Drained

variable {κ : TimeArith} {now : ℤ} {st st' : State γ Q} {due : List (TimerEntry γ)} {id : ℕ}
  {origin entry : TimerEntry γ}

/-- A pass fires a timer once if it is due, and otherwise not. -/
theorem firingTimes_of_drained (h : State.Drained κ now st st' due) (hid : entry.id = id)
    (hlookup : st.timers.lookup id = some entry) :
    firingTimes id (due.map Event.fired) =
      if entry.deadline ≤ now then [entry.deadline] else [] := by
  -- whatever is fired under the id is the entry
  have hunique : ∀ other ∈ due, other.id = id → other = entry ∧ entry.deadline ≤ now := by
    intro other hmem hother
    obtain ⟨hlookup', hdue⟩ := (h.mem_due other).mp hmem
    rw [hother, hlookup, Option.some.injEq] at hlookup'
    subst hlookup'
    exact ⟨rfl, hdue⟩
  have hnone : ∀ part : List (TimerEntry γ), (∀ other ∈ part, other.id ≠ id) →
      firingTimes id (part.map Event.fired) = [] := by
    intro part hpart
    refine firingTimes_eq_nil fun other hmem ↦ ?_
    obtain ⟨other', hmem', heq⟩ := List.mem_map.mp hmem
    exact Event.fired.inj heq ▸ hpart other' hmem'
  split
  · rename_i hdue
    obtain ⟨earlier, later, rfl⟩ :=
      List.append_of_mem ((h.mem_due entry).mpr ⟨hid.symm ▸ hlookup, hdue⟩)
    have hsorted := h.sorted
    rw [List.pairwise_append, List.pairwise_cons] at hsorted
    have hearlier : ∀ other ∈ earlier, other.id ≠ id := by
      intro other hmem hother
      obtain ⟨rfl, -⟩ := hunique other (List.mem_append_left _ hmem) hother
      exact other.before_irrefl (hsorted.2.2 other hmem other List.mem_cons_self)
    have hlater : ∀ other ∈ later, other.id ≠ id := by
      intro other hmem hother
      obtain ⟨rfl, -⟩ :=
        hunique other (List.mem_append_right _ (List.mem_cons_of_mem _ hmem)) hother
      exact other.before_irrefl (hsorted.2.1.1 other hmem)
    have htime : Event.firingTime id (.fired entry) = some entry.deadline := if_pos hid
    have hself : firingTimes id [Event.fired entry] = [entry.deadline] := by
      rw [firingTimes, List.filterMap_cons_some htime, List.filterMap_nil]
    rw [List.map_append, firingTimes_append, hnone earlier hearlier, List.nil_append, List.map_cons,
      ← List.singleton_append, firingTimes_append, hself, hnone later hlater, List.append_nil]
  · rename_i hlater
    exact hnone due fun other hmem hother ↦ hlater (hunique other hmem hother).2

/-- Where a timer is on its grid after some events: at the point `k`, and it has been fired for the
points `fired` of the grid, one after the other and all before `k`. -/
structure OnGrid (origin : TimerEntry γ) (id : ℕ) (events : List (Event γ)) (st : State γ Q)
    (entry : TimerEntry γ) (k : ℕ) (fired : List ℕ) : Prop where
  lookup : st.timers.lookup id = some entry
  repeating : entry.repeating = true
  interval_eq : entry.interval = origin.interval
  deadline_eq : entry.deadline = origin.gridPoint k
  firingTimes_eq : firingTimes id events = fired.map origin.gridPoint
  sorted : fired.Pairwise (· < ·)
  lt : ∀ j ∈ fired, j < k

theorem OnGrid.drain {events : List (Event γ)} {k : ℕ} {fired : List ℕ}
    (h : OnGrid origin id events st entry k fired) (hid : entry.id = id)
    (hpos : 0 < origin.interval) (hexact : GridExact κ origin now)
    (hdrained : State.Drained κ now st st' due) :
    (firingTimes id (due.map Event.fired) = [] ∧ st'.timers.lookup id = some entry) ∨
      firingTimes id (due.map Event.fired) = [entry.deadline] ∧ entry.deadline ≤ now ∧
        ∃ entry' j, k < j ∧ st'.timers.lookup id = some entry' ∧ entry'.repeating = true ∧
          entry'.interval = origin.interval ∧ entry'.deadline = origin.gridPoint j ∧
          IsLeast {time | now < time ∧ ∃ i, time = origin.gridPoint i} entry'.deadline := by
  have htimes := firingTimes_of_drained hdrained hid h.lookup
  by_cases hdue : entry.deadline ≤ now
  · rw [if_pos hdue] at htimes
    have hfired := hdrained.fired h.lookup hdue
    generalize hresult : st'.timers.lookup id = result at hfired
    cases hfired with
    | once honce =>
      rw [h.repeating] at honce
      cases honce
    | @again _ next _ hnext =>
      obtain ⟨j, hkj, hj, hleast⟩ :=
        isLeast_of_next hexact hpos h.interval_eq h.deadline_eq hdue hnext
      exact Or.inr ⟨htimes, hdue, _, j, hkj, rfl, h.repeating, h.interval_eq, hj, hleast⟩
  · rw [if_neg hdue] at htimes
    exact Or.inl ⟨htimes, hdrained.later h.lookup (not_le.mp hdue)⟩

end Drained

/-! ## Runs -/

section Runs

variable {κ : TimeArith} {s t : System γ Q} {a : Action γ} {origin entry : TimerEntry γ} {id k : ℕ}
  {events new : List (Event γ)} {fired : List ℕ}

/-- No point of the grid that the passes come past overflows. -/
def gridGuard (κ : TimeArith) (origin : TimerEntry γ) : System γ Q → Action γ → Prop
  | _, .schedulerPass _ now _ => GridExact κ origin now
  | _, _ => True

/-- **A section.** A timer that has not left the map is on its grid still. -/
theorem OnGrid.step (h : OnGrid origin id events s.state entry k fired) (hid : entry.id = id)
    (hpos : 0 < origin.interval) (hguard : gridGuard κ origin s a)
    (hchange : SectionChange κ s a t new) (hout : ∀ event ∈ new, event.outcomes id = 0) :
    ∃ entry' j fired', OnGrid origin id (events ++ new) t.state entry' j fired' := by
  cases hchange with
  | quiet hquiet hkept =>
    have hlookup : t.state.timers.lookup id = some entry := by
      refine (hkept h.lookup).resolve_right ?_
      rintro ⟨-, event, hmem, hne⟩
      exact hne (hout event hmem)
    have hnone : firingTimes id new = [] :=
      firingTimes_eq_nil fun other hmem ↦ absurd hmem (hquiet other)
    refine ⟨entry, k, fired, hlookup, h.repeating, h.interval_eq, h.deadline_eq, ?_, h.sorted, h.lt⟩
    rw [firingTimes_append, hnone, List.append_nil, h.firingTimes_eq]
  | drain haction hevents hdrained =>
    subst haction hevents
    obtain ⟨hnone, hlookup⟩ | ⟨hone, -, entry', j, hkj, hlookup, hrepeating, hinterval, hj, -⟩ :=
      h.drain hid hpos hguard hdrained
    · refine ⟨entry, k, fired, hlookup, h.repeating, h.interval_eq, h.deadline_eq, ?_, h.sorted,
        h.lt⟩
      rw [firingTimes_append, hnone, List.append_nil, h.firingTimes_eq]
    · refine ⟨entry', j, fired ++ [k], hlookup, hrepeating, hinterval, hj, ?_, ?_, ?_⟩
      · rw [firingTimes_append, hone, h.firingTimes_eq, h.deadline_eq, List.map_append,
          List.map_singleton]
      · rw [List.pairwise_append]
        refine ⟨h.sorted, List.pairwise_singleton _ _, fun i hi l hl ↦ ?_⟩
        exact List.mem_singleton.mp hl ▸ h.lt i hi
      · intro i hi
        rcases List.mem_append.mp hi with hold | hnew
        · exact (h.lt i hold).trans hkj
        · exact List.mem_singleton.mp hnew ▸ hkj

/-- As long as a timer has not left the map, it is on the grid of the deadline that it had first. -/
theorem exists_onGrid (hs : (machine κ γ Q).Reachable s)
    (hlookup : s.state.timers.lookup id = some origin) (hrepeating : origin.repeating = true)
    (hleads : (machine κ γ Q).Leads (gridGuard κ origin) s t) :
    t.state.Covered ∧ ∃ events, t.history = s.history ++ events ∧
      ((∀ event ∈ events, event.outcomes id = 0) →
        ∃ entry k fired, OnGrid origin id events t.state entry k fired) := by
  have hpos := origin.interval_pos hrepeating
  refine Machine.Leads.invariant (I := fun t : System γ Q ↦ t.state.Covered ∧
    ∃ events, t.history = s.history ++ events ∧
      ((∀ event ∈ events, event.outcomes id = 0) →
        ∃ entry k fired, OnGrid origin id events t.state entry k fired)) hleads ?_ ?_
  · refine ⟨covered_of_reachable hs, [], (List.append_nil _).symm, fun _ ↦ ⟨origin, 0, [], ?_⟩⟩
    refine ⟨hlookup, hrepeating, rfl, ?_, rfl, List.Pairwise.nil,
      fun j hj ↦ absurd hj List.not_mem_nil⟩
    rw [TimerEntry.gridPoint, Nat.cast_zero, zero_mul, add_zero]
  · rintro u a v ⟨hcovered, events, hhistory, hgrid⟩ hguard hstep
    obtain ⟨new, hhistory', hchange⟩ := section_change hcovered hstep
    refine ⟨covered_step hcovered hstep, events ++ new,
      by rw [hhistory', hhistory, List.append_assoc], fun hout ↦ ?_⟩
    obtain ⟨hold, hnew⟩ := List.forall_mem_append.mp hout
    obtain ⟨entry, k, fired, honGrid⟩ := hgrid hold
    exact honGrid.step (hcovered.entry_id honGrid.lookup) hpos hguard hchange hnew

/-- **Repeating timers stay on their grid.** Take any state in which a repeating timer is active
with its first deadline, and any run from it in which no point of the grid overflows. As long as the
timer has not left the map, its deadline is a point of the grid, and it has been fired for earlier
points, each once and one after the other. A pass leaves it alone, or fires it once, for a deadline
that is due, and moves it to the first point of the grid after the time of the pass. -/
theorem stays_on_grid (hs : (machine κ γ Q).Reachable s)
    (hlookup : s.state.timers.lookup id = some origin) (hrepeating : origin.repeating = true)
    (hleads : (machine κ γ Q).Leads (gridGuard κ origin) s t) :
    ∃ events, t.history = s.history ++ events ∧
      ((∀ event ∈ events, event.outcomes id = 0) →
        ∃ entry k, ∃ fired : List ℕ, t.state.timers.lookup id = some entry ∧
          entry.deadline = origin.gridPoint k ∧
          firingTimes id events = fired.map origin.gridPoint ∧ fired.Pairwise (· < ·) ∧
          (∀ j ∈ fired, j < k) ∧
          ∀ {now now' fuel v}, GridExact κ origin now' →
            t.step κ (.schedulerPass now now' fuel) = some v →
            ∃ new, v.history = t.history ++ new ∧
              (firingTimes id new = [] ∧ v.state.timers.lookup id = some entry ∨
                firingTimes id new = [entry.deadline] ∧ entry.deadline ≤ now' ∧
                  ∃ entry' j, v.state.timers.lookup id = some entry' ∧ k < j ∧
                    entry'.deadline = origin.gridPoint j ∧
                    IsLeast {time | now' < time ∧ ∃ i, time = origin.gridPoint i}
                      entry'.deadline)) := by
  obtain ⟨hcovered, events, hhistory, hgrid⟩ := exists_onGrid hs hlookup hrepeating hleads
  refine ⟨events, hhistory, fun hout ↦ ?_⟩
  obtain ⟨entry, k, fired, honGrid⟩ := hgrid hout
  refine ⟨entry, k, fired, honGrid.lookup, honGrid.deadline_eq, honGrid.firingTimes_eq,
    honGrid.sorted, honGrid.lt, fun {now now' fuel v} hexact hstep ↦ ?_⟩
  obtain ⟨⟨st, pass⟩, hpass, rfl⟩ := Option.map_eq_some_iff.mp hstep
  refine ⟨_, rfl, ?_⟩
  rw [firedEvents_eq]
  obtain ⟨htimers, hdue⟩ | hdrained := State.drained_of_schedulerPass hcovered hpass
  · rw [hdue]
    refine Or.inl ⟨rfl, ?_⟩
    dsimp only
    rw [htimers, honGrid.lookup]
  · refine (honGrid.drain (hcovered.entry_id honGrid.lookup) (origin.interval_pos hrepeating)
      hexact hdrained).imp_right ?_
    rintro ⟨htimes, hdue, entry', j, hkj, hlookup', -, -, hj, hleast⟩
    exact ⟨htimes, hdue, entry', j, hlookup', hkj, hj, hleast⟩

end Runs

/-- A timer that is due at 5 and every millisecond after, and two late passes. The second one misses
two periods. -/
theorem stays_on_grid_late : ∃ s t : System Unit (.sortedList HeapItem.after),
    (machine .exact Unit (.sortedList HeapItem.after)).Reachable s ∧
      (machine .exact Unit (.sortedList HeapItem.after)).run s
        [.schedulerPass 10 10 5, .schedulerPass 3500000 3500000 9] = some t ∧
      ∃ origin entry k, s.state.timers.lookup 1 = some origin ∧ origin.deadline = 5 ∧
        t.state.timers.lookup 1 = some entry ∧ entry.deadline = 4000005 ∧
        entry.deadline = origin.gridPoint k := by
  obtain ⟨s, t, hs, ht, hfinal⟩ := Machine.exists_reachable_of_runs
    (M := machine .exact Unit (.sortedList HeapItem.after))
    (fun s t ↦ ((s.state.timers.lookup 1).map fun entry ↦ (entry.deadline, entry.repeating),
      (t.state.timers.lookup 1).map TimerEntry.deadline,
      t.history.all fun event ↦ decide (event.outcomes 1 = 0)))
    [.addTimer 0 5 1 true (some ())]
    [.schedulerPass 10 10 5, .schedulerPass 3500000 3500000 9]
    (b := (some (5, true), some 4000005, true)) (by decide +kernel)
  simp only [Prod.mk.injEq] at hfinal
  obtain ⟨hbefore, hafter, hout⟩ := hfinal
  obtain ⟨origin, hlookup, horigin⟩ := Option.map_eq_some_iff.mp hbefore
  obtain ⟨hdeadline, hrepeating⟩ := Prod.mk.inj horigin
  have hleads := (Machine.leads_of_runWhen ht).mono (D := gridGuard .exact origin)
    fun u a _ ↦ by
      cases a with
      | schedulerPass now now' fuel => exact gridExact_exact origin now'
      | _ => trivial
  obtain ⟨events, hhistory, hgrid⟩ := stays_on_grid hs hlookup hrepeating hleads
  obtain ⟨entry, k, fired, hentry, hk, -⟩ := hgrid fun event hmem ↦ by
    refine of_decide_eq_true (List.all_eq_true.mp hout event ?_)
    rw [hhistory]
    exact List.mem_append_right _ hmem
  rw [hentry, Option.map_some, Option.some.injEq] at hafter
  exact ⟨s, t, hs, ht, origin, entry, k, hlookup, hdeadline, hentry, hafter, hk⟩

end HighPerformanceTimer

end FoundationComponents
