import FoundationComponents.Reactor.Loop

/-!
# A stop that is lost

`EpollReactor::run` clears the flag when it is called. A call of `stop` that comes between the call
of `run` and this store sets the flag too early: the store overwrites it, the first `runOnce` drains
the wake, and the loop waits again with nothing left to stop it.

If no call of `stop` that started after `run` was called sets the flag before `run` has cleared it,
the flag stays set from then on until `run` returns.
-/

namespace FoundationComponents

namespace Reactor

namespace Loop

section LostStop

variable {κ : Type*} {n : ℕ} {wakeFd : ℤ} {s s' : System κ n} {a : Action κ n}

/-- A call of `stop` that started after `run` was called does not set the flag before `run` clears
it. -/
def StoresAfterReset (s : System κ n) : Action κ n → Prop
  | .store caller => s.position = .resetting → s.callers caller ≠ .storing true
  | _ => True

instance [DecidableEq κ] (s : System κ n) (a : Action κ n) : Decidable (StoresAfterReset s a) :=
  match a with
  | .store caller =>
      inferInstanceAs (Decidable (s.position = .resetting → s.callers caller ≠ .storing true))
  | .run | .reset | .check | .enter | .ready _ | .collect | .callback | .finish | .returnOnce
  | .throw | .stop _ | .wake _ | .call _ _ _ | .callWake _ => .isTrue trivial

/-- A call of `stop` that started after `run` was called has set the flag. -/
def System.HasStopped (s : System κ n) : Prop :=
  s.stopped = true ∨ ∃ caller, s.callers caller = .stopWaking true

/-- What it has set stays set. -/
def Kept (s : System κ n) : Prop := s.HasStopped → s.position ≠ .resetting ∧ s.stopping = true

theorem Pc.forget_ne (pc : Pc) : pc.forget ≠ .stopWaking true := by
  cases pc <;> nofun

theorem kept_step {kind : Kind} (h : Kept s) (hguard : StoresAfterReset s a)
    (hstep : s.step kind a = some s') : Kept s' := by
  cases change_of_step hstep with
  | move table not_resetting not_entering not_waiting =>
    exact fun hstopped ↦ ⟨not_resetting, (h hstopped).2⟩
  | run position_eq =>
    -- whatever is in progress started before this `run`
    rintro (hstopped | ⟨caller, hwaking⟩)
    · cases hstopped
    · exact absurd hwaking (Pc.forget_ne _)
  -- the store of `run` finds that nobody has stopped it
  | reset position_eq => exact fun hstopped ↦ absurd position_eq (h hstopped).1
  | enter stopping_eq => exact fun hstopped ↦ ⟨nofun, (h hstopped).2⟩
  | wait position_eq => exact fun hstopped ↦ ⟨nofun, (h hstopped).2⟩
  | @caller caller pc table not_before not_after wakeCount_le =>
    rintro (hstopped | ⟨other, hwaking⟩)
    · exact h (.inl hstopped)
    · by_cases hother : other = caller
      · rw [hother] at hwaking
        exact absurd ((Function.update_self ..).symm.trans hwaking) (not_after true)
      · exact h (.inr ⟨other, (Function.update_of_ne hother ..).symm.trans hwaking⟩)
  | @store caller sinceRun action_eq caller_eq =>
    rintro (hstopped | ⟨other, hwaking⟩)
    · exact ⟨(h (.inl hstopped)).1, rfl⟩
    · by_cases hother : other = caller
      · -- the call itself: the guard says that `run` has cleared the flag before
        rw [hother] at hwaking
        have hsince := (Function.update_self ..).symm.trans hwaking
        rw [Pc.stopWaking.injEq] at hsince
        rw [action_eq, StoresAfterReset] at hguard
        refine ⟨fun hposition ↦ ?_, rfl⟩
        exact hguard hposition (hsince ▸ caller_eq)
      · have hbefore := (Function.update_of_ne hother ..).symm.trans hwaking
        exact ⟨(h (.inr ⟨other, hbefore⟩)).1, rfl⟩
  | @wake caller sinceRun caller_eq =>
    rintro (hstopped | ⟨other, hwaking⟩)
    · rcases Bool.or_eq_true_iff.mp hstopped with hstopped | rfl
      · exact h (.inl hstopped)
      · exact h (.inr ⟨caller, caller_eq⟩)
    · by_cases hother : other = caller
      · rw [hother] at hwaking
        cases (Function.update_self ..).symm.trans hwaking
      · exact h (.inr ⟨other, (Function.update_of_ne hother ..).symm.trans hwaking⟩)

/-- **A stop is not lost once `run` has cleared the flag.** In every run in which no call of `stop`
that started after `run` was called sets the flag before `run` clears it: when such a call has
completed, the loop is not blocked with the eventfd empty and the flag false. -/
theorem stop_not_lost
    (h : (machine κ .epollReactor wakeFd n).ReachableWhen StoresAfterReset s) :
    ¬(s.stopped = true ∧ s.position = .waiting ∧ s.table.wakeCount = 0 ∧ s.stopping = false) := by
  have hkept : Kept s := by
    refine Machine.Leads.invariant h ?_ fun hs hguard hstep ↦ kept_step hs hguard hstep
    rintro (hstopped | ⟨caller, hwaking⟩)
    · cases hstopped
    · cases hwaking
  rintro ⟨hstopped, -, -, hcleared⟩
  exact Bool.false_ne_true (hcleared.symm.trans (hkept (.inl hstopped)).2)

end LostStop

/-- The loop waits when a thread stops it. -/
theorem stop_not_lost_waiting :
    ∃ s : System ℕ 1, (machine ℕ .epollReactor 3 1).ReachableWhen StoresAfterReset s ∧
      s.stopped = true ∧ s.position = .waiting ∧
      ¬(s.stopped = true ∧ s.position = .waiting ∧ s.table.wakeCount = 0 ∧ s.stopping = false) := by
  obtain ⟨s, hs, hfinal⟩ := Machine.exists_reachableWhen_of_run (M := machine ℕ .epollReactor 3 1)
    (C := StoresAfterReset) (fun s ↦ (s.stopped, s.position))
    [.run, .reset, .check, .enter, .stop (some 0), .store (some 0), .wake (some 0)]
    (b := (true, .waiting)) (by decide +kernel)
  obtain ⟨hstopped, hwaiting⟩ := Prod.mk.inj hfinal
  exact ⟨s, hs, hstopped, hwaiting, stop_not_lost hs⟩

/-- The stop comes between the call of `run` and its store: the loop ends up waiting for ever. -/
theorem stop_lost :
    ∃ s : System ℕ 1, (machine ℕ .epollReactor 3 1).Reachable s ∧
      s.stopped = true ∧ s.position = .waiting ∧ s.table.wakeCount = 0 ∧ s.stopping = false := by
  obtain ⟨s, hs, hfinal⟩ := Machine.exists_reachable_of_run (M := machine ℕ .epollReactor 3 1)
    (fun s ↦ (s.stopped, s.position, s.table.wakeCount, s.stopping))
    [.run, .stop (some 0), .store (some 0), .wake (some 0), .reset, .check, .enter,
      .ready [(3, 1)], .collect, .returnOnce, .check, .enter]
    (b := (true, .waiting, 0, false)) (by decide +kernel)
  simp only [Prod.mk.injEq] at hfinal
  exact ⟨s, hs, hfinal⟩

end Loop

end Reactor

end FoundationComponents
