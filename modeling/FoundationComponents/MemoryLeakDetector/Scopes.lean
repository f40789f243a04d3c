import FoundationComponents.MemoryLeakDetector.Basic

/-!
# Scoped checks

A `ScopedMemoryLeakCheck` remembers whether the detector is enabled, enables it, and takes a
snapshot; its destructor stores what it remembers. The flag is one for the process, and the
constructor reads it and writes it in two steps, so scopes on several threads, or scopes whose
lifetimes overlap without nesting, act on each other's values.

Only what a scope has found matters. A scope that found the detector off switches it off at its end,
so no other scope may need it then; one that found it on switches it on, so some other scope has to
be left that will switch it off. A run in which every destructor meets its condition keeps the flag
as the scopes want it. A destructor that does not meet it breaks this at once.
-/

namespace FoundationComponents

namespace MemoryLeakDetector

/-- A `ScopedMemoryLeakCheck`, by how far its constructor has come. -/
inductive Scope
  /-- `previous_enabled_` has been read. -/
  | reading (enableDetector previousEnabled : Bool)
  /-- The `if` has been left. -/
  | opened (previousEnabled : Bool)
  /-- The constructor has returned. -/
  | alive (previousEnabled : Bool) (baseline : Snapshot)
  deriving Repr, DecidableEq

namespace Scope

def previousEnabled : Scope → Bool
  | .reading _ previousEnabled => previousEnabled
  | .opened previousEnabled => previousEnabled
  | .alive previousEnabled _ => previousEnabled

def isAlive : Scope → Bool
  | .alive _ _ => true
  | _ => false

/-- The scope has enabled the detector, if it was to. -/
def relies : Scope → Bool
  | .reading _ _ => false
  | _ => true

end Scope

/-- The detector, and places for scopes; a place is empty before the construction of its scope and
after the destruction. -/
structure Scoped (n : ℕ) where
  detector : State
  scopes : Fin n → Option Scope

inductive ScopeStep (n : ℕ)
  /-- The constructor starts, and reads the flag. -/
  | construct (i : Fin n) (enableDetector : Bool)
  | enable (i : Fin n)
  /-- The snapshot, with which the constructor ends. -/
  | complete (i : Fin n)
  | destroy (i : Fin n)
  /-- Any other call of the detector, on any thread. -/
  | call (c : Call)
  deriving Repr, DecidableEq

namespace Scoped

variable {n : ℕ} (s : Scoped n)

def setScope (i : Fin n) (scope : Option Scope) : Scoped n :=
  { s with scopes := Function.update s.scopes i scope }

def step (defaultNewAlignment : ℕ) : ScopeStep n → Option (Scoped n)
  | .construct i enableDetector =>
      match s.scopes i with
      | none => some (s.setScope i (some (.reading enableDetector s.detector.enabled)))
      | some _ => none
  | .enable i =>
      match s.scopes i with
      | some (.reading enableDetector previousEnabled) =>
          let opened := s.setScope i (some (.opened previousEnabled))
          some
            (if enableDetector then { opened with detector := s.detector.setEnabled true }
            else opened)
      | _ => none
  | .complete i =>
      match s.scopes i with
      | some (.opened previousEnabled) =>
          some (s.setScope i (some (.alive previousEnabled s.detector.snapshot)))
      | _ => none
  | .destroy i =>
      match s.scopes i with
      | some (.alive previousEnabled _) =>
          some
            { s.setScope i none with detector := s.detector.setEnabled previousEnabled }
      | _ => none
  | .call c => some { s with detector := s.detector.call defaultNewAlignment c }

end Scoped

/-- Scopes and calls, from a state of the detector in which there is no scope. -/
def scopeMachine (defaultNewAlignment : ℕ) (before : State) (n : ℕ) :
    Machine (Scoped n) (ScopeStep n) where
  init := ⟨before, fun _ ↦ none⟩
  step s := s.step defaultNewAlignment

/-- Every scope enables the detector, and `setEnabled` is not called otherwise. -/
def ScopeStep.Enabling {n : ℕ} : ScopeStep n → Prop
  | .construct _ enableDetector => enableDetector = true
  | .call c => ∀ enabled, c ≠ .setEnabled enabled
  | _ => True

namespace Scoped

variable {n : ℕ} (s : Scoped n)

/-- No scope but the one at `i` has enabled the detector and relies on it. -/
def NoOther (i : Fin n) : Prop := ∀ j ≠ i, ∀ scope ∈ s.scopes j, scope.relies = false

/-- The condition on a destructor. What it stores is what the other scopes need, or there is no
other scope and it is what was found by the first. -/
def Restores (before : State) : ScopeStep n → Prop
  | .destroy i =>
      before.enabled = true ∨ ∀ scope ∈ s.scopes i,
        if scope.previousEnabled then ∃ j ≠ i, s.scopes j ≠ none else s.NoOther i
  | _ => True

instance (before : State) (a : ScopeStep n) :
    Decidable (a.Enabling ∧ s.Restores before a) := by
  cases a <;> simp only [ScopeStep.Enabling, Restores, NoOther] <;> infer_instance

/-- What the scopes want of the flag: it is on if one of them is alive, and as before if there is
none. -/
structure Watched (before : State) : Prop where
  alive : (∃ i scope, s.scopes i = some scope ∧ scope.isAlive = true) → s.detector.enabled = true
  restored : (∀ i, s.scopes i = none) → s.detector.enabled = before.enabled

/-- The invariant. The flag is on as soon as a scope has set it; and if it was on before, nobody
has ever found it off. -/
structure Kept (before : State) : Prop where
  relied : ∀ {i scope}, s.scopes i = some scope → scope.relies = true → s.detector.enabled = true
  restored : (∀ i, s.scopes i = none) → s.detector.enabled = before.enabled
  enabling : ∀ {i enableDetector previousEnabled},
    s.scopes i = some (.reading enableDetector previousEnabled) → enableDetector = true
  always : before.enabled = true → s.detector.enabled = true ∧
    ∀ {i scope}, s.scopes i = some scope → scope.previousEnabled = true

variable {s} {before : State} {s' : Scoped n} {a : ScopeStep n} {defaultNewAlignment : ℕ}

theorem Kept.watched (h : s.Kept before) : s.Watched before := by
  refine ⟨?_, h.restored⟩
  rintro ⟨i, scope, hi, halive⟩
  cases scope with
  | alive previousEnabled baseline => exact h.relied hi rfl
  | _ => cases halive

theorem call_enabled {d : State} {c : Call} (hc : ∀ enabled, c ≠ .setEnabled enabled) :
    (d.call defaultNewAlignment c).enabled = d.enabled := by
  cases c with
  | setEnabled enabled => exact absurd rfl (hc enabled)
  | recordAllocation allocation inserted =>
    rw [State.call, State.recordAllocation]
    split
    · rfl
    · dsimp only
      split
      · rfl
      · split <;> rfl
  | recordDeallocation address arrayDelete fallbackAlignment =>
    rw [State.call, State.recordDeallocation]
    split
    · rfl
    · split <;> rfl
  | reset => rfl

private theorem setScope_self (s : Scoped n) (i : Fin n) (x : Option Scope) :
    (s.setScope i x).scopes i = x := Function.update_self ..

private theorem setScope_of_ne (s : Scoped n) {i j : Fin n} (hji : j ≠ i) (x : Option Scope) :
    (s.setScope i x).scopes j = s.scopes j := Function.update_of_ne hji ..

private theorem mem_setScope {i j : Fin n} {x : Option Scope} {scope : Scope}
    (h : (s.setScope i x).scopes j = some scope) :
    x = some scope ∨ (j ≠ i ∧ s.scopes j = some scope) := by
  by_cases hji : j = i
  · subst hji
    exact Or.inl ((setScope_self s j x).symm.trans h)
  · exact Or.inr ⟨hji, (setScope_of_ne s hji x).symm.trans h⟩

/-- A constructor goes on. The flag is not cleared, and it is on if the scope now relies on it. -/
theorem Kept.setScope (h : s.Kept before) (i : Fin n) {scope : Scope} {detector : State}
    (hkeeps : s.detector.enabled = true → detector.enabled = true)
    (hrelies : scope.relies = true → detector.enabled = true)
    (henabling : ∀ {enableDetector previousEnabled},
      scope = .reading enableDetector previousEnabled → enableDetector = true)
    (halways : before.enabled = true → scope.previousEnabled = true) :
    Kept { s.setScope i (some scope) with detector := detector } before where
  relied hj hrelies' := by
    rcases mem_setScope hj with hscope | ⟨-, hj⟩
    · obtain rfl := Option.some.inj hscope
      exact hrelies hrelies'
    · exact hkeeps (h.relied hj hrelies')
  restored hnone := by
    have hi := hnone i
    exact absurd ((setScope_self s i _).symm.trans hi) (Option.some_ne_none _)
  enabling hj := by
    rcases mem_setScope hj with hscope | ⟨-, hj⟩
    · exact henabling (Option.some.inj hscope)
    · exact h.enabling hj
  always hon := by
    refine ⟨hkeeps (h.always hon).1, fun hj ↦ ?_⟩
    rcases mem_setScope hj with hscope | ⟨-, hj⟩
    · obtain rfl := Option.some.inj hscope
      exact halways hon
    · exact (h.always hon).2 hj

theorem Kept.destroy (h : s.Kept before) {i : Fin n} {previousEnabled : Bool} {baseline : Snapshot}
    (hi : s.scopes i = some (.alive previousEnabled baseline))
    (hrestores : s.Restores before (.destroy i)) :
    Kept { s.setScope i none with detector := s.detector.setEnabled previousEnabled } before := by
  have hother : ∀ {j scope}, (s.setScope i none).scopes j = some scope →
      j ≠ i ∧ s.scopes j = some scope :=
    fun hj ↦ (mem_setScope hj).resolve_left (by simp)
  by_cases hon : before.enabled = true
  · obtain rfl : previousEnabled = true := (h.always hon).2 hi
    exact ⟨fun _ _ ↦ rfl, fun _ ↦ hon.symm, fun hj ↦ h.enabling (hother hj).2,
      fun _ ↦ ⟨rfl, fun hj ↦ (h.always hon).2 (hother hj).2⟩⟩
  · have hcondition := hrestores.resolve_left hon _ hi
    refine ⟨fun {j scope} hj hrelies ↦ ?_, fun hnone ↦ ?_, fun hj ↦ h.enabling (hother hj).2,
      fun hon' ↦ absurd hon' hon⟩
    · cases previousEnabled with
      | true => rfl
      | false =>
        have hfree : scope.relies = false := hcondition j (hother hj).1 scope (hother hj).2
        rw [hfree] at hrelies
        cases hrelies
    · cases previousEnabled with
      | true =>
        obtain ⟨j, hji, hj⟩ := hcondition
        exact absurd ((setScope_of_ne s hji none).symm.trans (hnone j)) hj
      | false => exact (Bool.eq_false_iff.mpr hon).symm

theorem kept_step (h : s.Kept before) (henabling : a.Enabling) (hrestores : s.Restores before a)
    (hstep : s.step defaultNewAlignment a = some s') : s'.Kept before := by
  cases a with
  | construct i enableDetector =>
    simp only [step] at hstep
    split at hstep
    · obtain rfl := Option.some.inj hstep
      refine h.setScope i id (fun hrelies ↦ ?_) (fun hscope ↦ ?_) fun hon ↦ (h.always hon).1
      · cases hrelies
      · obtain ⟨rfl, -⟩ := Scope.reading.inj hscope
        exact henabling
    · cases hstep
  | enable i =>
    simp only [step] at hstep
    split at hstep
    · rename_i enableDetector previousEnabled hi
      obtain rfl := h.enabling hi
      obtain rfl := Option.some.inj hstep
      have halways : before.enabled = true → previousEnabled = true :=
        fun hon ↦ (h.always hon).2 hi
      refine h.setScope i (fun _ ↦ rfl) (fun _ ↦ rfl) (fun hscope ↦ ?_) halways
      cases hscope
    · cases hstep
  | complete i =>
    simp only [step] at hstep
    split at hstep
    · rename_i previousEnabled hi
      obtain rfl := Option.some.inj hstep
      have halways : before.enabled = true → previousEnabled = true :=
        fun hon ↦ (h.always hon).2 hi
      refine h.setScope i id (fun _ ↦ h.relied hi rfl) (fun hscope ↦ ?_) halways
      cases hscope
    · cases hstep
  | destroy i =>
    simp only [step] at hstep
    split at hstep
    · rename_i previousEnabled baseline hi
      obtain rfl := Option.some.inj hstep
      exact h.destroy hi hrestores
    · cases hstep
  | call c =>
    obtain rfl := Option.some.inj hstep
    have hsame : (s.detector.call defaultNewAlignment c).enabled = s.detector.enabled :=
      call_enabled henabling
    exact ⟨fun hj hrelies ↦ hsame.trans (h.relied hj hrelies),
      fun hnone ↦ hsame.trans (h.restored hnone), h.enabling,
      fun hon ↦ ⟨hsame.trans (h.always hon).1, (h.always hon).2⟩⟩

/-- A destructor that does not meet its condition leaves the flag off under a scope that relies on
it, or leaves it on when the last scope has gone. -/
theorem lost_of_not_restores {i : Fin n} (hrestores : ¬s.Restores before (.destroy i))
    (hstep : s.step defaultNewAlignment (.destroy i) = some s') :
    (s'.detector.enabled = false ∧
        ∃ j scope, s'.scopes j = some scope ∧ scope.relies = true) ∨
      (s'.detector.enabled ≠ before.enabled ∧ ∀ j, s'.scopes j = none) := by
  rw [Restores, not_or, not_forall] at hrestores
  obtain ⟨hoff, scope, hcondition⟩ := hrestores
  rw [Classical.not_imp] at hcondition
  obtain ⟨hmem, hcondition⟩ := hcondition
  have hi : s.scopes i = some scope := hmem
  simp only [step, hi] at hstep
  cases scope with
  | alive previousEnabled baseline =>
    obtain rfl := Option.some.inj hstep
    cases previousEnabled with
    | false =>
      rw [Scope.previousEnabled, if_neg Bool.false_ne_true, NoOther] at hcondition
      push Not at hcondition
      obtain ⟨j, hji, scope, hj, hrelies⟩ := hcondition
      exact Or.inl ⟨rfl, j, scope, (setScope_of_ne s hji none).trans hj,
        Bool.eq_true_of_not_eq_false hrelies⟩
    | true =>
      rw [Scope.previousEnabled, if_pos rfl] at hcondition
      push Not at hcondition
      refine Or.inr ⟨fun hsame ↦ hoff hsame.symm, fun j ↦ ?_⟩
      by_cases hji : j = i
      · subst hji
        exact setScope_self s j none
      · exact (setScope_of_ne s hji none).trans (hcondition j hji)
  | _ => cases hstep

end Scoped

section Runs

variable {defaultNewAlignment n : ℕ} {before : State} {s : Scoped n}

theorem kept_init : (scopeMachine defaultNewAlignment before n).init.Kept before := by
  refine ⟨fun hj ↦ ?_, fun _ ↦ rfl, fun hj ↦ ?_, fun hon ↦ ⟨hon, fun hj ↦ ?_⟩⟩ <;> cases hj

/-- **Scopes.** If every destructor meets its condition, the detector is enabled in every state in
which a scope is alive, and as it was before the first scope in every state in which there is
none. -/
theorem watched_of_restores
    (h : (scopeMachine defaultNewAlignment before n).ReachableWhen
      (fun s a ↦ a.Enabling ∧ s.Restores before a) s) : s.Watched before := by
  have hkept : s.Kept before := Machine.Leads.invariant (I := fun s ↦ s.Kept before) h
    kept_init fun hs hguard hstep ↦ Scoped.kept_step hs hguard.1 hguard.2 hstep
  exact hkept.watched

end Runs

/-- Scopes on three threads that do not nest: the first is the last to end. -/
theorem watched_of_restores_overlapping : ∃ s : Scoped 3,
    (scopeMachine 16 .initial 3).ReachableWhen
      (fun s a ↦ a.Enabling ∧ s.Restores .initial a) s ∧
      (s.detector.enabled = true ∧ (s.scopes 0).isSome ∧ s.scopes 1 = none) ∧
      s.Watched .initial := by
  obtain ⟨s, hs, hfinal⟩ := Machine.exists_reachableWhen_of_run (M := scopeMachine 16 .initial 3)
    (C := fun s a ↦ a.Enabling ∧ s.Restores .initial a)
    (fun s ↦ (s.detector.enabled, (s.scopes 0).isSome, s.scopes 1))
    [.construct 0 true, .enable 0, .construct 1 true, .complete 0, .enable 1, .construct 2 true,
      .complete 1, .enable 2, .destroy 1, .complete 2, .destroy 2] (b := (true, true, none))
    (by decide +kernel)
  simp only [Prod.mk.injEq] at hfinal
  exact ⟨s, hs, hfinal, watched_of_restores hs⟩

/-- Two scopes end in the order in which they began: the second one finds the detector off while it
is alive, and then leaves it on. -/
theorem not_watched_of_overlap :
    (∃ s : Scoped 2, (scopeMachine 16 .initial 2).run (scopeMachine 16 .initial 2).init
        [.construct 0 true, .enable 0, .complete 0, .construct 1 true, .enable 1, .complete 1,
          .destroy 0] = some s ∧
      s.scopes 1 = some (.alive true ⟨.zero, 1⟩) ∧ s.detector.enabled = false ∧
      ¬s.Watched .initial) ∧
    ∃ s : Scoped 2, (scopeMachine 16 .initial 2).run (scopeMachine 16 .initial 2).init
        [.construct 0 true, .enable 0, .complete 0, .construct 1 true, .enable 1, .complete 1,
          .destroy 0, .destroy 1] = some s ∧
      (∀ i, s.scopes i = none) ∧ s.detector.enabled = true ∧ ¬s.Watched .initial := by
  have hfirst : ((scopeMachine 16 .initial 2).run (scopeMachine 16 .initial 2).init
      [.construct 0 true, .enable 0, .complete 0, .construct 1 true, .enable 1, .complete 1,
        .destroy 0]).map (fun s ↦ (s.scopes 1, s.detector.enabled)) =
      some (some (.alive true ⟨.zero, 1⟩), false) := by decide +kernel
  have hboth : ((scopeMachine 16 .initial 2).run (scopeMachine 16 .initial 2).init
      [.construct 0 true, .enable 0, .complete 0, .construct 1 true, .enable 1, .complete 1,
        .destroy 0, .destroy 1]).map (fun s ↦ (s.scopes 0, s.scopes 1, s.detector.enabled)) =
      some (none, none, true) := by decide +kernel
  constructor
  · obtain ⟨s, hs, hfinal⟩ := Option.map_eq_some_iff.mp hfirst
    obtain ⟨halive, hoff⟩ := Prod.mk.inj hfinal
    refine ⟨s, hs, halive, hoff, fun hwatched ↦ ?_⟩
    rw [hwatched.alive ⟨1, _, halive, rfl⟩] at hoff
    cases hoff
  · obtain ⟨s, hs, hfinal⟩ := Option.map_eq_some_iff.mp hboth
    simp only [Prod.mk.injEq] at hfinal
    obtain ⟨hzero, hone, hon⟩ := hfinal
    have hnone : ∀ i, s.scopes i = none := Fin.forall_fin_two.mpr ⟨hzero, hone⟩
    refine ⟨s, hs, hnone, hon, fun hwatched ↦ ?_⟩
    rw [hwatched.restored hnone] at hon
    cases hon

end MemoryLeakDetector

end FoundationComponents
