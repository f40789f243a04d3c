import Mathlib.Data.List.Induction
import Mathlib.Logic.Relation

/-!
# Machines, runs and invariants

A concurrent component is modelled as a *machine*: a state and a partial step function whose label
carries every choice the environment makes (which thread moves, what a clock reads, whether a weak
compare-and-swap fails). Since the label settles all nondeterminism the step function is
executable, and a concrete interleaving is a list of labels that can be evaluated.

Runs are taken relative to a *guard*, a condition on the state before each step and the label of
the step. The trivial guard gives plain reachability; a proper guard singles out the runs in which
some race is not taken, so that a property which fails in general can still be stated exactly.
-/

namespace FoundationComponents

/-- A machine: an initial state and a step function that is defined when the label is enabled. -/
structure Machine (σ : Type*) (α : Type*) where
  /-- The state every run starts from. -/
  init : σ
  /-- One step; `none` when the label is not enabled. -/
  step : σ → α → Option σ

namespace Machine

variable {σ α : Type*} (M : Machine σ α)

/-- `M.Leads C s t`: some run from `s` ends in `t`, and each of its steps satisfies `C`. -/
inductive Leads (C : σ → α → Prop) (s : σ) : σ → Prop
  | refl : Leads C s s
  | step {t u : σ} {a : α} : Leads C s t → C t a → M.step t a = some u → Leads C s u

/-- The states of the runs all of whose steps satisfy the guard `C`. -/
def ReachableWhen (C : σ → α → Prop) (s : σ) : Prop := M.Leads C M.init s

/-- The states of all runs. -/
def Reachable (s : σ) : Prop := M.ReachableWhen (fun _ _ ↦ True) s

/-- Execute a list of labels, failing at the first one that is not enabled or not guarded. -/
def runWhen (C : σ → α → Prop) [∀ s a, Decidable (C s a)] : σ → List α → Option σ
  | s, [] => some s
  | s, a :: as => if C s a then (M.step s a).bind fun t ↦ runWhen C t as else none

/-- Execute a list of labels, failing at the first one that is not enabled. -/
def run : σ → List α → Option σ := M.runWhen fun _ _ ↦ True

/-- What the steps of a list of labels put out, in their order. -/
def outputs {β : Type*} (f : σ → α → List β) : σ → List α → List β
  | _, [] => []
  | s, a :: as => f s a ++ ((M.step s a).map fun t ↦ outputs f t as).getD []

/-- No step of a kind is possible. -/
def AtRest (C : α → Prop) (s : σ) : Prop := ∀ a, C a → M.step s a = none

/-- Steps of a kind come to an end, and then the state has a property: a run of such steps has no
more than so many of them, and if it cannot be continued, it ends in `P`. -/
def Settles (C : α → Prop) (s : σ) (bound : ℕ) (P : σ → Prop) : Prop :=
  ∀ as t, (∀ a ∈ as, C a) → M.run s as = some t → as.length ≤ bound ∧ (M.AtRest C t → P t)

variable {M}

namespace Leads

variable {C : σ → α → Prop} {s t u : σ}

theorem trans (hst : M.Leads C s t) (htu : M.Leads C t u) : M.Leads C s u := by
  induction htu with
  | refl => exact hst
  | step _ hC hstep ih => exact ih.step hC hstep

theorem mono {D : σ → α → Prop} (hCD : ∀ s a, C s a → D s a) (h : M.Leads C s t) :
    M.Leads D s t := by
  induction h with
  | refl => exact refl
  | step _ hC hstep ih => exact ih.step (hCD _ _ hC) hstep

/-- **The invariant rule.** A predicate kept by every step that satisfies the guard holds at the
end of a run if it holds at its start. -/
theorem invariant {I : σ → Prop} (h : M.Leads C s t) (hs : I s)
    (hstep : ∀ {s a t}, I s → C s a → M.step s a = some t → I t) : I t := by
  induction h with
  | refl => exact hs
  | step _ hC ht ih => exact hstep ih hC ht

end Leads

theorem ReachableWhen.reachable {C : σ → α → Prop} {s : σ} (h : M.ReachableWhen C s) :
    M.Reachable s :=
  Leads.mono (fun _ _ _ ↦ trivial) h

theorem leads_of_runWhen {C : σ → α → Prop} [∀ s a, Decidable (C s a)] {s t : σ} {as : List α}
    (h : M.runWhen C s as = some t) : M.Leads C s t := by
  induction as generalizing s with
  | nil =>
    rw [runWhen, Option.some.injEq] at h
    exact h ▸ Leads.refl
  | cons a as ih =>
    rw [runWhen] at h
    split at h
    · rename_i hC
      rw [Option.bind_eq_some_iff] at h
      obtain ⟨u, hsu, hut⟩ := h
      exact (Leads.refl.step hC hsu).trans (ih hut)
    · cases h

theorem run_of_runWhen {C : σ → α → Prop} [∀ s a, Decidable (C s a)] {s t : σ} {as : List α}
    (h : M.runWhen C s as = some t) : M.run s as = some t := by
  induction as generalizing s with
  | nil => exact h
  | cons a as ih =>
    rw [runWhen] at h
    split at h
    · rw [Option.bind_eq_some_iff] at h
      obtain ⟨u, hsu, hut⟩ := h
      rw [run, runWhen, if_pos trivial, hsu]
      exact ih hut
    · cases h

/-! ## Labels

The labels of a run are a list, and a run is extended at its end. So an induction over a run sees
what was put out before its last step, and a run can be cut where something first happens. -/

theorem runWhen_append {C : σ → α → Prop} [∀ s a, Decidable (C s a)] (s : σ) (as bs : List α) :
    M.runWhen C s (as ++ bs) = (M.runWhen C s as).bind fun t ↦ M.runWhen C t bs := by
  induction as generalizing s with
  | nil => rfl
  | cons a as ih =>
    rw [List.cons_append, runWhen, runWhen]
    split
    · rw [Option.bind_assoc]
      exact congrArg _ (funext ih)
    · rfl

theorem run_append (s : σ) (as bs : List α) :
    M.run s (as ++ bs) = (M.run s as).bind fun t ↦ M.run t bs :=
  runWhen_append s as bs

theorem run_singleton (s : σ) (a : α) : M.run s [a] = M.step s a := by
  rw [run, runWhen, if_pos trivial]
  exact Option.bind_fun_some _

theorem forall_position_concat {P : List α → α → Prop} {as : List α} {a : α}
    (h : ∀ before b after, as = before ++ b :: after → P before b) (ha : P as a) :
    ∀ before b after, as ++ [a] = before ++ b :: after → P before b := by
  intro before b after heq
  cases after using List.reverseRecOn with
  | nil =>
    obtain ⟨rfl, hlast⟩ := List.append_inj' heq rfl
    obtain rfl := List.head_eq_of_cons_eq hlast
    exact ha
  | append_singleton after c =>
    rw [← List.cons_append, ← List.append_assoc] at heq
    exact h before b after (List.append_inj' heq rfl).1

theorem runWhen_singleton {C : σ → α → Prop} [∀ s a, Decidable (C s a)] {s t : σ} {a : α} :
    M.runWhen C s [a] = some t ↔ C s a ∧ M.step s a = some t := by
  rw [runWhen, Option.ite_none_right_eq_some]
  exact and_congr_right fun _ ↦ iff_of_eq (congrArg (· = some t) (Option.bind_fun_some _))

/-- A guarded run, cut at one of its steps. -/
theorem runWhen_cut {C : σ → α → Prop} [∀ s a, Decidable (C s a)] {s t : σ} {before after : List α}
    {a : α} (h : M.runWhen C s (before ++ a :: after) = some t) :
    ∃ u v, M.runWhen C s before = some u ∧ C u a ∧ M.step u a = some v ∧
      M.runWhen C v after = some t := by
  rw [runWhen_append, Option.bind_eq_some_iff] at h
  obtain ⟨u, hu, hrest⟩ := h
  rw [runWhen, Option.ite_none_right_eq_some, Option.bind_eq_some_iff] at hrest
  obtain ⟨hC, v, hv, hvt⟩ := hrest
  exact ⟨u, v, hu, hC, hv, hvt⟩

/-- **The invariant rule for guarded runs, with the labels so far.** -/
theorem runWhen_invariant {C : σ → α → Prop} [∀ s a, Decidable (C s a)] {J : List α → σ → Prop}
    {s t : σ} {as : List α} (h : M.runWhen C s as = some t) (hs : J [] s)
    (hstep : ∀ {as u a v}, M.runWhen C s as = some u → J as u → C u a → M.step u a = some v →
      J (as ++ [a]) v) : J as t := by
  induction as using List.reverseRecOn generalizing t with
  | nil =>
    obtain rfl := Option.some.inj h
    exact hs
  | append_singleton as a ih =>
    rw [runWhen_append, Option.bind_eq_some_iff] at h
    obtain ⟨u, hu, ht⟩ := h
    obtain ⟨hC, ht⟩ := runWhen_singleton.mp ht
    exact hstep hu (ih hu) hC ht

/-- **The invariant rule, with the labels so far.** -/
theorem run_invariant {J : List α → σ → Prop} {s t : σ} {as : List α} (h : M.run s as = some t)
    (hs : J [] s)
    (hstep : ∀ {as u a v}, M.run s as = some u → J as u → M.step u a = some v → J (as ++ [a]) v) :
    J as t :=
  runWhen_invariant h hs fun hrun hu _ hv ↦ hstep hrun hu hv

/-- What a run puts out is what its steps put out, the last step last. -/
theorem outputs_concat {β : Type*} (f : σ → α → List β) {s t : σ} {as : List α}
    (h : M.run s as = some t) (a : α) :
    M.outputs f s (as ++ [a]) = M.outputs f s as ++ f t a := by
  induction as generalizing s with
  | nil =>
    obtain rfl := Option.some.inj h
    rw [List.nil_append, outputs, outputs, List.nil_append]
    cases M.step s a with
    | none => exact List.append_nil _
    | some u => exact List.append_nil _
  | cons b as ih =>
    rw [run, runWhen, if_pos trivial, Option.bind_eq_some_iff] at h
    obtain ⟨u, hsu, hut⟩ := h
    rw [List.cons_append, outputs, outputs, hsu, Option.map_some, Option.map_some, Option.getD_some,
      Option.getD_some, ih hut, List.append_assoc]

theorem outputs_eq_nil_iff {β : Type*} (f : σ → α → List β) {s t : σ} {as : List α}
    (h : M.run s as = some t) : M.outputs f s as = [] ↔
      ∀ before a after u, as = before ++ a :: after → M.run s before = some u → f u a = [] := by
  induction as generalizing s with
  | nil => exact iff_of_true rfl fun before a after u has _ ↦ absurd has (by simp)
  | cons b as ih =>
    rw [run, runWhen, if_pos trivial, Option.bind_eq_some_iff] at h
    obtain ⟨v, hsv, hvt⟩ := h
    rw [outputs, hsv, Option.map_some, Option.getD_some, List.append_eq_nil_iff, ih hvt]
    constructor
    · rintro ⟨hfirst, hrest⟩ before a after u has hu
      cases before with
      | nil =>
        obtain ⟨rfl, -⟩ := List.cons.inj has
        obtain rfl := Option.some.inj hu
        exact hfirst
      | cons c before =>
        obtain ⟨rfl, has'⟩ := List.cons.inj has
        rw [run, runWhen, if_pos trivial, hsv] at hu
        exact hrest before a after u has' hu
    · refine fun hall ↦ ⟨hall [] b as s rfl rfl, fun before a after u has hu ↦ ?_⟩
      refine hall (b :: before) a after u (by rw [has, List.cons_append]) ?_
      rw [run, runWhen, if_pos trivial, hsv]
      exact hu

theorem forall_mem_outputs {β : Type*} {f : σ → α → List β} {P : β → Prop}
    (h : ∀ s a, ∀ b ∈ f s a, P b) (s : σ) (as : List α) : ∀ b ∈ M.outputs f s as, P b := by
  induction as generalizing s with
  | nil => exact fun b hb ↦ absurd hb List.not_mem_nil
  | cons a as ih =>
    intro b hb
    rw [outputs, List.mem_append] at hb
    rcases hb with hb | hb
    · exact h s a b hb
    · cases hstep : M.step s a with
      | none =>
        rw [hstep] at hb
        exact absurd hb List.not_mem_nil
      | some t =>
        rw [hstep] at hb
        exact ih t b hb

theorem outputs_subset {β : Type*} {f g : σ → α → List β} (h : ∀ s a, f s a ⊆ g s a) (s : σ)
    (as : List α) : M.outputs f s as ⊆ M.outputs g s as := by
  induction as generalizing s with
  | nil => exact List.Subset.refl _
  | cons a as ih =>
    rw [outputs, outputs]
    refine List.append_subset.mpr ⟨List.subset_append_of_subset_left _ (h s a),
      List.subset_append_of_subset_right _ ?_⟩
    cases M.step s a with
    | none => exact List.Subset.refl _
    | some t => exact ih t

/-- **The instant rule.** A run that ends outside `J` and starts in it passes a state with `P`, if
only a step from such a state can leave `J`. -/
theorem exists_instant_of_run {J P : σ → Prop} {s t : σ} {as : List α} (h : M.run s as = some t)
    (hs : J s) (ht : ¬J t)
    (hstep : ∀ {as u a v}, M.run s as = some u → J u → M.step u a = some v → J v ∨ P u) :
    ∃ k ≤ as.length, ∃ u, M.run s (as.take k) = some u ∧ P u := by
  refine (run_invariant (J := fun as v ↦ J v ∨ ∃ k ≤ as.length, ∃ u,
    M.run s (as.take k) = some u ∧ P u) h (Or.inl hs) ?_).resolve_left ht
  intro as u a v hrun hbefore hv
  have hlen : (as ++ [a]).length = as.length + 1 := List.length_append
  rcases hbefore with hJ | ⟨k, hk, w, hw, hP⟩
  · refine (hstep hrun hJ hv).imp_right fun hP ↦ ⟨as.length, by omega, u, ?_, hP⟩
    rwa [List.take_left]
  · refine Or.inr ⟨k, by omega, w, ?_, hP⟩
    rwa [List.take_append_of_le_length hk]

/-- **The potential rule.** A run that is longer than its potential puts something out, if every
step that puts nothing out uses some of the potential up. -/
theorem outputs_ne_nil_of_potential {β : Type*} {f : σ → α → List β} {J : σ → Prop} {Φ : σ → ℕ}
    {s t : σ} {as : List α} (h : M.run s as = some t) (hs : J s)
    (hstep : ∀ {u a v}, a ∈ as → J u → M.step u a = some v → J v ∧ (f u a = [] → Φ v < Φ u))
    (hlong : Φ s < as.length) : M.outputs f s as ≠ [] := by
  induction as generalizing s with
  | nil => exact absurd hlong (Nat.not_lt_zero _)
  | cons a as ih =>
    rw [run, runWhen, if_pos trivial, Option.bind_eq_some_iff] at h
    obtain ⟨u, hsu, hut⟩ := h
    obtain ⟨hu, hless⟩ := hstep List.mem_cons_self hs hsu
    rw [outputs, hsu, Option.map_some, Option.getD_some, ne_eq, List.append_eq_nil_iff, not_and]
    intro hnone
    have hΦ := hless hnone
    rw [List.length_cons] at hlong
    exact ih hut hu (fun hmem ↦ hstep (List.mem_cons_of_mem _ hmem)) (by omega)

/-! ## Coming to rest

Where the steps of a kind cannot go on for ever, a natural number shows it, of which every step uses
some up. What the state is like in which none of them is possible is a matter of the invariant. -/

/-- **The settling rule.** Every step of the kind uses some of the potential up, and the invariant
says what a state is like in which no such step is possible. -/
theorem settles_of_potential {C : α → Prop} {J P : σ → Prop} {Φ : σ → ℕ} {s : σ} (hs : J s)
    (hstep : ∀ {u a v}, J u → C a → M.step u a = some v → J v ∧ Φ v < Φ u)
    (hrest : ∀ {t}, J t → M.AtRest C t → P t) : M.Settles C s (Φ s) P := by
  intro as t hC hrun
  have hboth : J t ∧ as.length + Φ t ≤ Φ s := by
    induction as generalizing s with
    | nil =>
      obtain rfl := Option.some.inj hrun
      exact ⟨hs, Nat.le_of_eq (Nat.zero_add _)⟩
    | cons a as ih =>
      rw [run, runWhen, if_pos trivial, Option.bind_eq_some_iff] at hrun
      obtain ⟨u, hsu, hut⟩ := hrun
      obtain ⟨hu, hless⟩ := hstep hs (hC a List.mem_cons_self) hsu
      obtain ⟨ht, hle⟩ := ih hu (fun b hb ↦ hC b (List.mem_cons_of_mem a hb)) hut
      refine ⟨ht, ?_⟩
      rw [List.length_cons]
      omega
  exact ⟨by omega, hrest hboth.1⟩

/-- What settles can be run to its rest. -/
theorem Settles.exists_run {C : α → Prop} {P : σ → Prop} {s : σ} {bound : ℕ}
    (h : M.Settles C s bound P) :
    ∃ as t, (∀ a ∈ as, C a) ∧ M.run s as = some t ∧ M.AtRest C t ∧ P t := by
  by_contra hnone
  -- otherwise there are runs of every length
  have hlong : ∀ n, ∃ as t, (∀ a ∈ as, C a) ∧ M.run s as = some t ∧ as.length = n := by
    intro n
    induction n with
    | zero => exact ⟨[], s, fun _ ha ↦ absurd ha List.not_mem_nil, rfl, rfl⟩
    | succ n ih =>
      obtain ⟨as, t, hC, hrun, hlength⟩ := ih
      have hmoves : ¬M.AtRest C t := fun hrest ↦
        hnone ⟨as, t, hC, hrun, hrest, (h as t hC hrun).2 hrest⟩
      rw [AtRest, not_forall] at hmoves
      obtain ⟨a, ha⟩ := hmoves
      rw [Classical.not_imp] at ha
      obtain ⟨u, hu⟩ := Option.ne_none_iff_exists'.mp ha.2
      refine ⟨as ++ [a], u, ?_, ?_, ?_⟩
      · rw [List.forall_mem_append, List.forall_mem_singleton]
        exact ⟨hC, ha.1⟩
      · rw [run_append, hrun, Option.bind_some, run_singleton, hu]
      · rw [List.length_append, hlength, List.length_singleton]
  obtain ⟨as, t, hC, hrun, hlength⟩ := hlong (bound + 1)
  have hle := (h as t hC hrun).1
  omega

theorem reachable_of_run {as : List α} {s : σ} (h : M.run M.init as = some s) : M.Reachable s :=
  leads_of_runWhen h

/-- A concrete interleaving that executes under a guard witnesses guarded reachability. Only the
features `f` of the last state are computed, so that states may hold functions. -/
theorem exists_reachableWhen_of_run {C : σ → α → Prop} [∀ s a, Decidable (C s a)] {β : Type*}
    (f : σ → β) (as : List α) {b : β} (h : (M.runWhen C M.init as).map f = some b) :
    ∃ s, M.ReachableWhen C s ∧ f s = b := by
  rw [Option.map_eq_some_iff] at h
  obtain ⟨s, hs, hb⟩ := h
  exact ⟨s, leads_of_runWhen hs, hb⟩

theorem exists_reachable_of_run {β : Type*} (f : σ → β) (as : List α) {b : β}
    (h : (M.run M.init as).map f = some b) : ∃ s, M.Reachable s ∧ f s = b :=
  exists_reachableWhen_of_run f as h

theorem exists_reachable_of_runs {β : Type*} (f : σ → σ → β) (as bs : List α) {b : β}
    (h : ((M.run M.init as).bind fun s ↦ (M.run s bs).map (f s)) = some b) :
    ∃ s t, M.Reachable s ∧ M.run s bs = some t ∧ f s t = b := by
  rw [Option.bind_eq_some_iff] at h
  obtain ⟨s, hs, ht⟩ := h
  obtain ⟨t, ht, hb⟩ := Option.map_eq_some_iff.mp ht
  exact ⟨s, t, reachable_of_run hs, ht, hb⟩

/-! ## Simulation

One machine follows another if a relation between their states is kept by every step and the step
that matches it. -/

/-- **The simulation rule.** If every step of `M` is matched by a step of `N` with the same label,
every state that `M` reaches is related to one that `N` reaches. -/
theorem Reachable.simulated {τ : Type*} {N : Machine τ α} {R : σ → τ → Prop} {s : σ}
    (h : M.Reachable s) (hinit : R M.init N.init)
    (hstep : ∀ {s t a s'}, R s t → M.step s a = some s' → ∃ t', N.step t a = some t' ∧ R s' t') :
    ∃ t, N.Reachable t ∧ R s t := by
  induction h with
  | refl => exact ⟨N.init, Leads.refl, hinit⟩
  | step _ _ hs ih =>
    obtain ⟨t, ht, hR⟩ := ih
    obtain ⟨t', htt', hR'⟩ := hstep hR hs
    exact ⟨t', Leads.step ht trivial htt', hR'⟩

/-- **The simulation rule for a sequence of labels.** The other machine can follow a guarded run
label by label. -/
theorem runWhen_simulated {C : σ → α → Prop} [∀ s a, Decidable (C s a)] {τ : Type*}
    {N : Machine τ α} {R : σ → τ → Prop} {s s' : σ} {t : τ} {as : List α}
    (h : M.runWhen C s as = some s') (hR : R s t)
    (hstep : ∀ {s t a s'}, R s t → C s a → M.step s a = some s' →
      ∃ t', N.step t a = some t' ∧ R s' t') :
    ∃ t', N.run t as = some t' ∧ R s' t' := by
  induction as generalizing s t with
  | nil =>
    obtain rfl := Option.some.inj h
    exact ⟨t, rfl, hR⟩
  | cons a as ih =>
    rw [runWhen, Option.ite_none_right_eq_some, Option.bind_eq_some_iff] at h
    obtain ⟨hC, u, hsu, hrun⟩ := h
    obtain ⟨v, htv, hR'⟩ := hstep hR hC hsu
    obtain ⟨t', hrun', hR''⟩ := ih hrun hR'
    refine ⟨t', ?_, hR''⟩
    rw [run, runWhen, if_pos trivial, htv]
    exact hrun'

/-- **The refinement rule.** If the other machine can do what each step puts out, between the states
that belong to the step's, it can do what a run puts out. -/
theorem run_outputs {τ β : Type*} {N : Machine τ β} {f : σ → α → List β} {J : σ → Prop} {r : σ → τ}
    {s t : σ} {as : List α} (h : M.run s as = some t) (hs : J s)
    (hstep : ∀ {u a v}, J u → M.step u a = some v → J v ∧ N.run (r u) (f u a) = some (r v)) :
    N.run (r s) (M.outputs f s as) = some (r t) := by
  induction as generalizing s with
  | nil =>
    obtain rfl := Option.some.inj h
    rfl
  | cons a as ih =>
    rw [run, runWhen, if_pos trivial, Option.bind_eq_some_iff] at h
    obtain ⟨u, hsu, hut⟩ := h
    obtain ⟨hu, hfirst⟩ := hstep hs hsu
    rw [outputs, hsu, Option.map_some, Option.getD_some, run_append, hfirst]
    exact ih hut hu

end Machine

end FoundationComponents
