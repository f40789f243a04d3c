import Mathlib.Data.List.Nodup
import Mathlib.Logic.Function.Basic
import FoundationComponents.Machine.Basic

/-!
# Linearizability

Threads share an object, call its operations and get results. What they see is the *history*: the
calls and the returns, in the order in which they happen. An operation is known by the place of its
call in the history; it returns at the next place of its thread.

A history is *linearizable* if its operations can be put in an order in which a sequential object
gives the same results, and in which no operation comes before one that had returned when it was
called. The order has all operations that have returned, and some of those that have not.

## How it is proved

For every operation one step between its call and its return is chosen at which it takes effect. The
chosen steps are put in the order in which they happen. `Moves` is the book-keeping of this: an
abstract state, and for every thread whether its operation is still to take effect or has its result
already. `linearizable_of_moves` says that the book-keeping is enough, and
`linearizable_of_simulation` that it can be kept along the runs of a machine.
-/

namespace FoundationComponents

namespace Linearizability

/-! ## Histories -/

/-- What a thread does with the object. -/
inductive Event (ι γ ρ : Type*)
  | call (thread : ι) (call : γ)
  | ret (thread : ι) (result : ρ)
  deriving Repr, DecidableEq

def Event.thread {ι γ ρ : Type*} : Event ι γ ρ → ι
  | .call thread _ => thread
  | .ret thread _ => thread

/-- The object as it is when its operations come one after the other: from the first state the
operation may return the result and leave the second state behind. -/
structure Spec (σ γ ρ : Type*) where
  init : σ
  step : σ → γ → ρ → σ → Prop

variable {ι γ ρ σ : Type*}

/-- The sequential object can give these results to these operations. -/
inductive Spec.Runs (S : Spec σ γ ρ) : List (γ × ρ) → σ → Prop
  | nil : S.Runs [] S.init
  | concat {ops : List (γ × ρ)} {x y : σ} {c : γ} {r : ρ} :
      S.Runs ops x → S.step x c r y → S.Runs (ops ++ [(c, r)]) y

/-- The operation called at place `i` has not returned. -/
def Open (h : List (Event ι γ ρ)) (i : ℕ) (t : ι) (c : γ) : Prop :=
  h[i]? = some (.call t c) ∧ ∀ k e, i < k → h[k]? = some e → e.thread ≠ t

/-- The operation called at place `i` returns `r` at place `j`. -/
def Returns (h : List (Event ι γ ρ)) (i j : ℕ) (r : ρ) : Prop :=
  ∃ t c, h[i]? = some (.call t c) ∧ h[j]? = some (.ret t r) ∧ i < j ∧
    ∀ k e, i < k → k < j → h[k]? = some e → e.thread ≠ t

/-- An order of operations, each with the place of its call and its result, explains the history.
Of two operations, the earlier one has been called when the later one returns. -/
structure Linearizes (S : Spec σ γ ρ) (h : List (Event ι γ ρ)) (order : List (ℕ × γ × ρ)) :
    Prop where
  called : ∀ op ∈ order, ∃ t, h[op.1]? = some (.call t op.2.1)
  nodup : (order.map Prod.fst).Nodup
  returned : ∀ {i j r}, Returns h i j r → ∃ c, (i, c, r) ∈ order
  legal : ∃ x, S.Runs (order.map Prod.snd) x
  realTime : order.Pairwise fun op op' ↦ ∀ j r, Returns h op'.1 j r → op.1 < j

/-- The history has an explanation. -/
def Linearizable (S : Spec σ γ ρ) (h : List (Event ι γ ρ)) : Prop :=
  ∃ order, Linearizes S h order

/-! ## One more event

A history grows at its end, and an operation is known by its place. So nothing that has been said of
the shorter history changes; a call opens an operation, and a return closes that of its thread. -/

section Append

variable {h : List (Event ι γ ρ)} {e : Event ι γ ρ} {i j : ℕ} {t : ι} {c : γ} {r : ρ}

theorem getElem?_concat_of_some {x : Event ι γ ρ} (hx : h[i]? = some x) :
    (h ++ [e])[i]? = some x := by
  rw [List.getElem?_append_left (List.getElem?_eq_some_iff.mp hx).1, hx]

theorem getElem?_concat_cases {x : Event ι γ ρ} (hx : (h ++ [e])[i]? = some x) :
    h[i]? = some x ∨ i = h.length ∧ x = e := by
  have hlt : i < h.length + 1 := by
    have := (List.getElem?_eq_some_iff.mp hx).1
    rwa [List.length_append] at this
  rcases Nat.lt_succ_iff_lt_or_eq.mp hlt with hlt | rfl
  · exact Or.inl ((List.getElem?_append_left hlt).symm.trans hx)
  · rw [List.getElem?_concat_length] at hx
    exact Or.inr ⟨rfl, (Option.some.inj hx).symm⟩

theorem Open.concat (ho : Open h i t c) (he : e.thread ≠ t) : Open (h ++ [e]) i t c := by
  refine ⟨getElem?_concat_of_some ho.1, fun k x hik hx ↦ ?_⟩
  rcases getElem?_concat_cases hx with hold | ⟨-, rfl⟩
  · exact ho.2 k x hik hold
  · exact he

theorem open_concat_call (h : List (Event ι γ ρ)) (t : ι) (c : γ) :
    Open (h ++ [.call t c]) h.length t c := by
  refine ⟨List.getElem?_concat_length, fun k x hk hx ↦ ?_⟩
  have hlt := (List.getElem?_eq_some_iff.mp hx).1
  rw [List.length_append, List.length_singleton] at hlt
  omega

theorem Open.not_returns (ho : Open h i t c) : ¬ Returns h i j r := by
  rintro ⟨t', c', hcall, hret, hij, -⟩
  rw [ho.1, Option.some.injEq, Event.call.injEq] at hcall
  obtain ⟨rfl, -⟩ := hcall
  exact ho.2 j _ hij hret rfl

theorem Open.unique {i' : ℕ} {c' : γ} (ho : Open h i t c) (ho' : Open h i' t c') :
    i = i' ∧ c = c' := by
  have hplace : i = i' := by
    rcases Nat.lt_trichotomy i i' with hlt | heq | hlt
    · exact absurd rfl (ho.2 i' _ hlt ho'.1)
    · exact heq
    · exact absurd rfl (ho'.2 i _ hlt ho.1)
  subst hplace
  have hsame := ho.1.symm.trans ho'.1
  rw [Option.some.injEq, Event.call.injEq] at hsame
  exact ⟨rfl, hsame.2⟩

theorem returns_concat_call (hr : Returns (h ++ [.call t c]) i j r) : Returns h i j r := by
  obtain ⟨t', c', hcall, hret, hij, hbetween⟩ := hr
  rcases getElem?_concat_cases hret with hret | ⟨-, hlast⟩
  · rcases getElem?_concat_cases hcall with hcall | ⟨rfl, -⟩
    · exact ⟨t', c', hcall, hret, hij, fun k e hik hkj hk ↦
        hbetween k e hik hkj (getElem?_concat_of_some hk)⟩
    · have hlt := (List.getElem?_eq_some_iff.mp hret).1
      omega
  · cases hlast

theorem returns_concat_ret {r' : ρ} (hr : Returns (h ++ [.ret t r]) i j r') :
    Returns h i j r' ∨ j = h.length ∧ r' = r ∧ ∃ c, Open h i t c := by
  obtain ⟨t', c', hcall, hret, hij, hbetween⟩ := hr
  rcases getElem?_concat_cases hcall with hcalled | ⟨-, hlast⟩
  · rcases getElem?_concat_cases hret with hreturned | ⟨rfl, hlast⟩
    · exact Or.inl ⟨t', c', hcalled, hreturned, hij, fun k e hik hkj hk ↦
        hbetween k e hik hkj (getElem?_concat_of_some hk)⟩
    · rw [Event.ret.injEq] at hlast
      obtain ⟨rfl, rfl⟩ := hlast
      refine Or.inr ⟨rfl, rfl, c', hcalled, fun k e hik hk ↦ ?_⟩
      exact hbetween k e hik (List.getElem?_eq_some_iff.mp hk).1 (getElem?_concat_of_some hk)
  · cases hlast

end Append

/-! ## Book-keeping -/

/-- How far the operation of a thread is: there is none, it is to take effect, or it has taken
effect and will return the result. -/
inductive Status (γ ρ : Type*)
  | idle
  | pending (call : γ)
  | effective (result : ρ)
  deriving Repr, DecidableEq

section Moves

variable [DecidableEq ι]

/-- The moves of the book-keeping from one abstract state and the statuses to others, and the
history that they make. A pending operation takes effect without being seen. -/
inductive Moves (S : Spec σ γ ρ) (start : σ × (ι → Status γ ρ)) :
    List (Event ι γ ρ) → σ × (ι → Status γ ρ) → Prop
  | refl : Moves S start [] start
  | call {h : List (Event ι γ ρ)} {x : σ} {f : ι → Status γ ρ} {t : ι} (c : γ) :
      Moves S start h (x, f) → f t = .idle →
      Moves S start (h ++ [.call t c]) (x, Function.update f t (.pending c))
  | effect {h : List (Event ι γ ρ)} {x y : σ} {f : ι → Status γ ρ} {t : ι} {c : γ} {r : ρ} :
      Moves S start h (x, f) → f t = .pending c → S.step x c r y →
      Moves S start h (y, Function.update f t (.effective r))
  | ret {h : List (Event ι γ ρ)} {x : σ} {f : ι → Status γ ρ} {t : ι} {r : ρ} :
      Moves S start h (x, f) → f t = .effective r →
      Moves S start (h ++ [.ret t r]) (x, Function.update f t .idle)

theorem Moves.trans {S : Spec σ γ ρ} {x y z : σ × (ι → Status γ ρ)} {h h' : List (Event ι γ ρ)}
    (hxy : Moves S x h y) (hyz : Moves S y h' z) : Moves S x (h ++ h') z := by
  induction hyz with
  | refl => rwa [List.append_nil]
  | call c _ hidle ih =>
    rw [← List.append_assoc]
    exact ih.call c hidle
  | effect _ hpending hstep ih => exact ih.effect hpending hstep
  | ret _ heffective ih =>
    rw [← List.append_assoc]
    exact ih.ret heffective

/-- The order of the effects explains the history, and the statuses are those of the open
operations. -/
structure Marks (S : Spec σ γ ρ) (h : List (Event ι γ ρ)) (order : List (ℕ × γ × ρ)) (x : σ)
    (f : ι → Status γ ρ) : Prop where
  linearizes : Linearizes S h order
  runs : S.Runs (order.map Prod.snd) x
  pending : ∀ {t c}, f t = .pending c → ∃ i, Open h i t c ∧ ∀ op ∈ order, op.1 ≠ i
  effective : ∀ {t r}, f t = .effective r → ∃ i c, Open h i t c ∧ (i, c, r) ∈ order

namespace Marks

variable {S : Spec σ γ ρ} {h : List (Event ι γ ρ)} {order : List (ℕ × γ × ρ)} {x y : σ}
  {f : ι → Status γ ρ} {t : ι} {c : γ} {r : ρ}

omit [DecidableEq ι] in
theorem nil : Marks S ([] : List (Event ι γ ρ)) [] S.init fun _ ↦ .idle where
  linearizes :=
    { called := fun _ hop ↦ absurd hop List.not_mem_nil
      nodup := List.nodup_nil
      returned := by
        rintro i j r ⟨t, c, hcall, -⟩
        cases hcall
      legal := ⟨S.init, .nil⟩
      realTime := List.Pairwise.nil }
  runs := .nil
  pending h := by cases h
  effective h := by cases h

omit [DecidableEq ι] in
theorem lt_length (hm : Marks S h order x f) {op : ℕ × γ × ρ} (hop : op ∈ order) :
    op.1 < h.length := by
  obtain ⟨t, ht⟩ := hm.linearizes.called op hop
  exact (List.getElem?_eq_some_iff.mp ht).1

omit [DecidableEq ι] in
theorem called_concat (hm : Marks S h order x f) (e : Event ι γ ρ) :
    ∀ op ∈ order, ∃ t, (h ++ [e])[op.1]? = some (.call t op.2.1) := by
  intro op hop
  obtain ⟨t, ht⟩ := hm.linearizes.called op hop
  exact ⟨t, getElem?_concat_of_some ht⟩

/-- The open operations of the other threads are not touched by an event of `t`. -/
theorem others (hm : Marks S h order x f) {e : Event ι γ ρ} (he : e.thread = t)
    (status : Status γ ρ) {u : ι} (hu : u ≠ t) :
    (∀ {c}, Function.update f t status u = .pending c →
      ∃ i, Open (h ++ [e]) i u c ∧ ∀ op ∈ order, op.1 ≠ i) ∧
    ∀ {r}, Function.update f t status u = .effective r →
      ∃ i c, Open (h ++ [e]) i u c ∧ (i, c, r) ∈ order := by
  rw [Function.update_of_ne hu]
  have hne : e.thread ≠ u := fun heq ↦ hu (heq.symm.trans he)
  constructor
  · intro c hc
    obtain ⟨i, hopen, hnew⟩ := hm.pending hc
    exact ⟨i, hopen.concat hne, hnew⟩
  · intro r hr
    obtain ⟨i, c, hopen, hmem⟩ := hm.effective hr
    exact ⟨i, c, hopen.concat hne, hmem⟩

theorem call (hm : Marks S h order x f) (t : ι) (c : γ) :
    Marks S (h ++ [.call t c]) order x (Function.update f t (.pending c)) where
  linearizes :=
    { called := hm.called_concat _
      nodup := hm.linearizes.nodup
      returned := fun hr ↦ hm.linearizes.returned (returns_concat_call hr)
      legal := hm.linearizes.legal
      realTime := hm.linearizes.realTime.imp fun hop j r hr ↦ hop j r (returns_concat_call hr) }
  runs := hm.runs
  pending {u c'} hu := by
    by_cases hut : u = t
    · subst hut
      rw [Function.update_self, Status.pending.injEq] at hu
      subst hu
      exact ⟨h.length, open_concat_call h u c, fun op hop ↦ Nat.ne_of_lt (hm.lt_length hop)⟩
    · exact (hm.others rfl _ hut).1 hu
  effective {u r} hu := by
    by_cases hut : u = t
    · rw [hut, Function.update_self] at hu
      cases hu
    · exact (hm.others rfl _ hut).2 hu

/-- A pending operation takes effect after all others that have. It has not returned. -/
theorem effect (hm : Marks S h order x f) (ht : f t = .pending c) (hstep : S.step x c r y) :
    ∃ order', Marks S h order' y (Function.update f t (.effective r)) := by
  obtain ⟨i, hopen, hnew⟩ := hm.pending ht
  have hruns : S.Runs ((order ++ [(i, c, r)]).map Prod.snd) y := by
    rw [List.map_append]
    exact hm.runs.concat hstep
  refine ⟨order ++ [(i, c, r)], ⟨?_, ?_, ?_, ⟨y, hruns⟩, ?_⟩, hruns, ?_, ?_⟩
  · refine List.forall_mem_append.mpr ⟨hm.linearizes.called, ?_⟩
    exact List.forall_mem_singleton.mpr ⟨t, hopen.1⟩
  · rw [List.map_append, List.map_singleton]
    refine hm.linearizes.nodup.append (List.nodup_singleton i) fun k hk hki ↦ ?_
    obtain ⟨op, hop, rfl⟩ := List.mem_map.mp hk
    exact hnew op hop (List.mem_singleton.mp hki)
  · intro k j r' hr
    obtain ⟨c', hmem⟩ := hm.linearizes.returned hr
    exact ⟨c', List.mem_append_left _ hmem⟩
  · refine List.pairwise_append.mpr ⟨hm.linearizes.realTime, List.pairwise_singleton _ _, ?_⟩
    intro op _ op' hop' j r' hr
    rw [List.mem_singleton.mp hop'] at hr
    exact absurd hr hopen.not_returns
  · intro u c' hu
    by_cases hut : u = t
    · rw [hut, Function.update_self] at hu
      cases hu
    · rw [Function.update_of_ne hut] at hu
      obtain ⟨k, hopen', hnew'⟩ := hm.pending hu
      refine ⟨k, hopen', List.forall_mem_append.mpr ⟨hnew', List.forall_mem_singleton.mpr ?_⟩⟩
      rintro rfl
      have hsame := hopen.1.symm.trans hopen'.1
      rw [Option.some.injEq, Event.call.injEq] at hsame
      exact hut hsame.1.symm
  · intro u r' hu
    by_cases hut : u = t
    · subst hut
      rw [Function.update_self, Status.effective.injEq] at hu
      subst hu
      exact ⟨i, c, hopen, List.mem_append_right _ (List.mem_singleton_self _)⟩
    · rw [Function.update_of_ne hut] at hu
      obtain ⟨k, c', hopen', hmem⟩ := hm.effective hu
      exact ⟨k, c', hopen', List.mem_append_left _ hmem⟩

/-- An operation that has taken effect returns the result it had. -/
theorem ret (hm : Marks S h order x f) (ht : f t = .effective r) :
    Marks S (h ++ [.ret t r]) order x (Function.update f t .idle) := by
  obtain ⟨i, c, hopen, hmem⟩ := hm.effective ht
  refine ⟨⟨hm.called_concat _, hm.linearizes.nodup, ?_, hm.linearizes.legal, ?_⟩, hm.runs, ?_, ?_⟩
  · intro k j r' hr
    rcases returns_concat_ret hr with hold | ⟨-, rfl, c', hopen'⟩
    · exact hm.linearizes.returned hold
    · obtain ⟨rfl, rfl⟩ := hopen.unique hopen'
      exact ⟨c, hmem⟩
  · refine hm.linearizes.realTime.imp_of_mem fun {op op'} hop _ hbefore j r' hr ↦ ?_
    rcases returns_concat_ret hr with hold | ⟨rfl, -⟩
    · exact hbefore j r' hold
    · exact hm.lt_length hop
  · intro u c' hu
    by_cases hut : u = t
    · rw [hut, Function.update_self] at hu
      cases hu
    · exact (hm.others rfl _ hut).1 hu
  · intro u r' hu
    by_cases hut : u = t
    · rw [hut, Function.update_self] at hu
      cases hu
    · exact (hm.others rfl _ hut).2 hu

end Marks

/-- **The rule of effects.** A history is linearizable if every operation can be given a moment
between its call and its return at which it takes effect. -/
theorem linearizable_of_moves {S : Spec σ γ ρ} {h : List (Event ι γ ρ)}
    {last : σ × (ι → Status γ ρ)} (hmoves : Moves S (S.init, fun _ ↦ .idle) h last) :
    Linearizable S h := by
  obtain ⟨order, hm⟩ : ∃ order, Marks S h order last.1 last.2 := by
    induction hmoves with
    | refl => exact ⟨[], .nil⟩
    | call c _ _ ih =>
      obtain ⟨order, hm⟩ := ih
      exact ⟨order, hm.call _ c⟩
    | effect _ hpending hstep ih =>
      obtain ⟨order, hm⟩ := ih
      exact hm.effect hpending hstep
    | ret _ heffective ih =>
      obtain ⟨order, hm⟩ := ih
      exact ⟨order, hm.ret heffective⟩
  exact ⟨order, hm.linearizes⟩

/-- **The rule for machines.** If the book-keeping can follow every step of a machine, with the
events of the step as its history, the histories of all runs are linearizable. -/
theorem linearizable_of_simulation {τ α : Type*} {M : Machine τ α} {S : Spec σ γ ρ}
    {events : τ → α → List (Event ι γ ρ)} {R : τ → σ → (ι → Status γ ρ) → Prop} {labels : List α}
    {s : τ} (h : M.run M.init labels = some s) (hinit : R M.init S.init fun _ ↦ .idle)
    (hstep : ∀ {s x f a s'}, M.Reachable s → R s x f → M.step s a = some s' →
      ∃ x' f', Moves S (x, f) (events s a) (x', f') ∧ R s' x' f') :
    Linearizable S (M.outputs events M.init labels) := by
  obtain ⟨x, f, hmoves, -⟩ : ∃ x f,
      Moves S (S.init, fun _ ↦ .idle) (M.outputs events M.init labels) (x, f) ∧ R s x f := by
    refine Machine.run_invariant (J := fun labels s ↦ ∃ x f,
      Moves S (S.init, fun _ ↦ .idle) (M.outputs events M.init labels) (x, f) ∧ R s x f) h
      ⟨S.init, _, .refl, hinit⟩ ?_
    rintro labels u a v hu ⟨x, f, hmoves, hR⟩ huv
    obtain ⟨x', f', hnext, hR'⟩ := hstep (Machine.reachable_of_run hu) hR huv
    refine ⟨x', f', ?_, hR'⟩
    rw [Machine.outputs_concat events hu]
    exact hmoves.trans hnext
  exact linearizable_of_moves hmoves

end Moves

end Linearizability

end FoundationComponents
