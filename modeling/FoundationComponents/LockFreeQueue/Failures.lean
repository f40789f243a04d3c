import FoundationComponents.LockFreeQueue.Quiescence

/-!
# When a call fails

Both loops give up when the sequence of the examined cell lies behind what the position expects. The
position may have been read long ago. A stale position, however, is one whose ticket somebody else
has won in the meantime, and the sequence of its cell has then moved on: it can only lead to another
round of the loop. So a verdict is always about the current cursor, and it is exact: the cell is
held up by the element of one round ago, or the element has not been published.

Stale positions are never ahead of the cursor, since the cursors only grow.
-/

namespace FoundationComponents

namespace LockFreeQueue

variable {α : Type*} {n : ℕ} {capacity : ℕ} {s : System α n}

/-! ## Stale positions

The cursors only grow and a closed queue is not opened again, so what a call has read of them is a
lower bound on what they are. -/

/-- A position that a call read from a cursor is not ahead of the cursor, and a call that found the
queue closed was right. -/
def Pc.Recent (q : Queue α) : Pc α → Prop
  | .pushLoadSequence _ p | .pushCas _ p => p ≤ q.enqueuePos
  | .popLoadSequence p | .popCas p => p ≤ q.dequeuePos
  | .pushCountClosed _ => q.closed = true
  | _ => True

/-- The cursors only grow, and the queue is not opened again. -/
structure Grows (q q' : Queue α) : Prop where
  enqueue_le : q.enqueuePos ≤ q'.enqueuePos
  dequeue_le : q.dequeuePos ≤ q'.dequeuePos
  closed : q.closed = true → q'.closed = true

theorem Grows.refl (q : Queue α) : Grows q q := ⟨le_rfl, le_rfl, id⟩

theorem Pc.Recent.mono {q q' : Queue α} {pc : Pc α} (h : pc.Recent q) (hq : Grows q q') :
    pc.Recent q' := by
  cases pc with
  | pushLoadSequence v p | pushCas v p => exact h.trans hq.enqueue_le
  | popLoadSequence p | popCas p => exact h.trans hq.dequeue_le
  | pushCountClosed v => exact hq.closed h
  | _ => exact trivial

theorem grows_threadStep (q : Queue α) (spurious : Bool) (pc : Pc α) :
    Grows q (threadStep .unbounded q spurious pc).1 := by
  cases pc with
  | pushLoadClosed v =>
    rw [threadStep]
    split <;> exact .refl q
  | pushLoadSequence v p | popLoadSequence p =>
    simp only [threadStep]
    split
    · exact .refl q
    · split <;> exact .refl q
  | pushCas v p =>
    rw [threadStep]
    split
    · rename_i hwon
      exact ⟨by rw [hwon.1]; exact Nat.le_succ p, le_rfl, id⟩
    · exact .refl q
  | popCas p =>
    rw [threadStep]
    split
    · rename_i hwon
      exact ⟨le_rfl, by rw [hwon.1]; exact Nat.le_succ p, id⟩
    · exact .refl q
  | closeStore => exact ⟨le_rfl, le_rfl, fun _ ↦ rfl⟩
  | _ => exact ⟨le_rfl, le_rfl, id⟩

/-- The next position of a call is recent if the present one is. -/
theorem recent_threadStep {q : Queue α} {pc : Pc α} (h : pc.Recent q) (spurious : Bool) :
    (threadStep .unbounded q spurious pc).2.1.Recent (threadStep .unbounded q spurious pc).1 := by
  cases pc with
  | pushLoadClosed v =>
    rw [threadStep]
    split
    · assumption
    · exact trivial
  | pushLoadSequence v p | popLoadSequence p =>
    simp only [threadStep]
    split
    · exact h
    · split <;> exact trivial
  | pushCas v p | popCas p =>
    rw [threadStep]
    split
    · exact trivial
    · exact le_refl _
  | pushLoadPos v => exact le_refl q.enqueuePos
  | popLoadPos => exact le_refl q.dequeuePos
  | _ => exact trivial

theorem recent_step (h : ∀ t, (s.threads t).Recent s.queue) {a : Action α n} {s' : System α n}
    (hs : s.step .unbounded a = some s') (t : Fin n) : (s'.threads t).Recent s'.queue := by
  cases a with
  | call u c =>
    rw [System.step, Option.ite_none_right_eq_some, Option.some.injEq] at hs
    obtain ⟨-, rfl⟩ := hs
    by_cases htu : t = u
    · subst htu
      rw [System.threads_move_self]
      cases c <;> exact trivial
    · rw [System.threads_move_of_ne _ htu]
      exact h t
  | step u spurious =>
    rw [System.step, Option.ite_none_left_eq_some, Option.some.injEq] at hs
    obtain ⟨-, rfl⟩ := hs
    by_cases htu : t = u
    · subst htu
      rw [System.threads_move_self]
      exact recent_threadStep (h t) spurious
    · rw [System.threads_move_of_ne _ htu]
      exact (h t).mono (grows_threadStep _ _ _)

theorem recent_of_reachable (h : (machine .unbounded α capacity n).Reachable s) (t : Fin n) :
    (s.threads t).Recent s.queue :=
  Machine.Leads.invariant (I := fun s ↦ ∀ t, (s.threads t).Recent s.queue) h (fun _ ↦ trivial)
    (fun hs _ hstep ↦ recent_step hs hstep) t

/-! ## Verdicts

On two cells or more a sequence tells whether a ticket has been published or released. A position
that is not the cursor any more belongs to a ticket that has been won, so its cell is not behind. -/

/-- The `tryPush` of ticket `p` has stored its publish sequence. -/
def System.Published (s : System α n) (p : ℕ) : Prop :=
  p < s.queue.enqueuePos ∧ ∀ t, (s.threads t).producing ≠ some p

/-- The `tryPop` of ticket `p` has stored its release sequence. -/
def System.Released (s : System α n) (p : ℕ) : Prop :=
  p < s.queue.dequeuePos ∧ ∀ t, (s.threads t).consuming ≠ some p

theorem Inv.le_seq_of_published (h : Inv capacity s) {p : ℕ} (hp : s.Published p) :
    p + 1 ≤ s.queue.seq p :=
  (h.published p hp.1).resolve_left fun ⟨t, ht⟩ ↦ hp.2 t ht

theorem Inv.le_seq_of_released (h : Inv capacity s) {p : ℕ} (hp : s.Released p) :
    p + capacity ≤ s.queue.seq p :=
  (h.released p hp.1).resolve_left fun ⟨t, ht⟩ ↦ hp.2 t ht

theorem Inv.seq_le_of_not_published (h : Inv capacity s) {p : ℕ} (hp : ¬s.Published p) :
    s.queue.seq p ≤ p := by
  by_cases hlt : p < s.queue.enqueuePos
  · rw [System.Published, not_and, not_forall] at hp
    obtain ⟨t, ht⟩ := hp hlt
    exact ((h.ok t).of_producing (not_not.mp ht)).2.1.le
  · exact h.unpublished p (by omega)

theorem Inv.seq_lt_of_not_released (h : Inv capacity s) (hcap : 2 ≤ capacity) {p : ℕ}
    (hp : ¬s.Released p) : s.queue.seq p < p + capacity := by
  by_cases hlt : p < s.queue.dequeuePos
  · rw [System.Released, not_and, not_forall] at hp
    obtain ⟨t, ht⟩ := hp hlt
    have hseq := ((h.ok t).of_consuming (not_not.mp ht)).2.1
    omega
  · exact h.unreleased p (by omega)

/-- **A `tryPush` is turned away by the ticket of one round ago**, and by nothing else. -/
theorem Inv.seq_lt_iff (h : Inv capacity s) (hcap : 2 ≤ capacity) {p : ℕ}
    (hp : p ≤ s.queue.enqueuePos) :
    s.queue.seq p < p ↔
      s.queue.enqueuePos = p ∧ capacity ≤ p ∧ ¬s.Released (p - capacity) := by
  have hmod : capacity ≤ p → s.queue.seq (p - capacity) = s.queue.seq p := fun hle ↦
    h.seq_congr (by rw [← Nat.add_mod_right, Nat.sub_add_cancel hle])
  constructor
  · intro hseq
    have hcurrent : s.queue.enqueuePos = p := by
      by_contra hne
      rcases h.published p (by omega) with ⟨t, ht⟩ | hle
      · have hfree := ((h.ok t).of_producing ht).2.1
        omega
      · omega
    have hround : capacity ≤ p := by
      by_contra hfirst
      obtain ⟨p', hpp', hcode⟩ := h.coded p
      rw [Nat.mod_eq_of_lt (show p' < capacity by omega),
        Nat.mod_eq_of_lt (show p < capacity by omega)] at hpp'
      omega
    refine ⟨hcurrent, hround, fun hreleased ↦ ?_⟩
    have hle := h.le_seq_of_released hreleased
    rw [hmod hround] at hle
    omega
  · rintro ⟨-, hround, hreleased⟩
    have hlt := h.seq_lt_of_not_released hcap hreleased
    rw [hmod hround] at hlt
    omega

/-- **A `tryPop` is turned away by its own ticket**, and by nothing else. -/
theorem Inv.seq_le_iff (h : Inv capacity s) (hcap : 2 ≤ capacity) {p : ℕ}
    (hp : p ≤ s.queue.dequeuePos) :
    s.queue.seq p ≤ p ↔ s.queue.dequeuePos = p ∧ ¬s.Published p := by
  constructor
  · intro hseq
    refine ⟨?_, fun hpublished ↦ ?_⟩
    · by_contra hne
      rcases h.released p (by omega) with ⟨t, ht⟩ | hle
      · have hfull := ((h.ok t).of_consuming ht).2.1
        omega
      · omega
    · have hle := h.le_seq_of_published hpublished
      omega
  · rintro ⟨-, hpublished⟩
    exact h.seq_le_of_not_published hpublished

/-- Which accesses make a `tryPush` fail. -/
theorem next_eq_pushCountFailed_iff {q : Queue α} {spurious : Bool} {v : α} {pc : Pc α} :
    (threadStep .unbounded q spurious pc).2.1 = .pushCountFailed v ↔
      pc = .pushCountClosed v ∨ ∃ p, pc = .pushLoadSequence v p ∧ q.seq p < p := by
  cases pc with
  | pushLoadSequence w p =>
    rw [threadStep, CounterArith.unbounded_diff]
    by_cases hfree : (q.seq p : ℤ) - p = 0
    · rw [if_pos hfree]
      simp
      omega
    · rw [if_neg hfree]
      by_cases hbehind : (q.seq p : ℤ) - p < 0
      · rw [if_pos hbehind]
        simp
        omega
      · rw [if_neg hbehind]
        simp
        omega
  | pushLoadClosed w | pushCas w p | popCas p =>
    rw [threadStep]
    split <;> simp
  | popLoadSequence p =>
    simp only [threadStep]
    split
    · simp
    · split <;> simp
  | _ => simp [threadStep]

/-- Which access makes a `tryPop` fail. -/
theorem next_eq_popCountFailed_iff {q : Queue α} {spurious : Bool} {pc : Pc α} :
    (threadStep .unbounded q spurious pc).2.1 = .popCountFailed ↔
      ∃ p, pc = .popLoadSequence p ∧ q.seq p ≤ p := by
  cases pc with
  | popLoadSequence p =>
    rw [threadStep, CounterArith.unbounded_diff, CounterArith.unbounded_add]
    by_cases hfull : (q.seq p : ℤ) - (p + 1 : ℕ) = 0
    · rw [if_pos hfull]
      simp
      omega
    · rw [if_neg hfull]
      by_cases hbehind : (q.seq p : ℤ) - (p + 1 : ℕ) < 0
      · rw [if_pos hbehind]
        simp
        omega
      · rw [if_neg hbehind]
        simp
        omega
  | pushLoadClosed w | pushCas w p | popCas p =>
    rw [threadStep]
    split <;> simp
  | pushLoadSequence w p =>
    simp only [threadStep]
    split
    · simp
    · split <;> simp
  | _ => simp [threadStep]

private theorem unheld_of_others_idle {t : Fin n} (hothers : ∀ u, u ≠ t → s.threads u = .idle)
    (hself : (s.threads t).producing = none ∧ (s.threads t).consuming = none) : s.Unheld := by
  intro u
  by_cases hut : u = t
  · rw [hut]
    exact hself
  · rw [hothers u hut]
    exact ⟨rfl, rfl⟩

/-- **The failure conditions are exact.** In every state that any number of threads can reach on a
queue of at least two cells: a `tryPush` that examines a cell gives up if and only if its position
is the enqueue cursor, is not in the first round, and the `tryPop` of the ticket one round before it
has not stored its release sequence; a `tryPop` gives up if and only if its position is the dequeue
cursor and the `tryPush` of that ticket has not stored its publish sequence. So while no other call
is in progress, a `tryPush` on an open queue fails only if every cell holds an element, and a
`tryPop` fails only if none does. -/
theorem failures_exact (hcap : 2 ≤ capacity)
    (h : (machine .unbounded α capacity n).Reachable s) :
    (∀ t v p spurious, s.threads t = .pushLoadSequence v p →
      ((threadStep .unbounded s.queue spurious (s.threads t)).2.1 = .pushCountFailed v ↔
        s.queue.enqueuePos = p ∧ capacity ≤ p ∧ ¬s.Released (p - capacity))) ∧
    (∀ t p spurious, s.threads t = .popLoadSequence p →
      ((threadStep .unbounded s.queue spurious (s.threads t)).2.1 = .popCountFailed ↔
        s.queue.dequeuePos = p ∧ ¬s.Published p)) ∧
    (∀ t v spurious, s.queue.closed = false → (∀ u, u ≠ t → s.threads u = .idle) →
      (threadStep .unbounded s.queue spurious (s.threads t)).2.1 = .pushCountFailed v →
      s.queue.liveCells = capacity) ∧
    ∀ t spurious, (∀ u, u ≠ t → s.threads u = .idle) →
      (threadStep .unbounded s.queue spurious (s.threads t)).2.1 = .popCountFailed →
      s.queue.liveCells = 0 := by
  have hI := inv_of_reachable hcap h
  have hrecent := recent_of_reachable h
  refine ⟨?_, ?_, ?_, ?_⟩
  · intro t v p spurious ht
    have hp := hrecent t
    rw [ht] at hp
    rw [ht, next_eq_pushCountFailed_iff, ← hI.seq_lt_iff hcap hp]
    simp
  · intro t p spurious ht
    have hp := hrecent t
    rw [ht] at hp
    rw [ht, next_eq_popCountFailed_iff, ← hI.seq_le_iff hcap hp]
    simp
  · intro t v spurious hopen hothers hfails
    have hp := hrecent t
    rcases next_eq_pushCountFailed_iff.mp hfails with ht | ⟨p, ht, hseq⟩
    · rw [ht] at hp
      exact absurd (hopen.symm.trans hp) Bool.false_ne_true
    · rw [ht] at hp
      have hunheld : s.Unheld := unheld_of_others_idle hothers (by rw [ht]; exact ⟨rfl, rfl⟩)
      obtain ⟨hcurrent, hround, hreleased⟩ := (hI.seq_lt_iff hcap hp).mp hseq
      have hkept : s.queue.dequeuePos ≤ p - capacity := by
        by_contra hlt
        refine hreleased ⟨by omega, fun u hu ↦ ?_⟩
        rw [(hunheld u).2] at hu
        cases hu
      have hle := hI.enqueue_le
      rw [hI.liveCells_eq hunheld]
      omega
  · intro t spurious hothers hfails
    have hp := hrecent t
    obtain ⟨p, ht, hseq⟩ := next_eq_popCountFailed_iff.mp hfails
    rw [ht] at hp
    have hunheld : s.Unheld := unheld_of_others_idle hothers (by rw [ht]; exact ⟨rfl, rfl⟩)
    obtain ⟨hcurrent, hpublished⟩ := (hI.seq_le_iff hcap hp).mp hseq
    have hnone : s.queue.enqueuePos ≤ p := by
      by_contra hlt
      refine hpublished ⟨by omega, fun u hu ↦ ?_⟩
      rw [(hunheld u).1] at hu
      cases hu
    rw [hI.liveCells_eq hunheld]
    omega

/-- Two cells filled by one thread, and a second thread that examines the next one. -/
def pushIntoFull (t u : Fin n) : List (Action ℕ n) :=
  List.flatten
    [[.call t (.tryPush 5)], List.replicate 7 (.step t false),
      [.call t (.tryPush 6)], List.replicate 7 (.step t false),
      [.call u (.tryPush 7)], List.replicate 2 (.step u false)]

theorem failures_exact_pushIntoFull :
    ∃ s, (machine .unbounded ℕ 2 2).Reachable s ∧ s.threads 1 = .pushLoadSequence 7 2 ∧
      ¬s.Released 0 ∧ s.queue.liveCells = 2 := by
  obtain ⟨s, hs, hf⟩ := Machine.exists_reachable_of_run (M := machine .unbounded ℕ 2 2)
    (fun s ↦ (s.threads 0, s.threads 1, s.queue.closed,
      decide ((threadStep .unbounded s.queue false (s.threads 1)).2.1 = .pushCountFailed 7)))
    (pushIntoFull 0 1) (b := (.idle, .pushLoadSequence 7 2, false, true)) (by decide +kernel)
  simp only [Prod.mk.injEq, decide_eq_true_eq] at hf
  obtain ⟨h0, h1, hopen, hfails⟩ := hf
  obtain ⟨hpush, -, hfull, -⟩ := failures_exact (by decide) hs
  have hothers : ∀ u, u ≠ 1 → s.threads u = .idle := fun u hu ↦ by
    fin_cases u
    · exact h0
    · exact absurd rfl hu
  exact ⟨s, hs, h1, ((hpush 1 7 2 false h1).mp hfails).2.2, hfull 1 7 false hopen hothers hfails⟩

/-! ## The instant of an empty verdict

The instant is the one at which the call reads the sequence. The ticket at the cursor is then not
published: either nobody has won it, or its producer is on the way. -/

/-- Thread `t` calls `c`, which leads to `s₁`; during the call the steps `mid` are taken; then `t`
returns from it with `result`. -/
structure CallReturns (capacity : ℕ) (t : Fin n) (c : Call α) (ticket : Option ℕ)
    (result : Result α) (s₁ : System α n) (mid : List (Action α n)) : Prop where
  called : ∃ s₀, (machine .unbounded α capacity n).Reachable s₀ ∧
    s₀.step .unbounded (.call t c) = some s₁
  single : ∀ c', .call t c' ∉ mid
  returned : ∃ s₂ spurious s₃, (machine .unbounded α capacity n).run s₁ mid = some s₂ ∧
    s₂.step .unbounded (.step t spurious) = some s₃ ∧
    s₃.history = s₂.history ++ [(t, .returned c ticket result)]

private theorem eq_popCountFailed_of_returned {s' : System α n} {t : Fin n} {spurious : Bool}
    (hs : s.step .unbounded (.step t spurious) = some s')
    (hreturned : s'.history = s.history ++ [(t, .returned .tryPop none .nullopt)]) :
    s.threads t = .popCountFailed := by
  rw [System.step, Option.ite_none_left_eq_some, Option.some.injEq] at hs
  obtain ⟨-, rfl⟩ := hs
  have hevents := List.append_cancel_left hreturned
  have hmem : .returned .tryPop none .nullopt ∈
      (threadStep .unbounded s.queue spurious (s.threads t)).2.2 := by
    have hsingle := List.mem_singleton_self (t, (.returned .tryPop none .nullopt : Event α))
    rw [← hevents, List.mem_map] at hsingle
    obtain ⟨e, he, heq⟩ := hsingle
    rwa [← (Prod.mk.inj heq).2]
  generalize s.threads t = pc at hmem ⊢
  cases pc with
  | popCountFailed => rfl
  | pushLoadClosed _ | pushCas _ _ | popCas _ =>
    rw [threadStep] at hmem
    split at hmem <;> simp at hmem
  | pushLoadSequence _ _ | popLoadSequence _ =>
    simp only [threadStep] at hmem
    split at hmem
    · simp at hmem
    · split at hmem <;> simp at hmem
  | _ => simp [threadStep] at hmem

/-- A `tryPop` comes to fail by examining a cell whose sequence is behind. -/
theorem examines_of_fails {t : Fin n} {a : Action α n} {s' : System α n}
    (hs : s.step .unbounded a = some s') (hbefore : s.threads t ≠ .popCountFailed)
    (hafter : s'.threads t = .popCountFailed) :
    ∃ p, s.threads t = .popLoadSequence p ∧ s.queue.seq p ≤ p := by
  cases a with
  | call u c =>
    rw [System.step, Option.ite_none_right_eq_some, Option.some.injEq] at hs
    obtain ⟨-, rfl⟩ := hs
    by_cases htu : t = u
    · subst htu
      rw [System.threads_move_self] at hafter
      cases c <;> cases hafter
    · rw [System.threads_move_of_ne _ htu] at hafter
      exact absurd hafter hbefore
  | step u spurious =>
    rw [System.step, Option.ite_none_left_eq_some, Option.some.injEq] at hs
    obtain ⟨-, rfl⟩ := hs
    by_cases htu : t = u
    · subst htu
      rw [System.threads_move_self] at hafter
      exact next_eq_popCountFailed_iff.mp hafter
    · rw [System.threads_move_of_ne _ htu] at hafter
      exact absurd hafter hbefore

theorem Inv.lt_of_mem_accepted (h : Inv capacity s) {e : ℕ × α} (he : e ∈ accepted s.history) :
    e.1 < s.queue.enqueuePos := by
  rw [← h.length_values]
  exact (List.getElem?_eq_some_iff.mp (h.accepted_value e he)).1

/-- **What an empty verdict says.** If a `tryPop` returns `nullopt`, then at some instant between
its start and its return every value whose `tryPush` had returned true had been claimed by some
`tryPop`, or the producer that won the ticket at the dequeue cursor had not stored its publish
sequence. The counters do not wrap around here, which is so for fewer than `2 ^ 63` operations. -/
theorem tryPop_nullopt_instant (hcap : 2 ≤ capacity) {t : Fin n} {s₁ : System α n}
    {mid : List (Action α n)} (h : CallReturns capacity t .tryPop none .nullopt s₁ mid) :
    ∃ k ≤ mid.length, ∃ u, (machine .unbounded α capacity n).run s₁ (mid.take k) = some u ∧
      ((∀ e ∈ accepted u.history, e.1 < u.queue.dequeuePos) ∨
        ∃ v, (u.threads v).producing = some u.queue.dequeuePos) := by
  obtain ⟨s₀, hs₀, hcall⟩ := h.called
  obtain ⟨s₂, spurious, s₃, hmid, hlast, hreturned⟩ := h.returned
  have hs₁ : (machine .unbounded α capacity n).Reachable s₁ :=
    Machine.Leads.step (a := .call t .tryPop) hs₀ trivial hcall
  have hfails := eq_popCountFailed_of_returned hlast hreturned
  have hstart : s₁.threads t ≠ .popCountFailed := by
    rw [System.step, Option.ite_none_right_eq_some, Option.some.injEq] at hcall
    obtain ⟨-, rfl⟩ := hcall
    rw [System.threads_move_self]
    simp [Call.entry]
  refine Machine.exists_instant_of_run (J := fun u ↦ u.threads t ≠ .popCountFailed) hmid hstart
    (not_not.mpr hfails) ?_
  intro as u a w hrun hu hstep
  -- the step that makes the call fail examines the cell of the dequeue cursor
  have hreach : (machine .unbounded α capacity n).Reachable u :=
    hs₁.trans (Machine.leads_of_runWhen hrun)
  by_cases hw : w.threads t = .popCountFailed
  swap
  · exact Or.inl hw
  refine Or.inr ?_
  have hI := inv_of_reachable hcap hreach
  have hrecent := recent_of_reachable hreach t
  obtain ⟨p, ht, hseq⟩ := examines_of_fails hstep hu hw
  rw [ht] at hrecent
  obtain ⟨rfl, hpublished⟩ := (hI.seq_le_iff hcap hrecent).mp hseq
  by_cases hlt : u.queue.dequeuePos < u.queue.enqueuePos
  · rw [System.Published, not_and, not_forall] at hpublished
    obtain ⟨v, hv⟩ := hpublished hlt
    exact Or.inr ⟨v, not_not.mp hv⟩
  · exact Or.inl fun e he ↦ (hI.lt_of_mem_accepted he).trans_le (by omega)

/-- The producer `t` is stalled with ticket `0` before it constructs, the push of ticket `1` by `u`
has returned true, and `v` calls `tryPop`. -/
def stalledHead (t u v : Fin 3) : List (Action ℕ 3) :=
  List.flatten
    [[.call t (.tryPush 7)], List.replicate 4 (.step t false),
      [.call u (.tryPush 8)], List.replicate 7 (.step u false), [.call v .tryPop]]

theorem callReturns_stalledHead :
    ∃ s₁, CallReturns 2 2 .tryPop none .nullopt s₁ [.step 2 false, .step 2 false] ∧
      (machine .unbounded ℕ 2 3).run (machine .unbounded ℕ 2 3).init (stalledHead 0 1 2) =
        some s₁ := by
  let M := machine .unbounded ℕ 2 3
  have hrun : ((M.run M.init (stalledHead 0 1 2).dropLast).bind fun s₀ ↦
      (s₀.step .unbounded (.call 2 .tryPop)).bind fun s₁ ↦
        (M.run s₁ [.step 2 false, .step 2 false]).bind fun s₂ ↦
          (s₂.step .unbounded (.step 2 false)).map fun s₃ ↦
            decide (s₃.history = s₂.history ++ [(2, .returned .tryPop none .nullopt)])) =
      some true := by decide +kernel
  obtain ⟨s₀, hs₀, hrest⟩ := Option.bind_eq_some_iff.mp hrun
  obtain ⟨s₁, hs₁, hrest⟩ := Option.bind_eq_some_iff.mp hrest
  obtain ⟨s₂, hs₂, hrest⟩ := Option.bind_eq_some_iff.mp hrest
  obtain ⟨s₃, hs₃, hlast⟩ := Option.map_eq_some_iff.mp hrest
  refine ⟨s₁, ⟨⟨s₀, Machine.reachable_of_run hs₀, hs₁⟩, by simp, s₂, false, s₃, hs₂, hs₃,
    of_decide_eq_true hlast⟩, ?_⟩
  rw [show stalledHead 0 1 2 = (stalledHead 0 1 2).dropLast ++ [.call 2 .tryPop] from rfl,
    Machine.run_append, hs₀, Option.bind_some, Machine.run_singleton]
  exact hs₁

theorem tryPop_nullopt_instant_stalledHead :
    ∃ s₁, (machine .unbounded ℕ 2 3).run (machine .unbounded ℕ 2 3).init (stalledHead 0 1 2) =
        some s₁ ∧
      ∃ k ≤ 2, ∃ u, (machine .unbounded ℕ 2 3).run s₁ (List.take k [.step 2 false, .step 2 false])
        = some u ∧ ((∀ e ∈ accepted u.history, e.1 < u.queue.dequeuePos) ∨
          ∃ v, (u.threads v).producing = some u.queue.dequeuePos) := by
  obtain ⟨s₁, hcall, hs₁⟩ := callReturns_stalledHead
  exact ⟨s₁, hs₁, tryPop_nullopt_instant le_rfl hcall⟩

/-- **An empty verdict does not mean that the accepted values were claimed**: the ticket at the
cursor may be held up by its producer while a later push has returned. -/
theorem not_tryPop_nullopt_claimed :
    ¬ ∀ capacity n : ℕ, 2 ≤ capacity → ∀ (t : Fin n) (s₁ : System ℕ n) (mid : List (Action ℕ n)),
      CallReturns capacity t .tryPop none .nullopt s₁ mid →
      ∃ k ≤ mid.length, ∃ u, (machine .unbounded ℕ capacity n).run s₁ (mid.take k) = some u ∧
        ∀ e ∈ accepted u.history, e.1 < u.queue.dequeuePos := by
  intro hall
  obtain ⟨s₁, hcall, hs₁⟩ := callReturns_stalledHead
  obtain ⟨k, hk, u, hu, hclaimed⟩ := hall 2 3 le_rfl 2 s₁ _ hcall
  have hevery : ∀ k ≤ 2, ((machine .unbounded ℕ 2 3).run (machine .unbounded ℕ 2 3).init
      (stalledHead 0 1 2 ++ List.take k [.step 2 false, .step 2 false])).map
        (fun u ↦ (accepted u.history, u.queue.dequeuePos)) = some ([(1, 8)], 0) := by
    decide +kernel
  have hk' := hevery k hk
  rw [Machine.run_append, hs₁, Option.bind_some, hu, Option.map_some, Option.some.injEq,
    Prod.mk.injEq] at hk'
  have hlt := hclaimed (1, 8) (by rw [hk'.1]; exact List.mem_singleton_self _)
  rw [hk'.2] at hlt
  exact absurd hlt (Nat.not_lt_zero _)

end LockFreeQueue

end FoundationComponents
