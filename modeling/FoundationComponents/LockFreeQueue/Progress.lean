import FoundationComponents.LockFreeQueue.Linearizable
import FoundationComponents.Machine.Tally

/-!
# Lock-freedom

A call may go round its loop any number of times, but only because other calls win tickets: its
exchange fails because the cursor has moved, and a sequence ahead of a position read from the cursor
means the same. So if no call returned, only finitely many accesses could be made.

The *cost* of a position bounds the accesses up to the next won ticket or return if the cursors do
not move; it is two more when the position read from the cursor is out of date. A win makes the
positions of all other calls out of date, which is paid for in advance by a share of `2 * n` in the
cost of every call that has not won yet. Exchanges that fail spuriously are the one way to lose time
without a reason, and are excluded.
-/

namespace FoundationComponents

namespace LockFreeQueue

variable {α : Type*} {n : ℕ} {capacity : ℕ}

/-- The accesses up to the next return, with a share for every ticket that is won meanwhile. -/
def Pc.cost (n : ℕ) (q : Queue α) : Pc α → ℕ
  | .idle => 2 * n + 8
  | .pushLoadClosed _ => 2 * n + 7
  | .pushLoadPos _ => 2 * n + 6
  | .pushLoadSequence _ p => if p = q.enqueuePos then 2 * n + 5 else 2 * n + 7
  | .pushCas _ p => if p = q.enqueuePos then 2 * n + 4 else 2 * n + 6
  | .pushConstruct _ _ => 3
  | .pushPublish _ _ | .pushCountClosed _ => 2
  | .pushCount _ _ | .pushCountFailed _ => 1
  | .popLoadPos => 2 * n + 7
  | .popLoadSequence p => if p = q.dequeuePos then 2 * n + 6 else 2 * n + 8
  | .popCas p => if p = q.dequeuePos then 2 * n + 5 else 2 * n + 7
  | .popMove _ => 4
  | .popDestroy _ _ => 3
  | .popRelease _ _ => 2
  | .popCount _ _ | .popCountFailed | .closeStore => 1

def System.potential (s : System α n) : ℕ := tally (Pc.cost n s.queue) s.threads

section Cost

variable {q q' : Queue α} {pc : Pc α}

private theorem cost_le (pc : Pc α) : pc.cost n q ≤ 2 * n + 8 := by
  cases pc with
  | pushLoadSequence v p | pushCas v p | popLoadSequence p | popCas p =>
    simp only [Pc.cost]
    split <;> omega
  | _ =>
    simp only [Pc.cost]
    omega

private theorem potential_le (s : System α n) : s.potential ≤ n * (2 * n + 8) := by
  have hle : s.potential ≤ ∑ _i : Fin n, (2 * n + 8) := by
    rw [System.potential, tally]
    exact Finset.sum_le_sum fun i _ ↦ cost_le (s.threads i)
  rwa [Finset.sum_const, Finset.card_univ, Fintype.card_fin, smul_eq_mul] at hle

private theorem cost_congr (henqueue : q'.enqueuePos = q.enqueuePos)
    (hdequeue : q'.dequeuePos = q.dequeuePos) : Pc.cost n q' = Pc.cost n q := by
  funext pc
  cases pc with
  | pushLoadSequence v p | pushCas v p => simp only [Pc.cost, henqueue]
  | popLoadSequence p | popCas p => simp only [Pc.cost, hdequeue]
  | _ => rfl

/-- When a cursor moves a position may get out of date. -/
theorem cost_le_add_two (pc : Pc α) : pc.cost n q' ≤ pc.cost n q + 2 := by
  cases pc with
  | pushLoadSequence v p | pushCas v p | popLoadSequence p | popCas p =>
    simp only [Pc.cost]
    split <;> split <;> omega
  | _ => exact Nat.le_add_right _ 2

end Cost

section Steps

variable {s : System α n} {t : Fin n} {q' : Queue α} {pc pc' : Pc α} {events : List (Event α)}

/-- A step that moves no cursor and lowers the cost of its thread. -/
theorem potential_lt (henqueue : q'.enqueuePos = s.queue.enqueuePos)
    (hdequeue : q'.dequeuePos = s.queue.dequeuePos) (ht : s.threads t = pc)
    (hless : pc'.cost n s.queue < pc.cost n s.queue) :
    (s.move t (q', pc', events)).potential < s.potential := by
  have htrade := tally_update (Pc.cost n s.queue) s.threads t pc'
  rw [ht] at htrade
  change tally (Pc.cost n q') (Function.update s.threads t pc') < s.potential
  rw [cost_congr henqueue hdequeue, System.potential]
  omega

/-- A step that moves a cursor: it uses up the share of its thread. -/
theorem potential_lt_of_won (ht : s.threads t = pc)
    (hless : pc'.cost n s.queue + 2 * n < pc.cost n s.queue) :
    (s.move t (q', pc', events)).potential < s.potential := by
  have htrade := tally_update (Pc.cost n s.queue) s.threads t pc'
  rw [ht] at htrade
  have hmore : tally (Pc.cost n q') (Function.update s.threads t pc') ≤
      tally (fun pc ↦ pc.cost n s.queue + 2) (Function.update s.threads t pc') :=
    Finset.sum_le_sum fun i _ ↦ cost_le_add_two _
  rw [tally_add_const, Fintype.card_fin, smul_eq_mul] at hmore
  change tally (Pc.cost n q') (Function.update s.threads t pc') < s.potential
  rw [System.potential]
  omega

/-- A sequence is never ahead of a position that is still the cursor. -/
theorem Inv.not_ahead_enqueue (h : Inv capacity s) :
    ¬ 0 < CounterArith.unbounded.diff (s.queue.seq s.queue.enqueuePos) s.queue.enqueuePos := by
  have hle := h.unpublished s.queue.enqueuePos le_rfl
  rw [CounterArith.unbounded_diff]
  omega

theorem Inv.not_ahead_dequeue (h : Inv capacity s) :
    ¬ 0 < CounterArith.unbounded.diff (s.queue.seq s.queue.dequeuePos)
      (CounterArith.unbounded.add s.queue.dequeuePos 1) := by
  rw [CounterArith.unbounded_diff, CounterArith.unbounded_add]
  by_cases hseq : s.queue.dequeuePos + 1 ≤ s.queue.seq s.queue.dequeuePos
  · have heq := h.seq_eq_of_le le_rfl hseq
    omega
  · omega

/-- **Every access costs something**, as long as no call returns. -/
theorem potential_threadStep (h : Inv capacity s)
    (hnone : returns t (threadStep .unbounded s.queue false (s.threads t)).2.2 = [])
    (hbusy : s.threads t ≠ .idle) :
    (s.move t (threadStep .unbounded s.queue false (s.threads t))).potential < s.potential := by
  generalize ht : s.threads t = pc at *
  cases pc with
  | idle => exact absurd rfl hbusy
  | pushLoadClosed v =>
    rw [threadStep]
    split
    · exact potential_lt rfl rfl ht (by simp only [Pc.cost]; omega)
    · exact potential_lt rfl rfl ht (by simp only [Pc.cost]; omega)
  | pushCountClosed v => exact potential_lt rfl rfl ht (by simp only [Pc.cost]; omega)
  | pushCountFailed v | pushCount v p | popCountFailed | popCount p r | closeStore => cases hnone
  | pushLoadPos v =>
    refine potential_lt rfl rfl ht ?_
    simp only [Pc.cost, if_true]
    omega
  | popLoadPos =>
    refine potential_lt rfl rfl ht ?_
    simp only [Pc.cost, if_true]
    omega
  | pushLoadSequence v p =>
    simp only [threadStep]
    split
    · refine potential_lt rfl rfl ht ?_
      simp only [Pc.cost]
      split <;> omega
    · split
      · refine potential_lt rfl rfl ht ?_
        simp only [Pc.cost]
        split <;> omega
      · -- the position is out of date
        refine potential_lt rfl rfl ht ?_
        have hne : p ≠ s.queue.enqueuePos := by
          rintro rfl
          have := h.not_ahead_enqueue
          omega
        simp only [Pc.cost, if_neg hne]
        omega
  | popLoadSequence p =>
    simp only [threadStep]
    split
    · refine potential_lt rfl rfl ht ?_
      simp only [Pc.cost]
      split <;> omega
    · split
      · refine potential_lt rfl rfl ht ?_
        simp only [Pc.cost]
        split <;> omega
      · refine potential_lt rfl rfl ht ?_
        have hne : p ≠ s.queue.dequeuePos := by
          rintro rfl
          have := h.not_ahead_dequeue
          omega
        simp only [Pc.cost, if_neg hne]
        omega
  | pushCas v p =>
    rw [threadStep]
    split
    · rename_i hwon
      refine potential_lt_of_won ht ?_
      simp only [Pc.cost, hwon.1, if_true]
      omega
    · rename_i hlost
      refine potential_lt rfl rfl ht ?_
      have hne : p ≠ s.queue.enqueuePos := fun heq ↦ hlost ⟨heq.symm, rfl⟩
      simp only [Pc.cost, if_true, if_neg hne]
      omega
  | popCas p =>
    rw [threadStep]
    split
    · rename_i hwon
      refine potential_lt_of_won ht ?_
      simp only [Pc.cost, hwon.1, if_true]
      omega
    · rename_i hlost
      refine potential_lt rfl rfl ht ?_
      have hne : p ≠ s.queue.dequeuePos := fun heq ↦ hlost ⟨heq.symm, rfl⟩
      simp only [Pc.cost, if_true, if_neg hne]
      omega
  | pushConstruct v p | pushPublish v p | popMove p | popDestroy p r | popRelease p r =>
    exact potential_lt rfl rfl ht (by simp only [Pc.cost]; omega)

private theorem potential_call (ht : s.threads t = .idle) (c : Call α) :
    (s.move t (s.queue, c.entry, [])).potential < s.potential := by
  refine potential_lt rfl rfl ht ?_
  cases c with
  | tryPush v | tryPop | close =>
    simp only [Pc.cost, Call.entry]
    omega

/-- The returns among what a step shows of the calls. -/
def System.returnEvents (s : System α n) :
    Action α n → List (Linearizability.Event (Fin n) (Call α) (Result α))
  | .call _ _ => []
  | .step t spurious => returns t (threadStep .unbounded s.queue spurious (s.threads t)).2.2

theorem returnEvents_subset (s : System α n) (a : Action α n) :
    s.returnEvents a ⊆ s.clientEvents a := by
  cases a with
  | call t c => exact List.nil_subset _
  | step t spurious => exact List.Subset.refl _

private theorem exists_of_mem_returnEvents {a : Action α n}
    {e : Linearizability.Event (Fin n) (Call α) (Result α)} (h : e ∈ s.returnEvents a) :
    ∃ t result, e = .ret t result := by
  cases a with
  | call t c => cases h
  | step t spurious =>
    obtain ⟨event, -, heq⟩ := List.mem_filterMap.mp h
    cases event with
    | returned c ticket result => exact ⟨t, result, (Option.some.inj heq).symm⟩
    | _ => cases heq

/-- **Every step costs something**, as long as no call returns. -/
theorem potential_step (h : Inv capacity s) {a : Action α n} {s' : System α n}
    (hweak : ∀ t, a ≠ .step t true) (hs : s.step .unbounded a = some s')
    (hnone : s.returnEvents a = []) : s'.potential < s.potential := by
  cases a with
  | call t c =>
    rw [System.step, Option.ite_none_right_eq_some, Pc.isIdle_iff, Option.some.injEq] at hs
    obtain ⟨ht, rfl⟩ := hs
    exact potential_call ht c
  | step t spurious =>
    rw [System.step, Option.ite_none_left_eq_some, Option.some.injEq] at hs
    obtain ⟨hbusy, rfl⟩ := hs
    cases spurious with
    | true => exact absurd rfl (hweak t)
    | false =>
      exact potential_threadStep h hnone fun hidle ↦ hbusy (Pc.isIdle_iff.mpr hidle)

/-- **Lock-freedom.** For every capacity of at least two and any number of threads, whatever has
happened before: among any `n * (2 * n + 8) + 1` accesses and new calls of the threads, however they
interleave, there is the return of a call, unless an exchange fails spuriously. The counters do not
wrap around here, which is so for fewer than `2 ^ 63` operations. -/
theorem lock_free (hcap : 2 ≤ capacity) (hs : (machine .unbounded α capacity n).Reachable s)
    {labels : List (Action α n)} {s' : System α n}
    (hrun : (machine .unbounded α capacity n).run s labels = some s')
    (hweak : ∀ t, .step t true ∉ labels) (hlong : n * (2 * n + 8) < labels.length) :
    ∃ t result, .ret t result ∈
      (machine .unbounded α capacity n).outputs System.clientEvents s labels := by
  have hreturns := Machine.outputs_ne_nil_of_potential (f := System.returnEvents) hrun
    (inv_of_reachable hcap hs)
    (fun ha hI hv ↦ ⟨inv_step hI hcap hv,
      potential_step hI (fun t heq ↦ hweak t (heq ▸ ha)) hv⟩)
    (lt_of_le_of_lt (potential_le s) hlong)
  obtain ⟨e, he⟩ := List.exists_mem_of_ne_nil _ hreturns
  obtain ⟨t, result, rfl⟩ := Machine.forall_mem_outputs
    (fun _ _ _ hmem ↦ exists_of_mem_returnEvents hmem) s labels e he
  exact ⟨t, result, Machine.outputs_subset returnEvents_subset s labels he⟩

end Steps

/-- Two threads push in turns. They load the same ticket, the second loses the exchange and has to
start again; then the ring is full. -/
def contendedPushes {n : ℕ} (first second : Fin n) : List (Action ℕ n) :=
  [.call first (.tryPush 5), .call second (.tryPush 6)] ++
    (List.replicate 7 [.step first false, .step second false]).flatten ++
    [.call first (.tryPush 7), .step second false, .step first false, .step second false,
      .step first false, .call second (.tryPush 8)] ++
    (List.replicate 2 [.step first false, .step second false]).flatten

theorem lock_free_contended : ∃ t result, .ret t result ∈
    (machine .unbounded ℕ 2 2).outputs System.clientEvents (machine .unbounded ℕ 2 2).init
      (contendedPushes 0 1) := by
  have hrun : ((machine .unbounded ℕ 2 2).run (machine .unbounded ℕ 2 2).init
      (contendedPushes 0 1)).isSome = true := by decide +kernel
  obtain ⟨s, hs⟩ := Option.isSome_iff_exists.mp hrun
  exact lock_free le_rfl .refl hs (by decide) (by decide)

end LockFreeQueue

end FoundationComponents
