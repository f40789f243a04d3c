import FoundationComponents.LockFreeQueue.Invariant
import Mathlib.Tactic.FinCases

/-!
# No loss, no duplication, ticket order

What the ticket invariant says about the values: a `tryPop` that won ticket `p` returns the value
of the `tryPush` that won `p`. Calls may return in any order, so the statement about sequences of
values sorts both sides by ticket; once no call is in progress the popped values are an initial
segment of the accepted ones.
-/

namespace FoundationComponents

namespace LockFreeQueue

variable {α : Type*} {n : ℕ}

/-! ## Sorting by ticket -/

/-- A list that carries each ticket below `k` once, each with its value in `vals`, sorts to the
first `k` values. -/
theorem byTicket_eq_take {l : List (ℕ × α)} {vals : List α} {k : ℕ}
    (hperm : (l.map Prod.fst).Perm (List.range k)) (hvals : ∀ e ∈ l, vals[e.1]? = some e.2) :
    byTicket l = vals.take k := by
  set l' := l.mergeSort fun a b ↦ decide (a.1 ≤ b.1) with hl'
  have hl : l'.Perm l := List.mergeSort_perm l _
  have hsorted : (l'.map Prod.fst).Pairwise (· ≤ ·) := by
    rw [List.pairwise_map]
    refine (List.pairwise_mergeSort ?_ ?_ l).imp fun h ↦ of_decide_eq_true h
    · intro a b c hab hbc
      exact decide_eq_true ((of_decide_eq_true hab).trans (of_decide_eq_true hbc))
    · intro a b
      rw [Bool.or_eq_true, decide_eq_true_iff, decide_eq_true_iff]
      exact le_total a.1 b.1
  have hfst : l'.map Prod.fst = List.range k :=
    ((hl.map Prod.fst).trans hperm).eq_of_pairwise (fun a b _ _ ↦ le_antisymm) hsorted
      (List.pairwise_le_range (n := k))
  have hlen : l'.length = k := by
    rw [← List.length_map (f := Prod.fst), hfst, List.length_range]
  -- position by position: the entry at `i` has ticket `i`, hence value `vals[i]`
  have hget : ∀ i (hi : i < l'.length), vals[i]? = some l'[i].2 := by
    intro i hi
    have hi' : i < (l'.map Prod.fst).length := by rwa [List.length_map]
    have hticket : l'[i].1 = i := by
      rw [← List.getElem_map Prod.fst (h := hi')]
      simp only [hfst, List.getElem_range]
    have := hvals l'[i] (hl.mem_iff.mp (List.getElem_mem hi))
    rwa [hticket] at this
  rw [byTicket, ← hl']
  refine List.ext_getElem? fun i ↦ ?_
  by_cases hi : i < k
  · rw [List.getElem?_take_of_lt hi, hget i (hlen ▸ hi), List.getElem?_map,
      List.getElem?_eq_getElem (hlen ▸ hi)]
    rfl
  · rw [List.getElem?_eq_none (by rw [List.length_map]; omega),
      List.getElem?_eq_none (by rw [List.length_take]; omega)]

/-! ## The invariant at the level of values

The ticket invariant says of every ticket which value was pushed with it. Once all calls have
returned the history has the tickets of all of them. -/

namespace Inv

variable {capacity : ℕ} {s : System α n}

theorem mem_enqueueWins (h : Inv capacity s) {p : ℕ} {v : α}
    (hv : (values s.history)[p]? = some v) : (p, v) ∈ enqueueWins s.history := by
  rw [values, List.getElem?_map, Option.map_eq_some_iff] at hv
  obtain ⟨e, he, rfl⟩ := hv
  have hp : ((enqueueWins s.history).map Prod.fst)[p]? = some e.1 := by
    rw [List.getElem?_map, he]
    rfl
  rw [h.enqueueWins_eq, List.getElem?_eq_some_iff] at hp
  obtain ⟨_, hp⟩ := hp
  rw [List.getElem_range] at hp
  rw [hp]
  exact List.mem_of_getElem? he

/-- Every value a `tryPop` handed out was pushed with the same ticket. -/
theorem popped_value (h : Inv capacity s) {e : ℕ × α} (he : e ∈ popped s.history) :
    (values s.history)[e.1]? = some e.2 := by
  rw [popped, List.mem_filterMap] at he
  obtain ⟨⟨p, r⟩, hmem, hr⟩ := he
  obtain ⟨v, rfl, hv⟩ := h.popReturns_value _ hmem
  rw [← Option.some.inj hr]
  exact hv

theorem map_fst_popped (h : Inv capacity s) :
    (popped s.history).map Prod.fst = (popReturns s.history).map Prod.fst := by
  have hall : ∀ (f : ℕ × Result α → Option (ℕ × α)) (l : List (ℕ × Result α)),
      (∀ e ∈ l, ∃ v, f e = some (e.1, v)) → (l.filterMap f).map Prod.fst = l.map Prod.fst := by
    intro f l hl
    induction l with
    | nil => rfl
    | cons e l ih =>
      obtain ⟨v, hv⟩ := hl _ List.mem_cons_self
      rw [List.filterMap_cons_some hv, List.map_cons, List.map_cons,
        ih fun e he ↦ hl e (List.mem_cons_of_mem _ he)]
  refine hall _ _ fun e he ↦ ?_
  obtain ⟨v, hv, -⟩ := h.popReturns_value e he
  obtain ⟨ticket, result⟩ := e
  dsimp only at hv
  exact ⟨v, by rw [hv]⟩

theorem byTicket_accepted (h : Inv capacity s) (hq : s.Quiescent) :
    byTicket (accepted s.history) = values s.history := by
  have hperm : ((accepted s.history).map Prod.fst).Perm (List.range s.queue.enqueuePos) := by
    have := h.pushTickets_eq
    rw [tally_eq_zero _ _ fun t ↦ by rw [hq t]; rfl, zero_add] at this
    exact Multiset.coe_eq_coe.mp this
  rw [byTicket_eq_take hperm h.accepted_value, ← h.length_values, List.take_length]

theorem byTicket_popped (h : Inv capacity s) (hq : s.Quiescent) :
    byTicket (popped s.history) = (values s.history).take s.queue.dequeuePos := by
  refine byTicket_eq_take ?_ fun e he ↦ h.popped_value he
  rw [h.map_fst_popped]
  have := h.popTickets_eq
  rw [tally_eq_zero _ _ fun t ↦ by rw [hq t]; rfl, zero_add] at this
  exact Multiset.coe_eq_coe.mp this

end Inv

/-- **No loss, no duplication, ticket order.** In every state that any number of threads can reach
on a queue of at least two cells: each ticket below a cursor was won by exactly one exchange on
that cursor and no other ticket was, the cursors are at most one round apart, and a `tryPop` that
won a ticket returns the value of the `tryPush` that won it. With no call in progress the popped
values, in ticket order, are a prefix of the accepted ones. -/
theorem tickets_fifo {capacity : ℕ} (hcap : 2 ≤ capacity) {s : System α n}
    (h : (machine .unbounded α capacity n).Reachable s) :
    (∀ p, ((enqueueWins s.history).map Prod.fst).count p
      = if p < s.queue.enqueuePos then 1 else 0) ∧
    (∀ p, (dequeueWins s.history).count p = if p < s.queue.dequeuePos then 1 else 0) ∧
    s.queue.dequeuePos ≤ s.queue.enqueuePos ∧
    s.queue.enqueuePos ≤ s.queue.dequeuePos + s.queue.capacity ∧
    (∀ p r, (p, r) ∈ popReturns s.history →
      ∃ v, r = .popped v ∧ (p, v) ∈ enqueueWins s.history) ∧
    (s.Quiescent → byTicket (popped s.history) <+: byTicket (accepted s.history)) := by
  have hI := inv_of_reachable hcap h
  refine ⟨fun p ↦ ?_, fun p ↦ ?_, hI.dequeue_le, ?_, fun p r hr ↦ ?_, fun hq ↦ ?_⟩
  · rw [hI.enqueueWins_eq, List.count_range]
  · rw [hI.dequeueWins_eq, List.count_range]
  · rw [hI.capacity_eq]
    exact hI.enqueue_le
  · obtain ⟨v, hv, hval⟩ := hI.popReturns_value _ hr
    exact ⟨v, hv, hI.mem_enqueueWins hval⟩
  · rw [hI.byTicket_accepted hq, hI.byTicket_popped hq]
    exact List.take_prefix _ _

/-- Two producers and a consumer on two cells: the first producer is stalled after winning ticket
`0` while the second pushes with ticket `1`, and the `tryPop` that follows returns the first
producer's value. -/
def stalledProducer (t u : Fin n) : List (Action ℕ n) :=
  [.call t (.tryPush 7)] ++ List.replicate 4 (.step t false) ++
    [.call u (.tryPush 8)] ++ List.replicate 7 (.step u false) ++
    List.replicate 3 (.step t false) ++ [.call u .tryPop] ++ List.replicate 7 (.step u false)

theorem tickets_fifo_stalledProducer :
    ∃ s, (machine .unbounded ℕ 2 2).Reachable s ∧ s.Quiescent ∧
      popReturns s.history = [(0, .popped 7)] ∧
      (∃ v, Result.popped 7 = .popped v ∧ (0, v) ∈ enqueueWins s.history) ∧
      byTicket (popped s.history) <+: byTicket (accepted s.history) := by
  obtain ⟨s, hs, hf⟩ := Machine.exists_reachable_of_run (M := machine .unbounded ℕ 2 2)
    (fun s ↦ (s.threads 0, s.threads 1, popReturns s.history)) (stalledProducer 0 1)
    (b := (.idle, .idle, [(0, .popped 7)])) (by decide +kernel)
  simp only [Prod.mk.injEq] at hf
  obtain ⟨h0, h1, hpop⟩ := hf
  have hq : s.Quiescent := fun t ↦ by
    fin_cases t
    · exact h0
    · exact h1
  obtain ⟨-, -, -, -, hvalue, hprefix⟩ := tickets_fifo (by decide) hs
  exact ⟨s, hs, hq, hpop, hvalue 0 _ (by rw [hpop]; exact List.mem_singleton_self _), hprefix hq⟩

end LockFreeQueue

end FoundationComponents
