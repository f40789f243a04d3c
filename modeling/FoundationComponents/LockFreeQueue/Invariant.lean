import Mathlib.Algebra.Order.BigOperators.Group.Multiset
import Mathlib.Data.Multiset.Range
import Mathlib.Data.Nat.ModEq
import FoundationComponents.LockFreeQueue.Basic
import FoundationComponents.Machine.Tally

/-!
# The ticket invariant

Everything here is read off two numbers per ticket `p`: the sequence `q.seq p` of its cell and the
position of the thread that holds it, if any. With `C` the capacity, ticket `p` is *published*
once `p + 1 ≤ q.seq p` and *released* once `p + C ≤ q.seq p`; both are inequalities because the
sequence of a cell only grows. A producer holding `p` sees exactly `p`, a consumer exactly `p + 1`.

The codes `p`, `p + 1` and `p + C` of one cell can only be told apart when `C ≥ 2`: then a producer
of one round and a consumer of another never meet in the same cell (`Inv.holding_exclusive`), and
every step of a holder touches a cell that no other thread holds.

The invariant is preserved in five shapes of step: a step that touches neither cells nor cursors
(`inv_quiet`), a write to the storage of a held cell (`inv_storeSlot`), a won exchange on either
cursor (`inv_enqueueWon`, `inv_dequeueWon`), the publish and release stores (`inv_publish`,
`inv_release`), and the two returns that hand a ticket from a thread to the history.
-/

namespace FoundationComponents

namespace LockFreeQueue

variable {α : Type*} {n : ℕ}

/-! ## Rings that look the same -/

namespace Queue

variable (q : Queue α)

/-- The two queues differ at most in `closed` and the statistics. -/
def SameRing (q q' : Queue α) : Prop :=
  q'.buffer = q.buffer ∧ q'.capacity = q.capacity ∧ q'.enqueuePos = q.enqueuePos ∧
    q'.dequeuePos = q.dequeuePos

theorem SameRing.refl : SameRing q q := ⟨rfl, rfl, rfl, rfl⟩

variable {q} {q' : Queue α}

theorem SameRing.seq_eq (h : SameRing q q') (p : ℕ) : q'.seq p = q.seq p := by
  rw [seq, seq, h.1, h.2.1]

theorem SameRing.slot_eq (h : SameRing q q') (p : ℕ) : q'.slot p = q.slot p := by
  rw [slot, slot, h.1, h.2.1]

end Queue

/-! ## What a position says about its ticket

A thread holds a cell from its won exchange to its sequence store. Its ticket stays with it until
the call returns, when the history takes it over. -/

namespace Pc

/-- The ticket a producer holds between its won exchange and its sequence store. -/
def producing : Pc α → Option ℕ
  | .pushConstruct _ p => some p
  | .pushPublish _ p => some p
  | _ => none

/-- The ticket a consumer holds between its won exchange and its sequence store. -/
def consuming : Pc α → Option ℕ
  | .popMove p => some p
  | .popDestroy p _ => some p
  | .popRelease p _ => some p
  | _ => none

/-- The ticket of a `tryPush` that won one and has not returned. -/
def pushTickets : Pc α → Multiset ℕ
  | .pushConstruct _ p => {p}
  | .pushPublish _ p => {p}
  | .pushCount _ p => {p}
  | _ => 0

/-- The ticket of a `tryPop` that won one and has not returned. -/
def popTickets : Pc α → Multiset ℕ
  | .popMove p => {p}
  | .popDestroy p _ => {p}
  | .popRelease p _ => {p}
  | .popCount p _ => {p}
  | _ => 0

/-- The two positions hold the same tickets. -/
def SameTicket (pc pc' : Pc α) : Prop :=
  pc'.producing = pc.producing ∧ pc'.consuming = pc.consuming ∧
    pc'.pushTickets = pc.pushTickets ∧ pc'.popTickets = pc.popTickets

/-- What each position knows of the ring. `values` lists the pushed values by ticket. -/
def Ok (q : Queue α) (values : List α) : Pc α → Prop
  | .pushCas _ p => p ≤ q.seq p
  | .pushConstruct v p =>
      p < q.enqueuePos ∧ q.seq p = p ∧ q.slot p = .raw ∧ values[p]? = some v
  | .pushPublish v p =>
      p < q.enqueuePos ∧ q.seq p = p ∧ q.slot p = .live v ∧ values[p]? = some v
  | .pushCount v p => values[p]? = some v
  | .popCas p => p + 1 ≤ q.seq p
  | .popMove p =>
      p < q.dequeuePos ∧ q.seq p = p + 1 ∧ ∃ v, q.slot p = .live v ∧ values[p]? = some v
  | .popDestroy p r =>
      p < q.dequeuePos ∧ q.seq p = p + 1 ∧ q.slot p = .movedFrom ∧
        ∃ v, r = .live v ∧ values[p]? = some v
  | .popRelease p r =>
      p < q.dequeuePos ∧ q.seq p = p + 1 ∧ q.slot p = .raw ∧
        ∃ v, r = .live v ∧ values[p]? = some v
  | .popCount p r => ∃ v, r = .live v ∧ values[p]? = some v
  | _ => True

variable {q : Queue α} {values : List α} {pc : Pc α} {p : ℕ}

theorem Ok.of_producing (h : pc.Ok q values) (hp : pc.producing = some p) :
    p < q.enqueuePos ∧ q.seq p = p ∧ pc.pushTickets = {p} := by
  cases pc <;> simp only [producing, reduceCtorEq, Option.some.injEq] at hp
  all_goals
    subst hp
    exact ⟨h.1, h.2.1, rfl⟩

theorem Ok.of_consuming (h : pc.Ok q values) (hp : pc.consuming = some p) :
    p < q.dequeuePos ∧ q.seq p = p + 1 ∧ pc.popTickets = {p} := by
  cases pc <;> simp only [consuming, reduceCtorEq, Option.some.injEq] at hp
  all_goals
    subst hp
    exact ⟨h.1, h.2.1, rfl⟩

/-- A position that holds no cell keeps its knowledge while cursors, sequences and the list of
values grow; one that holds a cell needs that cell to be left alone. -/
theorem Ok.mono {q' : Queue α} {values' : List α} (h : pc.Ok q values)
    (henq : q.enqueuePos ≤ q'.enqueuePos) (hdeq : q.dequeuePos ≤ q'.dequeuePos)
    (hseq : ∀ p, q.seq p ≤ q'.seq p)
    (hcell : ∀ p, pc.producing = some p ∨ pc.consuming = some p →
      q'.seq p = q.seq p ∧ q'.slot p = q.slot p)
    (hvalues : ∀ (p : ℕ) (v : α), values[p]? = some v → values'[p]? = some v) :
    pc.Ok q' values' := by
  cases pc with
  | pushCas v p => exact le_trans h (hseq p)
  | pushConstruct v p =>
    obtain ⟨h1, h2⟩ := hcell p (Or.inl rfl)
    exact ⟨h.1.trans_le henq, h1.trans h.2.1, h2.trans h.2.2.1, hvalues p v h.2.2.2⟩
  | pushPublish v p =>
    obtain ⟨h1, h2⟩ := hcell p (Or.inl rfl)
    exact ⟨h.1.trans_le henq, h1.trans h.2.1, h2.trans h.2.2.1, hvalues p v h.2.2.2⟩
  | pushCount v p => exact hvalues p v h
  | popCas p => exact le_trans h (hseq p)
  | popMove p =>
    obtain ⟨h1, h2⟩ := hcell p (Or.inr rfl)
    obtain ⟨hp, hs, v, hv, hval⟩ := h
    exact ⟨hp.trans_le hdeq, h1.trans hs, v, h2.trans hv, hvalues p v hval⟩
  | popDestroy p r =>
    obtain ⟨h1, h2⟩ := hcell p (Or.inr rfl)
    obtain ⟨hp, hs, hslot, v, hv, hval⟩ := h
    exact ⟨hp.trans_le hdeq, h1.trans hs, h2.trans hslot, v, hv, hvalues p v hval⟩
  | popRelease p r =>
    obtain ⟨h1, h2⟩ := hcell p (Or.inr rfl)
    obtain ⟨hp, hs, hslot, v, hv, hval⟩ := h
    exact ⟨hp.trans_le hdeq, h1.trans hs, h2.trans hslot, v, hv, hvalues p v hval⟩
  | popCount p r =>
    obtain ⟨v, hv, hval⟩ := h
    exact ⟨v, hv, hvalues p v hval⟩
  | _ => exact trivial

end Pc

/-! ## The invariant -/

/-- The values pushed so far, indexed by ticket. -/
def values (history : List (Fin n × Event α)) : List α := (enqueueWins history).map Prod.snd

/-- The invariant of every reachable state. -/
structure Inv (capacity : ℕ) (s : System α n) : Prop where
  capacity_eq : s.queue.capacity = capacity
  ok : ∀ t, (s.threads t).Ok s.queue (values s.history)
  /-- Tickets are handed out in order, each once. -/
  enqueueWins_eq : (enqueueWins s.history).map Prod.fst = List.range s.queue.enqueuePos
  dequeueWins_eq : dequeueWins s.history = List.range s.queue.dequeuePos
  /-- A won ticket is with its thread until the call returns, and then in the history. -/
  pushTickets_eq : tally Pc.pushTickets s.threads + ↑((accepted s.history).map Prod.fst)
    = Multiset.range s.queue.enqueuePos
  popTickets_eq : tally Pc.popTickets s.threads + ↑((popReturns s.history).map Prod.fst)
    = Multiset.range s.queue.dequeuePos
  accepted_value : ∀ e ∈ accepted s.history, (values s.history)[e.1]? = some e.2
  popReturns_value : ∀ e ∈ popReturns s.history,
    ∃ v, e.2 = .popped v ∧ (values s.history)[e.1]? = some v
  dequeue_le : s.queue.dequeuePos ≤ s.queue.enqueuePos
  enqueue_le : s.queue.enqueuePos ≤ s.queue.dequeuePos + capacity
  published : ∀ p, p < s.queue.enqueuePos →
    (∃ t, (s.threads t).producing = some p) ∨ p + 1 ≤ s.queue.seq p
  unpublished : ∀ p, s.queue.enqueuePos ≤ p → s.queue.seq p ≤ p
  released : ∀ p, p < s.queue.dequeuePos →
    (∃ t, (s.threads t).consuming = some p) ∨ p + capacity ≤ s.queue.seq p
  unreleased : ∀ p, s.queue.dequeuePos ≤ p → s.queue.seq p < p + capacity
  /-- Every sequence number is the free or the full code of a ticket of its cell. -/
  coded : ∀ p, ∃ p', p' % capacity = p % capacity ∧
    (s.queue.seq p = p' ∨ s.queue.seq p = p' + 1)
  raw_of_free : ∀ p, s.queue.enqueuePos ≤ p → s.queue.seq p = p → s.queue.slot p = .raw
  live_of_full : ∀ p, s.queue.dequeuePos ≤ p → s.queue.seq p = p + 1 →
    ∃ v, s.queue.slot p = .live v ∧ (values s.history)[p]? = some v

/-! ## Exclusive cells

A thread that holds a ticket sees its cell at a code of this ticket. Two holders of one cell would
see one sequence, so their tickets are equal or, on a ring of one cell, neighbours. -/

namespace Inv

variable {capacity : ℕ} {s : System α n}

theorem seq_congr (h : Inv capacity s) {p p' : ℕ} (hpp' : p % capacity = p' % capacity) :
    s.queue.seq p = s.queue.seq p' :=
  s.queue.seq_congr (by rw [h.capacity_eq, hpp'])

theorem producing_inj (h : Inv capacity s) {t t' : Fin n} {p : ℕ}
    (ht : (s.threads t).producing = some p) (ht' : (s.threads t').producing = some p) :
    t = t' := by
  by_contra hne
  have hle : {p} + {p} ≤ tally Pc.pushTickets s.threads := by
    have := add_le_tally Pc.pushTickets s.threads hne
    rwa [((h.ok t).of_producing ht).2.2, ((h.ok t').of_producing ht').2.2] at this
  have hrange : {p} + {p} ≤ Multiset.range s.queue.enqueuePos :=
    h.pushTickets_eq ▸ hle.trans (Multiset.le_add_right _ _)
  have hnodup := Multiset.nodup_of_le hrange (Multiset.nodup_range _)
  simp at hnodup

theorem consuming_inj (h : Inv capacity s) {t t' : Fin n} {p : ℕ}
    (ht : (s.threads t).consuming = some p) (ht' : (s.threads t').consuming = some p) :
    t = t' := by
  by_contra hne
  have hle : {p} + {p} ≤ tally Pc.popTickets s.threads := by
    have := add_le_tally Pc.popTickets s.threads hne
    rwa [((h.ok t).of_consuming ht).2.2, ((h.ok t').of_consuming ht').2.2] at this
  have hrange : {p} + {p} ≤ Multiset.range s.queue.dequeuePos :=
    h.popTickets_eq ▸ hle.trans (Multiset.le_add_right _ _)
  have hnodup := Multiset.nodup_of_le hrange (Multiset.nodup_range _)
  simp at hnodup

/-- A producer and a consumer are never in the same cell. Their sequence codes `p` and `p' + 1`
could only agree for neighbouring tickets, which share a cell in a ring of one cell only. -/
theorem producing_ne_consuming (h : Inv capacity s) (hcap : 2 ≤ capacity) {t t' : Fin n}
    {p p' : ℕ} (ht : (s.threads t).producing = some p) (ht' : (s.threads t').consuming = some p') :
    p % capacity ≠ p' % capacity := by
  intro hpp'
  have hp := ((h.ok t).of_producing ht).2.1
  have hp' := ((h.ok t').of_consuming ht').2.1
  rw [h.seq_congr hpp'] at hp
  have := Nat.ModEq.add_le_of_lt (m := capacity) hpp'.symm (by omega)
  omega

/-- **Cell exclusivity.** Two different threads never hold tickets of the same cell. -/
theorem holding_exclusive (h : Inv capacity s) (hcap : 2 ≤ capacity) {t t' : Fin n} {p p' : ℕ}
    (hne : t ≠ t')
    (ht : (s.threads t).producing = some p ∨ (s.threads t).consuming = some p)
    (ht' : (s.threads t').producing = some p' ∨ (s.threads t').consuming = some p') :
    p % capacity ≠ p' % capacity := by
  rcases ht with ht | ht <;> rcases ht' with ht' | ht'
  · intro hpp'
    have hp := ((h.ok t).of_producing ht).2.1
    rw [h.seq_congr hpp', ((h.ok t').of_producing ht').2.1] at hp
    subst hp
    exact hne (h.producing_inj ht ht')
  · exact h.producing_ne_consuming hcap ht ht'
  · exact (h.producing_ne_consuming hcap ht' ht).symm
  · intro hpp'
    have hp := ((h.ok t).of_consuming ht).2.1
    rw [h.seq_congr hpp', ((h.ok t').of_consuming ht').2.1, Nat.succ.injEq] at hp
    subst hp
    exact hne (h.consuming_inj ht ht')

end Inv

/-! ## Steps that leave the ring alone

What remains to be checked is that the won tickets and the returned values are still those of the
threads and the history together. -/

/-- The two histories record the same tickets and the same returned values. -/
def SameTickets (history history' : List (Fin n × Event α)) : Prop :=
  enqueueWins history' = enqueueWins history ∧ dequeueWins history' = dequeueWins history ∧
    accepted history' = accepted history ∧ popReturns history' = popReturns history

theorem SameTickets.refl (history : List (Fin n × Event α)) : SameTickets history history :=
  ⟨rfl, rfl, rfl, rfl⟩

theorem SameTickets.values_eq {history history' : List (Fin n × Event α)}
    (h : SameTickets history history') : values history' = values history := by
  rw [values, values, h.1]

theorem enqueueWins_append (h h' : List (Fin n × Event α)) :
    enqueueWins (h ++ h') = enqueueWins h ++ enqueueWins h' := List.filterMap_append

private theorem dequeueWins_append (h h' : List (Fin n × Event α)) :
    dequeueWins (h ++ h') = dequeueWins h ++ dequeueWins h' := List.filterMap_append

theorem accepted_append (h h' : List (Fin n × Event α)) :
    accepted (h ++ h') = accepted h ++ accepted h' := List.filterMap_append

theorem popReturns_append (h h' : List (Fin n × Event α)) :
    popReturns (h ++ h') = popReturns h ++ popReturns h' := List.filterMap_append

/-- An event that neither wins a ticket nor returns one. -/
def Event.isQuiet : Event α → Bool
  | .constructed _ _ => true
  | .movedOut _ _ => true
  | .returned _ none _ => true
  | _ => false

private theorem sameTickets_append (history : List (Fin n × Event α)) {t : Fin n} {e : Event α}
    (he : e.isQuiet = true) : SameTickets history (history ++ [(t, e)]) := by
  cases e with
  | enqueueWon p v => simp [Event.isQuiet] at he
  | dequeueWon p => simp [Event.isQuiet] at he
  | constructed p x =>
    simp [SameTickets, enqueueWins, dequeueWins, accepted, popReturns]
  | movedOut p x =>
    simp [SameTickets, enqueueWins, dequeueWins, accepted, popReturns]
  | returned c p r =>
    cases p with
    | none => simp [SameTickets, enqueueWins, dequeueWins, accepted, popReturns]
    | some p => simp [Event.isQuiet] at he

variable {capacity : ℕ} {s : System α n}

private theorem ok_update {threads : Fin n → Pc α} {t : Fin n} {pc : Pc α} {q : Queue α}
    {values : List α} (hpc : pc.Ok q values) (h : ∀ u, u ≠ t → (threads u).Ok q values)
    (u : Fin n) :
    (Function.update threads t pc u).Ok q values :=
  (Function.forall_update_iff threads fun _ pc ↦ pc.Ok q values).mpr ⟨hpc, h⟩ u

/-- A step that touches neither cells nor cursors. Tickets may change hands between the thread and
the history. -/
theorem inv_sameRing (h : Inv capacity s) {t : Fin n} {q' : Queue α} {pc' : Pc α}
    {history' : List (Fin n × Event α)} (hring : s.queue.SameRing q')
    (hok : pc'.Ok s.queue (values s.history))
    (hprod : pc'.producing = (s.threads t).producing)
    (hcons : pc'.consuming = (s.threads t).consuming)
    (henqs : enqueueWins history' = enqueueWins s.history)
    (hdeqs : dequeueWins history' = dequeueWins s.history)
    (hpush : tally Pc.pushTickets (Function.update s.threads t pc')
        + ↑((accepted history').map Prod.fst)
      = tally Pc.pushTickets s.threads + ↑((accepted s.history).map Prod.fst))
    (hpop : tally Pc.popTickets (Function.update s.threads t pc')
        + ↑((popReturns history').map Prod.fst)
      = tally Pc.popTickets s.threads + ↑((popReturns s.history).map Prod.fst))
    (haccepted : ∀ e ∈ accepted history', (values s.history)[e.1]? = some e.2)
    (hpopped : ∀ e ∈ popReturns history',
      ∃ v, e.2 = .popped v ∧ (values s.history)[e.1]? = some v) :
    Inv capacity ⟨q', Function.update s.threads t pc', history'⟩ := by
  have hcap := hring.2.1
  have henq := hring.2.2.1
  have hdeq := hring.2.2.2
  have hvalues : values history' = values s.history := by rw [values, henqs, values]
  constructor
  all_goals simp only [hvalues]
  · rw [hcap, h.capacity_eq]
  · intro u
    have hu : (Function.update s.threads t pc' u).Ok s.queue (values s.history) :=
      ok_update hok (fun u _ ↦ h.ok u) u
    exact hu.mono henq.ge hdeq.ge (fun p ↦ (hring.seq_eq p).ge)
      (fun p _ ↦ ⟨hring.seq_eq p, hring.slot_eq p⟩) fun _ _ hv ↦ hv
  · rw [henqs, henq, h.enqueueWins_eq]
  · rw [hdeqs, hdeq, h.dequeueWins_eq]
  · rw [hpush, henq, h.pushTickets_eq]
  · rw [hpop, hdeq, h.popTickets_eq]
  · exact haccepted
  · exact hpopped
  · rw [henq, hdeq]
    exact h.dequeue_le
  · rw [henq, hdeq]
    exact h.enqueue_le
  · intro p hp
    rw [henq] at hp
    simp only [hring.seq_eq, apply_update_eq Pc.producing s.threads hprod]
    exact h.published p hp
  · intro p hp
    rw [henq] at hp
    rw [hring.seq_eq]
    exact h.unpublished p hp
  · intro p hp
    rw [hdeq] at hp
    simp only [hring.seq_eq, apply_update_eq Pc.consuming s.threads hcons]
    exact h.released p hp
  · intro p hp
    rw [hdeq] at hp
    rw [hring.seq_eq]
    exact h.unreleased p hp
  · intro p
    rw [hring.seq_eq]
    exact h.coded p
  · intro p hp
    rw [henq] at hp
    rw [hring.seq_eq, hring.slot_eq]
    exact h.raw_of_free p hp
  · intro p hp
    rw [hdeq] at hp
    rw [hring.seq_eq, hring.slot_eq]
    exact h.live_of_full p hp

theorem inv_quiet (h : Inv capacity s) {t : Fin n} {q' : Queue α} {pc pc' : Pc α}
    {evs : List (Event α)} (ht : s.threads t = pc) (hring : s.queue.SameRing q')
    (hok : pc'.Ok s.queue (values s.history)) (hsame : pc.SameTicket pc')
    (hevs : SameTickets s.history (s.history ++ evs.map fun e ↦ (t, e))) :
    Inv capacity (s.move t (q', pc', evs)) := by
  rw [← ht] at hsame
  obtain ⟨hprod, hcons, hpush, hpop⟩ := hsame
  refine inv_sameRing h hring hok hprod hcons hevs.1 hevs.2.1 ?_ ?_ ?_ ?_
  · rw [hevs.2.2.1, tally_update_of_eq _ _ hpush]
  · rw [hevs.2.2.2, tally_update_of_eq _ _ hpop]
  · rw [hevs.2.2.1]
    exact h.accepted_value
  · rw [hevs.2.2.2]
    exact h.popReturns_value

theorem inv_pushReturned (h : Inv capacity s) {t : Fin n} {v : α} {p : ℕ} {q' : Queue α}
    (ht : s.threads t = .pushCount v p) (hring : s.queue.SameRing q') :
    Inv capacity (s.move t (q', .idle, [.returned (.tryPush v) (some p) (.pushed true)])) := by
  have hval : (values s.history)[p]? = some v := by
    have := h.ok t
    rwa [ht] at this
  have haccepted : accepted (s.history ++ [(t, .returned (.tryPush v) (some p) (.pushed true))])
      = accepted s.history ++ [(p, v)] := accepted_append _ _
  have hpopped : popReturns (s.history ++ [(t, .returned (.tryPush v) (some p) (.pushed true))])
      = popReturns s.history := (popReturns_append _ _).trans (List.append_nil _)
  refine inv_sameRing h hring trivial (by rw [ht]; rfl) (by rw [ht]; rfl)
    ((enqueueWins_append _ _).trans (List.append_nil _))
    ((dequeueWins_append _ _).trans (List.append_nil _)) ?_ ?_ ?_ ?_
  · have htrade := tally_update Pc.pushTickets s.threads t .idle
    rw [ht, show (Pc.idle : Pc α).pushTickets = 0 from rfl, add_zero] at htrade
    rw [← htrade, List.map_singleton, haccepted, List.map_append, ← Multiset.coe_add]
    exact (add_assoc _ _ _).symm.trans (add_right_comm _ _ _)
  · rw [List.map_singleton, hpopped, tally_update_of_eq _ _ (by rw [ht]; rfl)]
  · intro e he
    rw [List.map_singleton, haccepted] at he
    rcases List.mem_append.mp he with he | he
    · exact h.accepted_value e he
    · rw [List.mem_singleton.mp he]
      exact hval
  · rw [List.map_singleton, hpopped]
    exact h.popReturns_value

theorem inv_popReturned (h : Inv capacity s) {t : Fin n} {r : Slot α} {p : ℕ} {q' : Queue α}
    (ht : s.threads t = .popCount p r) (hring : s.queue.SameRing q') :
    Inv capacity (s.move t (q', .idle, [.returned .tryPop (some p) r.toResult])) := by
  obtain ⟨v, rfl, hval⟩ : (Pc.popCount p r).Ok s.queue (values s.history) := ht ▸ h.ok t
  have haccepted : accepted (s.history ++ [(t, .returned .tryPop (some p) (.popped v))])
      = accepted s.history := (accepted_append _ _).trans (List.append_nil _)
  have hpopped : popReturns (s.history ++ [(t, .returned .tryPop (some p) (.popped v))])
      = popReturns s.history ++ [(p, .popped v)] := popReturns_append _ _
  refine inv_sameRing h hring trivial (by rw [ht]; rfl) (by rw [ht]; rfl)
    ((enqueueWins_append _ _).trans (List.append_nil _))
    ((dequeueWins_append _ _).trans (List.append_nil _)) ?_ ?_ ?_ ?_
  · rw [List.map_singleton, Slot.toResult, haccepted, tally_update_of_eq _ _ (by rw [ht]; rfl)]
  · have htrade := tally_update Pc.popTickets s.threads t .idle
    rw [ht, show (Pc.idle : Pc α).popTickets = 0 from rfl, add_zero] at htrade
    rw [← htrade, List.map_singleton, Slot.toResult, hpopped, List.map_append, ← Multiset.coe_add]
    exact (add_assoc _ _ _).symm.trans (add_right_comm _ _ _)
  · rw [List.map_singleton, Slot.toResult, haccepted]
    exact h.accepted_value
  · intro e he
    rw [List.map_singleton, Slot.toResult, hpopped] at he
    rcases List.mem_append.mp he with he | he
    · exact h.popReturns_value e he
    · rw [List.mem_singleton.mp he]
      exact ⟨v, rfl, hval⟩

/-! ## Writes to a held cell

A holder writes to a cell that no other thread holds, and a sequence store only raises it. So the
others keep what they know, and only the tickets of this cell have to be looked at. -/

/-- The thread holds ticket `p`, as a producer or as a consumer. -/
def Pc.Holds (pc : Pc α) (p : ℕ) : Prop := pc.producing = some p ∨ pc.consuming = some p

namespace Inv

/-- A write to the cell of a held ticket that only raises its sequence is invisible to the other
threads. -/
theorem ok_of_ne (h : Inv capacity s) (hcap : 2 ≤ capacity) {t u : Fin n} {p : ℕ} {q' : Queue α}
    (ht : (s.threads t).Holds p) (hut : u ≠ t) (henq : q'.enqueuePos = s.queue.enqueuePos)
    (hdeq : q'.dequeuePos = s.queue.dequeuePos) (hseq : ∀ p', s.queue.seq p' ≤ q'.seq p')
    (hcell : ∀ p', p' % capacity ≠ p % capacity →
      q'.seq p' = s.queue.seq p' ∧ q'.slot p' = s.queue.slot p') :
    (s.threads u).Ok q' (values s.history) :=
  (h.ok u).mono henq.ge hdeq.ge hseq
    (fun p' hp' ↦ hcell p' (h.holding_exclusive hcap hut hp' ht)) fun _ _ hv ↦ hv

theorem not_free_of_holds (h : Inv capacity s) (hcap : 2 ≤ capacity) {t : Fin n} {p p' : ℕ}
    (ht : (s.threads t).Holds p) (hpp' : p' % capacity = p % capacity)
    (hp' : s.queue.enqueuePos ≤ p') : s.queue.seq p' ≠ p' := by
  intro hseq
  rw [h.seq_congr hpp'] at hseq
  rcases ht with ht | ht
  · obtain ⟨hlt, hp, -⟩ := (h.ok t).of_producing ht
    omega
  · obtain ⟨hlt, hp, -⟩ := (h.ok t).of_consuming ht
    have := Nat.ModEq.add_le_of_lt (m := capacity) hpp'.symm (by omega)
    omega

theorem not_full_of_holds (h : Inv capacity s) (hcap : 2 ≤ capacity) {t : Fin n} {p p' : ℕ}
    (ht : (s.threads t).Holds p) (hpp' : p' % capacity = p % capacity)
    (hp' : s.queue.dequeuePos ≤ p') : s.queue.seq p' ≠ p' + 1 := by
  intro hseq
  rw [h.seq_congr hpp'] at hseq
  rcases ht with ht | ht
  · obtain ⟨hlt, hp, -⟩ := (h.ok t).of_producing ht
    have := Nat.ModEq.add_le_of_lt (m := capacity) hpp' (by omega)
    omega
  · obtain ⟨hlt, hp, -⟩ := (h.ok t).of_consuming ht
    omega

end Inv

theorem inv_storeSlot (h : Inv capacity s) (hcap : 2 ≤ capacity) {t : Fin n} {p : ℕ} {x : Slot α}
    {pc pc' : Pc α} {evs : List (Event α)} (ht : s.threads t = pc) (hholds : pc.Holds p)
    (hok : pc'.Ok (s.queue.storeSlot p x) (values s.history)) (hsame : pc.SameTicket pc')
    (hevs : SameTickets s.history (s.history ++ evs.map fun e ↦ (t, e))) :
    Inv capacity (s.move t (s.queue.storeSlot p x, pc', evs)) := by
  rw [← ht] at hsame hholds
  obtain ⟨hprod, hcons, hpush, hpop⟩ := hsame
  have hslot : ∀ p', p' % capacity ≠ p % capacity →
      (s.queue.storeSlot p x).slot p' = s.queue.slot p' := fun p' hp' ↦
    s.queue.slot_storeSlot_of_ne x (by rwa [h.capacity_eq])
  constructor
  all_goals simp only [System.move, Queue.capacity_storeSlot, Queue.enqueuePos_storeSlot,
    Queue.dequeuePos_storeSlot, Queue.seq_storeSlot]
  · exact h.capacity_eq
  · rw [hevs.values_eq]
    refine ok_update hok fun u hut ↦ ?_
    exact h.ok_of_ne hcap hholds hut rfl rfl (fun p' ↦ (s.queue.seq_storeSlot p p' x).ge)
      fun p' hp' ↦ ⟨s.queue.seq_storeSlot p p' x, hslot p' hp'⟩
  · rw [hevs.1, h.enqueueWins_eq]
  · rw [hevs.2.1, h.dequeueWins_eq]
  · rw [hevs.2.2.1, tally_update_of_eq _ _ hpush, h.pushTickets_eq]
  · rw [hevs.2.2.2, tally_update_of_eq _ _ hpop, h.popTickets_eq]
  · rw [hevs.2.2.1, hevs.values_eq]
    exact h.accepted_value
  · rw [hevs.2.2.2, hevs.values_eq]
    exact h.popReturns_value
  · exact h.dequeue_le
  · exact h.enqueue_le
  · simp only [apply_update_eq Pc.producing s.threads hprod]
    exact h.published
  · exact h.unpublished
  · simp only [apply_update_eq Pc.consuming s.threads hcons]
    exact h.released
  · exact h.unreleased
  · exact h.coded
  · intro p' hp' hseq
    by_cases hpp' : p' % capacity = p % capacity
    · exact absurd hseq (h.not_free_of_holds hcap hholds hpp' hp')
    · rw [hslot p' hpp']
      exact h.raw_of_free p' hp' hseq
  · intro p' hp' hseq
    by_cases hpp' : p' % capacity = p % capacity
    · exact absurd hseq (h.not_full_of_holds hcap hholds hpp' hp')
    · rw [hslot p' hpp', hevs.values_eq]
      exact h.live_of_full p' hp' hseq

private theorem exists_update_of_ne {β : Type*} {f : Pc α → β} {threads : Fin n → Pc α} {t : Fin n}
    {pc' : Pc α} {b : β} (ht : f (threads t) ≠ b) (h : ∃ u, f (threads u) = b) :
    ∃ u, f (Function.update threads t pc' u) = b := by
  obtain ⟨u, hu⟩ := h
  have hut : u ≠ t := by
    rintro rfl
    exact ht hu
  exact ⟨u, by rwa [Function.update_of_ne hut]⟩

/-- Publication and release: a held cell gets a higher sequence number. Only the tickets of this
cell have to be looked at. -/
theorem inv_storeSequence (h : Inv capacity s) (hcap : 2 ≤ capacity) {t : Fin n} {p code : ℕ}
    {pc' : Pc α} (hholds : (s.threads t).Holds p) (hraise : s.queue.seq p ≤ code)
    (hok : pc'.Ok (s.queue.storeSequence p code) (values s.history))
    (hpush : pc'.pushTickets = (s.threads t).pushTickets)
    (hpop : pc'.popTickets = (s.threads t).popTickets)
    (hproduced : ∀ p', (s.threads t).producing = some p' → p' = p ∧ p + 1 ≤ code)
    (hconsumed : ∀ p', (s.threads t).consuming = some p' → p' = p ∧ p + capacity ≤ code)
    (hunpublished : ∀ p', p' % capacity = p % capacity → s.queue.enqueuePos ≤ p' → code ≤ p')
    (hunreleased : ∀ p', p' % capacity = p % capacity → s.queue.dequeuePos ≤ p' →
      code < p' + capacity)
    (hcoded : ∃ p', p' % capacity = p % capacity ∧ (code = p' ∨ code = p' + 1))
    (hfree : ∀ p', p' % capacity = p % capacity → s.queue.enqueuePos ≤ p' → code = p' →
      s.queue.slot p' = .raw)
    (hfull : ∀ p', p' % capacity = p % capacity → s.queue.dequeuePos ≤ p' → code = p' + 1 →
      ∃ v, s.queue.slot p' = .live v ∧ (values s.history)[p']? = some v) :
    Inv capacity (s.move t (s.queue.storeSequence p code, pc', [])) := by
  have hne : ∀ p', p' % capacity ≠ p % capacity →
      (s.queue.storeSequence p code).seq p' = s.queue.seq p' := fun p' hp' ↦
    s.queue.seq_storeSequence_of_ne _ (by rwa [h.capacity_eq])
  have heq : ∀ p', p' % capacity = p % capacity →
      (s.queue.storeSequence p code).seq p' = code := fun p' hp' ↦
    s.queue.seq_storeSequence_of_eq _ (by rwa [h.capacity_eq])
  have hmono : ∀ p', s.queue.seq p' ≤ (s.queue.storeSequence p code).seq p' := by
    intro p'
    by_cases hpp' : p' % capacity = p % capacity
    · rwa [heq p' hpp', h.seq_congr hpp']
    · exact (hne p' hpp').ge
  constructor
  all_goals simp only [System.move, Queue.capacity_storeSequence, Queue.enqueuePos_storeSequence,
    Queue.dequeuePos_storeSequence, Queue.slot_storeSequence, List.map_nil, List.append_nil]
  · exact h.capacity_eq
  · refine ok_update hok fun u hut ↦ ?_
    exact h.ok_of_ne hcap hholds hut rfl rfl hmono
      fun p' hp' ↦ ⟨hne p' hp', s.queue.slot_storeSequence p p' _⟩
  · exact h.enqueueWins_eq
  · exact h.dequeueWins_eq
  · rw [tally_update_of_eq _ _ hpush, h.pushTickets_eq]
  · rw [tally_update_of_eq _ _ hpop, h.popTickets_eq]
  · exact h.accepted_value
  · exact h.popReturns_value
  · exact h.dequeue_le
  · exact h.enqueue_le
  · intro p' hp'
    by_cases hprod : (s.threads t).producing = some p'
    · obtain ⟨rfl, hcode⟩ := hproduced p' hprod
      exact Or.inr (by rwa [heq p' rfl])
    · rcases h.published p' hp' with hu | hu
      · exact Or.inl (exists_update_of_ne hprod hu)
      · exact Or.inr (hu.trans (hmono p'))
  · intro p' hp'
    by_cases hpp' : p' % capacity = p % capacity
    · rw [heq p' hpp']
      exact hunpublished p' hpp' hp'
    · rw [hne p' hpp']
      exact h.unpublished p' hp'
  · intro p' hp'
    by_cases hcons : (s.threads t).consuming = some p'
    · obtain ⟨rfl, hcode⟩ := hconsumed p' hcons
      exact Or.inr (by rwa [heq p' rfl])
    · rcases h.released p' hp' with hu | hu
      · exact Or.inl (exists_update_of_ne hcons hu)
      · exact Or.inr (hu.trans (hmono p'))
  · intro p' hp'
    by_cases hpp' : p' % capacity = p % capacity
    · rw [heq p' hpp']
      exact hunreleased p' hpp' hp'
    · rw [hne p' hpp']
      exact h.unreleased p' hp'
  · intro p'
    by_cases hpp' : p' % capacity = p % capacity
    · rw [heq p' hpp', hpp']
      exact hcoded
    · rw [hne p' hpp']
      exact h.coded p'
  · intro p' hp' hseq
    by_cases hpp' : p' % capacity = p % capacity
    · rw [heq p' hpp'] at hseq
      exact hfree p' hpp' hp' hseq
    · rw [hne p' hpp'] at hseq
      exact h.raw_of_free p' hp' hseq
  · intro p' hp' hseq
    by_cases hpp' : p' % capacity = p % capacity
    · rw [heq p' hpp'] at hseq
      exact hfull p' hpp' hp' hseq
    · rw [hne p' hpp'] at hseq
      exact h.live_of_full p' hp' hseq

/-- **Publish.** The producer of `p` stores `p + 1` into its cell. -/
theorem inv_publish (h : Inv capacity s) (hcap : 2 ≤ capacity) {t : Fin n} {v : α} {p : ℕ}
    (ht : s.threads t = .pushPublish v p) :
    Inv capacity (s.move t (s.queue.storeSequence p (p + 1), .pushCount v p, [])) := by
  have hprod : (s.threads t).producing = some p := by rw [ht]; rfl
  obtain ⟨hlt, hseqp, hslotp, hval⟩ : (Pc.pushPublish v p).Ok s.queue (values s.history) :=
    ht ▸ h.ok t
  refine inv_storeSequence h hcap (Or.inl hprod) (by omega) hval (by rw [ht]; rfl) (by rw [ht]; rfl)
    ?_ ?_ ?_ ?_ ⟨p, rfl, Or.inr rfl⟩ ?_ ?_
  · intro p' hp'
    exact ⟨Option.some.inj (hp'.symm.trans hprod), le_rfl⟩
  · intro p' hp'
    rw [ht] at hp'
    cases hp'
  · intro p' _ hp'
    omega
  · intro p' hpp' hp'
    -- `p` stays below `p' + capacity` by a full round, hence by more than one
    have hold := h.unreleased p' hp'
    rw [h.seq_congr hpp', hseqp] at hold
    have hround : p + capacity ≤ p' + capacity :=
      Nat.ModEq.add_le_of_lt (m := capacity) (by rw [Nat.ModEq, Nat.add_mod_right, hpp']) hold
    omega
  · intro p' hpp' hp' hcode
    have hround := Nat.ModEq.add_le_of_lt (m := capacity) hpp'.symm (by omega)
    omega
  · intro p' _ _ hcode
    obtain rfl := Nat.succ.inj hcode
    exact ⟨v, hslotp, hval⟩

/-- **Release.** The consumer of `p` stores `p + capacity`, freeing the cell for the next round. -/
theorem inv_release (h : Inv capacity s) (hcap : 2 ≤ capacity) {t : Fin n} {r : Slot α} {p : ℕ}
    (ht : s.threads t = .popRelease p r) :
    Inv capacity
      (s.move t (s.queue.storeSequence p (p + s.queue.capacity), .popCount p r, [])) := by
  rw [h.capacity_eq]
  have hcons : (s.threads t).consuming = some p := by rw [ht]; rfl
  obtain ⟨hlt, hseqp, hslotp, hval⟩ : (Pc.popRelease p r).Ok s.queue (values s.history) :=
    ht ▸ h.ok t
  have hle := h.dequeue_le
  -- every later ticket of the cell is at least one round away
  have hround : ∀ p', p' % capacity = p % capacity → s.queue.dequeuePos ≤ p' →
      p + capacity ≤ p' := fun p' hpp' hp' ↦
    Nat.ModEq.add_le_of_lt (m := capacity) hpp'.symm (by omega)
  refine inv_storeSequence h hcap (Or.inr hcons) (by omega) hval (by rw [ht]; rfl) (by rw [ht]; rfl)
    ?_ ?_ ?_ ?_ ⟨p + capacity, Nat.add_mod_right p capacity, Or.inl rfl⟩ ?_ ?_
  · intro p' hp'
    rw [ht] at hp'
    cases hp'
  · intro p' hp'
    exact ⟨Option.some.inj (hp'.symm.trans hcons), le_rfl⟩
  · intro p' hpp' hp'
    exact hround p' hpp' (hle.trans hp')
  · intro p' hpp' hp'
    have hlater := hround p' hpp' hp'
    omega
  · intro p' hpp' _ _
    rw [s.queue.slot_congr (show p' % s.queue.capacity = p % s.queue.capacity by
      rw [h.capacity_eq, hpp'])]
    exact hslotp
  · intro p' hpp' hp' hcode
    have hlater := hround p' hpp' hp'
    omega

/-! ## Won exchanges

The sequence that a thread has read can only have grown since. That the cursor has not moved bounds
it from above, so at the exchange the cell is still as the thread has seen it. -/

theorem Inv.length_values (h : Inv capacity s) :
    (values s.history).length = s.queue.enqueuePos := by
  rw [values, List.length_map, ← List.length_map (f := Prod.fst), h.enqueueWins_eq,
    List.length_range]

/-- A free cell for the next ticket means that the ticket one round earlier was released, so the
two cursors are less than one round apart. -/
theorem Inv.enqueue_lt (h : Inv capacity s)
    (hseq : s.queue.enqueuePos ≤ s.queue.seq s.queue.enqueuePos) :
    s.queue.enqueuePos < s.queue.dequeuePos + capacity := by
  by_contra hge
  push Not at hge
  have hlt := h.unreleased (s.queue.enqueuePos - capacity) (by omega)
  have hmod : (s.queue.enqueuePos - capacity) % capacity = s.queue.enqueuePos % capacity := by
    rw [← Nat.add_mod_right, Nat.sub_add_cancel (by omega)]
  rw [h.seq_congr hmod] at hlt
  omega

/-- **A won ticket.** The exchange on the enqueue cursor hands the next ticket to the producer; its
cell is free, because the sequence it read can only have grown and cannot exceed the cursor. -/
theorem inv_enqueueWon (h : Inv capacity s) {t : Fin n} {v : α}
    (ht : s.threads t = .pushCas v s.queue.enqueuePos) :
    Inv capacity (s.move t ({ s.queue with enqueuePos := s.queue.enqueuePos + 1 },
      .pushConstruct v s.queue.enqueuePos, [.enqueueWon s.queue.enqueuePos v])) := by
  have hge : s.queue.enqueuePos ≤ s.queue.seq s.queue.enqueuePos := by
    have := h.ok t
    rwa [ht] at this
  have hseq : s.queue.seq s.queue.enqueuePos = s.queue.enqueuePos :=
    le_antisymm (h.unpublished _ le_rfl) hge
  have hwins : enqueueWins (s.history ++ [(t, .enqueueWon s.queue.enqueuePos v)])
      = enqueueWins s.history ++ [(s.queue.enqueuePos, v)] := enqueueWins_append _ _
  have hvalues : values (s.history ++ [(t, .enqueueWon s.queue.enqueuePos v)])
      = values s.history ++ [v] := by
    rw [values, hwins, List.map_append, List.map_singleton, values]
  have hkeep : ∀ (p : ℕ) (w : α), (values s.history)[p]? = some w →
      (values s.history ++ [v])[p]? = some w := fun p w hw ↦ by
    rw [List.getElem?_append_left (List.getElem?_eq_some_iff.mp hw).1, hw]
  constructor
  all_goals simp only [System.move, List.map_cons, List.map_nil, hvalues]
  · exact h.capacity_eq
  · refine ok_update ?_ fun u _ ↦ ?_
    · refine ⟨Nat.lt_succ_self _, hseq, h.raw_of_free _ le_rfl hseq, ?_⟩
      rw [← h.length_values, List.getElem?_concat_length]
    · exact (h.ok u).mono (Nat.le_succ _) le_rfl (fun _ ↦ le_rfl) (fun _ _ ↦ ⟨rfl, rfl⟩) hkeep
  · rw [hwins, List.map_append, h.enqueueWins_eq, List.range_succ]
    rfl
  · rw [dequeueWins_append]
    exact (List.append_nil _).trans h.dequeueWins_eq
  · have htrade := tally_update Pc.pushTickets s.threads t (.pushConstruct v s.queue.enqueuePos)
    rw [ht, show (Pc.pushCas v s.queue.enqueuePos).pushTickets = 0 from rfl, add_zero] at htrade
    rw [htrade, accepted_append, Multiset.range_succ, ← h.pushTickets_eq]
    simp only [accepted, Pc.pushTickets, List.filterMap_cons, List.filterMap_nil, List.append_nil]
    rw [← Multiset.singleton_add, ← add_assoc, add_comm {_}]
  · rw [tally_update_of_eq _ _ (by rw [ht]; rfl), popReturns_append, ← h.popTickets_eq]
    simp [popReturns]
  · intro e he
    rw [accepted_append] at he
    exact hkeep _ _ (h.accepted_value e (by simpa [accepted] using he))
  · intro e he
    rw [popReturns_append] at he
    obtain ⟨w, hw, hval⟩ := h.popReturns_value e (by simpa [popReturns] using he)
    exact ⟨w, hw, hkeep _ _ hval⟩
  · exact h.dequeue_le.trans (Nat.le_succ _)
  · exact h.enqueue_lt hge
  · intro p hp
    rcases Nat.lt_succ_iff_lt_or_eq.mp hp with hp | rfl
    · rcases h.published p hp with hu | hu
      · exact Or.inl (exists_update_of_ne (by rw [ht]; simp [Pc.producing]) hu)
      · exact Or.inr hu
    · exact Or.inl ⟨t, by rw [Function.update_self]; rfl⟩
  · intro p hp
    exact h.unpublished p (by omega)
  · intro p hp
    rcases h.released p hp with hu | hu
    · exact Or.inl (exists_update_of_ne (by rw [ht]; simp [Pc.consuming]) hu)
    · exact Or.inr hu
  · exact h.unreleased
  · exact h.coded
  · intro p hp
    exact h.raw_of_free p (by omega)
  · intro p hp hfull
    obtain ⟨w, hw, hval⟩ := h.live_of_full p hp hfull
    exact ⟨w, hw, hkeep p w hval⟩

/-- A published ticket that no consumer has won yet still shows its full code. -/
theorem Inv.seq_eq_of_le (h : Inv capacity s) {p : ℕ} (hp : s.queue.dequeuePos ≤ p)
    (hseq : p + 1 ≤ s.queue.seq p) : s.queue.seq p = p + 1 := by
  obtain ⟨p', hpp', hcode⟩ := h.coded p
  have hlt := h.unreleased p hp
  -- another ticket of the cell would be a whole round away
  by_cases hle : p' ≤ p
  · omega
  · have := Nat.ModEq.add_le_of_lt (m := capacity) hpp'.symm (by omega)
    omega

/-- The exchange on the dequeue cursor: the cell is full, and it was published by a producer whose
ticket lies below the enqueue cursor. -/
theorem inv_dequeueWon (h : Inv capacity s) {t : Fin n}
    (ht : s.threads t = .popCas s.queue.dequeuePos) :
    Inv capacity (s.move t ({ s.queue with dequeuePos := s.queue.dequeuePos + 1 },
      .popMove s.queue.dequeuePos, [.dequeueWon s.queue.dequeuePos])) := by
  have hge : s.queue.dequeuePos + 1 ≤ s.queue.seq s.queue.dequeuePos := by
    have := h.ok t
    rwa [ht] at this
  have hlt : s.queue.dequeuePos < s.queue.enqueuePos := by
    by_contra hc
    have := h.unpublished s.queue.dequeuePos (by omega)
    omega
  have hseq := h.seq_eq_of_le le_rfl hge
  have hwins : enqueueWins (s.history ++ [(t, .dequeueWon s.queue.dequeuePos)])
      = enqueueWins s.history := (enqueueWins_append _ _).trans (List.append_nil _)
  have haccepted : accepted (s.history ++ [(t, .dequeueWon s.queue.dequeuePos)])
      = accepted s.history := (accepted_append _ _).trans (List.append_nil _)
  have hpopped : popReturns (s.history ++ [(t, .dequeueWon s.queue.dequeuePos)])
      = popReturns s.history := (popReturns_append _ _).trans (List.append_nil _)
  have hvalues : values (s.history ++ [(t, .dequeueWon s.queue.dequeuePos)])
      = values s.history := by
    rw [values, hwins, values]
  constructor
  all_goals simp only [System.move, List.map_cons, List.map_nil, hvalues, hwins, haccepted,
    hpopped]
  · exact h.capacity_eq
  · refine ok_update ⟨Nat.lt_succ_self _, hseq, h.live_of_full _ le_rfl hseq⟩ fun u _ ↦ ?_
    exact (h.ok u).mono le_rfl (Nat.le_succ _) (fun _ ↦ le_rfl) (fun _ _ ↦ ⟨rfl, rfl⟩)
      fun _ _ hv ↦ hv
  · exact h.enqueueWins_eq
  · rw [dequeueWins_append, h.dequeueWins_eq, List.range_succ]
    rfl
  · rw [tally_update_of_eq _ _ (by rw [ht]; rfl), h.pushTickets_eq]
  · have htrade := tally_update Pc.popTickets s.threads t (.popMove s.queue.dequeuePos)
    rw [ht, show (Pc.popCas s.queue.dequeuePos : Pc α).popTickets = 0 from rfl, add_zero] at htrade
    rw [htrade, Multiset.range_succ, ← h.popTickets_eq]
    simp only [Pc.popTickets]
    rw [← Multiset.singleton_add, ← add_assoc, add_comm {_}]
  · exact h.accepted_value
  · exact h.popReturns_value
  · exact hlt
  · have := h.enqueue_le
    omega
  · intro p hp
    rcases h.published p hp with hu | hu
    · exact Or.inl (exists_update_of_ne (by rw [ht]; simp [Pc.producing]) hu)
    · exact Or.inr hu
  · exact h.unpublished
  · intro p hp
    rcases Nat.lt_succ_iff_lt_or_eq.mp hp with hp | rfl
    · rcases h.released p hp with hu | hu
      · exact Or.inl (exists_update_of_ne (by rw [ht]; simp [Pc.consuming]) hu)
      · exact Or.inr hu
    · exact Or.inl ⟨t, by rw [Function.update_self]; rfl⟩
  · intro p hp
    exact h.unreleased p (by omega)
  · exact h.coded
  · exact h.raw_of_free
  · intro p hp
    exact h.live_of_full p (by omega)

/-! ## Every step -/

theorem inv_threadStep (h : Inv capacity s) (hcap : 2 ≤ capacity) (t : Fin n) (spurious : Bool) :
    Inv capacity (s.move t (threadStep .unbounded s.queue spurious (s.threads t))) := by
  have hok := h.ok t
  have hnil : SameTickets s.history
      (s.history ++ ([] : List (Event α)).map fun e ↦ (t, e)) := by
    rw [List.map_nil, List.append_nil]
    exact SameTickets.refl _
  cases ht : s.threads t <;> rw [ht] at hok
  case idle => exact inv_quiet h ht (.refl _) trivial ⟨rfl, rfl, rfl, rfl⟩ hnil
  case pushLoadClosed v =>
    rw [threadStep]
    split <;> exact inv_quiet h ht (.refl _) trivial ⟨rfl, rfl, rfl, rfl⟩ hnil
  case pushCountClosed v =>
    exact inv_quiet h ht ⟨rfl, rfl, rfl, rfl⟩ trivial ⟨rfl, rfl, rfl, rfl⟩ hnil
  case pushCountFailed v =>
    exact inv_quiet h ht ⟨rfl, rfl, rfl, rfl⟩ trivial ⟨rfl, rfl, rfl, rfl⟩
      (sameTickets_append _ rfl)
  case pushLoadPos v =>
    exact inv_quiet h ht (.refl _) trivial ⟨rfl, rfl, rfl, rfl⟩ hnil
  case pushLoadSequence v p =>
    rw [threadStep]
    split
    · rename_i hdiff
      rw [CounterArith.unbounded_diff] at hdiff
      exact inv_quiet h ht (.refl _) (show p ≤ s.queue.seq p by omega) ⟨rfl, rfl, rfl, rfl⟩ hnil
    · split <;> exact inv_quiet h ht (.refl _) trivial ⟨rfl, rfl, rfl, rfl⟩ hnil
  case pushCas v p =>
    rw [threadStep]
    split
    · rename_i hwon
      obtain ⟨rfl, -⟩ := hwon
      exact inv_enqueueWon h ht
    · exact inv_quiet h ht (.refl _) trivial ⟨rfl, rfl, rfl, rfl⟩ hnil
  case pushConstruct v p =>
    refine inv_storeSlot h hcap ht (Or.inl rfl) ?_ ⟨rfl, rfl, rfl, rfl⟩ (sameTickets_append _ rfl)
    exact ⟨hok.1, by rw [Queue.seq_storeSlot]; exact hok.2.1,
      s.queue.slot_storeSlot_of_eq _ rfl, hok.2.2.2⟩
  case pushPublish v p => exact inv_publish h hcap ht
  case pushCount v p => exact inv_pushReturned h ht ⟨rfl, rfl, rfl, rfl⟩
  case popLoadPos =>
    exact inv_quiet h ht (.refl _) trivial ⟨rfl, rfl, rfl, rfl⟩ hnil
  case popLoadSequence p =>
    rw [threadStep]
    split
    · rename_i hdiff
      rw [CounterArith.unbounded_diff, CounterArith.unbounded_add] at hdiff
      exact inv_quiet h ht (.refl _) (show p + 1 ≤ s.queue.seq p by omega)
        ⟨rfl, rfl, rfl, rfl⟩ hnil
    · split <;> exact inv_quiet h ht (.refl _) trivial ⟨rfl, rfl, rfl, rfl⟩ hnil
  case popCas p =>
    rw [threadStep]
    split
    · rename_i hwon
      obtain ⟨rfl, -⟩ := hwon
      exact inv_dequeueWon h ht
    · exact inv_quiet h ht (.refl _) trivial ⟨rfl, rfl, rfl, rfl⟩ hnil
  case popCountFailed =>
    exact inv_quiet h ht ⟨rfl, rfl, rfl, rfl⟩ trivial ⟨rfl, rfl, rfl, rfl⟩
      (sameTickets_append _ rfl)
  case popMove p =>
    obtain ⟨hlt, hseq, v, hslot, hval⟩ := hok
    refine inv_storeSlot h hcap ht (Or.inr rfl) ?_ ⟨rfl, rfl, rfl, rfl⟩ (sameTickets_append _ rfl)
    exact ⟨hlt, by rw [Queue.seq_storeSlot]; exact hseq, s.queue.slot_storeSlot_of_eq _ rfl, v,
      hslot, hval⟩
  case popDestroy p r =>
    obtain ⟨hlt, hseq, -, hval⟩ := hok
    refine inv_storeSlot h hcap ht (Or.inr rfl) ?_ ⟨rfl, rfl, rfl, rfl⟩ hnil
    exact ⟨hlt, by rw [Queue.seq_storeSlot]; exact hseq, s.queue.slot_storeSlot_of_eq _ rfl, hval⟩
  case popRelease p r => exact inv_release h hcap ht
  case popCount p r => exact inv_popReturned h ht ⟨rfl, rfl, rfl, rfl⟩
  case closeStore =>
    exact inv_quiet h ht ⟨rfl, rfl, rfl, rfl⟩ trivial ⟨rfl, rfl, rfl, rfl⟩
      (sameTickets_append _ rfl)

theorem inv_call (h : Inv capacity s) {t : Fin n} (ht : s.threads t = .idle) (c : Call α) :
    Inv capacity (s.move t (s.queue, c.entry, [])) := by
  refine inv_quiet h ht (.refl _) ?_ ?_ ?_
  · cases c <;> exact trivial
  · cases c <;> exact ⟨rfl, rfl, rfl, rfl⟩
  · rw [List.map_nil, List.append_nil]
    exact SameTickets.refl _

theorem inv_step (h : Inv capacity s) (hcap : 2 ≤ capacity) {a : Action α n} {s' : System α n}
    (hs : s.step .unbounded a = some s') : Inv capacity s' := by
  cases a with
  | call t c =>
    rw [System.step, Option.ite_none_right_eq_some, Pc.isIdle_iff, Option.some.injEq] at hs
    obtain ⟨ht, rfl⟩ := hs
    exact inv_call h ht c
  | step t spurious =>
    rw [System.step, Option.ite_none_left_eq_some, Option.some.injEq] at hs
    obtain ⟨-, rfl⟩ := hs
    exact inv_threadStep h hcap t spurious

theorem inv_init (hcap : 2 ≤ capacity) :
    Inv capacity (machine .unbounded α capacity n).init := by
  have hseq : ∀ p, ((machine .unbounded α capacity n).init).queue.seq p = p % capacity :=
    fun _ ↦ rfl
  constructor
  case capacity_eq => rfl
  case ok => exact fun _ ↦ trivial
  case enqueueWins_eq => rfl
  case dequeueWins_eq => rfl
  case pushTickets_eq => exact (add_zero _).trans (tally_eq_zero _ _ fun _ ↦ rfl)
  case popTickets_eq => exact (add_zero _).trans (tally_eq_zero _ _ fun _ ↦ rfl)
  case accepted_value => exact fun e he ↦ absurd he List.not_mem_nil
  case popReturns_value => exact fun e he ↦ absurd he List.not_mem_nil
  case dequeue_le => exact le_rfl
  case enqueue_le => exact Nat.zero_le _
  case published => exact fun p hp ↦ absurd hp (Nat.not_lt_zero p)
  case unpublished => exact fun p _ ↦ (hseq p).trans_le (Nat.mod_le p capacity)
  case released => exact fun p hp ↦ absurd hp (Nat.not_lt_zero p)
  case unreleased =>
    intro p _
    rw [hseq]
    exact (Nat.mod_lt p (by omega)).trans_le (Nat.le_add_left _ _)
  case coded => exact fun p ↦ ⟨p % capacity, Nat.mod_mod p capacity, Or.inl (hseq p)⟩
  case raw_of_free => exact fun _ _ _ ↦ rfl
  case live_of_full =>
    intro p _ hp
    rw [hseq] at hp
    have := Nat.mod_le p capacity
    omega

/-- **The ticket invariant holds in every reachable state.** -/
theorem inv_of_reachable (hcap : 2 ≤ capacity)
    (h : (machine .unbounded α capacity n).Reachable s) : Inv capacity s :=
  Machine.Leads.invariant h (inv_init hcap) fun hI _ hs ↦ inv_step hI hcap hs

end LockFreeQueue

end FoundationComponents
