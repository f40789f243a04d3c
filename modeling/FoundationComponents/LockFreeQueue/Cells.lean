import FoundationComponents.LockFreeQueue.Tickets

/-!
# Cells and the objects in them

A thread may read a cursor, stall, and wake up after the ring has gone round many times. It does no
harm: the exchange that would hand it a ticket fails unless the cursor is still the position it
read, and then the cell is as the ticket invariant says. So each cell has at most one thread between
a won exchange and the matching sequence store, a producer finds raw storage, and a consumer finds
the object that the producer of its own ticket constructed.
-/

namespace FoundationComponents

namespace LockFreeQueue

variable {α : Type*} {n : ℕ} {capacity : ℕ} {s : System α n}

/-! ## Who constructed an object

A consumer waits for the sequence store of its producer, and by then the value has been constructed.
So the history has the construction of every value that a consumer can hold. -/

/-- A producer that won a ticket is about to construct its value, or has constructed it in raw
storage. -/
def Built (s : System α n) : Prop :=
  ∀ (t : Fin n) (p : ℕ) (v : α), (t, .enqueueWon p v) ∈ s.history →
    s.threads t = .pushConstruct v p ∨ (t, .constructed p .raw) ∈ s.history

theorem next_of_enqueueWon_mem {κ : CounterArith} {q : Queue α} {spurious : Bool} {pc : Pc α}
    {p : ℕ} {v : α} (h : .enqueueWon p v ∈ (threadStep κ q spurious pc).2.2) :
    (threadStep κ q spurious pc).2.1 = .pushConstruct v p := by
  cases pc with
  | pushCas w pos =>
    rw [threadStep] at h ⊢
    split at h
    · rename_i hwon
      rw [List.mem_singleton, Event.enqueueWon.injEq] at h
      rw [if_pos hwon, h.1, h.2]
    · cases h
  | pushLoadClosed _ | pushLoadSequence _ _ | popLoadSequence _ | popCas _ =>
    simp only [threadStep] at h
    split at h
    · simp at h
    · first | (split at h <;> simp at h) | simp at h
  | _ => simp [threadStep] at h

theorem built_move (hI : Inv capacity s) (h : Built s) (t : Fin n) (spurious : Bool) :
    Built (s.move t (threadStep .unbounded s.queue spurious (s.threads t))) := by
  intro u p v hwon
  rw [System.move, List.mem_append] at hwon ⊢
  rcases hwon with hold | hnew
  · rcases h u p v hold with hpc | hbuilt
    · by_cases hut : u = t
      · -- the producer constructs now
        subst hut
        have hraw : s.queue.slot p = .raw := by
          have hok := hI.ok u
          rw [hpc] at hok
          exact hok.2.2.1
        rw [hpc, threadStep, hraw]
        exact Or.inr (Or.inr (List.mem_singleton_self _))
      · exact Or.inl ((Function.update_of_ne hut ..).trans hpc)
    · exact Or.inr (Or.inl hbuilt)
  · obtain ⟨e, he, heq⟩ := List.mem_map.mp hnew
    obtain ⟨rfl, rfl⟩ := Prod.mk.inj heq
    exact Or.inl ((Function.update_self ..).trans (next_of_enqueueWon_mem he))

theorem built_step (hI : Inv capacity s) (h : Built s) {a : Action α n} {s' : System α n}
    (hs : s.step .unbounded a = some s') : Built s' := by
  cases a with
  | call t c =>
    rw [System.step, Option.ite_none_right_eq_some, Pc.isIdle_iff, Option.some.injEq] at hs
    obtain ⟨ht, rfl⟩ := hs
    intro u p v hwon
    rw [System.move, List.map_nil, List.append_nil] at hwon ⊢
    refine (h u p v hwon).imp_left fun hpc ↦ ?_
    have hut : u ≠ t := by
      rintro rfl
      rw [ht] at hpc
      cases hpc
    exact (Function.update_of_ne hut ..).trans hpc
  | step t spurious =>
    rw [System.step, Option.ite_none_left_eq_some, Option.some.injEq] at hs
    obtain ⟨-, rfl⟩ := hs
    exact built_move hI h t spurious

theorem built_of_reachable (hcap : 2 ≤ capacity)
    (h : (machine .unbounded α capacity n).Reachable s) : Built s := by
  have hboth : Inv capacity s ∧ Built s := by
    refine Machine.Leads.invariant (I := fun s ↦ Inv capacity s ∧ Built s) h
      ⟨inv_init hcap, fun t p v hwon ↦ absurd hwon List.not_mem_nil⟩ ?_
    intro s a t hs _ hstep
    exact ⟨inv_step hs.1 hcap hstep, built_step hs.1 hs.2 hstep⟩
  exact hboth.2

/-- The value of a ticket whose consumer is at work was constructed by the producer that won the
ticket. -/
theorem exists_constructed (hI : Inv capacity s) (hbuilt : Built s) {p : ℕ} {v : α}
    (hval : (values s.history)[p]? = some v) (hseq : s.queue.seq p = p + 1) :
    ∃ u, (u, .enqueueWon p v) ∈ s.history ∧ (u, .constructed p .raw) ∈ s.history := by
  obtain ⟨⟨u, e⟩, hmem, he⟩ := List.mem_filterMap.mp (hI.mem_enqueueWins hval)
  cases e <;> simp only [reduceCtorEq, Option.some.injEq, Prod.mk.injEq] at he
  obtain ⟨rfl, rfl⟩ := he
  refine ⟨u, hmem, (hbuilt u _ _ hmem).resolve_left fun hpc ↦ ?_⟩
  -- a producer that has yet to construct sees its free code
  have hok := hI.ok u
  rw [hpc] at hok
  have hfree := hok.2.1
  omega

/-- **Cell exclusivity and object lifetime.** In every state that any number of threads can reach on
a ring of at least two cells: two threads between a won exchange and the matching sequence store are
in different cells; a producer about to construct finds raw storage; a consumer about to move finds
a live object, the value of its own ticket, constructed by the producer that won that ticket, and
one about to destroy finds what it has moved from; and the sequence of every cell is the free or the
full code of a ticket of that cell. -/
theorem cells_exclusive (hcap : 2 ≤ capacity)
    (h : (machine .unbounded α capacity n).Reachable s) :
    (∀ t t' p p', (s.threads t).Holds p → (s.threads t').Holds p' →
      p % capacity = p' % capacity → t = t') ∧
    (∀ t v p, s.threads t = .pushConstruct v p → s.queue.slot p = .raw) ∧
    (∀ t p, s.threads t = .popMove p → ∃ v u, s.queue.slot p = .live v ∧
      (u, .enqueueWon p v) ∈ s.history ∧ (u, .constructed p .raw) ∈ s.history) ∧
    (∀ t p r, s.threads t = .popDestroy p r → s.queue.slot p = .movedFrom ∧
      ∃ v u, r = .live v ∧ (u, .enqueueWon p v) ∈ s.history ∧
        (u, .constructed p .raw) ∈ s.history) ∧
    ∀ i, i < capacity → ∃ p, p % capacity = i ∧
      ((s.queue.buffer i).sequence = p ∨ (s.queue.buffer i).sequence = p + 1) := by
  have hI := inv_of_reachable hcap h
  have hbuilt := built_of_reachable hcap h
  refine ⟨?_, ?_, ?_, ?_, ?_⟩
  · intro t t' p p' ht ht' hpp'
    by_contra hne
    exact hI.holding_exclusive hcap hne ht ht' hpp'
  · intro t v p ht
    have hok := hI.ok t
    rw [ht] at hok
    exact hok.2.2.1
  · intro t p ht
    have hok := hI.ok t
    rw [ht] at hok
    obtain ⟨-, hseq, v, hslot, hval⟩ := hok
    obtain ⟨u, hwon, hconstructed⟩ := exists_constructed hI hbuilt hval hseq
    exact ⟨v, u, hslot, hwon, hconstructed⟩
  · intro t p r ht
    have hok := hI.ok t
    rw [ht] at hok
    obtain ⟨-, hseq, hslot, v, hr, hval⟩ := hok
    obtain ⟨u, hwon, hconstructed⟩ := exists_constructed hI hbuilt hval hseq
    exact ⟨hslot, v, u, hr, hwon, hconstructed⟩
  · intro i hi
    obtain ⟨p, hp, hcode⟩ := hI.coded i
    rw [Nat.mod_eq_of_lt hi] at hp
    rw [Queue.seq, hI.capacity_eq, Nat.mod_eq_of_lt hi] at hcode
    exact ⟨p, hp, hcode⟩

/-- Two cells in their second round: one thread pushes and pops twice and pushes a third time, and
the other has won the ticket of that value. -/
def secondRound (t u : Fin n) : List (Action ℕ n) :=
  List.flatten
    [[.call t (.tryPush 5)], List.replicate 7 (.step t false),
      [.call t .tryPop], List.replicate 7 (.step t false),
      [.call t (.tryPush 6)], List.replicate 7 (.step t false),
      [.call t .tryPop], List.replicate 7 (.step t false),
      [.call t (.tryPush 7)], List.replicate 7 (.step t false),
      [.call u .tryPop], List.replicate 3 (.step u false)]

theorem cells_exclusive_secondRound :
    ∃ s, (machine .unbounded ℕ 2 2).Reachable s ∧ s.threads 1 = .popMove 2 ∧
      (∃ v u, s.queue.slot 2 = .live v ∧ (u, .enqueueWon 2 v) ∈ s.history ∧
        (u, .constructed 2 .raw) ∈ s.history) ∧
      ∃ p, p % 2 = 0 ∧ ((s.queue.buffer 0).sequence = p ∨ (s.queue.buffer 0).sequence = p + 1) := by
  obtain ⟨s, hs, hf⟩ := Machine.exists_reachable_of_run (M := machine .unbounded ℕ 2 2)
    (fun s ↦ s.threads 1) (secondRound 0 1) (b := .popMove 2) (by decide +kernel)
  obtain ⟨-, -, hmove, -, hcoded⟩ := cells_exclusive (by decide) hs
  exact ⟨s, hs, hf, hmove 1 2 hf, hcoded 0 (by decide)⟩

end LockFreeQueue

end FoundationComponents
