import Mathlib.Data.Nat.Periodic
import FoundationComponents.LockFreeQueue.Sequential
import FoundationComponents.LockFreeQueue.Tickets

/-!
# When nobody holds a ticket

The ticket invariant allows for threads stalled at every access. Once no thread stands between a won
exchange and its sequence store, what it allows for collapses to one picture: the tickets between
the cursors are full, with the values that were pushed, and the rest of the round is free. This is
the representation of a list that the non-overlapping calls start from, so what they do from here on
is known: the loop of the destructor takes the remaining objects out in ticket order and stops.

The statistics are bumped after the element is visible, and while a call runs they lag behind the
cursors. What they lag behind by is in the positions of the threads.
-/

namespace FoundationComponents

namespace LockFreeQueue

variable {α : Type*} {n : ℕ} {capacity : ℕ} {s : System α n} {q : Queue α} {f : Fifo α}

/-! ## Cells holding an object -/

def Slot.isLive : Slot α → Bool
  | .live _ => true
  | _ => false

/-- The number of cells that hold a live object. -/
def Queue.liveCells (q : Queue α) : ℕ :=
  Nat.count (fun i ↦ (q.buffer i).storage.isLive = true) q.capacity

/-- Between calls the live cells are those of the elements. -/
theorem Represents.liveCells_eq (h : Represents capacity q f) : q.liveCells = f.items.length := by
  have hlive : ∀ p, q.dequeuePos ≤ p → p < q.dequeuePos + capacity →
      ((q.slot p).isLive = true ↔ p < q.enqueuePos) := by
    intro p hp hp'
    by_cases hpe : p < q.enqueuePos
    · have hi : p - q.dequeuePos < f.items.length := by
        have henq := h.enqueue_eq
        omega
      have hslot := (h.full _ _ (List.getElem?_eq_getElem hi)).2
      rw [Nat.add_sub_cancel' hp] at hslot
      simp [hslot, hpe, Slot.isLive]
    · have hslot := (h.free p (by omega) hp').2
      simp [hslot, hpe, Slot.isLive]
  -- the cells of one round, counted from the dequeue cursor instead of from cell `0`
  have hperiodic : Function.Periodic (fun p ↦ (q.slot p).isLive = true) capacity := by
    intro p
    have hround : q.slot (p + capacity) = q.slot p :=
      q.slot_congr (by rw [h.capacity_eq, Nat.add_mod_right])
    simp only [hround]
  have hcount := Nat.filter_Ico_card_eq_of_periodic q.dequeuePos capacity _ hperiodic
  have hfilter : (Finset.Ico q.dequeuePos (q.dequeuePos + capacity)).filter
      (fun p ↦ (q.slot p).isLive = true) = Finset.Ico q.dequeuePos q.enqueuePos := by
    ext p
    have henq := h.enqueue_eq
    have hle := h.length_le
    rw [Finset.mem_filter, Finset.mem_Ico, Finset.mem_Ico]
    constructor
    · rintro ⟨⟨hp, hp'⟩, hslot⟩
      exact ⟨hp, (hlive p hp hp').mp hslot⟩
    · rintro ⟨hp, hp'⟩
      exact ⟨⟨hp, by omega⟩, (hlive p hp (by omega)).mpr hp'⟩
  rw [hfilter, Nat.card_Ico, h.enqueue_eq, Nat.add_sub_cancel_left] at hcount
  rw [hcount, Queue.liveCells, h.capacity_eq, Nat.count_eq_card_filter_range,
    Nat.count_eq_card_filter_range]
  congr 1
  refine Finset.filter_congr fun i hi ↦ ?_
  rw [Queue.slot, h.capacity_eq, Nat.mod_eq_of_lt (Finset.mem_range.mp hi)]

/-! ## The picture between calls

Every ticket below a cursor has been won, and with nobody holding one each has been published or
released as well. So every cell shows the code that its last ticket left. -/

/-- No thread is between a won exchange and the matching sequence store. -/
def System.Unheld (s : System α n) : Prop :=
  ∀ t, (s.threads t).producing = none ∧ (s.threads t).consuming = none

theorem System.Quiescent.unheld (h : s.Quiescent) : s.Unheld := by
  intro t
  rw [h t]
  exact ⟨rfl, rfl⟩

theorem Inv.le_seq_of_unheld (h : Inv capacity s) (hs : s.Unheld) {p : ℕ}
    (hp : p < s.queue.enqueuePos) : p + 1 ≤ s.queue.seq p := by
  refine (h.published p hp).resolve_left ?_
  rintro ⟨t, ht⟩
  rw [(hs t).1] at ht
  cases ht

/-- A cell whose ticket of the round before was released, or that has not been used yet, shows the
free code. -/
theorem Inv.seq_eq_of_free (h : Inv capacity s) {p : ℕ} (hp : s.queue.enqueuePos ≤ p)
    (hreleased : ∀ t, (s.threads t).consuming ≠ some (p - capacity))
    (hp' : p < s.queue.dequeuePos + capacity) : s.queue.seq p = p := by
  refine le_antisymm (h.unpublished p hp) ?_
  by_cases hfirst : p < capacity
  · obtain ⟨p', hpp', hcode⟩ := h.coded p
    have hle : s.queue.seq p ≤ p := h.unpublished p hp
    have hp'lt : p' < capacity := by omega
    rw [Nat.mod_eq_of_lt hp'lt, Nat.mod_eq_of_lt hfirst] at hpp'
    omega
  · have hmod : (p - capacity) % capacity = p % capacity := by
      rw [← Nat.add_mod_right, Nat.sub_add_cancel (by omega)]
    have hlater := (h.released (p - capacity) (by omega)).resolve_left fun ⟨t, ht⟩ ↦
      hreleased t ht
    rw [h.seq_congr hmod] at hlater
    omega

/-- **The picture when nobody holds a ticket**: the ring represents the values pushed and not yet
claimed. -/
theorem Inv.represents (h : Inv capacity s) (hs : s.Unheld) :
    Represents capacity s.queue
      ⟨(values s.history).drop s.queue.dequeuePos, s.queue.closed⟩ where
  capacity_eq := h.capacity_eq
  closed_eq := rfl
  enqueue_eq := by
    have hle := h.dequeue_le
    rw [List.length_drop, h.length_values]
    omega
  length_le := by
    have hle := h.enqueue_le
    rw [List.length_drop, h.length_values]
    omega
  full := by
    intro i v hv
    rw [List.getElem?_drop] at hv
    obtain ⟨hlt, -⟩ := List.getElem?_eq_some_iff.mp hv
    rw [h.length_values] at hlt
    have hseq := h.seq_eq_of_le (Nat.le_add_right _ i) (h.le_seq_of_unheld hs hlt)
    obtain ⟨w, hslot, hw⟩ := h.live_of_full _ (Nat.le_add_right _ i) hseq
    rw [hv, Option.some.injEq] at hw
    rw [hw]
    exact ⟨hseq, hslot⟩
  free := by
    intro p hp hp'
    have hseq := h.seq_eq_of_free hp (fun t ht ↦ by rw [(hs t).2] at ht; cases ht) hp'
    exact ⟨hseq, h.raw_of_free p hp hseq⟩

/-- With nobody holding a ticket the live cells make up the difference of the cursors. -/
theorem Inv.liveCells_eq (h : Inv capacity s) (hs : s.Unheld) :
    s.queue.liveCells = s.queue.enqueuePos - s.queue.dequeuePos := by
  rw [(h.represents hs).liveCells_eq, List.length_drop, h.length_values]

/-! ## The statistics

A call counts its result before it returns, and a push is counted after it is published. The
positions say which of the counts are still to come. -/

def Action.isTryPush : Action α n → Bool
  | .call _ (.tryPush _) => true
  | _ => false

def Action.isTryPop : Action α n → Bool
  | .call _ .tryPop => true
  | _ => false

/-- Inside `tryPush`. -/
def Pc.inPush : Pc α → Bool
  | .pushLoadClosed _ | .pushCountClosed _ | .pushCountFailed _ | .pushLoadPos _
  | .pushLoadSequence _ _ | .pushCas _ _ | .pushConstruct _ _ | .pushPublish _ _
  | .pushCount _ _ => true
  | _ => false

/-- Inside `tryPop`. -/
def Pc.inPop : Pc α → Bool
  | .popLoadPos | .popLoadSequence _ | .popCas _ | .popCountFailed | .popMove _ | .popDestroy _ _
  | .popRelease _ _ | .popCount _ _ => true
  | _ => false

/-- About to count a failed `tryPush`. -/
def Pc.countsFailed : Pc α → Bool
  | .pushCountFailed _ => true
  | _ => false

/-- What a step of a call adds to the statistics, against where it leaves the thread. -/
structure Bumped (t : Fin n) (q : Queue α) (pc : Pc α) (next : Queue α × Pc α × List (Event α)) :
    Prop where
  pushes : next.1.pushes = q.pushes + (accepted (next.2.2.map fun e ↦ (t, e))).length
  pops : next.1.pops = q.pops + (popReturns (next.2.2.map fun e ↦ (t, e))).length
  pushCalls : next.1.pushes + next.1.failedPushes + next.2.1.inPush.toNat =
    q.pushes + q.failedPushes + pc.inPush.toNat
  popCalls : next.1.pops + next.1.failedPops + next.2.1.inPop.toNat =
    q.pops + q.failedPops + pc.inPop.toNat
  closedPushes : next.1.closedPushes + q.failedPushes + pc.countsFailed.toNat ≤
    q.closedPushes + next.1.failedPushes + next.2.1.countsFailed.toNat

theorem bumped_threadStep (κ : CounterArith) (t : Fin n) (q : Queue α) (spurious : Bool)
    (pc : Pc α) : Bumped t q pc (threadStep κ q spurious pc) := by
  have hskip : ∀ {pc' : Pc α}, pc'.inPush = pc.inPush → pc'.inPop = pc.inPop →
      (pc.countsFailed = false) → Bumped t q pc (q, pc', []) := by
    intro pc' hpush hpop hfailed
    refine ⟨rfl, rfl, ?_, ?_, ?_⟩
    · rw [hpush]
    · rw [hpop]
    · rw [hfailed]
      exact Nat.le_add_right _ _
  cases pc with
  | idle | pushLoadPos _ | popLoadPos => exact hskip rfl rfl rfl
  | pushLoadClosed v =>
    rw [threadStep]
    split <;> exact hskip rfl rfl rfl
  | pushLoadSequence v pos | popLoadSequence pos =>
    simp only [threadStep]
    split
    · exact hskip rfl rfl rfl
    · split <;> exact hskip rfl rfl rfl
  | pushCas v pos | popCas pos =>
    rw [threadStep]
    split
    · exact ⟨rfl, rfl, rfl, rfl, le_rfl⟩
    · exact hskip rfl rfl rfl
  | pushCountClosed v =>
    refine ⟨rfl, rfl, rfl, rfl, ?_⟩
    simp only [threadStep, Pc.countsFailed, Bool.toNat_true, Bool.toNat_false]
    omega
  | pushCountFailed v =>
    refine ⟨rfl, rfl, ?_, rfl, ?_⟩
    · simp only [threadStep, Pc.inPush, Bool.toNat_true, Bool.toNat_false]
      omega
    · simp only [threadStep, Pc.countsFailed, Bool.toNat_true, Bool.toNat_false]
      omega
  | pushCount v pos =>
    refine ⟨rfl, rfl, ?_, rfl, le_rfl⟩
    simp only [threadStep, Pc.inPush, Bool.toNat_true, Bool.toNat_false]
    omega
  | popCountFailed | popCount pos result =>
    refine ⟨rfl, rfl, rfl, ?_, le_rfl⟩
    simp only [threadStep, Pc.inPop, Bool.toNat_true, Bool.toNat_false]
    omega
  | pushConstruct _ _ | pushPublish _ _ | popMove _ | popDestroy _ _ | popRelease _ _
  | closeStore =>
    exact ⟨rfl, rfl, rfl, rfl, le_rfl⟩

/-- The statistics and the positions of the threads account for every call made. -/
structure Accounts (as : List (Action α n)) (s : System α n) : Prop where
  pushes : s.queue.pushes = (accepted s.history).length
  pops : s.queue.pops = (popReturns s.history).length
  pushCalls : s.queue.pushes + s.queue.failedPushes + count Pc.inPush s.threads =
    as.countP Action.isTryPush
  popCalls : s.queue.pops + s.queue.failedPops + count Pc.inPop s.threads =
    as.countP Action.isTryPop
  closedPushes : s.queue.closedPushes ≤ s.queue.failedPushes + count Pc.countsFailed s.threads

theorem accounts_step {as : List (Action α n)} {a : Action α n} {s' : System α n}
    (h : Accounts as s) (hs : s.step .unbounded a = some s') : Accounts (as ++ [a]) s' := by
  obtain ⟨hpushes, hpops, hpushCalls, hpopCalls, hclosed⟩ := h
  have htrade : ∀ (p : Pc α → Bool) (t : Fin n) (pc : Pc α),
      count p (Function.update s.threads t pc) + (p (s.threads t)).toNat =
        count p s.threads + (p pc).toNat := fun p t pc ↦ tally_update (fun x ↦ (p x).toNat) _ t pc
  cases a with
  | call t c =>
    rw [System.step, Option.ite_none_right_eq_some, Pc.isIdle_iff, Option.some.injEq] at hs
    obtain ⟨ht, rfl⟩ := hs
    have hpush := htrade Pc.inPush t c.entry
    have hpop := htrade Pc.inPop t c.entry
    have hfailed := htrade Pc.countsFailed t c.entry
    simp only [ht, Pc.inPush, Pc.inPop, Pc.countsFailed, Bool.toNat_false, Nat.add_zero]
      at hpush hpop hfailed
    constructor <;> simp only [System.move, List.map_nil, List.append_nil, List.countP_append,
      List.countP_singleton]
    · exact hpushes
    · exact hpops
    · rw [hpush, ← hpushCalls]
      cases c <;> simp [Call.entry, Action.isTryPush, Nat.add_assoc]
    · rw [hpop, ← hpopCalls]
      cases c <;> simp [Call.entry, Action.isTryPop, Nat.add_assoc]
    · rw [hfailed]
      omega
  | step t spurious =>
    rw [System.step, Option.ite_none_left_eq_some, Option.some.injEq] at hs
    obtain ⟨-, rfl⟩ := hs
    have hbumped := bumped_threadStep .unbounded t s.queue spurious (s.threads t)
    generalize threadStep .unbounded s.queue spurious (s.threads t) = next at hbumped
    obtain ⟨hp, hq, hpush, hpop, hfail⟩ := hbumped
    have hpush' := htrade Pc.inPush t next.2.1
    have hpop' := htrade Pc.inPop t next.2.1
    have hfailed' := htrade Pc.countsFailed t next.2.1
    constructor <;> simp only [System.move, accepted_append, popReturns_append, List.length_append,
      List.countP_append, List.countP_singleton, Action.isTryPush, Action.isTryPop,
      Bool.false_eq_true, if_false]
    all_goals omega

theorem accounts_of_run {as : List (Action α n)}
    (h : (machine .unbounded α capacity n).run (machine .unbounded α capacity n).init as = some s) :
    Accounts as s := by
  refine Machine.run_invariant h ⟨rfl, rfl, ?_, ?_, Nat.zero_le _⟩ fun _ hs hstep ↦
    accounts_step hs hstep
  · exact (Nat.zero_add _).trans (tally_eq_zero _ _ fun _ ↦ rfl)
  · exact (Nat.zero_add _).trans (tally_eq_zero _ _ fun _ ↦ rfl)

/-! ## The destructor -/

/-- Whether the `tryPop` of these events returned `nullopt`. -/
def returnsNullopt (evs : List (Event α)) : Bool :=
  evs.any fun
    | .returned .tryPop _ .nullopt => true
    | _ => false

/-- The loop of the destructor, `while (tryPop().has_value())`, with the spurious failures of each
of its calls and a bound on the accesses of a call. `none` if the loop needs more calls or
accesses. -/
def destroy (κ : CounterArith) (fuel : ℕ) : List (List Bool) → Queue α →
    Option (Queue α × List (Event α))
  | [], _ => none
  | spurious :: failures, q =>
      (solo κ fuel spurious q (Call.tryPop : Call α).entry).bind fun r ↦
        if returnsNullopt r.2 then some r
        else (destroy κ fuel failures r.1).map fun r' ↦ (r'.1, r.2 ++ r'.2)

/-- The objects moved out among some events, with their tickets. -/
def movedOutIn (evs : List (Event α)) : List (ℕ × Slot α) :=
  evs.filterMap fun
    | .movedOut ticket held => some (ticket, held)
    | _ => none

private theorem movedOutIn_append (evs evs' : List (Event α)) :
    movedOutIn (evs ++ evs') = movedOutIn evs ++ movedOutIn evs' := List.filterMap_append

private theorem destroy_mono {fuel : ℕ} {failures : List (List Bool)} {r : Queue α × List (Event α)}
    (h : destroy .unbounded fuel failures q = some r) (k : ℕ) :
    destroy .unbounded (fuel + k) failures q = some r := by
  induction failures generalizing q r with
  | nil => cases h
  | cons spurious failures ih =>
    rw [destroy, Option.bind_eq_some_iff] at h
    obtain ⟨r₁, hr₁, hrest⟩ := h
    rw [destroy, solo_mono hr₁ k, Option.bind_some]
    split
    · rename_i hlast
      rwa [if_pos hlast] at hrest
    · rename_i hmore
      rw [if_neg hmore, Option.map_eq_some_iff] at hrest
      obtain ⟨r₂, hr₂, rfl⟩ := hrest
      rw [ih hr₂, Option.map_some]

/-- What the loop does from a represented state. -/
structure Destroyed (q q' : Queue α) (evs : List (Event α)) : Prop where
  /-- the remaining objects, each moved out once, in ticket order -/
  movedOut : movedOutIn evs =
    (List.range' q.dequeuePos (q.enqueuePos - q.dequeuePos)).map fun p ↦ (p, q.slot p)
  pops : q'.pops = q.pops + (q.enqueuePos - q.dequeuePos)
  empty : Represents q.capacity q' ⟨[], q.closed⟩

/-- The slots that a pop leaves for later are not touched by it. -/
theorem slots_afterPop {v : α} {items : List α} {closed : Bool}
    (h : Represents capacity q ⟨v :: items, closed⟩) :
    ((List.range' (q.dequeuePos + 1) items.length).map fun p ↦ (p, q.afterPop.slot p)) =
      (List.range' (q.dequeuePos + 1) items.length).map fun p ↦ (p, q.slot p) := by
  have hle := h.length_le
  rw [List.length_cons] at hle
  refine List.map_congr_left fun p hp ↦ ?_
  rw [List.mem_range'_1] at hp
  have hne : p % q.capacity ≠ q.dequeuePos % q.capacity := by
    rw [h.capacity_eq]
    exact (mod_ne_of_lt (by omega) (by omega)).symm
  rw [(Represents.seq_afterPop_of_ne hne).2]

/-- **The loop of the destructor terminates**, with one call more than there are objects. -/
theorem destroy_of_represents (h : Represents capacity q f) (hpos : 1 ≤ capacity)
    (failures : List (List Bool)) (hlen : failures.length = f.items.length + 1) :
    ∃ fuel q' evs, destroy .unbounded fuel failures q = some (q', evs) ∧ Destroyed q q' evs := by
  obtain ⟨items, closed⟩ := f
  induction items generalizing q failures with
  | nil =>
    obtain ⟨spurious, rfl⟩ := List.length_eq_one_iff.mp hlen
    have henq := h.enqueue_eq
    rw [List.length_nil, Nat.add_zero] at henq
    obtain ⟨hseq, -⟩ := h.free q.dequeuePos henq.le (by omega)
    obtain ⟨fuel, hfuel⟩ := returns_tryPop_of_empty spurious hseq.le
    refine ⟨fuel, { q with failedPops := q.failedPops + 1 }, [.returned .tryPop none .nullopt],
      ?_, ?_⟩
    · rw [destroy, hfuel, Option.bind_some]
      exact if_pos rfl
    · refine ⟨?_, ?_, ?_⟩
      · rw [henq, Nat.sub_self]
        rfl
      · rw [henq, Nat.sub_self]
        rfl
      · have hempty := h.of_eq (r := { q with failedPops := q.failedPops + 1 }) rfl rfl rfl rfl rfl
        rwa [← h.capacity_eq, show closed = q.closed from h.closed_eq.symm] at hempty
  | cons v items ih =>
    obtain ⟨spurious, failures, rfl⟩ := List.exists_cons_of_length_pos
      (l := failures) (by omega)
    obtain ⟨hseq, hslot⟩ := h.full 0 v rfl
    rw [Nat.add_zero] at hseq hslot
    obtain ⟨fuel₁, hfirst⟩ := returns_tryPop_of_full spurious hseq
    obtain ⟨fuel₂, q', evs, hrest, hdestroyed⟩ := ih failures h.pop (by simpa using hlen)
    have henq := h.enqueue_eq
    rw [List.length_cons] at henq
    have hleft : q.afterPop.enqueuePos - q.afterPop.dequeuePos = items.length := by
      change q.enqueuePos - (q.dequeuePos + 1) = items.length
      omega
    have hall : q.enqueuePos - q.dequeuePos = items.length + 1 := by omega
    refine ⟨fuel₁ + fuel₂, q', [.dequeueWon q.dequeuePos, .movedOut q.dequeuePos (.live v),
      .returned .tryPop (some q.dequeuePos) (.popped v)] ++ evs, ?_, ?_⟩
    · rw [destroy, solo_mono hfirst fuel₂, Option.bind_some, hslot]
      rw [if_neg (by simp [returnsNullopt, Slot.toResult]), Nat.add_comm fuel₁,
        destroy_mono hrest fuel₁, Option.map_some]
      rfl
    · obtain ⟨hmoved, hpops, hempty⟩ := hdestroyed
      rw [hleft] at hmoved hpops
      refine ⟨?_, ?_, hempty⟩
      · rw [movedOutIn_append, hmoved, hall, List.range'_succ, List.map_cons, hslot]
        exact congrArg (List.cons _) (slots_afterPop h)
      · rw [hpops, hall]
        change q.pops + 1 + items.length = _
        omega

theorem Represents.storage_eq_raw {closed : Bool} (h : Represents capacity q ⟨[], closed⟩) {i : ℕ}
    (hi : i < capacity) : (q.buffer i).storage = .raw := by
  have henq : q.enqueuePos = q.dequeuePos := h.enqueue_eq
  -- the ticket of this round that maps to the cell
  obtain ⟨p, hp, hle, hlt⟩ : ∃ p, p % capacity = i ∧ q.dequeuePos ≤ p ∧
      p < q.dequeuePos + capacity := by
    have hdiv := Nat.div_add_mod q.dequeuePos capacity
    have hmod := Nat.mod_lt q.dequeuePos (show 0 < capacity by omega)
    by_cases hround : q.dequeuePos % capacity ≤ i
    · refine ⟨capacity * (q.dequeuePos / capacity) + i, ?_, by omega, by omega⟩
      rw [Nat.mul_add_mod, Nat.mod_eq_of_lt hi]
    · refine ⟨capacity * (q.dequeuePos / capacity + 1) + i, ?_, ?_, ?_⟩
      · rw [Nat.mul_add_mod, Nat.mod_eq_of_lt hi]
      · rw [Nat.mul_succ]
        omega
      · rw [Nat.mul_succ]
        omega
  have hslot := (h.free p (henq ▸ hle) hlt).2
  rwa [Queue.slot, h.capacity_eq, hp] at hslot

/-- **Quiescent accounting and drain.** Whatever calls any number of threads have made on a queue of
at least two cells, when none is in progress: the push and pop counts are the cursors; their
difference is `approximateSize` and the number of cells that hold an object; the successes and
failures of each operation add up to its calls, and pushes that found the queue closed are among the
failed ones. The loop of the destructor then terminates, with any spurious failures: its calls are
one more than the objects, it moves each of them out once, in ticket order, and leaves every cell
raw. -/
theorem quiescent_accounting (hcap : 2 ≤ capacity) {as : List (Action α n)}
    (h : (machine .unbounded α capacity n).run (machine .unbounded α capacity n).init as = some s)
    (hq : s.Quiescent) :
    s.queue.pushes = s.queue.enqueuePos ∧ s.queue.pops = s.queue.dequeuePos ∧
    s.queue.approximateSize = s.queue.pushes - s.queue.pops ∧
    s.queue.liveCells = s.queue.pushes - s.queue.pops ∧ s.queue.pops ≤ s.queue.pushes ∧
    s.queue.pushes + s.queue.failedPushes = as.countP Action.isTryPush ∧
    s.queue.pops + s.queue.failedPops = as.countP Action.isTryPop ∧
    s.queue.closedPushes ≤ s.queue.failedPushes ∧
    ∀ failures : List (List Bool), failures.length = s.queue.pushes - s.queue.pops + 1 →
      ∃ fuel q' evs, destroy .unbounded fuel failures s.queue = some (q', evs) ∧
        movedOutIn evs = (List.range' s.queue.pops (s.queue.pushes - s.queue.pops)).map
          (fun p ↦ (p, s.queue.slot p)) ∧
        (∀ e ∈ movedOutIn evs, e.2.isLive = true) ∧ q'.pops = s.queue.pushes ∧
        ∀ i, i < capacity → (q'.buffer i).storage = .raw := by
  have hI := inv_of_reachable hcap (Machine.reachable_of_run h)
  obtain ⟨hpushes, hpops, hpushCalls, hpopCalls, hclosed⟩ := accounts_of_run h
  have hnone : ∀ p : Pc α → Bool, p .idle = false → count p s.threads = 0 := fun p hp ↦
    tally_eq_zero _ _ fun t ↦ by rw [hq t, hp]; rfl
  rw [hnone _ rfl, Nat.add_zero] at hpushCalls hpopCalls hclosed
  have henq : s.queue.pushes = s.queue.enqueuePos := by
    have hcard := congrArg Multiset.card hI.pushTickets_eq
    rw [tally_eq_zero _ _ fun t ↦ by rw [hq t]; rfl, zero_add, Multiset.coe_card, List.length_map,
      Multiset.card_range] at hcard
    exact hpushes.trans hcard
  have hdeq : s.queue.pops = s.queue.dequeuePos := by
    have hcard := congrArg Multiset.card hI.popTickets_eq
    rw [tally_eq_zero _ _ fun t ↦ by rw [hq t]; rfl, zero_add, Multiset.coe_card, List.length_map,
      Multiset.card_range] at hcard
    exact hpops.trans hcard
  have hle := hI.dequeue_le
  have hround := hI.enqueue_le
  have hrep := hI.represents hq.unheld
  rw [henq, hdeq]
  refine ⟨rfl, rfl, ?_, hI.liveCells_eq hq.unheld, hle, henq ▸ hpushCalls, hdeq ▸ hpopCalls,
    hclosed, ?_⟩
  · rw [Queue.approximateSize, if_neg (by omega), hI.capacity_eq]
    omega
  intro failures hlen
  obtain ⟨fuel, q', evs, hrun, hmoved, hcount, hempty⟩ := destroy_of_represents hrep (by omega)
    failures (by rw [hlen, List.length_drop, hI.length_values])
  refine ⟨fuel, q', evs, hrun, hmoved, ?_, by omega, ?_⟩
  · intro e he
    rw [hmoved, List.mem_map] at he
    obtain ⟨p, hp, rfl⟩ := he
    rw [List.mem_range'_1] at hp
    have hseq := hI.seq_eq_of_le hp.1 (hI.le_seq_of_unheld hq.unheld (by omega))
    obtain ⟨v, hslot, -⟩ := hI.live_of_full p hp.1 hseq
    rw [hslot]
    rfl
  · intro i hi
    exact hempty.storage_eq_raw (hI.capacity_eq ▸ hi)

/-- Two pushes and a third that fails, by two threads in turns, and a pop. -/
def pushTwicePopOnce (t u : Fin n) : List (Action ℕ n) :=
  List.flatten
    [[.call t (.tryPush 5)], List.replicate 4 (.step t false),
      [.call u (.tryPush 6)], List.replicate 7 (.step u false), List.replicate 3 (.step t false),
      [.call u (.tryPush 7)], List.replicate 4 (.step u false),
      [.call t .tryPop], List.replicate 7 (.step t false)]

theorem quiescent_accounting_pushTwicePopOnce :
    ∃ s, (machine .unbounded ℕ 2 2).run (machine .unbounded ℕ 2 2).init (pushTwicePopOnce 0 1)
        = some s ∧ s.queue.pushes = 2 ∧ s.queue.failedPushes = 1 ∧ s.queue.liveCells = 1 ∧
      ∃ fuel q' evs, destroy .unbounded fuel [[true], []] s.queue = some (q', evs) ∧
        movedOutIn evs = [(1, s.queue.slot 1)] ∧ (q'.buffer 1).storage = .raw := by
  have hrun : ((machine .unbounded ℕ 2 2).run (machine .unbounded ℕ 2 2).init
      (pushTwicePopOnce 0 1)).map (fun s ↦ (s.threads 0, s.threads 1, s.queue.pushes, s.queue.pops,
        s.queue.failedPushes)) = some (.idle, .idle, 2, 1, 1) := by decide +kernel
  obtain ⟨s, hs, hf⟩ := Option.map_eq_some_iff.mp hrun
  simp only [Prod.mk.injEq] at hf
  obtain ⟨h0, h1, hpushes, hpops, hfailed⟩ := hf
  have hq : s.Quiescent := fun t ↦ by
    fin_cases t
    · exact h0
    · exact h1
  obtain ⟨-, -, -, hlive, -, -, -, -, hdestroy⟩ := quiescent_accounting (by decide) hs hq
  rw [hpushes, hpops] at hlive hdestroy
  obtain ⟨fuel, q', evs, hloop, hmoved, -, -, hraw⟩ := hdestroy [[true], []] rfl
  exact ⟨s, hs, hpushes, hfailed, hlive, fuel, q', evs, hloop, hmoved, hraw 1 (by decide)⟩

end LockFreeQueue

end FoundationComponents
