import FoundationComponents.LockFreeQueue.Basic

/-!
# A call that runs alone

A call that runs alone is the same `threadStep` iterated until the thread is idle again. Weak
exchanges may still fail spuriously, any finite number of times; a call is *terminating* when some
number of accesses brings it back for the given spurious failures.

What each call does depends on the signed difference of the sequence it reads and the position it
expects, and on nothing else of the counter arithmetic. So the cases are settled here for any
arithmetic: a difference of zero is a claimed cell, a negative one a failed call, and a positive
one, which sends a call back to the cursor, a call that never returns.
-/

namespace FoundationComponents

namespace LockFreeQueue

variable {α : Type*}

/-! ## Running alone -/

def Pc.isCas : Pc α → Bool
  | .pushCas _ _ => true
  | .popCas _ => true
  | _ => false

/-- At most `fuel` accesses of one thread from `pc`, with the events until it is idle. Each exchange
uses up one entry of `spurious`; when none is left exchanges do not fail spuriously. -/
def solo (κ : CounterArith) : ℕ → List Bool → Queue α → Pc α → Option (Queue α × List (Event α))
  | 0, _, _, _ => none
  | fuel + 1, spurious, q, pc =>
      let next := threadStep κ q (spurious.headD false) pc
      if next.2.1.isIdle then some (next.1, next.2.2)
      else
        (solo κ fuel (if pc.isCas then spurious.tail else spurious) next.1 next.2.1).map
          fun r ↦ (r.1, next.2.2 ++ r.2)

/-- The thread at `pc`, alone, comes back with `q'` and the events `evs`. -/
def ReturnsBy (κ : CounterArith) (spurious : List Bool) (q : Queue α) (pc : Pc α) (q' : Queue α)
    (evs : List (Event α)) : Prop :=
  ∃ fuel, solo κ fuel spurious q pc = some (q', evs)

variable {κ : CounterArith} {spurious : List Bool} {q q' : Queue α} {pc : Pc α}
  {evs : List (Event α)}

namespace ReturnsBy

theorem of_idle (h : threadStep κ q (spurious.headD false) pc = (q', .idle, evs)) :
    ReturnsBy κ spurious q pc q' evs := by
  refine ⟨1, ?_⟩
  rw [solo, h]
  rfl

theorem of_step {r : Queue α} {c : Pc α} {e : List (Event α)}
    (hstep : threadStep κ q (spurious.headD false) pc = (r, c, e)) (hidle : c.isIdle = false)
    (h : ReturnsBy κ (if pc.isCas then spurious.tail else spurious) r c q' evs) :
    ReturnsBy κ spurious q pc q' (e ++ evs) := by
  obtain ⟨fuel, hfuel⟩ := h
  refine ⟨fuel + 1, ?_⟩
  rw [solo, hstep]
  simp only [hidle, Bool.false_eq_true, if_false]
  rw [hfuel]
  rfl

end ReturnsBy

theorem solo_mono {fuel : ℕ} {r : Queue α × List (Event α)}
    (h : solo κ fuel spurious q pc = some r) (k : ℕ) :
    solo κ (fuel + k) spurious q pc = some r := by
  induction fuel generalizing spurious q pc r with
  | zero => simp [solo] at h
  | succ fuel ih =>
    rw [Nat.succ_add]
    rw [solo] at h ⊢
    by_cases hidle : (threadStep κ q (spurious.headD false) pc).2.1.isIdle = true
    · rwa [if_pos hidle] at h ⊢
    · rw [if_neg hidle, Option.map_eq_some_iff] at h
      obtain ⟨r', hr', hr⟩ := h
      rw [if_neg hidle, ih hr', Option.map_some, hr]

theorem ReturnsBy.unique {q'' : Queue α} {evs' : List (Event α)}
    (h : ReturnsBy κ spurious q pc q' evs) (h' : ReturnsBy κ spurious q pc q'' evs') :
    q' = q'' ∧ evs = evs' := by
  obtain ⟨fuel, hfuel⟩ := h
  obtain ⟨fuel', hfuel'⟩ := h'
  have h1 := solo_mono hfuel fuel'
  rw [Nat.add_comm, solo_mono hfuel' fuel, Option.some.injEq, Prod.mk.injEq] at h1
  exact ⟨h1.1.symm, h1.2.symm⟩

/-! ## What each call does

The cursor, the sequence and the exchange are accessed in this order, and nobody interferes. So the
first comparison settles the call. -/

/-- The queue after a `tryPush` that claimed its cell. -/
def Queue.afterPushBy (κ : CounterArith) (q : Queue α) (v : α) : Queue α :=
  let claimed := { q with enqueuePos := κ.add q.enqueuePos 1 }
  { (claimed.storeSlot q.enqueuePos (.live v)).storeSequence q.enqueuePos (κ.add q.enqueuePos 1)
    with pushes := q.pushes + 1 }

/-- The queue after a `tryPop` that claimed its cell. -/
def Queue.afterPopBy (κ : CounterArith) (q : Queue α) : Queue α :=
  let claimed := { q with dequeuePos := κ.add q.dequeuePos 1 }
  let moved := claimed.storeSlot q.dequeuePos .movedFrom
  { (moved.storeSlot q.dequeuePos .raw).storeSequence q.dequeuePos
      (κ.add q.dequeuePos q.capacity) with pops := q.pops + 1 }

namespace ReturnsBy

/-- From a claimed ticket on, a push runs straight to its return. -/
theorem pushConstruct (κ : CounterArith) (spurious : List Bool) (q : Queue α) (v : α) :
    ReturnsBy κ spurious { q with enqueuePos := κ.add q.enqueuePos 1 }
      (.pushConstruct v q.enqueuePos) (q.afterPushBy κ v)
      [.constructed q.enqueuePos (q.slot q.enqueuePos),
        .returned (.tryPush v) (some q.enqueuePos) (.pushed true)] := by
  refine of_step (e := [.constructed q.enqueuePos (q.slot q.enqueuePos)]) rfl rfl ?_
  refine of_step (e := []) rfl rfl ?_
  exact of_idle rfl

/-- A `tryPush` that finds the free code of its ticket succeeds, after any finite number of spurious
failures of the exchange. -/
theorem tryPush_of_free (spurious : List Bool) (v : α) (hclosed : q.closed = false)
    (hseq : κ.diff (q.seq q.enqueuePos) q.enqueuePos = 0) :
    ReturnsBy κ spurious q (Call.tryPush v).entry (q.afterPushBy κ v)
      [.enqueueWon q.enqueuePos v, .constructed q.enqueuePos (q.slot q.enqueuePos),
        .returned (.tryPush v) (some q.enqueuePos) (.pushed true)] := by
  -- the loop, by induction on the spurious failures still to come
  have hloop : ∀ spurious : List Bool, ReturnsBy κ spurious q (.pushLoadSequence v q.enqueuePos)
      (q.afterPushBy κ v) [.enqueueWon q.enqueuePos v,
        .constructed q.enqueuePos (q.slot q.enqueuePos),
        .returned (.tryPush v) (some q.enqueuePos) (.pushed true)] := by
    intro spurious
    induction spurious with
    | nil =>
      refine of_step (e := []) (r := q) (c := .pushCas v q.enqueuePos) ?_ rfl ?_
      · simp [threadStep, hseq]
      · refine of_step (e := [.enqueueWon q.enqueuePos v]) ?_ rfl (pushConstruct κ [] q v)
        simp [threadStep]
    | cons b spurious ih =>
      refine of_step (e := []) (r := q) (c := .pushCas v q.enqueuePos) ?_ rfl ?_
      · simp [threadStep, hseq]
      · cases b with
        | true =>
          refine of_step (e := []) (r := q) ?_ rfl ih
          simp [threadStep, Pc.isCas]
        | false =>
          refine of_step (e := [.enqueueWon q.enqueuePos v]) ?_ rfl
            (pushConstruct κ spurious q v)
          simp [threadStep, Pc.isCas]
  refine of_step (e := []) (r := q) (c := .pushLoadPos v) ?_ rfl ?_
  · simp [Call.entry, threadStep, hclosed]
  · exact of_step (e := []) rfl rfl (hloop spurious)

theorem tryPush_of_closed (spurious : List Bool) (v : α) (hclosed : q.closed = true) :
    ReturnsBy κ spurious q (Call.tryPush v).entry
      { q with closedPushes := q.closedPushes + 1, failedPushes := q.failedPushes + 1 }
      [.returned (.tryPush v) none (.pushed false)] := by
  refine of_step (e := []) (r := q) (c := .pushCountClosed v) ?_ rfl ?_
  · simp [Call.entry, threadStep, hclosed]
  · refine of_step (e := []) rfl rfl ?_
    exact of_idle rfl

theorem tryPush_of_full (spurious : List Bool) (v : α) (hclosed : q.closed = false)
    (hseq : κ.diff (q.seq q.enqueuePos) q.enqueuePos < 0) :
    ReturnsBy κ spurious q (Call.tryPush v).entry { q with failedPushes := q.failedPushes + 1 }
      [.returned (.tryPush v) none (.pushed false)] := by
  refine of_step (e := []) (r := q) (c := .pushLoadPos v) ?_ rfl ?_
  · simp [Call.entry, threadStep, hclosed]
  · refine of_step (e := []) rfl rfl ?_
    refine of_step (e := []) (r := q) (c := .pushCountFailed v) ?_ rfl ?_
    · simp [threadStep, hseq.ne, hseq]
    · exact of_idle rfl

theorem popMove (κ : CounterArith) (spurious : List Bool) (q : Queue α) :
    ReturnsBy κ spurious { q with dequeuePos := κ.add q.dequeuePos 1 } (.popMove q.dequeuePos)
      (q.afterPopBy κ) [.movedOut q.dequeuePos (q.slot q.dequeuePos),
        .returned .tryPop (some q.dequeuePos) (q.slot q.dequeuePos).toResult] := by
  refine of_step (e := [.movedOut q.dequeuePos (q.slot q.dequeuePos)]) rfl rfl ?_
  refine of_step (e := []) rfl rfl ?_
  refine of_step (e := []) rfl rfl ?_
  exact of_idle rfl

theorem tryPop_of_full (spurious : List Bool)
    (hseq : κ.diff (q.seq q.dequeuePos) (κ.add q.dequeuePos 1) = 0) :
    ReturnsBy κ spurious q (Call.tryPop : Call α).entry (q.afterPopBy κ)
      [.dequeueWon q.dequeuePos, .movedOut q.dequeuePos (q.slot q.dequeuePos),
        .returned .tryPop (some q.dequeuePos) (q.slot q.dequeuePos).toResult] := by
  have hloop : ∀ spurious : List Bool, ReturnsBy κ spurious q (.popLoadSequence q.dequeuePos)
      (q.afterPopBy κ) [.dequeueWon q.dequeuePos, .movedOut q.dequeuePos (q.slot q.dequeuePos),
        .returned .tryPop (some q.dequeuePos) (q.slot q.dequeuePos).toResult] := by
    intro spurious
    induction spurious with
    | nil =>
      refine of_step (e := []) (r := q) (c := .popCas q.dequeuePos) ?_ rfl ?_
      · simp [threadStep, hseq]
      · refine of_step (e := [.dequeueWon q.dequeuePos]) ?_ rfl (popMove κ [] q)
        simp [threadStep]
    | cons b spurious ih =>
      refine of_step (e := []) (r := q) (c := .popCas q.dequeuePos) ?_ rfl ?_
      · simp [threadStep, hseq]
      · cases b with
        | true =>
          refine of_step (e := []) (r := q) ?_ rfl ih
          simp [threadStep, Pc.isCas]
        | false =>
          refine of_step (e := [.dequeueWon q.dequeuePos]) ?_ rfl (popMove κ spurious q)
          simp [threadStep, Pc.isCas]
  exact of_step (e := []) rfl rfl (hloop spurious)

theorem tryPop_of_empty (spurious : List Bool)
    (hseq : κ.diff (q.seq q.dequeuePos) (κ.add q.dequeuePos 1) < 0) :
    ReturnsBy κ spurious q (Call.tryPop : Call α).entry { q with failedPops := q.failedPops + 1 }
      [.returned .tryPop none .nullopt] := by
  refine of_step (e := []) rfl rfl ?_
  refine of_step (e := []) (r := q) (c := .popCountFailed) ?_ rfl ?_
  · simp [threadStep, hseq.ne, hseq]
  · exact of_idle rfl

end ReturnsBy

/-- A `tryPop` that finds a sequence beyond its full code reloads the same cursor forever. -/
theorem solo_tryPop_of_ahead (h : 0 < κ.diff (q.seq q.dequeuePos) (κ.add q.dequeuePos 1))
    (fuel : ℕ) (spurious : List Bool) :
    solo κ fuel spurious q .popLoadPos = none ∧
      solo κ fuel spurious q (.popLoadSequence q.dequeuePos) = none := by
  induction fuel with
  | zero => exact ⟨rfl, rfl⟩
  | succ fuel ih =>
    constructor
    · rw [solo]
      simp [threadStep, Pc.isIdle, Pc.isCas, ih.2]
    · rw [solo]
      simp [threadStep, h.ne', not_lt.mpr h.le, Pc.isIdle, Pc.isCas, ih.1]

theorem solo_tryPush_of_ahead (v : α) (h : 0 < κ.diff (q.seq q.enqueuePos) q.enqueuePos)
    (fuel : ℕ) (spurious : List Bool) :
    solo κ fuel spurious q (.pushLoadPos v) = none ∧
      solo κ fuel spurious q (.pushLoadSequence v q.enqueuePos) = none := by
  induction fuel with
  | zero => exact ⟨rfl, rfl⟩
  | succ fuel ih =>
    constructor
    · rw [solo]
      simp [threadStep, Pc.isIdle, Pc.isCas, ih.2]
    · rw [solo]
      simp [threadStep, h.ne', not_lt.mpr h.le, Pc.isIdle, Pc.isCas, ih.1]

end LockFreeQueue

end FoundationComponents
