import FoundationComponents.LockFreeQueue.Failures

/-!
# The size of the queue

`approximateSize` reads the two cursors one after the other, the enqueue cursor first. Both only
grow. So at any instant between the two loads the enqueue cursor is at or past what has been read
and the dequeue cursor is at or before what will be read, and the difference that is returned is at
most the difference of the cursors at that instant, whatever goes on in between. It can be too small
by any amount, but never too large: a queue that is reported full was full all the time.

The machine adds to the threads on the queue any number of threads that call `approximateSize`, or
`empty` or `full`, which look at nothing but its result.
-/

namespace FoundationComponents

namespace LockFreeQueue

variable {α : Type*} {n k : ℕ}

/-- What `approximateSize` returns when its loads have read `enqueued` and `dequeued`. -/
def sizeFrom (capacity enqueued dequeued : ℕ) : ℕ :=
  if enqueued < dequeued then 0 else min (enqueued - dequeued) capacity

/-- `empty`, from the result of `approximateSize`. -/
def empty (size : ℕ) : Bool := size == 0

/-- `full`, from the result of `approximateSize`. -/
def full (capacity size : ℕ) : Bool := size == capacity

theorem sizeFrom_eq (q : Queue α) :
    sizeFrom q.capacity q.enqueuePos q.dequeuePos = q.approximateSize := rfl

private theorem sizeFrom_le (capacity enqueued dequeued : ℕ) :
    sizeFrom capacity enqueued dequeued ≤ enqueued - dequeued ∧
      sizeFrom capacity enqueued dequeued ≤ capacity := by
  rw [sizeFrom]
  split
  · exact ⟨Nat.zero_le _, Nat.zero_le _⟩
  · exact ⟨Nat.min_le_left _ _, Nat.min_le_right _ _⟩

/-! ## Observers

`approximateSize` performs two loads, and the other threads go on in between. -/

/-- Where a thread is in `approximateSize`. -/
inductive Observer
  | outside
  | loadEnqueue
  | loadDequeue (enqueued : ℕ)
  | returned (size : ℕ)
  deriving Repr, DecidableEq

/-- The queue with the threads on it, and those that ask for its size. -/
structure Observed (α : Type*) (n k : ℕ) where
  system : System α n
  observers : Fin k → Observer

/-- A step on the queue, a call of `approximateSize`, or the next load of one. -/
inductive ObservedAction (α : Type*) (n k : ℕ)
  | queue (a : Action α n)
  | call (o : Fin k)
  | load (o : Fin k)
  deriving DecidableEq

/-- The next load of `approximateSize`. -/
def Observer.load (q : Queue α) : Observer → Option Observer
  | .loadEnqueue => some (.loadDequeue q.enqueuePos)
  | .loadDequeue enqueued => some (.returned (sizeFrom q.capacity enqueued q.dequeuePos))
  | .outside | .returned _ => none

/-- A call may begin unless one is going on. -/
def Observer.call : Observer → Option Observer
  | .outside | .returned _ => some .loadEnqueue
  | .loadEnqueue | .loadDequeue _ => none

namespace Observed

variable (s : Observed α n k)

def setObserver (o : Fin k) (pc : Observer) : Observed α n k :=
  { s with observers := Function.update s.observers o pc }

def step : ObservedAction α n k → Option (Observed α n k)
  | .queue a => (s.system.step .unbounded a).map fun system ↦ { s with system := system }
  | .call o => (s.observers o).call.map (s.setObserver o)
  | .load o => ((s.observers o).load s.system.queue).map (s.setObserver o)

end Observed

/-- `n` threads sharing a fresh queue, and `k` threads that ask for its size. -/
def observedMachine (α : Type*) (capacity n k : ℕ) :
    Machine (Observed α n k) (ObservedAction α n k) where
  init := ⟨(machine .unbounded α capacity n).init, fun _ ↦ .outside⟩
  step := Observed.step

section Growth

variable {s s' : System α n} {a : Action α n}

theorem Grows.trans {q q' q'' : Queue α} (h : Grows q q') (h' : Grows q' q'') : Grows q q'' :=
  ⟨h.enqueue_le.trans h'.enqueue_le, h.dequeue_le.trans h'.dequeue_le,
    fun hclosed ↦ h'.closed (h.closed hclosed)⟩

theorem grows_step (hs : s.step .unbounded a = some s') : Grows s.queue s'.queue := by
  cases a with
  | call t c =>
    rw [System.step, Option.ite_none_right_eq_some, Option.some.injEq] at hs
    obtain ⟨-, rfl⟩ := hs
    exact .refl _
  | step t spurious =>
    rw [System.step, Option.ite_none_left_eq_some, Option.some.injEq] at hs
    obtain ⟨-, rfl⟩ := hs
    exact grows_threadStep _ _ _

end Growth

section Calls

variable {capacity : ℕ} {s s' t u : Observed α n k} {a : ObservedAction α n k} {o : Fin k}
  {size : ℕ}

theorem reachable_system (h : (observedMachine α capacity n k).Reachable s) :
    (machine .unbounded α capacity n).Reachable s.system := by
  have hinit : (machine .unbounded α capacity n).Reachable
      (observedMachine α capacity n k).init.system := Machine.Leads.refl
  refine Machine.Leads.invariant
    (I := fun s ↦ (machine .unbounded α capacity n).Reachable s.system) h hinit ?_
  intro s a s' hs _ hstep
  cases a with
  | queue a =>
    obtain ⟨system, hsystem, rfl⟩ := Option.map_eq_some_iff.mp hstep
    exact hs.step trivial hsystem
  | call o | load o =>
    obtain ⟨pc, -, rfl⟩ := Option.map_eq_some_iff.mp hstep
    exact hs

/-- An observer between its two loads keeps what it has read, and the cursors grow. -/
theorem between_step {enqueued : ℕ} (hpc : s.observers o = .loadDequeue enqueued)
    (hother : a ≠ .load o) (hstep : s.step a = some s') :
    s'.observers o = .loadDequeue enqueued ∧ Grows s.system.queue s'.system.queue := by
  have hset : ∀ {o' : Fin k} (pc : Observer), o' ≠ o →
      (s.setObserver o' pc).observers o = .loadDequeue enqueued := fun pc hne ↦
    (Function.update_of_ne hne.symm _ _).trans hpc
  cases a with
  | queue a =>
    obtain ⟨system, hsystem, rfl⟩ := Option.map_eq_some_iff.mp hstep
    exact ⟨hpc, grows_step hsystem⟩
  | call o' =>
    obtain ⟨pc, hcall, rfl⟩ := Option.map_eq_some_iff.mp hstep
    refine ⟨hset pc ?_, .refl _⟩
    rintro rfl
    rw [hpc] at hcall
    cases hcall
  | load o' =>
    obtain ⟨pc, -, rfl⟩ := Option.map_eq_some_iff.mp hstep
    refine ⟨hset pc ?_, .refl _⟩
    rintro rfl
    exact hother rfl

theorem between_leads {enqueued : ℕ} (hpc : s.observers o = .loadDequeue enqueued)
    (h : (observedMachine α capacity n k).Leads (fun _ a ↦ a ≠ .load o) s t) :
    t.observers o = .loadDequeue enqueued ∧ Grows s.system.queue t.system.queue := by
  refine h.invariant (I := fun t ↦ t.observers o = .loadDequeue enqueued ∧
    Grows s.system.queue t.system.queue) ⟨hpc, .refl _⟩ ?_
  rintro u a v ⟨hu, hgrows⟩ hother hstep
  obtain ⟨hv, hgrows'⟩ := between_step hu hother hstep
  exact ⟨hv, hgrows.trans hgrows'⟩

/-- The call of `approximateSize` by `o` performs its first load in `s`, and its second one, after
which it returns `size`, in a later state. In between there is the state `u`. -/
structure SizeCall (capacity : ℕ) (o : Fin k) (size : ℕ) (s u : Observed α n k) : Prop where
  reachable : (observedMachine α capacity n k).Reachable s
  first : s.observers o = .loadEnqueue
  before : ∃ s', s.step (.load o) = some s' ∧
    (observedMachine α capacity n k).Leads (fun _ a ↦ a ≠ .load o) s' u
  after : ∃ t t', (observedMachine α capacity n k).Leads (fun _ a ↦ a ≠ .load o) u t ∧
    t.step (.load o) = some t' ∧ t'.observers o = .returned size

/-! ## What the result says -/

/-- The tickets that have been claimed by a push and not by a pop. -/
def unpopped (history : List (Fin n × Event α)) : List ℕ :=
  ((enqueueWins history).map Prod.fst).filter fun ticket ↦ ticket ∉ dequeueWins history

theorem Inv.length_unpopped {s : System α n} (h : Inv capacity s) :
    (unpopped s.history).length = s.queue.enqueuePos - s.queue.dequeuePos := by
  obtain ⟨count, hcount⟩ := Nat.exists_eq_add_of_le h.dequeue_le
  have hbelow : (List.range s.queue.dequeuePos).filter
      (fun ticket ↦ ticket ∉ List.range s.queue.dequeuePos) = [] :=
    List.filter_eq_nil_iff.mpr fun ticket hmem ↦ by simpa using hmem
  have habove : ((List.range count).map (s.queue.dequeuePos + ·)).filter
      (fun ticket ↦ ticket ∉ List.range s.queue.dequeuePos) =
      (List.range count).map (s.queue.dequeuePos + ·) := by
    refine List.filter_eq_self.mpr (List.forall_mem_map.mpr fun i _ ↦ ?_)
    simp
  rw [unpopped, h.enqueueWins_eq, h.dequeueWins_eq, hcount, List.range_add, List.filter_append,
    hbelow, habove, List.nil_append, List.length_map, List.length_range, Nat.add_sub_cancel_left]

/-- **The size is never overestimated.** At every instant between its two loads `approximateSize`
returns at most the difference of the cursors, and at most the capacity. If `full` holds of the
result, exactly as many tickets as there are cells were claimed and not popped at that instant. -/
theorem approximateSize_le (hcap : 2 ≤ capacity) (h : SizeCall capacity o size s u) :
    size ≤ u.system.queue.enqueuePos - u.system.queue.dequeuePos ∧ size ≤ capacity ∧
      (full capacity size = true →
        u.system.queue.enqueuePos - u.system.queue.dequeuePos = capacity ∧
        (unpopped u.system.history).length = capacity) := by
  obtain ⟨s', hfirst, hbefore⟩ := h.before
  obtain ⟨t, t', hafter, hsecond, hreturned⟩ := h.after
  -- the first load
  obtain ⟨pc, hload, rfl⟩ := Option.map_eq_some_iff.mp hfirst
  rw [h.first] at hload
  obtain rfl := Option.some.inj hload
  obtain ⟨hu, hgrows⟩ := between_leads (Function.update_self _ _ _) hbefore
  -- the second load
  obtain ⟨ht, hgrows'⟩ := between_leads hu hafter
  obtain ⟨pc, hload, rfl⟩ := Option.map_eq_some_iff.mp hsecond
  rw [ht] at hload
  obtain rfl := Option.some.inj hload
  obtain rfl := Observer.returned.inj ((Function.update_self _ _ _).symm.trans hreturned)
  have hreach : (observedMachine α capacity n k).Reachable u :=
    (Machine.Leads.step (a := ObservedAction.load o) h.reachable trivial hfirst).trans
      (hbefore.mono fun _ _ _ ↦ trivial)
  have hinv := inv_of_reachable hcap (reachable_system hreach)
  have hcapacity : t.system.queue.capacity = capacity :=
    (inv_of_reachable hcap (reachable_system
      (hreach.trans (hafter.mono fun _ _ _ ↦ trivial)))).capacity_eq
  obtain ⟨hdifference, hbound⟩ := sizeFrom_le capacity s.system.queue.enqueuePos
    t.system.queue.dequeuePos
  have henqueue : s.system.queue.enqueuePos ≤ u.system.queue.enqueuePos := hgrows.enqueue_le
  have hdequeue := hgrows'.dequeue_le
  rw [hcapacity]
  refine ⟨by omega, hbound, fun hfull ↦ ?_⟩
  rw [full, beq_iff_eq] at hfull
  have hle := hinv.enqueue_le
  rw [hinv.length_unpopped]
  omega

end Calls

/-- Two cells, both filled. Between the two loads a thread tries to push a third value, and a pop
has not yet come to its exchange. The queue is reported full, and it is. -/
theorem approximateSize_le_full : ∃ u : Observed ℕ 2 1,
    (u.system.threads 0 = .pushLoadPos 9 ∧ u.system.threads 1 = .popCas 0) ∧
    2 ≤ u.system.queue.enqueuePos - u.system.queue.dequeuePos ∧
    (unpopped u.system.history).length = 2 := by
  let M := observedMachine ℕ 2 2 1
  let pushes : List (ObservedAction ℕ 2 1) :=
    List.flatten [[.queue (.call 0 (.tryPush 7))], List.replicate 7 (.queue (.step 0 false)),
      [.queue (.call 0 (.tryPush 8))], List.replicate 7 (.queue (.step 0 false)), [.call 0]]
  have hrun : ((M.run M.init pushes).bind fun s ↦ (s.step (.load 0)).bind fun s' ↦
      (M.runWhen (fun _ a ↦ a ≠ .load 0) s' [.queue (.call 0 (.tryPush 9)),
        .queue (.step 0 false), .queue (.call 1 .tryPop), .queue (.step 1 false),
        .queue (.step 1 false)]).bind fun u ↦
        (M.runWhen (fun _ a ↦ a ≠ .load 0) u [.queue (.step 0 false)]).bind fun t ↦
          (t.step (.load 0)).map fun t' ↦ (s.observers 0, u.system.threads 0, u.system.threads 1,
            t'.observers 0)) =
      some (.loadEnqueue, .pushLoadPos 9, .popCas 0, .returned 2) := by decide +kernel
  obtain ⟨s, hs, hrest⟩ := Option.bind_eq_some_iff.mp hrun
  obtain ⟨s', hfirst, hrest⟩ := Option.bind_eq_some_iff.mp hrest
  obtain ⟨u, hu, hrest⟩ := Option.bind_eq_some_iff.mp hrest
  obtain ⟨t, ht, hrest⟩ := Option.bind_eq_some_iff.mp hrest
  obtain ⟨t', hsecond, hfinal⟩ := Option.map_eq_some_iff.mp hrest
  simp only [Prod.mk.injEq] at hfinal
  obtain ⟨hobserver, hpush, hpop, hreturned⟩ := hfinal
  have hcall : SizeCall 2 0 2 s u :=
    ⟨Machine.reachable_of_run hs, hobserver, ⟨s', hfirst, Machine.leads_of_runWhen hu⟩, t, t',
      Machine.leads_of_runWhen ht, hsecond, hreturned⟩
  obtain ⟨hdifference, -, hfull⟩ := approximateSize_le le_rfl hcall
  exact ⟨u, ⟨hpush, hpop⟩, hdifference, (hfull rfl).2⟩

end LockFreeQueue

end FoundationComponents
