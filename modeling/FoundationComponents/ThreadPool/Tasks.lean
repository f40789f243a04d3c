import FoundationComponents.Machine.Tally
import FoundationComponents.ThreadPool.Basic
import FoundationComponents.ThreadPool.Queue

/-!
# What becomes of a task

In the pool the tasks are taken in the order in which they were pushed, and each is started once, by
the worker that has taken it, in the order in which this worker takes them. After the pool has been
terminated, and all workers have returned, the tasks that have been taken are the ones that were
started; the others are still in the queue.

Those are what `__taskqueue_destroy` frees: it pops until the queue is empty. It reads the link of a
node before it frees the node, so that `free` may write to it.
-/

namespace FoundationComponents

namespace ThreadPool

/-! ## Starting

Between the pop and the call of the handler the task is in the hands of its worker, and a worker
carries one at a time. -/

section Starting

variable {κ : Type*} {n k : ℕ} {s s' : Pool κ n k}

/-- The tasks that a worker has taken and not started. -/
def Worker.hand : Worker κ → List κ
  | .callTask task => [task]
  | _ => []

/-- The task that a step pushes. -/
def Pool.pushes (s : Pool κ n k) : Action κ n k → List κ
  | .push p =>
      match s.producers p with
      | .push task => [task]
      | _ => []
  | _ => []

/-- The task that a step takes, with the worker that takes it. -/
def Pool.takes (s : Pool κ n k) : Action κ n k → List (Fin n × κ)
  | .worker w =>
      match s.workers w, s.queue with
      | .popTask, task :: _ => [(w, task)]
      | _, _ => []
  | _ => []

/-- The tasks of one worker in a list. -/
def ofWorker (w : Fin n) (starts : List (Fin n × κ)) : List (Fin n × κ) :=
  starts.filter fun start ↦ start.1 = w

/-- What a step does to the tasks. -/
structure Passes (s s' : Pool κ n k) (a : Action κ n k) : Prop where
  queue : s.queue ++ s.pushes a = (s.takes a).map Prod.snd ++ s'.queue
  hand : ∀ w, ofWorker w s.started ++ (s.workers w).hand.map (Prod.mk w) ++ ofWorker w (s.takes a) =
    ofWorker w s'.started ++ (s'.workers w).hand.map (Prod.mk w)

private theorem ofWorker_singleton (w v : Fin n) (task : κ) :
    ofWorker v [(w, task)] = if w = v then [(w, task)] else [] := by
  by_cases h : w = v
  · simp [ofWorker, h]
  · simp [ofWorker, h]

private theorem ofWorker_append (w : Fin n) (starts starts' : List (Fin n × κ)) :
    ofWorker w (starts ++ starts') = ofWorker w starts ++ ofWorker w starts' :=
  List.filter_append ..

private theorem passes_quiet {a : Action κ n k} (hpushes : s.pushes a = [])
    (htakes : s.takes a = []) (hqueue : s'.queue = s.queue) (hstarted : s'.started = s.started)
    (hhand : ∀ w, (s'.workers w).hand = (s.workers w).hand) : Passes s s' a where
  queue := by rw [hpushes, htakes, hqueue, List.append_nil, List.map_nil, List.nil_append]
  hand w := by
    rw [htakes, hstarted, hhand w]
    exact List.append_nil _

private theorem hand_setWorker {w : Fin n} {pc : Worker κ} (h : pc.hand = (s.workers w).hand)
    (v : Fin n) :
    ((s.setWorker w pc).workers v).hand = (s.workers v).hand :=
  apply_update_eq Worker.hand s.workers h v

theorem passes_stepWorker {w : Fin n} (hs : s.stepWorker w (s.workers w) = some s') :
    Passes s s' (.worker w) := by
  have htakes : s.workers w ≠ .popTask → s.takes (.worker w) = [] := by
    intro hne
    rw [Pool.takes]
    split
    · rename_i hpc _
      exact absurd hpc hne
    · rfl
  generalize hpc : s.workers w = pc at hs htakes
  cases pc with
  | popTask =>
    rw [Pool.stepWorker] at hs
    split at hs
    · rename_i hqueue
      obtain rfl := Option.some.inj hs
      have htakes : s.takes (.worker w) = [] := by rw [Pool.takes, hpc, hqueue]
      exact passes_quiet rfl htakes rfl rfl (hand_setWorker (by rw [hpc]; rfl))
    · rename_i task rest hqueue
      obtain rfl := Option.some.inj hs
      have htakes : s.takes (.worker w) = [(w, task)] := by rw [Pool.takes, hpc, hqueue]
      refine ⟨?_, fun v ↦ ?_⟩
      · rw [htakes, hqueue]
        exact List.append_nil _
      · rw [htakes, ofWorker_singleton]
        by_cases hv : w = v
        · subst hv
          rw [hpc, if_pos rfl, Pool.workers_setWorker_self]
          exact congrArg (· ++ _) (List.append_nil _)
        · rw [if_neg hv, List.append_nil]
          refine congrArg (fun pc : Worker κ ↦ ofWorker v s.started ++ pc.hand.map (Prod.mk v)) ?_
          exact (Function.update_of_ne (Ne.symm hv) ..).symm
  | callTask task =>
    obtain rfl := Option.some.inj hs
    refine ⟨?_, fun v ↦ ?_⟩
    · rw [htakes fun heq ↦ by cases heq]
      exact List.append_nil _
    · rw [htakes fun heq ↦ by cases heq]
      change _ = ofWorker v (s.started ++ [(w, task)]) ++ _
      rw [ofWorker_append, ofWorker_singleton,
        show ofWorker v ([] : List (Fin n × κ)) = [] from rfl, List.append_nil]
      by_cases hv : w = v
      · subst hv
        rw [hpc, if_pos rfl, Pool.workers_setWorker_self]
        exact (List.append_nil _).symm
      · rw [if_neg hv, List.append_nil]
        refine congrArg (fun pc : Worker κ ↦ ofWorker v s.started ++ pc.hand.map (Prod.mk v)) ?_
        exact (Function.update_of_ne (Ne.symm hv) ..).symm
  | lockMutex | woken =>
    rw [Pool.stepWorker, Option.ite_none_right_eq_some, Option.some.injEq] at hs
    obtain ⟨-, rfl⟩ := hs
    exact passes_quiet rfl (htakes fun heq ↦ by cases heq) rfl rfl
      (hand_setWorker (by rw [hpc]; rfl))
  | loop =>
    obtain rfl := Option.some.inj hs
    refine passes_quiet rfl (htakes fun heq ↦ by cases heq) rfl rfl (hand_setWorker ?_)
    rw [hpc]
    cases s.quit <;> rfl
  | testBlock =>
    obtain rfl := Option.some.inj hs
    refine passes_quiet rfl (htakes fun heq ↦ by cases heq) rfl rfl (hand_setWorker ?_)
    rw [hpc]
    cases s.block <;> rfl
  | condWait | unlockRetry | unlockNull | runTask task =>
    obtain rfl := Option.some.inj hs
    exact passes_quiet rfl (htakes fun heq ↦ by cases heq) rfl rfl
      (hand_setWorker (by rw [hpc]; rfl))
  | blocked | exited => cases hs

theorem passes_of_step {a : Action κ n k} (hs : s.step a = some s') : Passes s s' a := by
  cases a with
  | worker w => exact passes_stepWorker hs
  | spurious w =>
    rw [Pool.step] at hs
    split at hs
    · rename_i hpc
      obtain rfl := Option.some.inj hs
      exact passes_quiet rfl rfl rfl rfl (hand_setWorker (by rw [hpc]; rfl))
    · cases hs
  | post p task =>
    rw [Pool.step] at hs
    split at hs
    · obtain rfl := Option.some.inj hs
      exact passes_quiet rfl rfl rfl rfl fun _ ↦ rfl
    · cases hs
  | push p =>
    rw [Pool.step] at hs
    split at hs
    · rename_i task hpc
      obtain rfl := Option.some.inj hs
      have hpushes : s.pushes (.push p) = [task] := by rw [Pool.pushes, hpc]
      refine ⟨?_, fun w ↦ ?_⟩
      · rw [hpushes]
        rfl
      · exact List.append_nil _
    · cases hs
  | signal p target =>
    simp only [Pool.step] at hs
    split at hs
    · split at hs
      · rename_i hpc
        obtain rfl := Option.some.inj hs
        refine passes_quiet rfl rfl rfl rfl fun v ↦ ?_
        exact apply_update_eq Worker.hand s.workers (by rw [hpc]; rfl) v
      · cases hs
    · rw [Option.ite_none_right_eq_some, Option.some.injEq] at hs
      obtain ⟨-, rfl⟩ := hs
      exact passes_quiet rfl rfl rfl rfl fun _ ↦ rfl
    · cases hs
  | terminate =>
    rw [Pool.step] at hs
    generalize s.terminator = pc at hs
    cases pc with
    | lockMutex =>
      rw [Pool.stepTerminator, Option.ite_none_right_eq_some, Option.some.injEq] at hs
      obtain ⟨-, rfl⟩ := hs
      exact passes_quiet rfl rfl rfl rfl fun _ ↦ rfl
    | broadcast =>
      obtain rfl := Option.some.inj hs
      refine passes_quiet rfl rfl rfl rfl fun w ↦ ?_
      dsimp only
      split
      · rename_i hblocked
        generalize s.workers w = pc at hblocked
        cases pc with
        | blocked => rfl
        | _ => cases hblocked
      · rfl
    | storeQuit | clearBlock | unlockMutex =>
      obtain rfl := Option.some.inj hs
      exact passes_quiet rfl rfl rfl rfl fun _ ↦ rfl
    | done => cases hs

theorem passes_of_run {labels : List (Action κ n k)}
    (hrun : (machine κ n k).run (machine κ n k).init labels = some s) :
    (machine κ n k).outputs Pool.pushes (machine κ n k).init labels =
        ((machine κ n k).outputs Pool.takes (machine κ n k).init labels).map Prod.snd ++ s.queue ∧
      ∀ w, ofWorker w ((machine κ n k).outputs Pool.takes (machine κ n k).init labels) =
        ofWorker w s.started ++ (s.workers w).hand.map (Prod.mk w) := by
  refine Machine.run_invariant (J := fun labels (s : Pool κ n k) ↦
    (machine κ n k).outputs Pool.pushes (machine κ n k).init labels =
      ((machine κ n k).outputs Pool.takes (machine κ n k).init labels).map Prod.snd ++ s.queue ∧
    ∀ w, ofWorker w ((machine κ n k).outputs Pool.takes (machine κ n k).init labels) =
      ofWorker w s.started ++ (s.workers w).hand.map (Prod.mk w)) hrun
    ⟨rfl, fun _ ↦ rfl⟩ ?_
  rintro as u a v hu ⟨hqueue, hhand⟩ hv
  have hpasses := passes_of_step (show u.step a = some v from hv)
  rw [Machine.outputs_concat _ hu, Machine.outputs_concat _ hu]
  refine ⟨?_, fun w ↦ ?_⟩
  · rw [hqueue, List.append_assoc, hpasses.queue, List.map_append, List.append_assoc]
  · rw [ofWorker_append, hhand w]
    exact hpasses.hand w

/-- If no worker has a task in its hands, the tasks that were started are those that were taken. -/
theorem started_perm {taken : List (Fin n × κ)}
    (htaken : ∀ w, ofWorker w taken = ofWorker w s.started ++ (s.workers w).hand.map (Prod.mk w))
    (hhand : ∀ w, (s.workers w).hand = []) : s.started.Perm taken := by
  classical
  refine List.perm_iff_count.mpr fun start ↦ ?_
  have hof := htaken start.1
  rw [hhand start.1, List.map_nil, List.append_nil] at hof
  have hcount : ∀ starts : List (Fin n × κ),
      (ofWorker start.1 starts).count start = starts.count start := fun starts ↦
    List.count_filter (decide_eq_true rfl)
  rw [← hcount s.started, ← hof, hcount]

/-- **Every task is started once, in order.** In every run, whatever the waits, signals and spurious
wake-ups: the tasks are taken in the order in which they are pushed, those that have not been taken
are in the queue, and each worker starts the tasks that it takes in their order, one after the
other. When all workers have exited, the tasks that were started are those that were taken. -/
theorem tasks_started {labels : List (Action κ n k)}
    (hrun : (machine κ n k).run (machine κ n k).init labels = some s) :
    ∃ taken : List (Fin n × κ),
      (machine κ n k).outputs Pool.pushes (machine κ n k).init labels =
        taken.map Prod.snd ++ s.queue ∧
      (∀ w, ofWorker w taken =
        ofWorker w s.started ++ (s.workers w).hand.map (Prod.mk w)) ∧
      ((∀ w, s.workers w = .exited) → s.started.Perm taken) := by
  obtain ⟨hqueue, htaken⟩ := passes_of_run hrun
  refine ⟨_, hqueue, htaken, fun hexited ↦ started_perm htaken fun w ↦ ?_⟩
  rw [hexited w]
  rfl

end Starting

/-- Two tasks, of which one is started before the pool is terminated, and the other never. -/
theorem tasks_started_terminated : ∃ (s : Pool ℕ 1 1) (taken : List (Fin 1 × ℕ)),
    s.queue = [8] ∧ s.started = [(0, 7)] ∧ [7, 8] = taken.map Prod.snd ++ s.queue ∧
    (∀ w, ofWorker w taken = ofWorker w s.started ++ (s.workers w).hand.map (Prod.mk w)) ∧
    ((∀ w, s.workers w = .exited) → s.started.Perm taken) := by
  let labels : List (Action ℕ 1 1) :=
    [.post 0 7, .push 0, .signal 0 none, .worker 0, .worker 0, .post 0 8, .push 0, .worker 0,
      .terminate, .worker 0, .worker 0]
  have hfinal : ((machine ℕ 1 1).run (machine ℕ 1 1).init labels).map
      (fun s ↦ (s.queue, s.started)) = some ([8], [(0, 7)]) := by decide +kernel
  obtain ⟨s, hs, hfeatures⟩ := Option.map_eq_some_iff.mp hfinal
  obtain ⟨hqueue, hstarted⟩ := Prod.mk.inj hfeatures
  have hpushed : (machine ℕ 1 1).outputs Pool.pushes (machine ℕ 1 1).init labels = [7, 8] := by
    decide +kernel
  obtain ⟨taken, hall⟩ := tasks_started hs
  rw [hpushed] at hall
  exact ⟨s, taken, hqueue, hstarted, hall⟩

/-! ## Destroying

The loop pops a node and frees it, until the queue is empty. What `free` writes into a node that has
been taken off does not touch the chain of the others. -/

/-- The loop of `__taskqueue_destroy`, with the nodes that it frees. What `free` does to the memory
is `free`. -/
def taskqueueDestroy (queue : ℕ) (free : ℕ → Memory → Memory) : ℕ → Memory → Option (List ℕ)
  | 0, _ => none
  | fuel + 1, m =>
      if (popTask queue m).2 = 0 then some []
      else
        (taskqueueDestroy queue free fuel (free (popTask queue m).2 (popTask queue m).1)).map
          fun freed ↦ (popTask queue m).2 :: freed

section Destroying

variable {queue : ℕ} {pending : List ℕ} {m : Memory} {s : TaskQueue} {free : ℕ → Memory → Memory}

theorem Chained.freed (h : Chained queue pending s) {task : ℕ} (hnode : TaskQueue.IsNode queue task)
    (hbeside : ∀ other ∈ pending, TaskQueue.Beside task other)
    (hfree : ∀ m b, b < task ∨ task + taskSize ≤ b → free task m b = m b) :
    Chained queue pending { s with memory := free task s.memory } := by
  have hplace := hnode.2.2
  rw [taskSize] at hplace hfree
  have hsame : ∀ a, a + 8 ≤ task ∨ task + 24 ≤ a →
      (free task s.memory).load a = s.memory.load a :=
    fun a ha ↦ Memory.load_congr fun b hle hlt ↦ hfree s.memory b (by omega)
  refine ⟨h.pushed_eq, h.linked.congr ?_, ?_, h.node, h.beside⟩
  · refine List.forall_mem_cons.mpr ⟨hsame queue (by omega), fun other hother ↦ hsame other ?_⟩
    have happart := hbeside other hother
    rw [TaskQueue.Beside, taskSize] at happart
    omega
  · rw [← h.tail]
    exact hsame (tailField queue) (by rw [tailField]; omega)

theorem Chained.destroy (h : Chained queue pending s) (hfits : queue < Memory.size)
    (hfree : ∀ task m b, b < task ∨ task + taskSize ≤ b → free task m b = m b) {fuel : ℕ}
    (hfuel : pending.length < fuel) :
    taskqueueDestroy queue free fuel s.memory = some pending := by
  induction pending generalizing s fuel with
  | nil =>
    obtain ⟨fuel, rfl⟩ := Nat.exists_eq_add_of_lt hfuel
    rw [List.length_nil, Nat.zero_add, taskqueueDestroy, h.popTask_nil, if_pos rfl]
  | cons task rest ih =>
    obtain ⟨fuel, rfl⟩ := Nat.exists_eq_succ_of_ne_zero (Nat.ne_of_gt (Nat.zero_lt_of_lt hfuel))
    have hnode := h.node task List.mem_cons_self
    have htask : (popTask queue s.memory).2 = task := (popTask_snd queue s.memory).trans h.linked.1
    have hfreed := (h.pop hfits).freed hnode (List.pairwise_cons.mp h.beside).1 (hfree task)
    rw [taskqueueDestroy, htask, if_neg hnode.1, ih hfreed (Nat.lt_of_succ_lt_succ hfuel),
      Option.map_some]

/-- **Destroying the queue.** `__taskqueue_destroy` terminates, and frees the nodes in the queue,
each of them once, whatever `free` writes to a node. -/
theorem destroy_frees (hfits : queue < Memory.size) (hs : (queueMachine queue m).Reachable s)
    (hfree : ∀ task m b, b < task ∨ task + taskSize ≤ b → free task m b = m b) :
    taskqueueDestroy queue free (s.pending.length + 1) s.memory = some s.pending ∧
      s.pending.Nodup := by
  have hchained := chained_of_reachable hfits hs
  refine ⟨hchained.destroy hfits hfree (Nat.lt_succ_self _), hchained.beside.imp ?_⟩
  rintro task other hbeside rfl
  rw [TaskQueue.Beside, taskSize] at hbeside
  omega

end Destroying

/-- Two of three nodes are left, and `free` overwrites their links. -/
theorem destroy_frees_overwritten : ∃ s : TaskQueue, s.pending = [67000, 68000] ∧
    taskqueueDestroy 65536 (fun task m ↦ m.writeByte task 0xdd) (s.pending.length + 1) s.memory =
      some s.pending ∧ s.pending.Nodup := by
  obtain ⟨s, hs, hpending⟩ := Machine.exists_reachable_of_run TaskQueue.pending
    [.push 66000, .push 67000, .pop, .push 68000] (M := queueMachine 65536 fun _ ↦ 255)
    (b := [67000, 68000]) (by decide +kernel)
  refine ⟨s, hpending, destroy_frees (by decide) hs fun task m b hb ↦ ?_⟩
  rw [taskSize] at hb
  rw [Memory.writeByte, if_neg (by omega)]

end ThreadPool

end FoundationComponents
