import FoundationComponents.ThreadPool.Basic
import FoundationComponents.ThreadPool.Sections

/-!
# One queue

The pool has a list for its queue, on which a push and a pop are one step each. `Queue` executes the
two functions on a memory of bytes, and `Sections` takes them apart into their loads and stores, as
several threads execute them. Here all three are runs of one machine: a list, to which tasks are
appended and from which the first one is taken.

In the sections a task is in the queue from the store that links its node, and a pop has decided
what it returns as soon as it has found `head` null or has moved it on.
-/

namespace FoundationComponents

namespace ThreadPool

/-- A push, or a pop and the task it returns. -/
inductive ListAction (κ : Type*)
  | push (task : κ)
  | pop (task : Option κ)
  deriving Repr, DecidableEq

/-- The queue as the rest of the pool sees it. -/
def listQueue (κ : Type*) [DecidableEq κ] : Machine (List κ) (ListAction κ) where
  init := []
  step queue
    | .push task => some (queue ++ [task])
    | .pop task => if queue.head? = task then some queue.tail else none

section ListQueue

variable {κ : Type*} [DecidableEq κ]

theorem listQueue_push (queue : List κ) (task : κ) :
    (listQueue κ).run queue [.push task] = some (queue ++ [task]) :=
  Machine.run_singleton ..

theorem listQueue_pop {queue : List κ} {task : Option κ} (h : queue.head? = task) :
    (listQueue κ).run queue [.pop task] = some queue.tail :=
  (Machine.run_singleton ..).trans (if_pos h)

end ListQueue

/-! ## The pool -/

section Pool

variable {κ : Type*} {n k : ℕ} {s s' : Pool κ n k}

/-- What a step of the pool does to the queue. -/
def Pool.onQueue (s : Pool κ n k) : Action κ n k → List (ListAction κ)
  | .push p =>
      match s.producers p with
      | .push task => [.push task]
      | _ => []
  | .worker w =>
      match s.workers w, s.queue with
      | .popTask, [] => [.pop none]
      | .popTask, task :: _ => [.pop (some task)]
      | _, _ => []
  | _ => []

theorem Pool.queue_stepTerminator (hs : s.stepTerminator s.terminator = some s') :
    s'.queue = s.queue := by
  generalize s.terminator = pc at hs
  cases pc with
  | lockMutex =>
    rw [Pool.stepTerminator, Option.ite_none_right_eq_some, Option.some.injEq] at hs
    obtain ⟨-, rfl⟩ := hs
    rfl
  | done => cases hs
  | _ =>
    obtain rfl := Option.some.inj hs
    rfl

variable [DecidableEq κ]

theorem Pool.onQueue_worker {w : Fin n} (hs : s.stepWorker w (s.workers w) = some s') :
    (listQueue κ).run s.queue (s.onQueue (.worker w)) = some s'.queue := by
  rw [Pool.onQueue]
  generalize s.workers w = pc at hs ⊢
  cases pc with
  | popTask =>
    rw [Pool.stepWorker] at hs
    cases hqueue : s.queue with
    | nil =>
      simp only [hqueue, Option.some.injEq] at hs
      obtain rfl := hs
      exact (listQueue_pop rfl).trans (congrArg some hqueue.symm)
    | cons task rest =>
      simp only [hqueue, Option.some.injEq] at hs
      obtain rfl := hs
      exact listQueue_pop rfl
  | lockMutex | woken =>
    rw [Pool.stepWorker, Option.ite_none_right_eq_some, Option.some.injEq] at hs
    obtain ⟨-, rfl⟩ := hs
    rfl
  | blocked | exited => cases hs
  | _ =>
    obtain rfl := Option.some.inj hs
    rfl

theorem Pool.onQueue_step {a : Action κ n k} (hs : s.step a = some s') :
    (listQueue κ).run s.queue (s.onQueue a) = some s'.queue := by
  cases a with
  | worker w => exact Pool.onQueue_worker hs
  | push p =>
    rw [Pool.step] at hs
    rw [Pool.onQueue]
    generalize s.producers p = pc at hs ⊢
    cases pc with
    | push task =>
      obtain rfl := Option.some.inj hs
      exact listQueue_push s.queue task
    | _ => cases hs
  | spurious w =>
    rw [Pool.step] at hs
    split at hs
    · obtain rfl := Option.some.inj hs
      rfl
    · cases hs
  | post p task =>
    rw [Pool.step] at hs
    split at hs
    · obtain rfl := Option.some.inj hs
      rfl
    · cases hs
  | signal p target =>
    simp only [Pool.step] at hs
    split at hs
    · split at hs
      · obtain rfl := Option.some.inj hs
        rfl
      · cases hs
    · rw [Option.ite_none_right_eq_some, Option.some.injEq] at hs
      obtain ⟨-, rfl⟩ := hs
      rfl
    · cases hs
  | terminate => exact congrArg some (Pool.queue_stepTerminator hs).symm

/-- **The pool uses a queue.** -/
theorem pool_runs_queue {labels : List (Action κ n k)}
    (h : (machine κ n k).run (machine κ n k).init labels = some s) :
    (listQueue κ).run [] ((machine κ n k).outputs Pool.onQueue (machine κ n k).init labels) =
      some s.queue :=
  Machine.run_outputs (J := fun _ ↦ True) (r := Pool.queue) h trivial fun _ hs ↦
    ⟨trivial, Pool.onQueue_step hs⟩

end Pool

/-! ## The functions in memory -/

section Memory

variable {queue : ℕ} {m : Memory} {s s' : TaskQueue}

/-- What a call does to the queue: a pop returns the null pointer if it has found no task. -/
def TaskQueue.onQueue (queue : ℕ) (s : TaskQueue) : QueueAction → List (ListAction ℕ)
  | .push task => [.push task]
  | .pop => [.pop (TaskQueue.returned (popTask queue s.memory).2).head?]
  | .write _ _ => []

theorem TaskQueue.onQueue_step {a : QueueAction} (h : Chained queue s.pending s)
    (hs : s.step queue a = some s') :
    (listQueue ℕ).run s.pending (s.onQueue queue a) = some (a.onPending s.pending) := by
  cases a with
  | push task => exact listQueue_push s.pending task
  | pop =>
    refine listQueue_pop ?_
    rw [popTask_snd, h.linked.load_eq]
    cases hpending : s.pending with
    | nil => rfl
    | cons task rest =>
      have hsome : task ≠ 0 := (h.node task (hpending ▸ List.mem_cons_self)).1
      rw [List.headD_cons, TaskQueue.returned, if_neg hsome]
      rfl
  | write address byte => rfl

/-- **`__push_task` and `__pop_task` implement the queue**, one call after the other. -/
theorem memory_runs_queue (hfits : queue < Memory.size) {actions : List QueueAction}
    (h : (queueMachine queue m).run (queueMachine queue m).init actions = some s) :
    (listQueue ℕ).run [] ((queueMachine queue m).outputs (TaskQueue.onQueue queue)
      (queueMachine queue m).init actions) = some s.pending := by
  refine Machine.run_outputs (J := fun s ↦ Chained queue s.pending s) (r := TaskQueue.pending) h
    (Chained.create hfits m) fun {u a v} hu hs ↦ ?_
  have hv := hu.step hfits hs
  have heq := hv.pending_eq
  exact ⟨heq ▸ hv, (TaskQueue.onQueue_step hu hs).trans (congrArg some heq.symm)⟩

end Memory

/-! ## The sections

A task is in the queue from the store that links its node, and a pop has decided what it returns
when it has loaded `head`. Every other access leaves the list alone. -/

section Sections

variable {n queue : ℕ} {m : Memory} {s s' : Sections n}

/-- The tasks in the queue. -/
def Sections.waiting (s : Sections n) : List Task := s.queued.map s.tasks

/-- What an access does to the queue. -/
def Sections.onQueue (queue : ℕ) (s : Sections n) : Access n → List (ListAction Task)
  | .step t =>
      match s.threads t with
      | .storeLink node _ => [.push (s.tasks node)]
      | .testHead => if s.memory.load queue = 0 then [.pop none] else []
      | .storeHead node _ => [.pop (some (s.tasks node))]
      | _ => []
  | _ => []

theorem Sections.onQueue_access {t : Fin n} (h : Kept queue s)
    (hs : s.access queue t (s.threads t) = some s') :
    (listQueue Task).run s.waiting (s.onQueue queue (.step t)) = some s'.waiting := by
  have hsection : ∀ pc, s.threads t = pc → pc.holds = true →
      pc.Section queue s.memory s.queued := fun pc ht ↦ h.section_of_holds ht
  rw [Sections.onQueue]
  generalize ht : s.threads t = pc at hs ⊢
  cases pc with
  | storeLink node tail =>
    obtain rfl := Option.some.inj hs
    refine (listQueue_push s.waiting _).trans (congrArg some ?_)
    change s.queued.map s.tasks ++ [s.tasks node] = (s.queued ++ [node]).map s.tasks
    rw [List.map_append, List.map_singleton]
  | testHead =>
    obtain rfl := Option.some.inj hs
    dsimp only
    split
    · rename_i hhead
      have hempty : s.waiting = [] := by
        rw [Sections.waiting, h.load_head_eq_zero_iff.mp hhead, List.map_nil]
      rw [hempty]
      exact (listQueue_pop rfl).trans (congrArg some hempty.symm)
    · rfl
  | storeHead node next =>
    obtain rfl := Option.some.inj hs
    obtain ⟨rest, hqueued⟩ := List.head?_eq_some_iff.mp (hsection _ ht rfl).2.1
    refine (listQueue_pop ?_).trans (congrArg some ?_)
    · rw [Sections.waiting, hqueued]
      rfl
    · exact List.map_tail.symm
  | pushLock | popLock =>
    rw [Sections.access, Option.ite_none_right_eq_some, Option.some.injEq] at hs
    obtain ⟨-, rfl⟩ := hs
    rfl
  | idle => cases hs
  | _ =>
    obtain rfl := Option.some.inj hs
    rfl

theorem Sections.onQueue_step {a : Access n} (h : Kept queue s) (hs : s.step queue a = some s') :
    (listQueue Task).run s.waiting (s.onQueue queue a) = some s'.waiting := by
  cases a with
  | step t => exact Sections.onQueue_access h hs
  | post t node task =>
    rw [Sections.step, Option.ite_none_right_eq_some, Option.some.injEq] at hs
    obtain ⟨⟨-, -, hfresh, -⟩, rfl⟩ := hs
    refine congrArg some (List.map_congr_left fun other hother ↦ (Function.update_of_ne ?_ ..).symm)
    rintro rfl
    exact not_beside_self other (hfresh other (h.mem_live_of_queued hother))
  | get t | write address byte =>
    rw [Sections.step, Option.ite_none_right_eq_some, Option.some.injEq] at hs
    obtain ⟨-, rfl⟩ := hs
    rfl

/-- **The sections implement the queue.** Whatever the threads do in between, their loads and stores
amount to a run of it: the calls take effect one after the other, in the order of the accesses that
decide them. -/
theorem sections_run_queue (hfits : queue < Memory.size) {accesses : List (Access n)}
    (h : (sectionsMachine n queue m).run (sectionsMachine n queue m).init accesses = some s) :
    (listQueue Task).run [] ((sectionsMachine n queue m).outputs (Sections.onQueue queue)
      (sectionsMachine n queue m).init accesses) = some s.waiting :=
  Machine.run_outputs (J := Kept queue) (r := Sections.waiting) h (kept_init n hfits m)
    fun hK hs ↦ ⟨hK.step hfits hs, Sections.onQueue_step hK hs⟩

end Sections

end ThreadPool

end FoundationComponents
