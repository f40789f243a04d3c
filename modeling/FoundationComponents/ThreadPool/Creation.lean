import FoundationComponents.Machine.Basic
import Mathlib.Data.Nat.Notation
import Mathlib.Logic.Function.Basic

/-!
# Creation of the pool

`thrdpool_create` starts the workers first. Only then it creates the task queue, stores it in the
pool and initialises `quit`. A worker begins with a load of `quit` and goes on to read `task_queue`;
nothing makes it wait for the creation to get there. If the creation of the queue fails, the pool is
freed while the workers that were started are still there: they are neither told to quit nor joined.
Only the rollback inside `__threads_create` stops and joins the workers, and it passes a
`task_queue` that has not been initialised to `__nonblock`, which may or may not come back.

The fields of the pool are modelled with whether they have been initialised. What a worker does
inside `__get_task` is left open: it comes back with a task or without. The two things that must not
happen are faults, which end the run.
-/

namespace FoundationComponents

namespace ThreadPool

/-- Where `thrdpool_create` is, with `__threads_create`, `__threads_terminate` and
`__taskqueue_create` inlined. -/
inductive Creator
  /-- In front of `malloc(sizeof(thrdpool_t))`. -/
  | mallocPool
  /-- In front of `pthread_attr_init`. -/
  | attrInit
  | mallocThreads
  /-- The loop over `pthread_create`; `i` threads have been started. -/
  | createThread (i : ℕ)
  /-- `pthread_create` has failed for thread `i`; in front of the store of `quit`. -/
  | storeQuit (i : ℕ)
  /-- In front of `__nonblock(pool->task_queue)`. -/
  | nonblock (i : ℕ)
  /-- The loop over `pthread_join`. -/
  | joinThread (i j : ℕ)
  | mallocQueue
  | mutexInit
  | condInit
  /-- In front of `pool->task_queue = queue`. -/
  | setQueue
  /-- In front of `atomic_init(&pool->quit, 0)`. -/
  | initQuit
  /-- In front of `free(pool)`. -/
  | freePool
  /-- The call has returned the pool, or `NULL`. -/
  | returned (pool : Bool)
  /-- `__nonblock` has not come back. -/
  | crashed
  deriving Repr, DecidableEq

/-- Where a worker is. -/
inductive Started
  /-- The thread has not been created. -/
  | no
  /-- In front of the load of `quit`. -/
  | loadQuit
  /-- In front of the load of `task_queue`. -/
  | loadQueue
  /-- In `__get_task`, or in the handler of a task. -/
  | getTask
  | exited
  deriving Repr, DecidableEq

/-- The worker has been started and has not returned. -/
def Started.isRunning : Started → Bool
  | .no => false
  | .exited => false
  | _ => true

/-- What must not happen. -/
inductive CreationFault
  /-- A worker reads `quit` before it has been initialised. -/
  | readsQuit
  /-- A worker reads `task_queue` before it has been initialised. -/
  | readsQueue
  /-- The pool is freed while a worker is running. -/
  | freesRunning
  deriving Repr, DecidableEq

/-- The fields of the pool, none of which is initialised by `malloc`, and the threads. -/
structure Creation (n : ℕ) where
  creator : Creator
  quit : Option Bool
  taskQueue : Bool
  workers : Fin n → Started
  fault : Option CreationFault

/-- The next step of `thrdpool_create`, with whether the call it makes succeeds; the steps of a
worker, which comes out of `__get_task` with a task or without; and `thrdpool_terminate`. -/
inductive CreationStep (n : ℕ)
  | create (ok : Bool)
  | loadQuit (w : Fin n)
  | loadQueue (w : Fin n)
  | getTask (w : Fin n) (task : Bool)
  | terminate
  deriving Repr, DecidableEq

namespace Creation

variable {n : ℕ} (s : Creation n)

def goto (creator : Creator) : Creation n := { s with creator := creator }

def setWorker (w : Fin n) (worker : Started) : Creation n :=
  { s with workers := Function.update s.workers w worker }

def fail (fault : CreationFault) : Creation n := { s with fault := some fault }

@[simp] theorem workers_setWorker_self (w : Fin n) (worker : Started) :
    (s.setWorker w worker).workers w = worker := Function.update_self ..

private theorem workers_setWorker_of_ne {w w' : Fin n} (h : w' ≠ w) (worker : Started) :
    (s.setWorker w worker).workers w' = s.workers w' := Function.update_of_ne h ..

/-- `thrdpool_create`. -/
def create (ok : Bool) : Option (Creation n) :=
  match s.creator with
  | .mallocPool => some (s.goto (if ok then .attrInit else .returned false))
  | .attrInit => some (s.goto (if ok then .mallocThreads else .freePool))
  | .mallocThreads => some (s.goto (if ok then .createThread 0 else .freePool))
  | .createThread i =>
      if h : i < n then
        some
          (if ok then (s.setWorker ⟨i, h⟩ .loadQuit).goto (.createThread (i + 1))
          else s.goto (.storeQuit i))
      else some (s.goto .mallocQueue)
  | .storeQuit i => some ({ s with quit := some true }.goto (.nonblock i))
  | .nonblock i => some (s.goto (if ok then .joinThread i 0 else .crashed))
  | .joinThread i j =>
      if h : j < n then
        if j < i then
          if s.workers ⟨j, h⟩ = .exited then some (s.goto (.joinThread i (j + 1))) else none
        else some (s.goto .freePool)
      else some (s.goto .freePool)
  | .mallocQueue => some (s.goto (if ok then .mutexInit else .freePool))
  | .mutexInit => some (s.goto (if ok then .condInit else .freePool))
  | .condInit => some (s.goto (if ok then .setQueue else .freePool))
  | .setQueue => some ({ s with taskQueue := true }.goto .initQuit)
  | .initQuit => some ({ s with quit := some false }.goto (.returned true))
  | .freePool =>
      some
        (if ∃ w, (s.workers w).isRunning = true then (s.goto (.returned false)).fail .freesRunning
        else s.goto (.returned false))
  | .returned _ => none
  | .crashed => none

/-- A step, unless there has been a fault. -/
def step (a : CreationStep n) : Option (Creation n) :=
  match s.fault with
  | some _ => none
  | none =>
      match a with
      | .create ok => s.create ok
      | .loadQuit w =>
          if s.workers w = .loadQuit then
            match s.quit with
            | none => some (s.fail .readsQuit)
            | some true => some (s.setWorker w .exited)
            | some false => some (s.setWorker w .loadQueue)
          else none
      | .loadQueue w =>
          if s.workers w = .loadQueue then
            if s.taskQueue then some (s.setWorker w .getTask) else some (s.fail .readsQueue)
          else none
      | .getTask w task =>
          if s.workers w = .getTask then
            some (s.setWorker w (if task then .loadQuit else .exited))
          else none
      | .terminate =>
          if s.creator = .returned true then some { s with quit := some true } else none

end Creation

/-- `thrdpool_create(n)`. -/
def creationMachine (n : ℕ) : Machine (Creation n) (CreationStep n) where
  init := ⟨.mallocPool, none, false, fun _ ↦ .no, none⟩
  step := Creation.step

namespace Creation

variable {n : ℕ} (s : Creation n)

/-- The creation of the queue is going on. -/
def createsQueue : Bool :=
  match s.creator with
  | .mallocQueue => true
  | .mutexInit => true
  | .condInit => true
  | _ => false

/-- `thrdpool_create` has stored a value in `quit`: at its end, or in the rollback. -/
def hasStoredQuit : Bool :=
  match s.creator with
  | .nonblock _ => true
  | .joinThread _ _ => true
  | .crashed => true
  | .returned pool => pool
  | _ => false

/-- The condition on the threads and on the failures: a worker does not begin to run before `quit`
has been stored, and the creation of the queue does not fail if there are workers. -/
def Orderly : CreationStep n → Prop
  | .loadQuit _ => s.hasStoredQuit = true
  | .create ok => s.createsQueue = true → ok = true ∨ n = 0
  | _ => True

instance (a : CreationStep n) : Decidable (s.Orderly a) := by
  cases a <;> simp only [Orderly] <;> infer_instance

/-! ## The invariant

Which fields are initialised depends on how far the creation has come, and what a worker has read on
where it is. The condition on the run is what connects the two. -/

/-- What holds of the fields and of the workers, by where the creation is. -/
def Expects : Creator → Prop
  | .mallocPool => s.quit = none ∧ s.taskQueue = false ∧ ∀ w, s.workers w = .no
  | .attrInit => s.quit = none ∧ s.taskQueue = false ∧ ∀ w, s.workers w = .no
  | .mallocThreads => s.quit = none ∧ s.taskQueue = false ∧ ∀ w, s.workers w = .no
  | .createThread i =>
      s.quit = none ∧ s.taskQueue = false ∧ (∀ w : Fin n, i ≤ w.val → s.workers w = .no) ∧
        ∀ w : Fin n, w.val < i → s.workers w ≠ .no
  | .storeQuit i =>
      s.quit = none ∧ s.taskQueue = false ∧ ∀ w : Fin n, i ≤ w.val → s.workers w = .no
  | .nonblock i =>
      s.quit = some true ∧ s.taskQueue = false ∧ ∀ w : Fin n, i ≤ w.val → s.workers w = .no
  | .joinThread i j =>
      s.quit = some true ∧ s.taskQueue = false ∧
        (∀ w : Fin n, i ≤ w.val → s.workers w = .no) ∧
        ∀ w : Fin n, w.val < j → s.workers w = .exited ∨ s.workers w = .no
  | .mallocQueue => s.quit = none ∧ s.taskQueue = false ∧ ∀ w, s.workers w ≠ .no
  | .mutexInit => s.quit = none ∧ s.taskQueue = false ∧ ∀ w, s.workers w ≠ .no
  | .condInit => s.quit = none ∧ s.taskQueue = false ∧ ∀ w, s.workers w ≠ .no
  | .setQueue => s.quit = none ∧ s.taskQueue = false
  | .initQuit => s.quit = none ∧ s.taskQueue = true
  | .freePool => ∀ w, (s.workers w).isRunning = false
  | .returned true => s.quit ≠ none ∧ s.taskQueue = true
  | .returned false => ∀ w, (s.workers w).isRunning = false
  | .crashed => s.quit = some true ∧ s.taskQueue = false

/-- The invariant of the runs without a fault. -/
structure Sound : Prop where
  no_fault : s.fault = none
  expects : s.Expects s.creator
  /-- Nobody gets past the first load before `quit` is initialised. -/
  unread : s.quit = none → ∀ w, s.workers w = .no ∨ s.workers w = .loadQuit
  /-- Nobody gets past it but with an initialised queue. -/
  unqueued : s.taskQueue = false → ∀ w, s.workers w ≠ .loadQueue ∧ s.workers w ≠ .getTask

variable {s} {s' : Creation n} {w : Fin n} {a : CreationStep n}

private theorem workers_setWorker_of_idle (hw : (s.workers w).isRunning = true) (worker : Started)
    {w' : Fin n} (hw' : (s.workers w').isRunning = false) :
    (s.setWorker w worker).workers w' = s.workers w' := by
  refine workers_setWorker_of_ne s ?_ worker
  rintro rfl
  rw [hw] at hw'
  cases hw'

theorem Expects.setWorker {creator : Creator} (h : s.Expects creator)
    (hw : (s.workers w).isRunning = true) {worker : Started} (hstarted : worker ≠ .no) :
    (s.setWorker w worker).Expects creator := by
  have hthere : ∀ {w'}, s.workers w' ≠ .no → (s.setWorker w worker).workers w' ≠ .no := by
    intro w' hw'
    by_cases hsame : w' = w
    · subst hsame
      rwa [workers_setWorker_self]
    · rwa [workers_setWorker_of_ne s hsame]
  have hno : ∀ {w'}, s.workers w' = .no → (s.setWorker w worker).workers w' = .no := by
    intro w' hw'
    rw [workers_setWorker_of_idle hw worker (by rw [hw']; rfl), hw']
  have hidle : (∀ w', (s.workers w').isRunning = false) →
      ∀ w', ((s.setWorker w worker).workers w').isRunning = false := by
    intro hall
    rw [hall w] at hw
    cases hw
  cases creator with
  | mallocPool => exact ⟨h.1, h.2.1, fun w' ↦ hno (h.2.2 w')⟩
  | attrInit => exact ⟨h.1, h.2.1, fun w' ↦ hno (h.2.2 w')⟩
  | mallocThreads => exact ⟨h.1, h.2.1, fun w' ↦ hno (h.2.2 w')⟩
  | createThread i =>
    exact ⟨h.1, h.2.1, fun w' hw' ↦ hno (h.2.2.1 w' hw'), fun w' hw' ↦ hthere (h.2.2.2 w' hw')⟩
  | storeQuit i => exact ⟨h.1, h.2.1, fun w' hw' ↦ hno (h.2.2 w' hw')⟩
  | nonblock i => exact ⟨h.1, h.2.1, fun w' hw' ↦ hno (h.2.2 w' hw')⟩
  | joinThread i j =>
    refine ⟨h.1, h.2.1, fun w' hw' ↦ hno (h.2.2.1 w' hw'), fun w' hw' ↦ ?_⟩
    have hdone := h.2.2.2 w' hw'
    rw [workers_setWorker_of_idle hw worker (by rcases hdone with hdone | hdone <;> rw [hdone] <;>
      rfl)]
    exact hdone
  | mallocQueue => exact ⟨h.1, h.2.1, fun w' ↦ hthere (h.2.2 w')⟩
  | mutexInit => exact ⟨h.1, h.2.1, fun w' ↦ hthere (h.2.2 w')⟩
  | condInit => exact ⟨h.1, h.2.1, fun w' ↦ hthere (h.2.2 w')⟩
  | freePool => exact hidle h
  | returned pool =>
    cases pool with
    | true => exact h
    | false => exact hidle h
  | _ => exact h

theorem Sound.setWorker (h : s.Sound) (hw : (s.workers w).isRunning = true) (hquit : s.quit ≠ none)
    {worker : Started} (hstarted : worker ≠ .no)
    (hqueue : s.taskQueue = false → worker ≠ .loadQueue ∧ worker ≠ .getTask) :
    (s.setWorker w worker).Sound where
  no_fault := h.no_fault
  expects := h.expects.setWorker hw hstarted
  unread hnone := absurd hnone hquit
  unqueued hfalse w' := by
    by_cases hsame : w' = w
    · subst hsame
      rw [workers_setWorker_self]
      exact hqueue hfalse
    · rw [workers_setWorker_of_ne s hsame]
      exact h.unqueued hfalse w'

/-- A worker past its first load has an initialised queue. -/
theorem Sound.taskQueue_eq (h : s.Sound) (hw : s.workers w = .loadQueue ∨ s.workers w = .getTask) :
    s.taskQueue = true := by
  by_contra hfalse
  rw [Bool.not_eq_true] at hfalse
  exact hw.elim (h.unqueued hfalse w).1 (h.unqueued hfalse w).2

theorem Sound.quit_ne_none (h : s.Sound) (hw : s.workers w ≠ .no) (hw' : s.workers w ≠ .loadQuit) :
    s.quit ≠ none :=
  fun hnone ↦ (h.unread hnone w).elim hw hw'

theorem Sound.goto (h : s.Sound) (creator : Creator) (hexpects : s.Expects creator) :
    (s.goto creator).Sound := by
  refine ⟨h.no_fault, ?_, h.unread, h.unqueued⟩
  cases creator with
  | returned pool => cases pool <;> exact hexpects
  | _ => exact hexpects

theorem Sound.quit_of_stored (h : s.Sound) (hstored : s.hasStoredQuit = true) : s.quit ≠ none := by
  have hexpects := h.expects
  rw [hasStoredQuit] at hstored
  cases hcreator : s.creator with
  | nonblock i =>
    rw [hcreator] at hexpects
    simp [hexpects.1]
  | joinThread i j =>
    rw [hcreator] at hexpects
    simp [hexpects.1]
  | crashed =>
    rw [hcreator] at hexpects
    simp [hexpects.1]
  | returned pool =>
    rw [hcreator] at hstored hexpects
    obtain rfl : pool = true := hstored
    exact hexpects.1
  | _ =>
    rw [hcreator] at hstored
    cases hstored

theorem Sound.taskQueue_of_quit (h : s.Sound) (hquit : s.quit = some false)
    (hw : (s.workers w).isRunning = true) : s.taskQueue = true := by
  have hexpects := h.expects
  have hidle : ¬∀ w, (s.workers w).isRunning = false := by
    intro hall
    rw [hall w] at hw
    cases hw
  cases hcreator : s.creator with
  | initQuit =>
    rw [hcreator] at hexpects
    exact hexpects.2
  | freePool =>
    rw [hcreator] at hexpects
    exact absurd hexpects hidle
  | returned pool =>
    rw [hcreator] at hexpects
    cases pool with
    | true => exact hexpects.2
    | false => exact absurd hexpects hidle
  | _ =>
    rw [hcreator] at hexpects
    rw [hexpects.1] at hquit
    cases hquit

theorem Sound.start (h : s.Sound) {i : ℕ} (hi : i < n) (hexpects : s.Expects (.createThread i)) :
    ((s.setWorker ⟨i, hi⟩ .loadQuit).goto (.createThread (i + 1))).Sound := by
  refine ⟨h.no_fault, ⟨hexpects.1, hexpects.2.1, fun w hw ↦ ?_, fun w hw ↦ ?_⟩, fun hnone w ↦ ?_,
    fun hfalse w ↦ ?_⟩
  · refine (workers_setWorker_of_ne s ?_ _).trans (hexpects.2.2.1 w (by omega))
    rintro rfl
    exact absurd hw (Nat.not_succ_le_self i)
  · by_cases hsame : w = ⟨i, hi⟩
    · subst hsame
      rw [Creation.goto, workers_setWorker_self]
      simp
    · rw [Creation.goto, workers_setWorker_of_ne s hsame]
      exact hexpects.2.2.2 w (Nat.lt_of_le_of_ne (Nat.le_of_lt_succ hw)
        fun hval ↦ hsame (Fin.ext hval))
  · by_cases hsame : w = ⟨i, hi⟩
    · subst hsame
      exact Or.inr (workers_setWorker_self s _ _)
    · rw [Creation.goto, workers_setWorker_of_ne s hsame]
      exact h.unread hnone w
  · by_cases hsame : w = ⟨i, hi⟩
    · subst hsame
      rw [Creation.goto, workers_setWorker_self]
      exact ⟨by simp, by simp⟩
    · rw [Creation.goto, workers_setWorker_of_ne s hsame]
      exact h.unqueued hfalse w

theorem Sound.queue (h : s.Sound) (creator : Creator) (hexpects : s.Expects creator) {ok : Bool}
    (hok : ok = true ∨ n = 0) : (s.goto (if ok then creator else .freePool)).Sound := by
  cases ok with
  | true => exact h.goto creator hexpects
  | false =>
    obtain rfl := hok.resolve_left Bool.false_ne_true
    exact h.goto .freePool fun w ↦ w.elim0

private theorem isRunning_of_idle {worker : Started} (h : worker = .exited ∨ worker = .no) :
    worker.isRunning = false := by
  rcases h with rfl | rfl <;> rfl

theorem sound_create (h : s.Sound) {ok : Bool} (horderly : s.Orderly (.create ok))
    (hstep : s.create ok = some s') : s'.Sound := by
  have hexpects := h.expects
  have hallIdle : (∀ w, s.workers w = .no) → ∀ w, (s.workers w).isRunning = false :=
    fun hall w ↦ isRunning_of_idle (Or.inr (hall w))
  have hqueue : s.createsQueue = true → ok = true ∨ n = 0 := horderly
  cases hcreator : s.creator <;> simp only [create, hcreator] at hstep hexpects
  case mallocPool =>
    obtain rfl := Option.some.inj hstep
    cases ok with
    | true => exact h.goto .attrInit hexpects
    | false => exact h.goto (.returned false) (hallIdle hexpects.2.2)
  case attrInit =>
    obtain rfl := Option.some.inj hstep
    cases ok with
    | true => exact h.goto .mallocThreads hexpects
    | false => exact h.goto .freePool (hallIdle hexpects.2.2)
  case mallocThreads =>
    obtain rfl := Option.some.inj hstep
    cases ok with
    | true =>
      exact h.goto (.createThread 0)
        ⟨hexpects.1, hexpects.2.1, fun w _ ↦ hexpects.2.2 w,
          fun w hw ↦ absurd hw (Nat.not_lt_zero _)⟩
    | false => exact h.goto .freePool (hallIdle hexpects.2.2)
  case createThread i =>
    split at hstep
    · rename_i hi
      obtain rfl := Option.some.inj hstep
      cases ok with
      | true => exact h.start hi hexpects
      | false =>
        exact h.goto (.storeQuit i) ⟨hexpects.1, hexpects.2.1, hexpects.2.2.1⟩
    · rename_i hi
      obtain rfl := Option.some.inj hstep
      exact h.goto .mallocQueue
        ⟨hexpects.1, hexpects.2.1, fun w ↦ hexpects.2.2.2 w (by omega)⟩
  case storeQuit i =>
    obtain rfl := Option.some.inj hstep
    exact ⟨h.no_fault, ⟨rfl, hexpects.2⟩, fun hnone ↦ (by cases hnone), h.unqueued⟩
  case nonblock i =>
    obtain rfl := Option.some.inj hstep
    cases ok with
    | true =>
      exact h.goto (.joinThread i 0)
        ⟨hexpects.1, hexpects.2.1, hexpects.2.2, fun w hw ↦ absurd hw (Nat.not_lt_zero _)⟩
    | false => exact h.goto .crashed ⟨hexpects.1, hexpects.2.1⟩
  case joinThread i j =>
    obtain ⟨hquit, hfalse, hno, hjoined⟩ := hexpects
    split at hstep
    · rename_i hj
      split at hstep
      · split at hstep
        · rename_i hexited
          obtain rfl := Option.some.inj hstep
          refine h.goto (.joinThread i (j + 1)) ⟨hquit, hfalse, hno, fun w hw ↦ ?_⟩
          rcases Nat.lt_succ_iff_lt_or_eq.mp hw with hw | rfl
          · exact hjoined w hw
          · exact Or.inl hexited
        · cases hstep
      · rename_i hij
        obtain rfl := Option.some.inj hstep
        refine h.goto .freePool fun w ↦ isRunning_of_idle ?_
        by_cases hw : w.val < j
        · exact hjoined w hw
        · exact Or.inr (hno w (by omega))
    · rename_i hj
      obtain rfl := Option.some.inj hstep
      exact h.goto .freePool fun w ↦ isRunning_of_idle (hjoined w (by omega))
  case mallocQueue =>
    obtain rfl := Option.some.inj hstep
    exact h.queue .mutexInit hexpects (hqueue (by rw [createsQueue, hcreator]))
  case mutexInit =>
    obtain rfl := Option.some.inj hstep
    exact h.queue .condInit hexpects (hqueue (by rw [createsQueue, hcreator]))
  case condInit =>
    obtain rfl := Option.some.inj hstep
    exact h.queue .setQueue ⟨hexpects.1, hexpects.2.1⟩ (hqueue (by rw [createsQueue, hcreator]))
  case setQueue =>
    obtain rfl := Option.some.inj hstep
    exact ⟨h.no_fault, ⟨hexpects.1, rfl⟩, h.unread, fun hfalse ↦ (by cases hfalse)⟩
  case initQuit =>
    obtain rfl := Option.some.inj hstep
    exact ⟨h.no_fault, ⟨by simp [goto], hexpects.2⟩, fun hnone ↦ (by cases hnone), h.unqueued⟩
  case freePool =>
    split at hstep
    · rename_i hrunning
      obtain ⟨w, hw⟩ := hrunning
      rw [hexpects w] at hw
      cases hw
    · obtain rfl := Option.some.inj hstep
      exact h.goto (.returned false) hexpects
  case returned pool => cases hstep
  case crashed => cases hstep

theorem sound_step (h : s.Sound) (horderly : s.Orderly a) (hstep : s.step a = some s') :
    s'.Sound := by
  simp only [step, h.no_fault] at hstep
  cases a with
  | create ok => exact sound_create h horderly hstep
  | loadQuit w =>
    dsimp only at hstep
    split at hstep
    · rename_i hw
      have hrunning : (s.workers w).isRunning = true := by
        rw [hw]
        rfl
      have hexpects := h.expects
      split at hstep
      · rename_i hnone
        exact absurd hnone (h.quit_of_stored horderly)
      · rename_i hquit
        obtain rfl := Option.some.inj hstep
        exact h.setWorker hrunning (by simp [hquit]) (by simp) fun _ ↦ by simp
      · rename_i hquit
        obtain rfl := Option.some.inj hstep
        refine h.setWorker hrunning (by simp [hquit]) (by simp) fun hfalse ↦ ?_
        rw [h.taskQueue_of_quit hquit hrunning] at hfalse
        cases hfalse
    · cases hstep
  | loadQueue w =>
    dsimp only at hstep
    split at hstep
    · rename_i hw
      have hrunning : (s.workers w).isRunning = true := by
        rw [hw]
        rfl
      rw [h.taskQueue_eq (Or.inl hw), if_pos rfl] at hstep
      obtain rfl := Option.some.inj hstep
      refine h.setWorker hrunning (h.quit_ne_none (w := w) (by simp [hw]) (by simp [hw]))
        (by simp) fun hfalse ↦ ?_
      rw [h.taskQueue_eq (Or.inl hw)] at hfalse
      cases hfalse
    · cases hstep
  | getTask w task =>
    dsimp only at hstep
    split at hstep
    · rename_i hw
      have hrunning : (s.workers w).isRunning = true := by
        rw [hw]
        rfl
      obtain rfl := Option.some.inj hstep
      refine h.setWorker hrunning (h.quit_ne_none (w := w) (by simp [hw]) (by simp [hw]))
        (by cases task <;> simp) fun hfalse ↦ ?_
      rw [h.taskQueue_eq (Or.inr hw)] at hfalse
      cases hfalse
    · cases hstep
  | terminate =>
    dsimp only at hstep
    split at hstep
    · rename_i hreturned
      obtain rfl := Option.some.inj hstep
      have hexpects := h.expects
      rw [hreturned] at hexpects
      refine ⟨rfl, ?_, fun hnone ↦ (by cases hnone), h.unqueued⟩
      dsimp only
      rw [hreturned]
      exact ⟨by simp, hexpects.2⟩
    · cases hstep

theorem sound_init : (creationMachine n).init.Sound :=
  ⟨rfl, ⟨rfl, rfl, fun _ ↦ rfl⟩, fun _ _ ↦ Or.inl rfl, fun _ _ ↦ ⟨by simp [creationMachine],
    by simp [creationMachine]⟩⟩

/-! ## What violates the condition

A worker that runs early reads `quit` at once. A failed creation of the queue frees the pool a few
steps later; until then no worker has come further than the start of its loop. -/

/-- The pool is about to be freed although workers have been started, all of them in front of their
first load. -/
structure Doomed : Prop where
  no_fault : s.fault = none
  creator_eq : s.creator = .freePool
  quit_eq : s.quit = none
  unread : ∀ w, s.workers w = .no ∨ s.workers w = .loadQuit
  exists_running : ∃ w, (s.workers w).isRunning = true

/-- Whatever happens next, there is a fault. -/
theorem Doomed.fault (h : s.Doomed) (hstep : s.step a = some s') : s'.fault ≠ none := by
  simp only [step, h.no_fault] at hstep
  cases a with
  | create ok =>
    simp only [create, h.creator_eq, if_pos h.exists_running] at hstep
    obtain rfl := Option.some.inj hstep
    simp [fail]
  | loadQuit w =>
    simp only [h.quit_eq] at hstep
    split at hstep
    · obtain rfl := Option.some.inj hstep
      simp [fail]
    · cases hstep
  | loadQueue w =>
    dsimp only at hstep
    split at hstep
    · rename_i hw
      rcases h.unread w with hno | hload
      · rw [hno] at hw
        cases hw
      · rw [hload] at hw
        cases hw
    · cases hstep
  | getTask w task =>
    dsimp only at hstep
    split at hstep
    · rename_i hw
      rcases h.unread w with hno | hload
      · rw [hno] at hw
        cases hw
      · rw [hload] at hw
        cases hw
    · cases hstep
  | terminate =>
    simp only [h.creator_eq] at hstep
    cases hstep

/-- Before the creation has stored a value, running workers find `quit` uninitialised. -/
theorem Sound.quit_eq_none (h : s.Sound) (hstored : s.hasStoredQuit = false)
    (hw : (s.workers w).isRunning = true) : s.quit = none := by
  have hexpects := h.expects
  have hidle : ¬∀ w, (s.workers w).isRunning = false := by
    intro hall
    rw [hall w] at hw
    cases hw
  rw [hasStoredQuit] at hstored
  cases hcreator : s.creator with
  | nonblock i =>
    rw [hcreator] at hstored
    cases hstored
  | joinThread i j =>
    rw [hcreator] at hstored
    cases hstored
  | crashed =>
    rw [hcreator] at hstored
    cases hstored
  | freePool =>
    rw [hcreator] at hexpects
    exact absurd hexpects hidle
  | returned pool =>
    rw [hcreator] at hstored hexpects
    obtain rfl : pool = false := hstored
    exact absurd hexpects hidle
  | _ =>
    rw [hcreator] at hexpects
    exact hexpects.1

theorem Sound.doomed (h : s.Sound) (hqueue : s.createsQueue = true) (hn : n ≠ 0)
    (hstep : s.create false = some s') : s'.Doomed := by
  have hexpects := h.expects
  have hstarted : s.quit = none ∧ s.taskQueue = false ∧ ∀ w, s.workers w ≠ .no := by
    rw [createsQueue] at hqueue
    cases hcreator : s.creator <;> rw [hcreator] at hqueue hexpects
    case mallocQueue => exact hexpects
    case mutexInit => exact hexpects
    case condInit => exact hexpects
    all_goals cases hqueue
  obtain rfl : s' = s.goto .freePool := by
    rw [createsQueue] at hqueue
    cases hcreator : s.creator <;> rw [hcreator] at hqueue <;> rw [create, hcreator] at hstep
    case mallocQueue => exact (Option.some.inj hstep).symm
    case mutexInit => exact (Option.some.inj hstep).symm
    case condInit => exact (Option.some.inj hstep).symm
    all_goals cases hqueue
  have hfirst : 0 < n := Nat.pos_of_ne_zero hn
  refine ⟨h.no_fault, rfl, hstarted.1, h.unread hstarted.1, ⟨0, hfirst⟩, ?_⟩
  rw [Creation.goto, (h.unread hstarted.1 ⟨0, hfirst⟩).resolve_left (hstarted.2.2 _)]
  rfl

/-- A step that violates the condition leads to a fault at once, or cannot but lead to one. -/
theorem fault_or_doomed (h : s.Sound) (horderly : ¬s.Orderly a) (hstep : s.step a = some s') :
    s'.fault ≠ none ∨ s'.Doomed := by
  simp only [step, h.no_fault] at hstep
  cases a with
  | create ok =>
    simp only [Orderly, Classical.not_imp, not_or, Bool.not_eq_true] at horderly
    obtain ⟨hqueue, rfl, hn⟩ := horderly
    exact Or.inr (h.doomed hqueue hn hstep)
  | loadQuit w =>
    dsimp only at hstep
    split at hstep
    · rename_i hw
      have hrunning : (s.workers w).isRunning = true := by
        rw [hw]
        rfl
      rw [h.quit_eq_none (Bool.eq_false_iff.mpr horderly) hrunning] at hstep
      obtain rfl := Option.some.inj hstep
      exact Or.inl (by simp [fail])
    · cases hstep
  | _ => exact absurd trivial horderly

end Creation

section Runs

variable {n : ℕ} {s : Creation n}

theorem sound_of_reachable (h : (creationMachine n).ReachableWhen Creation.Orderly s) : s.Sound :=
  Machine.Leads.invariant (I := Creation.Sound) h Creation.sound_init fun hs horderly hstep ↦
    Creation.sound_step hs horderly hstep

/-- **Creation.** If every step meets the condition, no worker reads a field that has not been
initialised, and the pool is not freed under a running worker. Conversely every step of a run in
which the call returns without a fault meets it. A run in which `quit` is read uninitialised ends
there, before the call returns: of those runs only the first half speaks. -/
theorem creation_sound_iff (n : ℕ) :
    (∀ s, (creationMachine n).ReachableWhen Creation.Orderly s → s.fault = none) ∧
    ∀ steps s, (creationMachine n).run (creationMachine n).init steps = some s →
      (∃ pool, s.creator = .returned pool) →
      (s.fault = none ↔
        (creationMachine n).runWhen Creation.Orderly (creationMachine n).init steps = some s) := by
  refine ⟨fun s hs ↦ (sound_of_reachable hs).no_fault, fun steps s hrun hreturned ↦ ?_⟩
  have hcases : (creationMachine n).runWhen Creation.Orderly (creationMachine n).init steps
        = some s ∨
      s.fault ≠ none ∨ s.Doomed := by
    refine Machine.run_invariant (J := fun steps s ↦
      (creationMachine n).runWhen Creation.Orderly (creationMachine n).init steps = some s ∨
        s.fault ≠ none ∨ s.Doomed) hrun (Or.inl rfl) ?_
    rintro steps u a v - (horderly | hfault | hdoomed) hstep
    · have hsound := sound_of_reachable (Machine.leads_of_runWhen horderly)
      by_cases ha : u.Orderly a
      · refine Or.inl ?_
        rw [Machine.runWhen_append, horderly, Option.bind_some, Machine.runWhen, if_pos ha, hstep]
        rfl
      · exact Or.inr (Creation.fault_or_doomed hsound ha hstep)
    · obtain ⟨fault, hfault⟩ := Option.ne_none_iff_exists'.mp hfault
      simp only [creationMachine, Creation.step, hfault] at hstep
      cases hstep
    · exact Or.inr (Or.inl (hdoomed.fault hstep))
  constructor
  · intro hnone
    refine hcases.resolve_right ?_
    rintro (hfault | hdoomed)
    · exact hfault hnone
    · obtain ⟨pool, hpool⟩ := hreturned
      rw [hdoomed.creator_eq] at hpool
      cases hpool
  · exact fun horderly ↦ (sound_of_reachable (Machine.leads_of_runWhen horderly)).no_fault

end Runs

/-- Two workers that begin to run after the creation, one of them after `thrdpool_terminate`; and a
rollback after the first of two threads has been started, which then finds that it is to quit. -/
theorem creation_sound_iff_late :
    (∃ s : Creation 2, (s.workers 0 = .getTask ∧ s.workers 1 = .exited) ∧ s.fault = none) ∧
    ∃ s : Creation 2, (s.creator = .returned false ∧ s.workers 0 = .exited) ∧
      (s.fault = none ↔ (creationMachine 2).runWhen Creation.Orderly (creationMachine 2).init
        [.create true, .create true, .create true, .create true, .create false, .create true,
          .create true, .loadQuit 0, .create true, .create true, .create true] = some s) := by
  constructor
  · obtain ⟨s, hs, hfinal⟩ := Machine.exists_reachableWhen_of_run (M := creationMachine 2)
      (C := Creation.Orderly) (fun s ↦ (s.workers 0, s.workers 1))
      [.create true, .create true, .create true, .create true, .create true, .create true,
        .create true, .create true, .create true, .create true, .create true, .loadQuit 0,
        .loadQueue 0, .terminate, .loadQuit 1] (b := (.getTask, .exited)) (by decide +kernel)
    exact ⟨s, Prod.mk.inj hfinal, (creation_sound_iff 2).1 s hs⟩
  · have hrun : ((creationMachine 2).run (creationMachine 2).init
        [.create true, .create true, .create true, .create true, .create false, .create true,
          .create true, .loadQuit 0, .create true, .create true, .create true]).map
        (fun s ↦ (s.creator, s.workers 0)) = some (.returned false, .exited) := by decide +kernel
    obtain ⟨s, hs, hfinal⟩ := Option.map_eq_some_iff.mp hrun
    have hreturned := Prod.mk.inj hfinal
    exact ⟨s, hreturned, (creation_sound_iff 2).2 _ s hs ⟨false, hreturned.1⟩⟩

/-- A worker runs as soon as it is started; and a pool is freed under its worker because there is no
memory for the queue. -/
theorem not_creation_sound :
    (∃ s : Creation 1, (creationMachine 1).Reachable s ∧ s.fault = some .readsQuit) ∧
    ∃ s : Creation 1, (creationMachine 1).Reachable s ∧ s.creator = .returned false ∧
      s.workers 0 = .loadQuit ∧ s.fault = some .freesRunning := by
  constructor
  · exact Machine.exists_reachable_of_run (M := creationMachine 1) Creation.fault
      [.create true, .create true, .create true, .create true, .loadQuit 0] (by decide +kernel)
  · obtain ⟨s, hs, hfinal⟩ := Machine.exists_reachable_of_run (M := creationMachine 1)
      (fun s ↦ (s.creator, s.workers 0, s.fault))
      [.create true, .create true, .create true, .create true, .create true, .create false,
        .create true] (b := (.returned false, .loadQuit, some .freesRunning)) (by decide +kernel)
    simp only [Prod.mk.injEq] at hfinal
    exact ⟨s, hs, hfinal⟩

end ThreadPool

end FoundationComponents
