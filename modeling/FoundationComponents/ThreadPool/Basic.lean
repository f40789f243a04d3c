import FoundationComponents.Machine.Basic
import Mathlib.Data.Nat.Notation
import Mathlib.Logic.Function.Basic

/-!
# The thread pool

The workers of `thread_pool.c` take tasks from a shared queue. The queue is protected by a spinlock;
`pthread_cond_wait` and the flag `block` by a mutex. `__push_task` takes the spinlock only, and
signals without holding the mutex.

The machine runs `n` workers, `k` producers and one terminating thread. What happens under the
spinlock is one step, since nothing else is done there; the mutex, whose sections contain the wait,
is explicit. A worker that blocks in `pthread_cond_wait` releases the mutex in the same step, and
may return without having been signalled.
-/

namespace FoundationComponents

namespace ThreadPool

/-- Where a worker is: `__thrdpool_worker` with `__get_task` and `__pop_task` inlined. -/
inductive Worker (κ : Type*)
  /-- In front of the load of `quit`. -/
  | loop
  /-- In front of `__pop_task`. -/
  | popTask
  /-- The queue was empty; in front of `pthread_mutex_lock`. -/
  | lockMutex
  | testBlock
  /-- In front of `pthread_cond_wait`. -/
  | condWait
  /-- Blocked in `pthread_cond_wait`, not signalled. -/
  | blocked
  /-- Signalled, or woken without reason; the mutex has to be taken again. -/
  | woken
  /-- In front of `pthread_mutex_unlock`, then `__pop_task` again. -/
  | unlockRetry
  /-- In front of `pthread_mutex_unlock`, then `return NULL`. -/
  | unlockNull
  /-- In front of `func(ctx)`. -/
  | callTask (task : κ)
  | runTask (task : κ)
  | exited
  deriving Repr, DecidableEq

def Worker.isBlocked {κ : Type*} : Worker κ → Bool
  | .blocked => true
  | _ => false

/-- Where a producer is in `__push_task`. -/
inductive Producer (κ : Type*)
  | idle
  | push (task : κ)
  /-- In front of `pthread_cond_signal`. -/
  | signal
  deriving Repr, DecidableEq

/-- Where the terminating thread is: `thrdpool_terminate` with `__nonblock` inlined. -/
inductive Terminator
  | storeQuit
  | lockMutex
  | clearBlock
  | unlockMutex
  /-- In front of `pthread_cond_broadcast`. -/
  | broadcast
  | done
  deriving Repr, DecidableEq

/-- Who holds the mutex. -/
inductive Holder (n : ℕ)
  | worker (w : Fin n)
  | terminator
  deriving Repr, DecidableEq

/-- The shared variables, the threads, and the tasks whose handler has been called, oldest first. -/
structure Pool (κ : Type*) (n k : ℕ) where
  queue : List κ
  block : Bool
  quit : Bool
  mutex : Option (Holder n)
  workers : Fin n → Worker κ
  producers : Fin k → Producer κ
  terminator : Terminator
  started : List (Fin n × κ)

/-- The next step of a worker; a wake-up without signal; a call of `__push_task`, its section under
the spinlock, and its signal, which wakes one blocked worker if there is one; the next step of the
terminating thread. -/
inductive Action (κ : Type*) (n k : ℕ)
  | worker (w : Fin n)
  | spurious (w : Fin n)
  | post (p : Fin k) (task : κ)
  | push (p : Fin k)
  | signal (p : Fin k) (target : Option (Fin n))
  | terminate
  deriving Repr, DecidableEq

namespace Pool

variable {κ : Type*} {n k : ℕ} (s : Pool κ n k)

def setWorker (w : Fin n) (pc : Worker κ) : Pool κ n k :=
  { s with workers := Function.update s.workers w pc }

def setProducer (p : Fin k) (pc : Producer κ) : Pool κ n k :=
  { s with producers := Function.update s.producers p pc }

@[simp] theorem workers_setWorker_self (w : Fin n) (pc : Worker κ) :
    (s.setWorker w pc).workers w = pc :=
  Function.update_self ..

@[simp] theorem producers_setProducer_self (p : Fin k) (pc : Producer κ) :
    (s.setProducer p pc).producers p = pc :=
  Function.update_self ..

theorem producers_setProducer_of_ne {p q : Fin k} (pc : Producer κ) (h : q ≠ p) :
    (s.setProducer p pc).producers q = s.producers q :=
  Function.update_of_ne h ..

/-- No worker is blocked. -/
def NoneBlocked : Prop := ∀ w, (s.workers w).isBlocked = false

instance : Decidable s.NoneBlocked :=
  inferInstanceAs (Decidable (∀ w, (s.workers w).isBlocked = false))

/-- The step of a worker from its position. -/
def stepWorker (w : Fin n) : Worker κ → Option (Pool κ n k)
  | .loop => some (s.setWorker w (if s.quit then .exited else .popTask))
  | .popTask =>
      match s.queue with
      | [] => some (s.setWorker w .lockMutex)
      | task :: rest => some ({ s with queue := rest }.setWorker w (.callTask task))
  | .lockMutex =>
      if s.mutex.isNone then some ({ s with mutex := some (.worker w) }.setWorker w .testBlock)
      else none
  | .testBlock => some (s.setWorker w (if s.block then .condWait else .unlockNull))
  | .condWait => some ({ s with mutex := none }.setWorker w .blocked)
  | .blocked => none
  | .woken =>
      if s.mutex.isNone then some ({ s with mutex := some (.worker w) }.setWorker w .unlockRetry)
      else none
  | .unlockRetry => some ({ s with mutex := none }.setWorker w .popTask)
  | .unlockNull => some ({ s with mutex := none }.setWorker w .exited)
  | .callTask task =>
      some ({ s with started := s.started ++ [(w, task)] }.setWorker w (.runTask task))
  | .runTask _ => some (s.setWorker w .loop)
  | .exited => none

/-- The step of the terminating thread from its position. -/
def stepTerminator : Terminator → Option (Pool κ n k)
  | .storeQuit => some { s with quit := true, terminator := .lockMutex }
  | .lockMutex =>
      if s.mutex.isNone then some { s with mutex := some .terminator, terminator := .clearBlock }
      else none
  | .clearBlock => some { s with block := false, terminator := .unlockMutex }
  | .unlockMutex => some { s with mutex := none, terminator := .broadcast }
  | .broadcast =>
      some
        { s with
          workers := fun w ↦ if (s.workers w).isBlocked then .woken else s.workers w
          terminator := .done }
  | .done => none

def step : Action κ n k → Option (Pool κ n k)
  | .worker w => s.stepWorker w (s.workers w)
  | .spurious w =>
      match s.workers w with
      | .blocked => some (s.setWorker w .woken)
      | _ => none
  | .post p task =>
      match s.producers p with
      | .idle => some (s.setProducer p (.push task))
      | _ => none
  | .push p =>
      match s.producers p with
      | .push task => some ({ s with queue := s.queue ++ [task] }.setProducer p .signal)
      | _ => none
  | .signal p target =>
      match s.producers p, target with
      | .signal, some w =>
          match s.workers w with
          | .blocked => some ((s.setProducer p .idle).setWorker w .woken)
          | _ => none
      | .signal, none => if s.NoneBlocked then some (s.setProducer p .idle) else none
      | _, _ => none
  | .terminate => s.stepTerminator s.terminator

end Pool

/-- `n` workers and `k` producers on the queue of `__taskqueue_create`. -/
def machine (κ : Type*) (n k : ℕ) : Machine (Pool κ n k) (Action κ n k) where
  init :=
    { queue := []
      block := true
      quit := false
      mutex := none
      workers := fun _ ↦ .loop
      producers := fun _ ↦ .idle
      terminator := .storeQuit
      started := [] }
  step := Pool.step

end ThreadPool

end FoundationComponents
