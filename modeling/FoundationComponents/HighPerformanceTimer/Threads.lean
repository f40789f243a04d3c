import FoundationComponents.HighPerformanceTimer.Agreement

/-!
# The threads of the timer

The sections of the mutex are steps of threads here: threads that use the timer, the scheduler and
the callback workers, where a callback may use the timer too. A call notifies the scheduler only
after it has left its section, so these are two steps, with any number of steps of other threads
between them; `shutdown` then joins the scheduler, stops the workers and joins them.

A thread that waits on a condition variable is *blocked* until it is notified, or wakes up by
itself. Only the scheduler waits on `timer_changed`, and only workers wait on `callback_available`.

The callbacks that the scheduler takes out of its queue are copies: a repeating timer leaves one
each time it fires. A copy is numbered with the value that `fired` had when it was counted.
-/

namespace FoundationComponents

namespace HighPerformanceTimer

/-- A copy of a callback in `due_callbacks`, with its number among all that have been fired. -/
structure Copy (γ : Type*) where
  number : ℕ
  callback : γ
  deriving Repr, DecidableEq

/-- `due_callbacks` at the end of a pass that has found `fired` callbacks fired before. -/
def copies {γ : Type*} (fired : ℕ) (due : List (TimerEntry γ)) : List (Copy γ) :=
  (due.zipIdx fired).map fun (entry, number) ↦ ⟨number, entry.callback⟩

/-- Where a thread is in a call: what it does next. -/
inductive Call
  | idle
  /-- `timer_changed.notify_one()`, in `addTimer` and `cancel`. -/
  | notifyOne
  /-- `timer_changed.notify_all()`, in `cancelAll`. -/
  | notifyAll
  /-- `timer_changed.notify_all()`, in `shutdown`. -/
  | notifyShutdown
  | joinScheduler
  /-- `callback_stopping = true`. -/
  | stopCallbacks
  /-- `callback_available.notify_all()`. -/
  | notifyWorkers
  | joinWorkers
  deriving Repr, DecidableEq

/-- Where the scheduler is in `schedulerLoop`. -/
inductive Scheduler (γ : Type*)
  /-- It is about to take the mutex, for the first time or after a wait. -/
  | ready
  /-- It waits on `timer_changed`, until a deadline if there is one. -/
  | blocked (deadline : Option ℤ)
  /-- It is in `enqueueCallbacks`. -/
  | enqueueing (due : List (Copy γ))
  /-- `callback_available.notify_all()` is next. -/
  | announcing
  | exited
  deriving Repr, DecidableEq

/-- Where a worker is in `callbackLoop`. -/
inductive Worker (γ : Type*)
  | ready
  /-- It waits on `callback_available`. -/
  | blocked
  /-- It has taken a callback and left its section. -/
  | holding (callback : Copy γ)
  /-- It is in the callback. -/
  | running (callback : Copy γ)
  | exited
  deriving Repr, DecidableEq

/-- `timer_changed` is notified. -/
def Scheduler.notified {γ : Type*} : Scheduler γ → Scheduler γ
  | .blocked _ => .ready
  | scheduler => scheduler

/-- `callback_available` is notified. -/
def Worker.notified {γ : Type*} : Worker γ → Worker γ
  | .blocked => .ready
  | worker => worker

def Scheduler.isExited {γ : Type*} : Scheduler γ → Bool
  | .exited => true
  | _ => false

def Worker.isExited {γ : Type*} : Worker γ → Bool
  | .exited => true
  | _ => false

def Worker.isRunning {γ : Type*} : Worker γ → Bool
  | .running _ => true
  | _ => false

/-- The threads that call the public operations: `n` threads from outside, and the workers when they
run callbacks. -/
abbrev Caller (n m : ℕ) := Fin n ⊕ Fin m

/-- A call of a public operation. -/
inductive Operation (γ : Type*)
  | addTimer (now deadline interval : ℤ) (repeating : Bool) (callback : Option γ)
  | cancel (id : ℕ)
  | cancelAll
  | shutdown

/-- The fields, the threads, and a record of what has happened: whether a call of `shutdown` has
returned, the callbacks that the scheduler has placed in `due_callbacks`, and the callbacks that
have been invoked, both in their order. -/
structure Threads (γ : Type*) (Q : Heap) (n m : ℕ) where
  timer : State γ Q
  readyCallbacks : List (Copy γ)
  callbackStopping : Bool
  scheduler : Scheduler γ
  workers : Fin m → Worker γ
  calls : Caller n m → Call
  returned : Bool
  placed : List (Copy γ)
  invoked : List (Copy γ)

/-- Who moves. The scheduler and the workers may also wake up without having been notified, the
scheduler because its deadline has passed or for no reason. -/
inductive Move (γ : Type*) (n m : ℕ)
  | call (x : Caller n m) (operation : Operation γ)
  | proceed (x : Caller n m)
  | scheduler (now now' : ℤ) (fuel : ℕ)
  | wakeScheduler
  | worker (i : Fin m)
  | wakeWorker (i : Fin m)

namespace Threads

variable {γ : Type*} {Q : Heap} {n m : ℕ} (s : Threads γ Q n m)

def setCall (x : Caller n m) (call : Call) : Threads γ Q n m :=
  { s with calls := Function.update s.calls x call }

def setWorker (i : Fin m) (worker : Worker γ) : Threads γ Q n m :=
  { s with workers := Function.update s.workers i worker }

def notifyScheduler : Threads γ Q n m := { s with scheduler := s.scheduler.notified }

def notifyWorkers : Threads γ Q n m := { s with workers := fun i ↦ (s.workers i).notified }

/-- A thread calls an operation when it is not in a call, a worker from within a callback. -/
def mayCall (x : Caller n m) : Bool :=
  decide (s.calls x = .idle) && match x with
    | .inl _ => true
    | .inr i => (s.workers i).isRunning

/-- The first section of an operation. A call that throws, and one that changes nothing, is over
after it. -/
def call (x : Caller n m) : Operation γ → Threads γ Q n m
  | .addTimer now deadline interval repeating callback =>
      match s.timer.addTimer now deadline interval repeating callback with
      | .error _ => s
      | .ok (timer, _) =>
          { s with timer := timer }.setCall x (if s.timer.shuttingDown then .idle else .notifyOne)
  | .cancel id =>
      { s with timer := (s.timer.cancel id).1 }.setCall x
        (if (s.timer.cancel id).2 then .notifyOne else .idle)
  | .cancelAll => { s with timer := s.timer.cancelAll.1 }.setCall x .notifyAll
  | .shutdown => { s with timer := s.timer.shutdown }.setCall x .notifyShutdown

/-- The next step of a call. A worker does not join itself. -/
def proceed (x : Caller n m) : Option (Threads γ Q n m) :=
  match s.calls x with
  | .idle => none
  | .notifyOne => some (s.notifyScheduler.setCall x .idle)
  | .notifyAll => some (s.notifyScheduler.setCall x .idle)
  | .notifyShutdown => some (s.notifyScheduler.setCall x .joinScheduler)
  | .joinScheduler => if s.scheduler.isExited then some (s.setCall x .stopCallbacks) else none
  | .stopCallbacks => some ({ s with callbackStopping := true }.setCall x .notifyWorkers)
  | .notifyWorkers => some (s.notifyWorkers.setCall x .joinWorkers)
  | .joinWorkers =>
      if ∀ i, x ≠ .inr i → (s.workers i).isExited then
        some ({ s with returned := true }.setCall x .idle)
      else none

/-- The end of a pass. -/
def endPass (timer : State γ Q) : State.Pass γ → Threads γ Q n m
  | .exit => { s with timer := timer, scheduler := .exited }
  | .wait deadline => { s with timer := timer, scheduler := .blocked deadline }
  | .enqueue due =>
      { s with
        timer := timer
        scheduler := .enqueueing (copies s.timer.fired due)
        placed := s.placed ++ copies s.timer.fired due }

/-- The next step of the scheduler. -/
def schedulerStep (κ : TimeArith) (now now' : ℤ) (fuel : ℕ) : Option (Threads γ Q n m) :=
  match s.scheduler with
  | .ready => (s.timer.schedulerPass κ now now' fuel).map fun next ↦ s.endPass next.1 next.2
  | .enqueueing [] => some { s with scheduler := .ready }
  | .enqueueing due =>
      some { s with readyCallbacks := s.readyCallbacks ++ due, scheduler := .announcing }
  | .announcing => some { s.notifyWorkers with scheduler := .ready }
  | .blocked _ => none
  | .exited => none

/-- The next step of a worker. What a callback throws is caught, so it does not matter how the
callback ends. -/
def workerStep (i : Fin m) : Option (Threads γ Q n m) :=
  match s.workers i with
  | .ready =>
      match s.readyCallbacks with
      | callback :: rest => some ({ s with readyCallbacks := rest }.setWorker i (.holding callback))
      | [] => some (s.setWorker i (if s.callbackStopping then .exited else .blocked))
  | .holding callback =>
      some ({ s with invoked := s.invoked ++ [callback] }.setWorker i (.running callback))
  | .running _ => if s.calls (.inr i) = .idle then some (s.setWorker i .ready) else none
  | .blocked => none
  | .exited => none

def step (κ : TimeArith) : Move γ n m → Option (Threads γ Q n m)
  | .call x operation => if s.mayCall x then some (s.call x operation) else none
  | .proceed x => s.proceed x
  | .scheduler now now' fuel => s.schedulerStep κ now now' fuel
  | .wakeScheduler =>
      match s.scheduler with
      | .blocked _ => some { s with scheduler := .ready }
      | _ => none
  | .worker i => s.workerStep i
  | .wakeWorker i =>
      match s.workers i with
      | .blocked => some (s.setWorker i .ready)
      | _ => none

end Threads

/-- A new timer with `m` workers, and `n` threads that use it. -/
def threadMachine (κ : TimeArith) (γ : Type*) (Q : Heap) (n m : ℕ) :
    Machine (Threads γ Q n m) (Move γ n m) where
  init :=
    { timer := (machine κ γ Q).init.state
      readyCallbacks := []
      callbackStopping := false
      scheduler := .ready
      workers := fun _ ↦ .ready
      calls := fun _ ↦ .idle
      returned := false
      placed := []
      invoked := [] }
  step s := s.step κ

/-! ## What a step changes

The position of a thread and the flags decide what it does next. What a move can do is listed once,
and every invariant of the threads is derived from the list. -/

/-- `timer_changed` is notified next. -/
def Call.notifiesScheduler : Call → Bool
  | .notifyOne | .notifyAll | .notifyShutdown => true
  | _ => false

section Steps

variable {γ : Type*} {Q : Heap} {n m : ℕ}

/-- All that a move can do. -/
inductive Change (κ : TimeArith) (s : Threads γ Q n m) : Move γ n m → Threads γ Q n m → Prop
  | call {x : Caller n m} {operation : Operation γ} (hmay : s.mayCall x = true) :
      Change κ s (.call x operation) (s.call x operation)
  | notifyScheduler {x : Caller n m} {next : Call} (hcall : (s.calls x).notifiesScheduler = true)
      (hnext : next = .idle ∨ s.calls x = .notifyShutdown ∧ next = .joinScheduler) :
      Change κ s (.proceed x) (s.notifyScheduler.setCall x next)
  | joinScheduler {x : Caller n m} (hcall : s.calls x = .joinScheduler)
      (hexited : s.scheduler = .exited) : Change κ s (.proceed x) (s.setCall x .stopCallbacks)
  | stopCallbacks {x : Caller n m} (hcall : s.calls x = .stopCallbacks) :
      Change κ s (.proceed x) ({ s with callbackStopping := true }.setCall x .notifyWorkers)
  | notifyWorkers {x : Caller n m} (hcall : s.calls x = .notifyWorkers) :
      Change κ s (.proceed x) (s.notifyWorkers.setCall x .joinWorkers)
  | joinWorkers {x : Caller n m} (hcall : s.calls x = .joinWorkers)
      (hexited : ∀ i, x ≠ .inr i → s.workers i = .exited) :
      Change κ s (.proceed x) ({ s with returned := true }.setCall x .idle)
  | pass {now now' : ℤ} {fuel : ℕ} {timer : State γ Q} {pass : State.Pass γ}
      (hready : s.scheduler = .ready)
      (hpass : s.timer.schedulerPass κ now now' fuel = some (timer, pass)) :
      Change κ s (.scheduler now now' fuel) (s.endPass timer pass)
  | skip {now now' : ℤ} {fuel : ℕ} (hdue : s.scheduler = .enqueueing []) :
      Change κ s (.scheduler now now' fuel) { s with scheduler := .ready }
  | enqueue {now now' : ℤ} {fuel : ℕ} {due : List (Copy γ)} (hdue : s.scheduler = .enqueueing due) :
      Change κ s (.scheduler now now' fuel)
        { s with readyCallbacks := s.readyCallbacks ++ due, scheduler := .announcing }
  | announce {now now' : ℤ} {fuel : ℕ} (hannouncing : s.scheduler = .announcing) :
      Change κ s (.scheduler now now' fuel) { s.notifyWorkers with scheduler := .ready }
  | wakeScheduler {deadline : Option ℤ} (hblocked : s.scheduler = .blocked deadline) :
      Change κ s .wakeScheduler { s with scheduler := .ready }
  | take {i : Fin m} {callback : Copy γ} {rest : List (Copy γ)} (hready : s.workers i = .ready)
      (hqueue : s.readyCallbacks = callback :: rest) :
      Change κ s (.worker i) ({ s with readyCallbacks := rest }.setWorker i (.holding callback))
  | exit {i : Fin m} (hready : s.workers i = .ready) (hqueue : s.readyCallbacks = [])
      (hstopping : s.callbackStopping = true) : Change κ s (.worker i) (s.setWorker i .exited)
  | block {i : Fin m} (hready : s.workers i = .ready) :
      Change κ s (.worker i) (s.setWorker i .blocked)
  | invoke {i : Fin m} {callback : Copy γ} (hholding : s.workers i = .holding callback) :
      Change κ s (.worker i)
        ({ s with invoked := s.invoked ++ [callback] }.setWorker i (.running callback))
  | finish {i : Fin m} {callback : Copy γ} (hrunning : s.workers i = .running callback) :
      Change κ s (.worker i) (s.setWorker i .ready)
  | wakeWorker {i : Fin m} (hblocked : s.workers i = .blocked) :
      Change κ s (.wakeWorker i) (s.setWorker i .ready)

variable {s s' : Threads γ Q n m} {κ : TimeArith} {a : Move γ n m}

theorem idle_of_mayCall {x : Caller n m} (h : s.mayCall x = true) : s.calls x = .idle := by
  simp only [Threads.mayCall, Bool.and_eq_true, decide_eq_true_iff] at h
  exact h.1

theorem setCall_idle {x : Caller n m} (h : s.calls x = .idle) : s.setCall x .idle = s := by
  rw [Threads.setCall, ← h, Function.update_eq_self]

/-- Where a call is after the section of its operation. Unless it is over, and has changed nothing,
it notifies the scheduler next. -/
inductive Entered (timer : State γ Q) : Operation γ → State γ Q → Call → Prop
  | unchanged {operation : Operation γ} : Entered timer operation timer .idle
  | notifyOne {operation : Operation γ} (timer' : State γ Q) (hfired : timer'.fired = timer.fired) :
      Entered timer operation timer' .notifyOne
  | cancelAll : Entered timer .cancelAll timer.cancelAll.1 .notifyAll
  | shutdown : Entered timer .shutdown timer.shutdown .notifyShutdown

theorem call_eq {x : Caller n m} (operation : Operation γ) (hidle : s.calls x = .idle) :
    ∃ timer call, s.call x operation = { s with timer := timer }.setCall x call ∧
      Entered s.timer operation timer call := by
  have hsame : { s with timer := s.timer }.setCall x .idle = s := setCall_idle hidle
  cases operation with
  | addTimer now deadline interval repeating callback =>
    rw [Threads.call]
    cases hadd : s.timer.addTimer now deadline interval repeating callback with
    | error message => exact ⟨s.timer, .idle, hsame.symm, .unchanged⟩
    | ok next =>
      obtain ⟨entry, rfl⟩ := State.exists_of_addTimer_eq_ok hadd
      refine ⟨(s.timer.insertTimer entry).1,
        if s.timer.shuttingDown then .idle else .notifyOne, rfl, ?_⟩
      rw [State.insertTimer]
      split
      · exact .unchanged
      · exact .notifyOne _ rfl
  | cancel id =>
    rw [Threads.call]
    refine ⟨_, _, rfl, ?_⟩
    rw [State.cancel]
    split
    · exact .unchanged
    split
    · exact .notifyOne _ rfl
    · exact .unchanged
  | cancelAll => exact ⟨_, _, rfl, .cancelAll⟩
  | shutdown => exact ⟨_, _, rfl, .shutdown⟩

theorem Scheduler.eq_exited {scheduler : Scheduler γ} (h : scheduler.isExited = true) :
    scheduler = .exited := by
  cases scheduler with
  | exited => rfl
  | _ => cases h

theorem Worker.eq_exited {worker : Worker γ} (h : worker.isExited = true) : worker = .exited := by
  cases worker with
  | exited => rfl
  | _ => cases h

theorem proceed_change {x : Caller n m} (h : s.proceed x = some s') :
    Change κ s (.proceed x) s' := by
  rw [Threads.proceed] at h
  split at h
  case h_1 => cases h
  case h_2 hcall | h_3 hcall =>
    obtain rfl := Option.some.inj h
    exact .notifyScheduler (by rw [hcall]; rfl) (Or.inl rfl)
  case h_4 hcall =>
    obtain rfl := Option.some.inj h
    exact .notifyScheduler (by rw [hcall]; rfl) (Or.inr ⟨hcall, rfl⟩)
  case h_5 hcall =>
    split at h
    · rename_i hexited
      obtain rfl := Option.some.inj h
      exact .joinScheduler hcall (Scheduler.eq_exited hexited)
    · cases h
  case h_6 hcall =>
    obtain rfl := Option.some.inj h
    exact .stopCallbacks hcall
  case h_7 hcall =>
    obtain rfl := Option.some.inj h
    exact .notifyWorkers hcall
  case h_8 hcall =>
    split at h
    · rename_i hexited
      obtain rfl := Option.some.inj h
      exact .joinWorkers hcall fun i hne ↦ Worker.eq_exited (hexited i hne)
    · cases h

theorem schedulerStep_change {now now' : ℤ} {fuel : ℕ}
    (h : s.schedulerStep κ now now' fuel = some s') : Change κ s (.scheduler now now' fuel) s' := by
  rw [Threads.schedulerStep] at h
  split at h
  case h_1 hready =>
    obtain ⟨⟨timer, pass⟩, hpass, rfl⟩ := Option.map_eq_some_iff.mp h
    exact .pass hready hpass
  case h_2 hdue =>
    obtain rfl := Option.some.inj h
    exact .skip hdue
  case h_3 hdue =>
    obtain rfl := Option.some.inj h
    exact .enqueue hdue
  case h_4 hannouncing =>
    obtain rfl := Option.some.inj h
    exact .announce hannouncing
  case h_5 => cases h
  case h_6 => cases h

theorem workerStep_change {i : Fin m} (h : s.workerStep i = some s') :
    Change κ s (.worker i) s' := by
  rw [Threads.workerStep] at h
  split at h
  case h_1 hready =>
    split at h
    · rename_i hqueue
      obtain rfl := Option.some.inj h
      exact .take hready hqueue
    · rename_i hqueue
      obtain rfl := Option.some.inj h
      split
      · rename_i hstopping
        exact .exit hready hqueue hstopping
      · exact .block hready
  case h_2 hholding =>
    obtain rfl := Option.some.inj h
    exact .invoke hholding
  case h_3 hrunning =>
    split at h
    · obtain rfl := Option.some.inj h
      exact .finish hrunning
    · cases h
  case h_4 => cases h
  case h_5 => cases h

theorem step_change (h : s.step κ a = some s') : Change κ s a s' := by
  cases a with
  | call x operation =>
    rw [Threads.step] at h
    split at h
    · rename_i hmay
      obtain rfl := Option.some.inj h
      exact .call hmay
    · cases h
  | proceed x => exact proceed_change h
  | scheduler now now' fuel => exact schedulerStep_change h
  | wakeScheduler =>
    simp only [Threads.step] at h
    split at h
    · rename_i hblocked
      obtain rfl := Option.some.inj h
      exact .wakeScheduler hblocked
    · cases h
  | worker i => exact workerStep_change h
  | wakeWorker i =>
    simp only [Threads.step] at h
    split at h
    · rename_i hblocked
      obtain rfl := Option.some.inj h
      exact .wakeWorker hblocked
    · cases h

end Steps

/-! ## Sections

The fields under the mutex change in sections only. So what has been shown for every order of
sections holds of what the threads make of them. -/

/-- The section of an operation. -/
def Operation.toAction {γ : Type*} : Operation γ → Action γ
  | .addTimer now deadline interval repeating callback =>
      .addTimer now deadline interval repeating callback
  | .cancel id => .cancel id
  | .cancelAll => .cancelAll
  | .shutdown => .shutdown

section Sections

variable {γ : Type*} {Q : Heap} {n m : ℕ} {s s' : Threads γ Q n m} {κ : TimeArith}
  {a : Move γ n m}

theorem exists_section_call (s : Threads γ Q n m) (x : Caller n m) (operation : Operation γ)
    (history : List (Event γ)) : ∃ history',
      System.step ⟨s.timer, history⟩ κ operation.toAction =
        some ⟨(s.call x operation).timer, history'⟩ := by
  cases operation with
  | addTimer now deadline interval repeating callback =>
    rw [Operation.toAction, System.step, Threads.call]
    cases s.timer.addTimer now deadline interval repeating callback with
    | error message => exact ⟨history, rfl⟩
    | ok next => exact ⟨_, rfl⟩
  | _ => exact ⟨_, rfl⟩

@[simp] theorem timer_endPass (s : Threads γ Q n m) (timer : State γ Q) (pass : State.Pass γ) :
    (s.endPass timer pass).timer = timer := by
  cases pass <;> rfl

/-- Only the calls of operations and the passes of the scheduler touch the fields under the mutex,
and each of them runs one section. -/
theorem exists_section (h : Change κ s a s') : s'.timer = s.timer ∨
    ∃ action, ∀ history, ∃ history',
      System.step ⟨s.timer, history⟩ κ action = some ⟨s'.timer, history'⟩ := by
  cases h with
  | call => exact Or.inr ⟨_, exists_section_call s _ _⟩
  | @pass now now' fuel timer pass hready hpass =>
    refine Or.inr ⟨.schedulerPass now now' fuel, fun history ↦ ?_⟩
    rw [timer_endPass, System.step, hpass]
    exact ⟨_, rfl⟩
  | _ => exact Or.inl rfl

/-- **The threads run sections.** What they make of the fields under the mutex, the sections make of
them in some order. -/
theorem exists_sections (h : (threadMachine κ γ Q n m).Reachable s) :
    ∃ t, (machine κ γ Q).Reachable t ∧ t.state = s.timer := by
  refine Machine.Leads.invariant (I := fun s : Threads γ Q n m ↦
    ∃ t, (machine κ γ Q).Reachable t ∧ t.state = s.timer) h ⟨_, .refl, rfl⟩ ?_
  rintro u a v ⟨⟨state, history⟩, ht, rfl⟩ - hstep
  rcases exists_section (step_change hstep) with hsame | ⟨action, haction⟩
  · exact ⟨⟨u.timer, history⟩, ht, hsame.symm⟩
  · obtain ⟨history', hsection⟩ := haction history
    exact ⟨_, ht.step trivial hsection, rfl⟩

end Sections

end HighPerformanceTimer

end FoundationComponents
