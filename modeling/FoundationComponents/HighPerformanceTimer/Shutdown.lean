import Mathlib.Tactic.Abel
import FoundationComponents.HighPerformanceTimer.Threads
import FoundationComponents.Machine.Tally

/-!
# `shutdown` drains the callbacks

A callback that has been fired is with the scheduler, in the queue, with a worker, or invoked. It
leaves these places in this order, and what is in front of another in one of them stays in front of
it, except that workers overtake each other between taking a callback and invoking it.

`shutdown` makes the places empty in the same order. It joins the scheduler before it sets
`callback_stopping`, so the scheduler holds nothing and adds nothing any more when the workers learn
that they may exit, and a worker exits only when it finds the queue empty. When all workers have
exited, no callback is anywhere but among those invoked.
-/

namespace FoundationComponents

namespace HighPerformanceTimer

variable {γ : Type*} {Q : Heap}

/-! ## Where the callbacks are

The workers hold one callback each at most. With a single worker the order in which it invokes is
the order in which it takes; several workers overtake each other. -/

/-- What the scheduler has placed in `due_callbacks` and not in the queue yet. -/
def Scheduler.due : Scheduler γ → List (Copy γ)
  | .enqueueing due => due
  | _ => []

/-- What a worker has taken and not invoked yet. -/
def Worker.held : Worker γ → List (Copy γ)
  | .holding callback => [callback]
  | _ => []

/-- The callbacks that the workers have taken are those they have invoked and those they hold. A
single worker invokes them in the order in which it takes them. -/
structure Taken {m : ℕ} (invoked : List (Copy γ)) (workers : Fin m → Worker γ)
    (taken : List (Copy γ)) : Prop where
  perm : (taken : Multiset (Copy γ)) =
    invoked + tally (fun worker ↦ (worker.held : Multiset (Copy γ))) workers
  order : m = 1 → ∀ i, taken = invoked ++ (workers i).held

section Workers

variable {m : ℕ} {invoked invoked' taken : List (Copy γ)} {workers workers' : Fin m → Worker γ}

theorem Taken.update (h : Taken invoked workers taken) (i : Fin m) {worker : Worker γ}
    (new : List (Copy γ))
    (hworker : invoked' ++ worker.held = invoked ++ (workers i).held ++ new) :
    Taken invoked' (Function.update workers i worker) (taken ++ new) := by
  refine ⟨?_, fun hone j ↦ ?_⟩
  · have htrade := tally_update (fun worker ↦ (worker.held : Multiset (Copy γ))) workers i worker
    have hcoe : (invoked' : Multiset (Copy γ)) + worker.held =
        invoked + (workers i).held + new := by
      rw [Multiset.coe_add, hworker, ← Multiset.coe_add, ← Multiset.coe_add]
    refine add_right_cancel (b := ((workers i).held : Multiset (Copy γ))) ?_
    rw [← Multiset.coe_add, h.perm, add_assoc (invoked' : Multiset (Copy γ)), htrade,
      add_left_comm, hcoe]
    abel
  · subst hone
    obtain rfl := Subsingleton.elim i j
    rw [h.order rfl i, Function.update_self, hworker]

theorem tally_held (workers : Fin m → Worker γ) (h : ∀ i, (workers i).held = []) :
    tally (fun worker ↦ (worker.held : Multiset (Copy γ))) workers = 0 :=
  tally_eq_zero _ workers fun i ↦ by
    rw [h i]
    rfl

theorem Taken.congr (h : Taken invoked workers taken)
    (hheld : ∀ i, (workers' i).held = (workers i).held) : Taken invoked workers' taken := by
  refine ⟨?_, fun hone i ↦ ?_⟩
  · rw [h.perm, tally_congr]
    exact fun i ↦ congrArg _ (hheld i).symm
  · rw [hheld i]
    exact h.order hone i

end Workers

@[simp] theorem Worker.held_notified (worker : Worker γ) : worker.notified.held = worker.held := by
  cases worker <;> rfl

@[simp] theorem Scheduler.due_notified (scheduler : Scheduler γ) :
    scheduler.notified.due = scheduler.due := by
  cases scheduler <;> rfl

/-! ## Firing

Each callback has a number from the counter `fired`, so that equal callbacks are told apart and
those placed can be compared with the count. -/

theorem schedulerPass_fired {st st' : State γ Q} {κ : TimeArith} {now now' : ℤ} {fuel : ℕ}
    {pass : State.Pass γ} (hpass : st.schedulerPass κ now now' fuel = some (st', pass)) :
    st'.fired = st.fired + pass.due.length := by
  refine State.schedulerPass_rule (I := fun st₁ taken ↦ st₁.fired = st.fired + taken.length) id ?_
    rfl hpass
  intro st₁ st₂ taken fuel item entry hbefore _ _ _ _ hfire
  rw [State.fire_fired hfire, hbefore, List.length_append, List.length_singleton, Nat.add_assoc]

theorem copies_number (fired : ℕ) (due : List (TimerEntry γ)) :
    (copies fired due).map Copy.number = List.range' fired due.length := by
  rw [copies, List.map_map]
  exact List.zipIdx_map_snd _ _

section Threads

variable {n m : ℕ} {κ : TimeArith} {s s' : Threads γ Q n m} {a : Move γ n m}

/-- Every callback that has been fired is in one of its places. -/
structure Conserved (s : Threads γ Q n m) : Prop where
  numbers : s.placed.map Copy.number = List.range s.timer.fired
  queue : ∃ taken, s.placed = taken ++ s.readyCallbacks ++ s.scheduler.due ∧
    Taken s.invoked s.workers taken

theorem Conserved.setWorker (h : Conserved s) (i : Fin m) {worker : Worker γ}
    {ready invoked : List (Copy γ)} (new : List (Copy γ)) (hready : s.readyCallbacks = new ++ ready)
    (hworker : invoked ++ worker.held = s.invoked ++ (s.workers i).held ++ new) :
    Conserved ({ s with readyCallbacks := ready, invoked := invoked }.setWorker i worker) := by
  obtain ⟨taken, hplaced, htaken⟩ := h.queue
  refine ⟨h.numbers, taken ++ new, ?_, htaken.update i new hworker⟩
  rw [hready, ← List.append_assoc] at hplaced
  exact hplaced

theorem conserved_step (h : Conserved s) (hchange : Change κ s a s') : Conserved s' := by
  obtain ⟨taken, hplaced, htaken⟩ := h.queue
  cases hchange with
  | @call x operation hmay =>
    obtain ⟨timer, call, hcall, hentered⟩ := call_eq operation (idle_of_mayCall hmay)
    have hfired : timer.fired = s.timer.fired := by
      cases hentered with
      | notifyOne _ hfired => exact hfired
      | unchanged | cancelAll | shutdown => rfl
    rw [hcall]
    refine ⟨?_, taken, hplaced, htaken⟩
    change _ = List.range timer.fired
    rw [hfired]
    exact h.numbers
  | notifyScheduler =>
    refine ⟨h.numbers, taken, ?_, htaken⟩
    change s.placed = taken ++ s.readyCallbacks ++ s.scheduler.notified.due
    rwa [Scheduler.due_notified]
  | joinScheduler | stopCallbacks | joinWorkers => exact ⟨h.numbers, taken, hplaced, htaken⟩
  | notifyWorkers =>
    exact ⟨h.numbers, taken, hplaced, htaken.congr fun i ↦ Worker.held_notified _⟩
  | @pass now now' fuel timer pass hready hpass =>
    have hfired := schedulerPass_fired hpass
    rw [hready] at hplaced
    have hnumbers := h.numbers
    cases pass with
    | exit | wait deadline =>
      refine ⟨?_, taken, hplaced, htaken⟩
      change _ = List.range timer.fired
      rw [hfired]
      exact hnumbers
    | enqueue due =>
      refine ⟨?_, taken, ?_, htaken⟩
      · change (s.placed ++ copies s.timer.fired due).map Copy.number = List.range timer.fired
        rw [List.map_append, hnumbers, copies_number, hfired, List.range_eq_range',
          List.range_eq_range', State.Pass.due, ← List.range'_append_1, Nat.zero_add]
      · change s.placed ++ copies s.timer.fired due =
          taken ++ s.readyCallbacks ++ copies s.timer.fired due
        rw [hplaced, show (Scheduler.ready : Scheduler γ).due = [] from rfl, List.append_nil]
  | skip hdue =>
    rw [hdue] at hplaced
    exact ⟨h.numbers, taken, hplaced, htaken⟩
  | @enqueue now now' fuel due hdue =>
    refine ⟨h.numbers, taken, ?_, htaken⟩
    rw [hdue] at hplaced
    change s.placed = taken ++ (s.readyCallbacks ++ due) ++ []
    rw [List.append_nil, ← List.append_assoc]
    exact hplaced
  | announce hannouncing =>
    rw [hannouncing] at hplaced
    exact ⟨h.numbers, taken, hplaced, htaken.congr fun i ↦ Worker.held_notified _⟩
  | wakeScheduler hblocked =>
    rw [hblocked] at hplaced
    exact ⟨h.numbers, taken, hplaced, htaken⟩
  | @take i callback rest hready hqueue =>
    exact h.setWorker i [callback] hqueue (by rw [hready]; simp [Worker.held])
  | exit hready => exact h.setWorker _ [] rfl (by rw [hready]; simp [Worker.held])
  | block hready => exact h.setWorker _ [] rfl (by rw [hready]; simp [Worker.held])
  | invoke hholding => exact h.setWorker _ [] rfl (by rw [hholding]; simp [Worker.held])
  | finish hrunning => exact h.setWorker _ [] rfl (by rw [hrunning]; simp [Worker.held])
  | wakeWorker hblocked => exact h.setWorker _ [] rfl (by rw [hblocked]; simp [Worker.held])

theorem conserved_of_reachable (h : (threadMachine κ γ Q n m).Reachable s) : Conserved s := by
  refine Machine.Leads.invariant (I := Conserved (γ := γ)) h
    ⟨rfl, [], rfl, ?_, fun _ _ ↦ rfl⟩ fun hs _ hstep ↦ conserved_step hs (step_change hstep)
  exact (add_eq_left.mpr (tally_held (fun _ : Fin m ↦ .ready) fun _ ↦ rfl)).symm

/-! ## The stages of `shutdown`

The scheduler is joined before the workers are told to stop, so nothing comes into the queue after
that; and a worker exits only when it finds the queue empty. -/

end Threads

/-- The thread has called `shutdown`. -/
def Call.inShutdown : Call → Bool
  | .notifyShutdown | .joinScheduler | .stopCallbacks | .notifyWorkers | .joinWorkers => true
  | _ => false

/-- The thread has joined the scheduler. -/
def Call.joined : Call → Bool
  | .stopCallbacks | .notifyWorkers | .joinWorkers => true
  | _ => false

section Threads

variable {n m : ℕ} {κ : TimeArith} {s s' : Threads γ Q n m} {a : Move γ n m}

/-- There is one call of `shutdown`, and it comes from outside: callbacks do not call it. -/
def singleShutdown (s : Threads γ Q n m) : Move γ n m → Bool
  | .call x .shutdown => x.isLeft && !s.timer.shuttingDown
  | _ => true

/-- What each stage of `shutdown` has left behind. -/
structure Closing (s : Threads γ Q n m) : Prop where
  worker_call : ∀ i, (s.calls (.inr i)).inShutdown = false
  joined : ∀ x, (s.calls x).joined = true → s.scheduler = .exited
  stopping : s.callbackStopping = true → s.scheduler = .exited
  exited : ∀ i, s.workers i = .exited → s.callbackStopping = true ∧ s.readyCallbacks = []
  returned : s.returned = true → ∀ i, s.workers i = .exited

theorem Closing.of_same (h : Closing s) (timer : State γ Q) (invoked : List (Copy γ)) :
    Closing { s with timer := timer, invoked := invoked } :=
  ⟨h.worker_call, h.joined, h.stopping, h.exited, h.returned⟩

theorem Closing.setCall (h : Closing s) (x : Caller n m) {call : Call}
    (hworker : ∀ i, x = .inr i → call.inShutdown = false)
    (hjoined : call.joined = true → s.scheduler = .exited) : Closing (s.setCall x call) := by
  refine ⟨fun i ↦ ?_, fun y hy ↦ ?_, h.stopping, h.exited, h.returned⟩
  · rw [Threads.setCall]
    dsimp only
    by_cases hx : x = .inr i
    · rw [hx, Function.update_self]
      exact hworker i hx
    · rw [Function.update_of_ne (Ne.symm hx)]
      exact h.worker_call i
  · rw [Threads.setCall] at hy
    dsimp only at hy
    by_cases hyx : y = x
    · rw [hyx, Function.update_self] at hy
      exact hjoined hy
    · rw [Function.update_of_ne hyx] at hy
      exact h.joined y hy

theorem Closing.not_worker (h : Closing s) {x : Caller n m} (hx : (s.calls x).inShutdown = true)
    (i : Fin m) : x ≠ .inr i := by
  rintro rfl
  rw [h.worker_call i] at hx
  cases hx

/-- Before the scheduler has exited nothing has been stopped. -/
theorem Closing.of_open (h : Closing s) (hopen : s.scheduler ≠ .exited)
    (hcalls : s'.calls = s.calls) (hstopping : s'.callbackStopping = s.callbackStopping)
    (hworkers : ∀ i, s'.workers i = .exited → s.workers i = .exited)
    (hreturned : s'.returned = s.returned) : Closing s' := by
  have hrunning : ∀ i, s.workers i ≠ .exited := fun i hi ↦ hopen (h.stopping (h.exited i hi).1)
  refine ⟨?_, fun x hx ↦ ?_, fun hstop ↦ ?_, fun i hi ↦ absurd (hworkers i hi) (hrunning i), ?_⟩
  · rw [hcalls]
    exact h.worker_call
  · rw [hcalls] at hx
    exact absurd (h.joined x hx) hopen
  · rw [hstopping] at hstop
    exact absurd (h.stopping hstop) hopen
  · rw [hreturned]
    exact fun hret i ↦ absurd (h.returned hret i) (hrunning i)

theorem Closing.setWorker (h : Closing s) {i : Fin m} {worker : Worker γ}
    (hbefore : s.workers i ≠ .exited)
    (hafter : worker = .exited → s.callbackStopping = true ∧ s.readyCallbacks = []) :
    Closing (s.setWorker i worker) := by
  refine ⟨h.worker_call, h.joined, h.stopping, fun j hj ↦ ?_, fun hreturned ↦
    absurd (h.returned hreturned i) hbefore⟩
  rw [Threads.setWorker] at hj
  dsimp only at hj
  by_cases hji : j = i
  · rw [hji, Function.update_self] at hj
    exact hafter hj
  · rw [Function.update_of_ne hji] at hj
    exact h.exited j hj

theorem Worker.exited_of_notified {worker : Worker γ} (h : worker.notified = .exited) :
    worker = .exited := by
  cases worker with
  | exited => rfl
  | _ => cases h

theorem Closing.notifyWorkers (h : Closing s) : Closing s.notifyWorkers := by
  refine ⟨h.worker_call, h.joined, h.stopping,
    fun i hi ↦ h.exited i (Worker.exited_of_notified hi), fun hreturned i ↦ ?_⟩
  rw [Threads.notifyWorkers]
  dsimp only
  rw [h.returned hreturned i]
  rfl

theorem closing_step (h : Closing s) (hchange : Change κ s a s')
    (hsingle : singleShutdown s a = true) : Closing s' := by
  cases hchange with
  | @call x operation hmay =>
    obtain ⟨timer, call, hcall, hentered⟩ := call_eq operation (idle_of_mayCall hmay)
    have hset : Closing { s with timer := timer } := h.of_same timer s.invoked
    rw [hcall]
    cases hentered with
    | unchanged | notifyOne | cancelAll =>
      exact hset.setCall x (fun _ _ ↦ rfl) (by simp [Call.joined])
    | shutdown =>
      refine hset.setCall x (fun i hx ↦ ?_) (by simp [Call.joined])
      rw [hx] at hsingle
      cases hsingle
  | @notifyScheduler x next hcall hnext =>
    have hset : Closing s.notifyScheduler := by
      refine ⟨h.worker_call, fun y hy ↦ ?_, fun hstop ↦ ?_, h.exited, h.returned⟩
      · rw [Threads.notifyScheduler, h.joined y hy]
        rfl
      · rw [Threads.notifyScheduler, h.stopping hstop]
        rfl
    rcases hnext with rfl | ⟨hcall', rfl⟩
    · exact hset.setCall x (fun _ _ ↦ rfl) (by simp [Call.joined])
    · refine hset.setCall x (fun i hx ↦ ?_) (by simp [Call.joined])
      exact absurd hx (h.not_worker (by rw [hcall']; rfl) i)
  | @joinScheduler x hcall hexited =>
    refine h.setCall x (fun i hx ↦ ?_) fun _ ↦ hexited
    exact absurd hx (h.not_worker (by rw [hcall]; rfl) i)
  | @stopCallbacks x hcall =>
    have hexited := h.joined x (by rw [hcall]; rfl)
    have hset : Closing { s with callbackStopping := true } :=
      ⟨h.worker_call, h.joined, fun _ ↦ hexited, fun i hi ↦ ⟨rfl, (h.exited i hi).2⟩, h.returned⟩
    refine hset.setCall x (fun i hx ↦ ?_) fun _ ↦ hexited
    exact absurd hx (h.not_worker (by rw [hcall]; rfl) i)
  | @notifyWorkers x hcall =>
    refine h.notifyWorkers.setCall x (fun i hx ↦ ?_) fun _ ↦ h.joined x (by rw [hcall]; rfl)
    exact absurd hx (h.not_worker (by rw [hcall]; rfl) i)
  | @joinWorkers x hcall hexited =>
    -- the caller is not a worker, so it has joined all of them
    have hset : Closing { s with returned := true } :=
      ⟨h.worker_call, h.joined, h.stopping, h.exited,
        fun _ i ↦ hexited i (h.not_worker (by rw [hcall]; rfl) i)⟩
    exact hset.setCall x (fun _ _ ↦ rfl) (by simp [Call.joined])
  | @pass now now' fuel timer pass hready hpass =>
    have hopen : s.scheduler ≠ .exited := by
      rw [hready]
      simp
    cases pass <;> exact h.of_open hopen rfl rfl (fun _ ↦ id) rfl
  | skip hdue | enqueue hdue =>
    refine h.of_open ?_ rfl rfl (fun _ ↦ id) rfl
    rw [hdue]
    simp
  | announce hannouncing =>
    refine h.of_open ?_ rfl rfl (fun _ ↦ Worker.exited_of_notified) rfl
    rw [hannouncing]
    simp
  | wakeScheduler hblocked =>
    refine h.of_open ?_ rfl rfl (fun _ ↦ id) rfl
    rw [hblocked]
    simp
  | @take i callback rest hready hqueue =>
    have hset : Closing { s with readyCallbacks := rest } := by
      refine ⟨h.worker_call, h.joined, h.stopping, fun j hj ↦ ?_, h.returned⟩
      -- a worker that has exited has found the queue empty
      have hempty := (h.exited j hj).2
      rw [hqueue] at hempty
      cases hempty
    exact hset.setWorker (by rw [hready]; simp) (by simp)
  | exit hready hqueue hstopping =>
    exact h.setWorker (by rw [hready]; simp) fun _ ↦ ⟨hstopping, hqueue⟩
  | block hready => exact h.setWorker (by rw [hready]; simp) (by simp)
  | @invoke i callback hholding =>
    have hset : Closing { s with invoked := s.invoked ++ [callback] } := h.of_same s.timer _
    exact hset.setWorker (by rw [hholding]; simp) (by simp)
  | finish hrunning => exact h.setWorker (by rw [hrunning]; simp) (by simp)
  | wakeWorker hblocked => exact h.setWorker (by rw [hblocked]; simp) (by simp)

theorem closing_of_reachable
    (h : (threadMachine κ γ Q n m).ReachableWhen (fun s a ↦ singleShutdown s a = true) s) :
    Closing s := by
  refine Machine.Leads.invariant (I := Closing) h ?_
    fun hs hsingle hstep ↦ closing_step hs (step_change hstep) hsingle
  exact ⟨fun _ ↦ rfl, (fun x hx ↦ by cases hx), (fun hstop ↦ by cases hstop),
    (fun i hi ↦ by cases hi), fun hreturned ↦ by cases hreturned⟩

/-- After the return of `shutdown` no worker is left to invoke anything. -/
theorem invoked_of_leads (h : Closing s) (hreturned : s.returned = true) {t : Threads γ Q n m}
    (hleads : (threadMachine κ γ Q n m).Leads (fun s a ↦ singleShutdown s a = true) s t) :
    t.invoked = s.invoked := by
  refine (Machine.Leads.invariant (I := fun t : Threads γ Q n m ↦
    Closing t ∧ t.returned = true ∧ t.invoked = s.invoked) hleads ⟨h, hreturned, rfl⟩ ?_).2.2
  rintro u a v ⟨hu, hret, hinvoked⟩ hsingle hstep
  have hchange := step_change hstep
  refine ⟨closing_step hu hchange hsingle, ?_⟩
  cases hchange with
  | @call x operation hmay =>
    obtain ⟨timer, call, hcall, -⟩ := call_eq operation (idle_of_mayCall hmay)
    rw [hcall]
    exact ⟨hret, hinvoked⟩
  | @pass now now' fuel timer pass hready hpass => cases pass <;> exact ⟨hret, hinvoked⟩
  | joinWorkers => exact ⟨rfl, hinvoked⟩
  | invoke hholding =>
    rw [hu.returned hret] at hholding
    cases hholding
  | _ => exact ⟨hret, hinvoked⟩

/-- **`shutdown` drains the callbacks.** When the one call of `shutdown`, which comes from outside,
has returned, the queue is empty, all workers have exited, and each callback that has been counted
in `fired` has been invoked once, and nothing else has. No later step invokes a callback. A single
worker has invoked them in the order in which the scheduler has placed them in `due_callbacks`. -/
theorem shutdown_drains (hm : 0 < m)
    (h : (threadMachine κ γ Q n m).ReachableWhen (fun s a ↦ singleShutdown s a = true) s)
    (hreturned : s.returned = true) :
    s.readyCallbacks = [] ∧
      (s.placed.map Copy.number = List.range s.timer.fired ∧ s.invoked.Perm s.placed) ∧
      (∀ i, s.workers i = .exited) ∧
      (∀ t, (threadMachine κ γ Q n m).Leads (fun s a ↦ singleShutdown s a = true) s t →
        t.invoked = s.invoked) ∧
      (m = 1 → s.invoked = s.placed) := by
  have hclosing := closing_of_reachable h
  have hconserved := conserved_of_reachable h.reachable
  have hexited := hclosing.returned hreturned
  obtain ⟨hstopping, hempty⟩ := hclosing.exited ⟨0, hm⟩ (hexited _)
  have hscheduler := hclosing.stopping hstopping
  have hheld : ∀ i, (s.workers i).held = [] := fun i ↦ by
    rw [hexited i]
    rfl
  obtain ⟨taken, hplaced, htaken⟩ := hconserved.queue
  rw [hempty, hscheduler, show (Scheduler.exited : Scheduler γ).due = [] from rfl, List.append_nil,
    List.append_nil] at hplaced
  subst hplaced
  refine ⟨hempty, ⟨hconserved.numbers, ?_⟩, hexited,
    fun t hleads ↦ invoked_of_leads hclosing hreturned hleads, fun hone ↦ ?_⟩
  · have hperm := htaken.perm
    rw [tally_held s.workers hheld, add_zero] at hperm
    exact (Multiset.coe_eq_coe.mp hperm).symm
  · have horder := htaken.order hone ⟨0, hm⟩
    rw [hheld, List.append_nil] at horder
    exact horder.symm

end Threads

/-- `shutdown` is called when the scheduler has a one-shot and a repeating timer in its hands. One
worker overtakes the other, and its callback tries to add a timer. -/
theorem shutdown_drains_overtaken :
    ∃ s : Threads String (.sortedList HeapItem.after) 2 2,
      (threadMachine .exact String (.sortedList HeapItem.after) 2 2).ReachableWhen
        (fun s a ↦ singleShutdown s a = true) s ∧
      s.placed = [⟨0, "once"⟩, ⟨1, "again"⟩] ∧ s.invoked = [⟨1, "again"⟩, ⟨0, "once"⟩] ∧
      s.readyCallbacks = [] ∧ s.placed.map Copy.number = List.range s.timer.fired ∧
      s.invoked.Perm s.placed ∧ ∀ i, s.workers i = .exited := by
  obtain ⟨s, hs, hfinal⟩ := Machine.exists_reachableWhen_of_run
    (M := threadMachine .exact String (.sortedList HeapItem.after) 2 2)
    (C := fun s a ↦ singleShutdown s a = true) (fun s ↦ (s.returned, s.placed, s.invoked))
    [.call (.inl 0) (.addTimer 0 5 0 false (some "once")), .proceed (.inl 0),
      .call (.inl 0) (.addTimer 0 6 1 true (some "again")), .proceed (.inl 0),
      .scheduler 10 10 5, .call (.inl 1) .shutdown, .proceed (.inl 1), .scheduler 0 0 0, .worker 0,
      .scheduler 0 0 0, .worker 1, .worker 1,
      .call (.inr 1) (.addTimer 0 20 0 false (some "late")), .worker 0, .scheduler 0 0 0,
      .proceed (.inl 1), .proceed (.inl 1), .worker 0, .worker 0, .proceed (.inl 1), .worker 1,
      .worker 1, .proceed (.inl 1)]
    (b := (true, [⟨0, "once"⟩, ⟨1, "again"⟩], [⟨1, "again"⟩, ⟨0, "once"⟩])) (by decide +kernel)
  simp only [Prod.mk.injEq] at hfinal
  obtain ⟨hreturned, hplaced, hinvoked⟩ := hfinal
  obtain ⟨hempty, ⟨hnumbers, hperm⟩, hexited, -⟩ := shutdown_drains (by decide) hs hreturned
  exact ⟨s, hs, hplaced, hinvoked, hempty, hnumbers, hperm, hexited⟩

end HighPerformanceTimer

end FoundationComponents
