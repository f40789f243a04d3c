import FoundationComponents.HighPerformanceTimer.Deadlock
import FoundationComponents.HighPerformanceTimer.Sleep

/-!
# `shutdown` returns

Once `shutting_down` is set, the timer runs down. The scheduler exits at its next pass, the workers
take what is left in the queue, and each stage of `shutdown` is followed by the next. Every position
of a thread and every callback in the queue is worth a bounded number of steps.

No thread is left behind. The scheduler is woken by the call that has set the flag, and a worker
that sleeps when `callback_stopping` is set is woken by the call that has set it; a worker that is
in its section later finds it set. So `shutdown` returns, also when a callback calls it: then its
worker is the last one to exit.
-/

namespace FoundationComponents

namespace HighPerformanceTimer

variable {γ : Type*} {Q : Heap} {n m : ℕ}

/-- There is one call of `shutdown`, from outside or from a callback. -/
def oneShutdown (s : Threads γ Q n m) : Move γ n m → Bool
  | .call _ .shutdown => !s.timer.shuttingDown
  | _ => true

/-- The thread has set `callback_stopping`. -/
def Call.stopped : Call → Bool
  | .notifyWorkers | .joinWorkers => true
  | _ => false

/-! ## What a step does to the calls and the flags

A flag that has been set stays set, and so does a thread that has exited. What a step may add is the
next stage of a call, and what it has waited for. -/

/-- A call goes on, in `shutdown` by one stage. -/
inductive Goes (s s' : Threads γ Q n m) : Call → Call → Prop
  | outside {before after : Call} (hbefore : before.inShutdown = false)
      (hafter : after.inShutdown = false) : Goes s s' before after
  | enter {before : Call} (hopen : s.timer.shuttingDown = false)
      (hset : s'.timer.shuttingDown = true) : Goes s s' before .notifyShutdown
  | notified : Goes s s' .notifyShutdown .joinScheduler
  | joined (hexited : s.scheduler = .exited) : Goes s s' .joinScheduler .stopCallbacks
  | stopped (hstopping : s'.callbackStopping = true) : Goes s s' .stopCallbacks .notifyWorkers
  | roused (hawake : ∀ i, s'.workers i ≠ .blocked) : Goes s s' .notifyWorkers .joinWorkers
  | returned (hreturned : s'.returned = true) : Goes s s' .joinWorkers .idle

theorem Worker.notified_ne_blocked (worker : Worker γ) : worker.notified ≠ .blocked := by
  cases worker <;> simp [Worker.notified]

section Step

variable {κ : TimeArith} {s s' : Threads γ Q n m} {a : Move γ n m}

theorem goes_of_proceed {x : Caller n m} (h : s.proceed x = some s') :
    ∃ call, s'.calls = Function.update s.calls x call ∧ Goes s s' (s.calls x) call := by
  rw [Threads.proceed] at h
  split at h
  case h_1 => cases h
  case h_2 hcall | h_3 hcall =>
    obtain rfl := Option.some.inj h
    rw [hcall]
    exact ⟨_, rfl, .outside rfl rfl⟩
  case h_4 hcall =>
    obtain rfl := Option.some.inj h
    rw [hcall]
    exact ⟨_, rfl, .notified⟩
  case h_5 hcall =>
    split at h
    · rename_i hexited
      obtain rfl := Option.some.inj h
      rw [hcall]
      exact ⟨_, rfl, .joined (Scheduler.eq_exited hexited)⟩
    · cases h
  case h_6 hcall =>
    obtain rfl := Option.some.inj h
    rw [hcall]
    exact ⟨_, rfl, .stopped rfl⟩
  case h_7 hcall =>
    obtain rfl := Option.some.inj h
    rw [hcall]
    exact ⟨_, rfl, .roused fun i ↦ Worker.notified_ne_blocked _⟩
  case h_8 hcall =>
    split at h
    · obtain rfl := Option.some.inj h
      rw [hcall]
      exact ⟨_, rfl, .returned rfl⟩
    · cases h

theorem goes_of_step (hone : oneShutdown s a = true) (h : s.step κ a = some s') :
    s'.calls = s.calls ∨
      ∃ x call, s'.calls = Function.update s.calls x call ∧ Goes s s' (s.calls x) call := by
  cases step_change h with
  | @call x operation hmay =>
    have hidle := idle_of_mayCall hmay
    obtain ⟨timer, call, hcall, hentered⟩ := call_eq operation hidle
    refine Or.inr ⟨x, call, by rw [hcall]; rfl, ?_⟩
    cases hentered with
    | unchanged | notifyOne | cancelAll => exact .outside (by rw [hidle]; rfl) rfl
    | shutdown => exact .enter (Bool.not_eq_true' _ ▸ hone) (by rw [hcall]; rfl)
  | notifyScheduler | joinScheduler | stopCallbacks | notifyWorkers | joinWorkers =>
    exact Or.inr ⟨_, goes_of_proceed h⟩
  | @pass now now' fuel timer pass hready hpass => cases pass <;> exact Or.inl rfl
  | _ => exact Or.inl rfl

/-- What is never taken back. -/
structure Keeps (s s' : Threads γ Q n m) : Prop where
  shuttingDown : s.timer.shuttingDown = true → s'.timer.shuttingDown = true
  scheduler : s.scheduler = .exited → s'.scheduler = .exited
  stopping : s.callbackStopping = true → s'.callbackStopping = true
  returned : s.returned = true → s'.returned = true

theorem shuttingDown_call (x : Caller n m) (operation : Operation γ) :
    (s.call x operation).timer.shuttingDown = true ↔
      s.timer.shuttingDown = true ∨ operation = .shutdown := by
  cases operation with
  | addTimer now deadline interval repeating callback =>
    rw [Threads.call]
    cases hadd : s.timer.addTimer now deadline interval repeating callback with
    | error message => simp
    | ok next =>
      obtain ⟨entry, rfl⟩ := State.exists_of_addTimer_eq_ok hadd
      change (s.timer.insertTimer entry).1.shuttingDown = true ↔ _
      rw [State.insertTimer]
      split <;> simp
  | cancel id =>
    change (s.timer.cancel id).1.shuttingDown = true ↔ _
    rw [State.cancel]
    split
    · simp
    · split <;> simp
  | cancelAll => exact (or_iff_left fun heq ↦ by cases heq).symm
  | shutdown => exact iff_of_true rfl (Or.inr rfl)

theorem schedulerPass_shuttingDown {st st' : State γ Q} {now now' : ℤ} {fuel : ℕ}
    {pass : State.Pass γ} (hpass : st.schedulerPass κ now now' fuel = some (st', pass)) :
    st'.shuttingDown = st.shuttingDown := by
  refine State.schedulerPass_rule (I := fun st₁ _ ↦ st₁.shuttingDown = st.shuttingDown) id ?_ rfl
    hpass
  intro st₁ st₂ taken fuel item entry hbefore _ _ _ _ hfire
  rw [State.fire] at hfire
  split at hfire
  · obtain ⟨next, -, rfl⟩ := Option.map_eq_some_iff.mp hfire
    exact hbefore
  · obtain rfl := Option.some.inj hfire
    exact hbefore

theorem keeps_of_step (h : s.step κ a = some s') : Keeps s s' := by
  cases step_change h with
  | @call x operation hmay =>
    have hflag := (shuttingDown_call (s := s) x operation).mpr ∘ Or.inl
    obtain ⟨timer, call, hcall, -⟩ := call_eq operation (idle_of_mayCall hmay)
    rw [hcall] at hflag ⊢
    exact ⟨hflag, id, id, id⟩
  | @notifyScheduler x next hcall hnext =>
    refine ⟨id, fun hexited ↦ ?_, id, id⟩
    change s.scheduler.notified = .exited
    rw [hexited]
    rfl
  | @pass now now' fuel timer pass hready hpass =>
    refine ⟨fun hflag ↦ ?_, fun hexited ↦ ?_, ?_, ?_⟩
    · rw [timer_endPass, schedulerPass_shuttingDown hpass]
      exact hflag
    · rw [hready] at hexited
      cases hexited
    · cases pass <;> exact id
    · cases pass <;> exact id
  | skip hdue | enqueue hdue =>
    refine ⟨id, fun hexited ↦ ?_, id, id⟩
    rw [hdue] at hexited
    cases hexited
  | announce hannouncing =>
    refine ⟨id, fun hexited ↦ ?_, id, id⟩
    rw [hannouncing] at hexited
    cases hexited
  | wakeScheduler hblocked =>
    refine ⟨id, fun hexited ↦ ?_, id, id⟩
    rw [hblocked] at hexited
    cases hexited
  | stopCallbacks => exact ⟨id, id, fun _ ↦ rfl, id⟩
  | joinWorkers => exact ⟨id, id, id, fun _ ↦ rfl⟩
  | _ => exact ⟨id, id, id, id⟩

theorem flags_of_step (hone : oneShutdown s a = true) (h : s.step κ a = some s') :
    (s'.timer.shuttingDown = true →
      s.timer.shuttingDown = true ∨ ∃ x, s'.calls x = .notifyShutdown) ∧
    (s'.callbackStopping = true → s.callbackStopping = true ∨ ∃ x, s.calls x = .stopCallbacks) ∧
    (s'.returned = true → s.returned = true ∨ ∃ x, s.calls x = .joinWorkers) := by
  cases step_change h with
  | @call x operation hmay =>
    refine ⟨fun hflag ↦ ?_, ?_⟩
    · refine ((shuttingDown_call x operation).mp hflag).imp_right ?_
      rintro rfl
      exact ⟨x, Function.update_self ..⟩
    · obtain ⟨timer, call, hcall, -⟩ := call_eq operation (idle_of_mayCall hmay)
      rw [hcall]
      exact ⟨Or.inl, Or.inl⟩
  | @pass now now' fuel timer pass hready hpass =>
    refine ⟨fun hflag ↦ Or.inl ?_, ?_⟩
    · rwa [timer_endPass, schedulerPass_shuttingDown hpass] at hflag
    · cases pass <;> exact ⟨Or.inl, Or.inl⟩
  | stopCallbacks hcall => exact ⟨Or.inl, fun _ ↦ Or.inr ⟨_, hcall⟩, Or.inl⟩
  | joinWorkers hcall => exact ⟨Or.inl, Or.inl, fun _ ↦ Or.inr ⟨_, hcall⟩⟩
  | _ => exact ⟨Or.inl, Or.inl, Or.inl⟩

private theorem workers_setWorker (s : Threads γ Q n m) (j : Fin m) (worker : Worker γ)
    (i : Fin m) :
    (s.setWorker j worker).workers i = worker ∨ (s.setWorker j worker).workers i = s.workers i := by
  by_cases hij : i = j
  · subst hij
    exact Or.inl (Function.update_self ..)
  · exact Or.inr (Function.update_of_ne hij ..)

/-- A worker that finds the queue empty falls asleep before `callback_stopping` is set, and exits
afterwards. -/
theorem worker_of_step (h : s.step κ a = some s') (i : Fin m) :
    (s'.workers i = .blocked → s.workers i = .blocked ∨ s.callbackStopping = false) ∧
    (s'.workers i = .exited →
      s.workers i = .exited ∨ s.callbackStopping = true ∧ s.readyCallbacks = []) := by
  cases step_change h with
  | call hmay =>
    obtain ⟨timer, call, hcall, -⟩ := call_eq _ (idle_of_mayCall hmay)
    rw [hcall]
    exact ⟨Or.inl, Or.inl⟩
  | @pass now now' fuel timer pass hready hpass => cases pass <;> exact ⟨Or.inl, Or.inl⟩
  | notifyWorkers | announce =>
    exact ⟨fun hblocked ↦ absurd hblocked (Worker.notified_ne_blocked _),
      fun hexited ↦ Or.inl (Worker.exited_of_notified hexited)⟩
  | @block j hready =>
    have hopen : s.callbackStopping = false := by
      rw [Threads.step, Threads.workerStep, hready] at h
      by_contra hstopping
      rw [Bool.not_eq_false] at hstopping
      have hworker := congrArg (fun u : Option (Threads γ Q n m) ↦ u.map (·.workers j)) h
      dsimp only at hworker
      split at hworker <;> simp [Threads.setWorker, hstopping] at hworker
    rcases workers_setWorker s j .blocked i with heq | heq
    · rw [heq]
      exact ⟨fun _ ↦ Or.inr hopen, fun heq ↦ by cases heq⟩
    · rw [heq]
      exact ⟨Or.inl, Or.inl⟩
  | @exit j hready hqueue hstopping =>
    rcases workers_setWorker s j .exited i with heq | heq
    · rw [heq]
      exact ⟨(fun heq ↦ by cases heq), fun _ ↦ Or.inr ⟨hstopping, hqueue⟩⟩
    · rw [heq]
      exact ⟨Or.inl, Or.inl⟩
  | take | invoke | finish | wakeWorker =>
    rcases workers_setWorker _ _ _ i with heq | heq
    · rw [heq]
      exact ⟨(fun heq ↦ by cases heq), fun heq ↦ by cases heq⟩
    · rw [heq]
      exact ⟨Or.inl, Or.inl⟩
  | _ => exact ⟨Or.inl, Or.inl⟩

/-- Nothing comes into the queue after the scheduler has exited. -/
theorem ready_of_step (h : s.step κ a = some s') (hexited : s.scheduler = .exited)
    (hempty : s.readyCallbacks = []) : s'.readyCallbacks = [] := by
  cases step_change h with
  | call hmay =>
    obtain ⟨timer, call, hcall, -⟩ := call_eq _ (idle_of_mayCall hmay)
    rw [hcall]
    exact hempty
  | @pass now now' fuel timer pass hready hpass => cases pass <;> exact hempty
  | enqueue hdue =>
    rw [hdue] at hexited
    cases hexited
  | take hready hqueue =>
    rw [hempty] at hqueue
    cases hqueue
  | _ => exact hempty

/-! ## The invariant

How far the one call of `shutdown` has got tells which flags are set and which threads have exited;
and the other way round, so that nobody waits for something that has been missed. -/

/-- What the stages before have done for a call. -/
def Call.Follows (s : Threads γ Q n m) : Call → Prop
  | .stopCallbacks => s.scheduler = .exited
  | .notifyWorkers => s.scheduler = .exited ∧ s.callbackStopping = true
  | .joinWorkers =>
      s.scheduler = .exited ∧ s.callbackStopping = true ∧ ∀ i, s.workers i ≠ .blocked
  | _ => True

theorem Call.Follows.step {call : Call} (hcall : call.Follows s) (h : s.step κ a = some s') :
    call.Follows s' := by
  have hkeeps := keeps_of_step h
  cases call with
  | stopCallbacks => exact hkeeps.scheduler hcall
  | notifyWorkers => exact hcall.imp hkeeps.scheduler hkeeps.stopping
  | joinWorkers =>
    obtain ⟨hexited, hstopping, hawake⟩ := hcall
    refine ⟨hkeeps.scheduler hexited, hkeeps.stopping hstopping, fun i hblocked ↦ ?_⟩
    rcases (worker_of_step h i).1 hblocked with hbefore | hopen
    · exact hawake i hbefore
    · rw [hstopping] at hopen
      cases hopen
  | _ => trivial

theorem Goes.follows {before after : Call} (hgoes : Goes s s' before after)
    (hbefore : before.Follows s) (h : s.step κ a = some s') : after.Follows s' := by
  have hkeeps := keeps_of_step h
  cases hgoes with
  | @outside _ _ hout hafter =>
    cases after with
    | stopCallbacks | notifyWorkers | joinWorkers => cases hafter
    | _ => trivial
  | joined hexited => exact hkeeps.scheduler hexited
  | stopped hstopping => exact ⟨hkeeps.scheduler hbefore, hstopping⟩
  | roused hawake => exact ⟨hkeeps.scheduler hbefore.1, hkeeps.stopping hbefore.2, hawake⟩
  | enter | notified | returned => trivial

/-- How far `shutdown` has got. -/
structure Staged (s : Threads γ Q n m) : Prop where
  follows : ∀ x, (s.calls x).Follows s
  stopping : s.callbackStopping = true → s.scheduler = .exited
  returned : s.returned = true → Call.joinWorkers.Follows s
  exited : ∀ i, s.workers i = .exited → s.callbackStopping = true ∧ s.readyCallbacks = []

theorem Staged.step (hs : Staged s) (hone : oneShutdown s a = true) (h : s.step κ a = some s') :
    Staged s' := by
  have hkeeps := keeps_of_step h
  obtain ⟨-, hstopping, hreturned⟩ := flags_of_step hone h
  refine ⟨fun y ↦ ?_, fun hstop ↦ ?_, fun hret ↦ ?_, fun i hi ↦ ?_⟩
  · rcases goes_of_step hone h with hcalls | ⟨x, call, hcalls, hgoes⟩
    · rw [hcalls]
      exact (hs.follows y).step h
    · rw [hcalls]
      by_cases hyx : y = x
      · subst hyx
        rw [Function.update_self]
        exact hgoes.follows (hs.follows y) h
      · rw [Function.update_of_ne hyx]
        exact (hs.follows y).step h
  · rcases hstopping hstop with hbefore | ⟨x, hx⟩
    · exact hkeeps.scheduler (hs.stopping hbefore)
    · have hfollows := hs.follows x
      rw [hx] at hfollows
      exact hkeeps.scheduler hfollows
  · rcases hreturned hret with hbefore | ⟨x, hx⟩
    · exact (hs.returned hbefore).step h
    · have hfollows := hs.follows x
      rw [hx] at hfollows
      exact hfollows.step h
  · have hbefore : s.callbackStopping = true ∧ s.readyCallbacks = [] :=
      ((worker_of_step h i).2 hi).elim (hs.exited i) id
    exact ⟨hkeeps.stopping hbefore.1, ready_of_step h (hs.stopping hbefore.1) hbefore.2⟩

/-- The one call of `shutdown` is under way, or has returned. -/
structure Single (s : Threads γ Q n m) : Prop where
  begun : ∀ x, (s.calls x).inShutdown = true → s.timer.shuttingDown = true
  once : ∀ x y, (s.calls x).inShutdown = true → (s.calls y).inShutdown = true → x = y
  pending : s.timer.shuttingDown = true →
    s.returned = true ∨ ∃ x, (s.calls x).inShutdown = true

theorem Goes.before {before after : Call} (hgoes : Goes s s' before after)
    (hafter : after.inShutdown = true) :
    before.inShutdown = true ∨ s.timer.shuttingDown = false ∧ s'.timer.shuttingDown = true := by
  cases hgoes with
  | outside _ hout =>
    rw [hout] at hafter
    cases hafter
  | enter hopen hset => exact Or.inr ⟨hopen, hset⟩
  | returned => cases hafter
  | notified | joined | stopped | roused => exact Or.inl rfl

theorem Goes.after {before after : Call} (hgoes : Goes s s' before after)
    (hbefore : before.inShutdown = true) : after.inShutdown = true ∨ s'.returned = true := by
  cases hgoes with
  | outside hout _ =>
    rw [hout] at hbefore
    cases hbefore
  | returned hreturned => exact Or.inr hreturned
  | enter | notified | joined | stopped | roused => exact Or.inl rfl

theorem inShutdown_after (hone : oneShutdown s a = true) (h : s.step κ a = some s')
    {y : Caller n m} (hy : (s.calls y).inShutdown = true) :
    (s'.calls y).inShutdown = true ∨ s'.returned = true := by
  rcases goes_of_step hone h with hcalls | ⟨x, call, hcalls, hgoes⟩
  · rw [hcalls]
    exact Or.inl hy
  · rw [hcalls]
    by_cases hyx : y = x
    · subst hyx
      rw [Function.update_self]
      exact hgoes.after hy
    · rw [Function.update_of_ne hyx]
      exact Or.inl hy

theorem inShutdown_only (hone : oneShutdown s a = true) (h : s.step κ a = some s')
    {y : Caller n m} (hy : (s'.calls y).inShutdown = true) :
    (s.calls y).inShutdown = true ∨
      s.timer.shuttingDown = false ∧ s'.timer.shuttingDown = true ∧
        ∀ z, z ≠ y → s'.calls z = s.calls z := by
  rcases goes_of_step hone h with hcalls | ⟨x, call, hcalls, hgoes⟩
  · rw [hcalls] at hy
    exact Or.inl hy
  · rw [hcalls] at hy ⊢
    by_cases hyx : y = x
    · subst hyx
      rw [Function.update_self] at hy
      obtain hbefore | ⟨hopen, hset⟩ := hgoes.before hy
      · exact Or.inl hbefore
      · exact Or.inr ⟨hopen, hset, fun z hz ↦ Function.update_of_ne hz ..⟩
    · rw [Function.update_of_ne hyx] at hy
      exact Or.inl hy

theorem Single.step (hs : Single s) (hone : oneShutdown s a = true) (h : s.step κ a = some s') :
    Single s' := by
  have hkeeps := keeps_of_step h
  -- whoever enters `shutdown` finds nobody there
  have halone : ∀ y z, s.timer.shuttingDown = false → (∀ w, w ≠ y → s'.calls w = s.calls w) →
      (s'.calls z).inShutdown = true → y = z := by
    intro y z hopen hothers hz
    by_contra hne
    rw [hothers z (Ne.symm hne)] at hz
    have hflag := hs.begun z hz
    rw [hopen] at hflag
    cases hflag
  refine ⟨fun y hy ↦ ?_, fun y z hy hz ↦ ?_, fun hflag ↦ ?_⟩
  · obtain hbefore | ⟨-, hset, -⟩ := inShutdown_only hone h hy
    · exact hkeeps.shuttingDown (hs.begun y hbefore)
    · exact hset
  · obtain hy' | ⟨hopen, -, hothers⟩ := inShutdown_only hone h hy
    · obtain hz' | ⟨hopen, -, hothers⟩ := inShutdown_only hone h hz
      · exact hs.once y z hy' hz'
      · exact (halone z y hopen hothers hy).symm
    · exact halone y z hopen hothers hz
  · rcases (flags_of_step hone h).1 hflag with hbefore | ⟨x, hx⟩
    · rcases hs.pending hbefore with hreturned | ⟨x, hx⟩
      · exact Or.inl (hkeeps.returned hreturned)
      · exact (inShutdown_after hone h hx).symm.imp_right fun hin ↦ ⟨x, hin⟩
    · exact Or.inr ⟨x, by rw [hx]; rfl⟩

/-- What holds in every run with one call of `shutdown`. -/
structure Ending (s : Threads γ Q n m) : Prop where
  staged : Staged s
  single : Single s
  running : ∀ i, s.calls (.inr i) ≠ .idle → (s.workers i).isRunning = true

theorem Ending.step (hs : Ending s) (hone : oneShutdown s a = true) (h : s.step κ a = some s') :
    Ending s' :=
  ⟨hs.staged.step hone h, hs.single.step hone h, running_of_step h hs.running⟩

theorem ending_of_reachable
    (h : (threadMachine κ γ Q n m).ReachableWhen (fun s a ↦ oneShutdown s a = true) s) :
    Ending s := by
  refine Machine.Leads.invariant (I := Ending) h ?_ fun hs hone hstep ↦ hs.step hone hstep
  exact ⟨⟨fun _ ↦ trivial, nofun, nofun, nofun⟩, ⟨nofun, nofun, nofun⟩,
    fun i hbusy ↦ absurd rfl hbusy⟩

/-! ## The potential

A callback in the queue is worth the moves of the worker that will take it, and a notification those
of the threads that it wakes. -/

/-- A move that goes on with what has been begun. -/
def Move.continues : Move γ n m → Bool
  | .proceed _ | .scheduler .. | .worker _ => true
  | _ => false

def Worker.cost : Worker γ → ℕ
  | .blocked | .exited => 0
  | .ready => 1
  | .running _ => 2
  | .holding _ => 3

/-- Whoever notifies the workers pays for each of them. -/
def Scheduler.cost (m : ℕ) : Scheduler γ → ℕ
  | .blocked _ | .exited => 0
  | .ready => 1
  | .announcing => m + 2
  | .enqueueing due => m + 3 + 3 * due.length

def Call.cost (m : ℕ) : Call → ℕ
  | .idle => 0
  | .joinWorkers => 1
  | .notifyOne | .notifyAll => 2
  | .notifyWorkers => m + 2
  | .stopCallbacks => m + 3
  | .joinScheduler => m + 4
  | .notifyShutdown => m + 6

/-- How many moves a timer that is shutting down makes at most. -/
def Threads.potential (s : Threads γ Q n m) : ℕ :=
  tally Worker.cost s.workers + 3 * s.readyCallbacks.length + s.scheduler.cost m +
    tally (Call.cost m) s.calls

theorem Scheduler.cost_notified (scheduler : Scheduler γ) :
    scheduler.notified.cost m ≤ scheduler.cost m + 1 := by
  cases scheduler <;> simp [Scheduler.notified, Scheduler.cost]

theorem Worker.cost_notified (worker : Worker γ) : worker.notified.cost ≤ worker.cost + 1 := by
  cases worker <;> simp [Worker.notified, Worker.cost]

private theorem tally_cost_notified (workers : Fin m → Worker γ) :
    tally Worker.cost (fun i ↦ (workers i).notified) ≤ tally Worker.cost workers + m := by
  have hle : tally (fun worker : Worker γ ↦ worker.notified.cost) workers ≤
      tally (fun worker ↦ worker.cost + 1) workers :=
    Finset.sum_le_sum fun i _ ↦ Worker.cost_notified (workers i)
  have hconst := tally_add_const Worker.cost workers 1
  rw [Fintype.card_fin, smul_eq_mul, Nat.mul_one] at hconst
  rw [hconst] at hle
  exact hle

private theorem potential_setCall (s : Threads γ Q n m) (x : Caller n m) (call : Call) :
    (s.setCall x call).potential + (s.calls x).cost m = s.potential + call.cost m := by
  have htrade := tally_update (Call.cost m) s.calls x call
  change tally Worker.cost s.workers + 3 * s.readyCallbacks.length + s.scheduler.cost m +
      tally (Call.cost m) (Function.update s.calls x call) + (s.calls x).cost m =
    tally Worker.cost s.workers + 3 * s.readyCallbacks.length + s.scheduler.cost m +
      tally (Call.cost m) s.calls + call.cost m
  omega

theorem potential_setWorker (s : Threads γ Q n m) (i : Fin m) (worker : Worker γ) :
    (s.setWorker i worker).potential + (s.workers i).cost = s.potential + worker.cost := by
  have htrade := tally_update Worker.cost s.workers i worker
  change tally Worker.cost (Function.update s.workers i worker) + 3 * s.readyCallbacks.length +
      s.scheduler.cost m + tally (Call.cost m) s.calls + (s.workers i).cost =
    tally Worker.cost s.workers + 3 * s.readyCallbacks.length + s.scheduler.cost m +
      tally (Call.cost m) s.calls + worker.cost
  omega

private theorem potential_notifyScheduler (s : Threads γ Q n m) :
    s.notifyScheduler.potential ≤ s.potential + 1 := by
  have hcost : s.scheduler.notified.cost m ≤ s.scheduler.cost m + 1 := Scheduler.cost_notified _
  change tally Worker.cost s.workers + 3 * s.readyCallbacks.length + s.scheduler.notified.cost m +
      tally (Call.cost m) s.calls ≤
    tally Worker.cost s.workers + 3 * s.readyCallbacks.length + s.scheduler.cost m +
      tally (Call.cost m) s.calls + 1
  omega

private theorem potential_notifyWorkers (s : Threads γ Q n m) :
    s.notifyWorkers.potential ≤ s.potential + m := by
  have hcost := tally_cost_notified s.workers
  change tally Worker.cost (fun i ↦ (s.workers i).notified) + 3 * s.readyCallbacks.length +
      s.scheduler.cost m + tally (Call.cost m) s.calls ≤
    tally Worker.cost s.workers + 3 * s.readyCallbacks.length + s.scheduler.cost m +
      tally (Call.cost m) s.calls + m
  omega

private theorem potential_scheduler (s : Threads γ Q n m) (scheduler : Scheduler γ)
    (ready : List (Copy γ)) :
    ({ s with readyCallbacks := ready, scheduler := scheduler } : Threads γ Q n m).potential +
        (3 * s.readyCallbacks.length + s.scheduler.cost m) =
      s.potential + (3 * ready.length + scheduler.cost m) := by
  change tally Worker.cost s.workers + 3 * ready.length + scheduler.cost m +
      tally (Call.cost m) s.calls + (3 * s.readyCallbacks.length + s.scheduler.cost m) =
    tally Worker.cost s.workers + 3 * s.readyCallbacks.length + s.scheduler.cost m +
      tally (Call.cost m) s.calls + (3 * ready.length + scheduler.cost m)
  omega

private theorem cost_notifiesScheduler {call : Call} (h : call.notifiesScheduler = true) :
    2 ≤ call.cost m := by
  cases call with
  | notifyOne | notifyAll => exact Nat.le_refl 2
  | notifyShutdown => exact Nat.le_add_left 2 (m + 4)
  | _ => cases h

theorem potential_lt_of_step (hflag : s.timer.shuttingDown = true) (ha : a.continues = true)
    (h : s.step κ a = some s') : s'.potential < s.potential := by
  cases step_change h with
  | call | wakeScheduler | wakeWorker => cases ha
  | @notifyScheduler x next hcall hnext =>
    have hnotified := potential_notifyScheduler s
    have hset := potential_setCall s.notifyScheduler x next
    change _ + (s.calls x).cost m = _ at hset
    rcases hnext with rfl | ⟨hcall', rfl⟩
    · have hcost : 2 ≤ (s.calls x).cost m := cost_notifiesScheduler hcall
      rw [show Call.idle.cost m = 0 from rfl] at hset
      omega
    · rw [hcall'] at hset
      simp only [Call.cost] at hset
      omega
  | @joinScheduler x hcall hexited =>
    have hset := potential_setCall s x .stopCallbacks
    rw [hcall] at hset
    simp only [Call.cost] at hset
    omega
  | @stopCallbacks x hcall =>
    have hset := potential_setCall { s with callbackStopping := true } x .notifyWorkers
    change _ + (s.calls x).cost m = s.potential + _ at hset
    rw [hcall] at hset
    simp only [Call.cost] at hset
    omega
  | @notifyWorkers x hcall =>
    have hnotified := potential_notifyWorkers s
    have hset := potential_setCall s.notifyWorkers x .joinWorkers
    change _ + (s.calls x).cost m = _ at hset
    rw [hcall] at hset
    simp only [Call.cost] at hset
    omega
  | @joinWorkers x hcall hexited =>
    have hset := potential_setCall { s with returned := true } x .idle
    change _ + (s.calls x).cost m = s.potential + _ at hset
    rw [hcall] at hset
    simp only [Call.cost] at hset
    omega
  | @pass now now' fuel timer pass hready hpass =>
    rw [State.schedulerPass, if_pos hflag] at hpass
    obtain ⟨rfl, rfl⟩ := Prod.mk.inj (Option.some.inj hpass)
    have hset := potential_scheduler s .exited s.readyCallbacks
    rw [hready] at hset
    simp only [Scheduler.cost] at hset
    change ({ s with scheduler := .exited } : Threads γ Q n m).potential < _
    omega
  | skip hdue =>
    have hset := potential_scheduler s .ready s.readyCallbacks
    rw [hdue] at hset
    simp only [Scheduler.cost] at hset
    change ({ s with scheduler := .ready } : Threads γ Q n m).potential < _
    omega
  | @enqueue now now' fuel due hdue =>
    have hset := potential_scheduler s .announcing (s.readyCallbacks ++ due)
    rw [hdue, List.length_append] at hset
    simp only [Scheduler.cost] at hset
    omega
  | announce hannouncing =>
    have hnotified := potential_notifyWorkers s
    have hset := potential_scheduler s.notifyWorkers .ready s.readyCallbacks
    change _ + (3 * s.readyCallbacks.length + s.scheduler.cost m) = _ at hset
    rw [hannouncing] at hset
    simp only [Scheduler.cost] at hset
    refine Nat.lt_of_add_lt_add_right (hset.trans_lt ?_)
    omega
  | @take i callback rest hready hqueue =>
    have hset := potential_setWorker { s with readyCallbacks := rest } i (.holding callback)
    have hrest := potential_scheduler s s.scheduler rest
    change _ + (s.workers i).cost = _ at hset
    rw [hready] at hset
    rw [hqueue, List.length_cons] at hrest
    simp only [Worker.cost] at hset
    omega
  | @exit i hready hqueue hstopping =>
    have hset := potential_setWorker s i .exited
    rw [hready] at hset
    simp only [Worker.cost] at hset
    omega
  | @block i hready =>
    have hset := potential_setWorker s i .blocked
    rw [hready] at hset
    simp only [Worker.cost] at hset
    omega
  | @invoke i callback hholding =>
    have hset := potential_setWorker { s with invoked := s.invoked ++ [callback] } i
      (.running callback)
    change _ + (s.workers i).cost = s.potential + _ at hset
    rw [hholding] at hset
    simp only [Worker.cost] at hset
    omega
  | @finish i callback hrunning =>
    have hset := potential_setWorker s i .ready
    rw [hrunning] at hset
    simp only [Worker.cost] at hset
    omega

/-! ## At rest

With no move left every thread is blocked, idle or has exited. From the scheduler on, each of them
has been told to exit by the stage before. -/

/-- Nothing is left to do: `shutdown` has returned, all threads have exited, and every callback that
was fired has been invoked once. -/
structure Ended (s : Threads γ Q n m) : Prop where
  returned : s.returned = true
  calls : ∀ x, s.calls x = .idle
  scheduler : s.scheduler = .exited
  workers : ∀ i, s.workers i = .exited
  numbers : s.placed.map Copy.number = List.range s.timer.fired
  invoked : s.invoked.Perm s.placed

end Step

section Rest

variable {κ : TimeArith} {s : Threads γ Q n m}

/-- A scheduler that cannot go on has exited. -/
theorem Attended.scheduler_eq_exited (hattended : Attended s) (hflag : s.timer.shuttingDown = true)
    (hrest : (threadMachine κ γ Q n m).AtRest (fun a ↦ a.continues = true) s) :
    s.scheduler = .exited := by
  have hstuck := hrest (.scheduler 0 0 0) rfl
  change s.schedulerStep κ 0 0 0 = none at hstuck
  cases hscheduler : s.scheduler with
  | exited => rfl
  | ready =>
    rw [Threads.schedulerStep, hscheduler] at hstuck
    dsimp only at hstuck
    rw [State.schedulerPass, if_pos hflag] at hstuck
    cases hstuck
  | enqueueing due =>
    rw [Threads.schedulerStep, hscheduler] at hstuck
    cases due <;> cases hstuck
  | announcing =>
    rw [Threads.schedulerStep, hscheduler] at hstuck
    cases hstuck
  | blocked deadline =>
    -- it is about to be notified, or may sleep, but not in a timer that is shutting down
    rcases hattended deadline hscheduler with hsleep | ⟨x, hx⟩
    · have hopen := hsleep.not_shuttingDown
      rw [hflag] at hopen
      cases hopen
    · have hstuck := hrest (.proceed x) rfl
      change s.proceed x = none at hstuck
      rw [Threads.proceed] at hstuck
      generalize s.calls x = call at hx hstuck
      cases call with
      | notifyOne | notifyAll | notifyShutdown => cases hstuck
      | _ => cases hx

theorem Ending.ended (hm : 0 < m) (h : Ending s) (hattended : Attended s)
    (hconserved : Conserved s) (hflag : s.timer.shuttingDown = true)
    (hrest : (threadMachine κ γ Q n m).AtRest (fun a ↦ a.continues = true) s) : Ended s := by
  have hscheduler := hattended.scheduler_eq_exited hflag hrest
  -- a call is over, or waits for a worker
  have hcalls : ∀ x, s.calls x = .idle ∨ s.calls x = .joinWorkers := by
    intro x
    have hstuck := hrest (.proceed x) rfl
    change s.proceed x = none at hstuck
    rw [Threads.proceed, hscheduler] at hstuck
    generalize s.calls x = call at hstuck
    cases call with
    | idle => exact Or.inl rfl
    | joinWorkers => exact Or.inr rfl
    | _ => cases hstuck
  -- a worker has exited, or sleeps, or is in a callback that waits for the others
  have hworkers : ∀ i, s.workers i = .exited ∨ s.workers i = .blocked ∨
      s.calls (.inr i) = .joinWorkers := by
    intro i
    have hstuck := hrest (.worker i) rfl
    change s.workerStep i = none at hstuck
    cases hworker : s.workers i with
    | exited => exact Or.inl rfl
    | blocked => exact Or.inr (Or.inl rfl)
    | ready =>
      rw [Threads.workerStep, hworker] at hstuck
      dsimp only at hstuck
      split at hstuck <;> cases hstuck
    | holding callback =>
      rw [Threads.workerStep, hworker] at hstuck
      cases hstuck
    | running callback =>
      refine Or.inr (Or.inr ((hcalls (.inr i)).resolve_left fun hidle ↦ ?_))
      rw [Threads.workerStep, hworker] at hstuck
      dsimp only at hstuck
      rw [if_pos hidle] at hstuck
      cases hstuck
  -- nobody waits: the others would all have exited
  have hidle : ∀ x, s.calls x = .idle := by
    intro x
    refine (hcalls x).resolve_right fun hx ↦ ?_
    have hfollows := h.staged.follows x
    rw [hx] at hfollows
    obtain ⟨-, -, hawake⟩ := hfollows
    have hothers : ∀ i, x ≠ .inr i → (s.workers i).isExited = true := by
      intro i hne
      obtain hexited | hblocked | hi := hworkers i
      · rw [hexited]
        rfl
      · exact absurd hblocked (hawake i)
      · exact absurd (h.single.once x (.inr i) (by rw [hx]; rfl) (by rw [hi]; rfl)) hne
    have hstuck := hrest (.proceed x) rfl
    change s.proceed x = none at hstuck
    rw [Threads.proceed, hx] at hstuck
    dsimp only at hstuck
    rw [if_pos hothers] at hstuck
    cases hstuck
  have hreturned : s.returned = true := by
    refine (h.single.pending hflag).resolve_right ?_
    rintro ⟨x, hx⟩
    rw [hidle x] at hx
    cases hx
  obtain ⟨-, -, hawake⟩ := h.staged.returned hreturned
  have hexited : ∀ i, s.workers i = .exited := by
    intro i
    refine (hworkers i).resolve_right ?_
    rintro (hblocked | hi)
    · exact hawake i hblocked
    · rw [hidle] at hi
      cases hi
  have hheld : ∀ i, (s.workers i).held = [] := fun i ↦ by
    rw [hexited i]
    rfl
  obtain ⟨taken, hplaced, htaken⟩ := hconserved.queue
  rw [(h.staged.exited ⟨0, hm⟩ (hexited _)).2, hscheduler,
    show (Scheduler.exited : Scheduler γ).due = [] from rfl, List.append_nil,
    List.append_nil] at hplaced
  have hperm := htaken.perm
  rw [tally_held s.workers hheld, add_zero, ← hplaced] at hperm
  exact ⟨hreturned, hidle, hscheduler, hexited, hconserved.numbers,
    (Multiset.coe_eq_coe.mp hperm).symm⟩

theorem oneShutdown_of_continues {a : Move γ n m} (ha : a.continues = true) :
    oneShutdown s a = true := by
  cases a with
  | call => cases ha
  | _ => rfl

/-- **`shutdown` returns.** Take a run with one call of `shutdown`, from outside or from a callback,
up to a state in which it has set the flag. If nothing new is called and nobody wakes up without
reason, only so many moves are left, and when none is, `shutdown` has returned, the scheduler and
the workers have exited, and every callback that was fired has been invoked once. -/
theorem shutdown_returns (hm : 0 < m)
    (h : (threadMachine κ γ Q n m).ReachableWhen (fun s a ↦ oneShutdown s a = true) s)
    (hflag : s.timer.shuttingDown = true) :
    (threadMachine κ γ Q n m).Settles (fun a ↦ a.continues = true) s s.potential Ended := by
  refine Machine.settles_of_potential (J := fun t ↦
    (threadMachine κ γ Q n m).ReachableWhen (fun s a ↦ oneShutdown s a = true) t ∧
      t.timer.shuttingDown = true) ⟨h, hflag⟩ (fun hJ ha hstep ↦ ?_) fun hJ hrest ↦ ?_
  · exact ⟨⟨hJ.1.step (oneShutdown_of_continues ha) hstep,
      (keeps_of_step hstep).shuttingDown hJ.2⟩, potential_lt_of_step hJ.2 ha hstep⟩
  · exact (ending_of_reachable hJ.1).ended hm (attended_of_reachable hJ.1.reachable)
      (conserved_of_reachable hJ.1.reachable) hJ.2 hrest

end Rest

/-- A callback calls `shutdown` while the other worker sleeps. -/
theorem shutdown_returns_callback :
    ∃ s t : Threads String (.sortedList HeapItem.after) 1 2,
      s.calls (.inr 0) = .notifyShutdown ∧ s.workers 0 = .running ⟨0, "close"⟩ ∧
      s.workers 1 = .blocked ∧ (∃ labels, labels.length ≤ s.potential ∧
        (threadMachine .exact String (.sortedList HeapItem.after) 1 2).run s labels = some t) ∧
      Ended t := by
  obtain ⟨s, hs, hfeatures⟩ := Machine.exists_reachableWhen_of_run
    (M := threadMachine .exact String (.sortedList HeapItem.after) 1 2)
    (C := fun s a ↦ oneShutdown s a = true)
    (fun s ↦ (s.timer.shuttingDown, s.calls (.inr 0), s.workers 0, s.workers 1))
    [.call (.inl 0) (.addTimer 0 5 0 false (some "close")), .proceed (.inl 0), .worker 1,
      .scheduler 10 10 5, .scheduler 0 0 0, .worker 0, .worker 0, .call (.inr 0) .shutdown]
    (b := (true, .notifyShutdown, .running ⟨0, "close"⟩, .blocked)) (by decide +kernel)
  simp only [Prod.mk.injEq] at hfeatures
  obtain ⟨hflag, hcall, hrunning, hblocked⟩ := hfeatures
  have hsettles := shutdown_returns (by decide) hs hflag
  obtain ⟨labels, t, hcontinues, hrun, -, hended⟩ := hsettles.exists_run
  exact ⟨s, t, hcall, hrunning, hblocked, ⟨labels, (hsettles labels t hcontinues hrun).1, hrun⟩,
    hended⟩

end HighPerformanceTimer

end FoundationComponents
