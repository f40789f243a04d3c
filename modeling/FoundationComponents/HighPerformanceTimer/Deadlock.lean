import FoundationComponents.HighPerformanceTimer.Shutdown

/-!
# `shutdown` from callbacks

The last loop of `shutdown` joins the workers one by one, in the order of `callback_workers`, and
skips the worker it runs on. The threads are refined here so that every call of `shutdown` has the
worker its loop has come to; `join` blocks until that worker has exited, and does not block if it
has been joined before.

The guard against joining oneself is the only one. Two callbacks that are inside `shutdown` at the
same time keep each other's worker from exiting, so neither loop can pass the other's worker, and
neither call ever returns. A call from outside waits for workers, but nobody joins its thread, and
the scheduler, which is joined, runs no callbacks.

Two calls of `shutdown` may be in front of the join of one worker at the same time. Here both pass
once it has exited. In the source they test and join one `std::thread` without a lock, which is
undefined; so the runs say which threads wait for which, and not that such calls may be made.
-/

namespace FoundationComponents

namespace HighPerformanceTimer

variable {γ : Type*} {Q : Heap} {n m : ℕ}

/-- The threads, and for each of them the worker that its loop in `shutdown` has come to. -/
structure JoinLoop (γ : Type*) (Q : Heap) (n m : ℕ) where
  threads : Threads γ Q n m
  next : Caller n m → ℕ

namespace JoinLoop

variable (s : JoinLoop γ Q n m)

/-- The thread `x` is blocked in `join` until the thread `y` finishes. Only workers are joined in
the loop. -/
def WaitsFor (x y : Caller n m) : Prop :=
  s.threads.calls x = .joinWorkers ∧ x ≠ y ∧
    ∃ i, y = .inr i ∧ s.next x = i ∧ (s.threads.workers i).isExited = false

/-- One iteration of the loop, or the return from `shutdown` after the last one. -/
def iterate (x : Caller n m) : Option (JoinLoop γ Q n m) :=
  if h : s.next x < m then
    if x = .inr ⟨s.next x, h⟩ ∨ (s.threads.workers ⟨s.next x, h⟩).isExited = true then
      some { s with next := Function.update s.next x (s.next x + 1) }
    else none
  else
    some
      { threads := { s.threads with returned := true }.setCall x .idle
        next := Function.update s.next x 0 }

/-- A thread that is in its loop is in the loop; all else is as before. -/
def step (κ : TimeArith) (a : Move γ n m) : Option (JoinLoop γ Q n m) :=
  match a with
  | .proceed x =>
      if s.threads.calls x = .joinWorkers then s.iterate x
      else (s.threads.proceed x).map fun threads ↦ { s with threads := threads }
  | a => (s.threads.step κ a).map fun threads ↦ { s with threads := threads }

end JoinLoop

/-- The threads of a new timer, with the loop of `shutdown` taken apart. -/
def joinMachine (κ : TimeArith) (γ : Type*) (Q : Heap) (n m : ℕ) :
    Machine (JoinLoop γ Q n m) (Move γ n m) where
  init := ⟨(threadMachine κ γ Q n m).init, fun _ ↦ 0⟩
  step s := s.step κ

/-- A callback calls `shutdown` only when no callback of another worker is inside it. -/
def loneShutdown (s : JoinLoop γ Q n m) : Move γ n m → Bool
  | .call (.inr i) .shutdown =>
      decide (∀ j, j ≠ i → (s.threads.calls (.inr j)).inShutdown = false)
  | _ => true

/-! ## What a step does to a thread

The last loop of `shutdown` looks only at which workers have exited, so of a step it matters where a
call gets into `shutdown` and out of it, and that a worker that has exited stays so. -/

section Threads

variable {κ : TimeArith} {s s' : Threads γ Q n m} {a : Move γ n m}

@[simp] theorem calls_setCall (s : Threads γ Q n m) (x : Caller n m) (call : Call) :
    (s.setCall x call).calls = Function.update s.calls x call := rfl

theorem calls_of_proceed {x : Caller n m} (h : s.proceed x = some s') :
    s.calls x ≠ .idle ∧ ∃ call, s'.calls = Function.update s.calls x call ∧
      (s.calls x ≠ .joinWorkers → call.inShutdown = (s.calls x).inShutdown) := by
  rw [Threads.proceed] at h
  split at h
  case h_1 => cases h
  case h_2 hcall | h_3 hcall | h_4 hcall | h_6 hcall | h_7 hcall =>
    obtain rfl := Option.some.inj h
    rw [hcall]
    exact ⟨by simp, _, rfl, fun _ ↦ rfl⟩
  case h_5 hcall =>
    split at h
    · obtain rfl := Option.some.inj h
      rw [hcall]
      exact ⟨by simp, _, rfl, fun _ ↦ rfl⟩
    · cases h
  case h_8 hcall =>
    split at h
    · obtain rfl := Option.some.inj h
      rw [hcall]
      exact ⟨by simp, _, rfl, fun hjoin ↦ absurd rfl hjoin⟩
    · cases h

/-- What a step does to a thread in a call: nothing, or the thread calls an operation, or goes on
with its call. It gets into `shutdown` by calling it, and out of it at the end of the last loop. -/
theorem calls_of_step (h : s.step κ a = some s') (y : Caller n m) :
    s'.calls y = s.calls y ∨
      s.mayCall y = true ∧ ((s'.calls y).inShutdown = true → a = .call y .shutdown) ∨
      s.calls y ≠ .idle ∧ a = .proceed y ∧
        (s.calls y ≠ .joinWorkers → (s'.calls y).inShutdown = (s.calls y).inShutdown) := by
  have hchange := step_change h
  cases hchange with
  | @call x operation hmay =>
    obtain ⟨timer, call, hcall, hentered⟩ := call_eq operation (idle_of_mayCall hmay)
    rw [hcall, calls_setCall]
    by_cases hyx : y = x
    · subst hyx
      refine Or.inr (Or.inl ⟨hmay, fun hin ↦ ?_⟩)
      rw [Function.update_self] at hin
      cases hentered with
      | shutdown => rfl
      | unchanged | notifyOne | cancelAll => cases hin
    · rw [Function.update_of_ne hyx]
      exact Or.inl rfl
  | @notifyScheduler x | @joinScheduler x | @stopCallbacks x | @notifyWorkers x | @joinWorkers x =>
    obtain ⟨hbusy, call, hcalls, hsame⟩ := calls_of_proceed h
    rw [hcalls]
    by_cases hyx : y = x
    · subst hyx
      rw [Function.update_self]
      exact Or.inr (Or.inr ⟨hbusy, rfl, hsame⟩)
    · rw [Function.update_of_ne hyx]
      exact Or.inl rfl
  | @pass now now' fuel timer pass hready hpass => cases pass <;> exact Or.inl rfl
  | _ => exact Or.inl rfl

theorem workers_of_step (h : s.step κ a = some s') :
    s'.workers = s.workers ∨ (s'.workers = fun i ↦ (s.workers i).notified) ∨
      ∃ i worker, s'.workers = Function.update s.workers i worker ∧ s.workers i ≠ .exited ∧
        s'.calls = s.calls ∧ ((s.workers i).isRunning = true → s.calls (.inr i) = .idle) := by
  have hchange := step_change h
  cases hchange with
  | call hmay =>
    obtain ⟨timer, call, hcall, -⟩ := call_eq _ (idle_of_mayCall hmay)
    rw [hcall]
    exact Or.inl rfl
  | @pass now now' fuel timer pass hready hpass => cases pass <;> exact Or.inl rfl
  | notifyWorkers | announce => exact Or.inr (Or.inl rfl)
  | @take i callback rest hbefore hqueue | @exit i hbefore hqueue hstopping | @block i hbefore
  | @invoke i callback hbefore | @wakeWorker i hbefore =>
    refine Or.inr (Or.inr ⟨i, _, rfl, ?_, rfl, ?_⟩)
    · rw [hbefore]
      exact fun heq ↦ by cases heq
    · rw [hbefore]
      exact fun hrunning ↦ by cases hrunning
  | @finish i callback hbefore =>
    refine Or.inr (Or.inr ⟨i, _, rfl, ?_, rfl, fun _ ↦ ?_⟩)
    · rw [hbefore]
      exact fun heq ↦ by cases heq
    · -- the step is enabled only when the call, if there was one, is over
      rw [Threads.step, Threads.workerStep, hbefore] at h
      by_contra hbusy
      rw [if_neg hbusy] at h
      cases h
  | _ => exact Or.inl rfl

@[simp] theorem Worker.isRunning_notified (worker : Worker γ) :
    worker.notified.isRunning = worker.isRunning := by
  cases worker <;> rfl

theorem exited_of_step (h : s.step κ a = some s') {i : Fin m} (hexited : s.workers i = .exited) :
    s'.workers i = .exited := by
  obtain hsame | hnotified | ⟨j, worker, hmoved, hbefore, -⟩ := workers_of_step h
  · rw [hsame, hexited]
  · rw [hnotified]
    dsimp only
    rw [hexited]
    rfl
  · have hij : i ≠ j := by
      rintro rfl
      exact hbefore hexited
    rw [hmoved, Function.update_of_ne hij, hexited]

theorem running_of_step (h : s.step κ a = some s')
    (hrunning : ∀ i, s.calls (.inr i) ≠ .idle → (s.workers i).isRunning = true) :
    ∀ i, s'.calls (.inr i) ≠ .idle → (s'.workers i).isRunning = true := by
  intro i hbusy
  have hbefore : (s.workers i).isRunning = true := by
    obtain hsame | ⟨hmay, -⟩ | ⟨hbefore, -⟩ := calls_of_step h (.inr i)
    · rw [hsame] at hbusy
      exact hrunning i hbusy
    · exact (Bool.and_eq_true_iff.mp hmay).2
    · exact hrunning i hbefore
  obtain hsame | hnotified | ⟨j, worker, hmoved, -, hcalls, hidle⟩ := workers_of_step h
  · rw [hsame, hbefore]
  · rw [hnotified]
    dsimp only
    rw [Worker.isRunning_notified, hbefore]
  · have hij : i ≠ j := by
      rintro rfl
      rw [hcalls] at hbusy
      exact hbusy (hidle hbefore)
    rw [hmoved, Function.update_of_ne hij, hbefore]

end Threads

/-! ## The last loop of `shutdown`

A worker that is inside `shutdown` cannot exit before it has returned. So a loop that has to pass
such a worker waits for it, and two of them that have to pass each other wait for ever. -/

section JoinLoop

variable {κ : TimeArith} {s s' : JoinLoop γ Q n m} {a : Move γ n m}

/-- What a step does when the loops are taken apart: what the threads do outside the loop, one
iteration, or the return of `shutdown`. -/
inductive LoopChange (κ : TimeArith) (s : JoinLoop γ Q n m) (a : Move γ n m) :
    JoinLoop γ Q n m → Prop
  | outside {threads : Threads γ Q n m} (hstep : s.threads.step κ a = some threads)
      (hjoin : ∀ x, a = .proceed x → s.threads.calls x ≠ .joinWorkers) :
      LoopChange κ s a { s with threads := threads }
  | iterate {x : Caller n m} (hmove : a = .proceed x) {i : Fin m} (hnext : s.next x = i)
      (hcall : s.threads.calls x = .joinWorkers)
      (hpass : x = .inr i ∨ s.threads.workers i = .exited) :
      LoopChange κ s a { s with next := Function.update s.next x (s.next x + 1) }
  | leave {x : Caller n m} (hmove : a = .proceed x) (hnext : m ≤ s.next x)
      (hcall : s.threads.calls x = .joinWorkers) :
      LoopChange κ s a
        { threads := { s.threads with returned := true }.setCall x .idle
          next := Function.update s.next x 0 }

theorem loop_change (h : s.step κ a = some s') : LoopChange κ s a s' := by
  have houtside : (∀ x, a = .proceed x → s.threads.calls x ≠ .joinWorkers) →
      (s.threads.step κ a).map (fun threads ↦ { s with threads := threads }) = some s' →
      LoopChange κ s a s' := by
    intro hjoin hmap
    obtain ⟨threads, hstep, rfl⟩ := Option.map_eq_some_iff.mp hmap
    exact .outside hstep hjoin
  cases a with
  | proceed x =>
    rw [JoinLoop.step] at h
    split at h
    · rename_i hcall
      rw [JoinLoop.iterate] at h
      split at h
      · rename_i hlt
        split at h
        · rename_i hpass
          obtain rfl := Option.some.inj h
          exact .iterate (i := ⟨s.next x, hlt⟩) rfl rfl hcall (hpass.imp_right Worker.eq_exited)
        · cases h
      · rename_i hge
        obtain rfl := Option.some.inj h
        exact .leave rfl (Nat.not_lt.mp hge) hcall
    · rename_i hcall
      refine houtside (fun y hy ↦ ?_) h
      cases hy
      exact hcall
  | call | scheduler | wakeScheduler | worker | wakeWorker =>
    exact houtside (fun x hx ↦ by cases hx) h

/-- What every loop has passed, and where a worker is that is in a call. -/
structure Passed (s : JoinLoop γ Q n m) : Prop where
  exited : ∀ x, ∀ i : Fin m, i < s.next x → x ≠ .inr i → s.threads.workers i = .exited
  running : ∀ i, s.threads.calls (.inr i) ≠ .idle → (s.threads.workers i).isRunning = true

theorem passed_step (h : Passed s) (hstep : s.step κ a = some s') : Passed s' := by
  cases loop_change hstep with
  | outside hthreads _ =>
    exact ⟨fun x i hi hne ↦ exited_of_step hthreads (h.exited x i hi hne),
      running_of_step hthreads h.running⟩
  | @iterate x _ i hnext _ hpass =>
    refine ⟨fun y j hj hne ↦ ?_, h.running⟩
    dsimp only at hj ⊢
    by_cases hyx : y = x
    · subst hyx
      rw [Function.update_self, hnext, Nat.lt_succ_iff_lt_or_eq] at hj
      rcases hj with hlt | heq
      · exact h.exited y j (hlt.trans_eq hnext.symm) hne
      · obtain rfl := Fin.ext heq
        exact hpass.resolve_left hne
    · rw [Function.update_of_ne hyx] at hj
      exact h.exited y j hj hne
  | @leave x _ _ _ =>
    refine ⟨fun y j hj hne ↦ ?_, fun i hbusy ↦ ?_⟩
    · dsimp only at hj
      by_cases hyx : y = x
      · rw [hyx, Function.update_self] at hj
        exact absurd hj (Nat.not_lt_zero _)
      · rw [Function.update_of_ne hyx] at hj
        exact h.exited y j hj hne
    · rw [calls_setCall] at hbusy
      by_cases hix : Sum.inr i = x
      · rw [hix, Function.update_self] at hbusy
        exact absurd rfl hbusy
      · rw [Function.update_of_ne hix] at hbusy
        exact h.running i hbusy

theorem passed_of_reachable (h : (joinMachine κ γ Q n m).Reachable s) : Passed s := by
  refine Machine.Leads.invariant (I := Passed) h ⟨fun x i hi ↦ ?_, fun i hbusy ↦ ?_⟩
    fun hs _ hstep ↦ passed_step hs hstep
  · exact absurd hi (Nat.not_lt_zero _)
  · exact absurd rfl hbusy

/-- **The loop is the join of all workers.** The threads do what they do when the loop is one step,
which waits until all other workers have exited. -/
theorem threads_reachable (h : (joinMachine κ γ Q n m).Reachable s) :
    (threadMachine κ γ Q n m).Reachable s.threads := by
  refine (Machine.Leads.invariant (I := fun s : JoinLoop γ Q n m ↦
    Passed s ∧ (threadMachine κ γ Q n m).Reachable s.threads) h
    ⟨passed_of_reachable .refl, .refl⟩ ?_).2
  rintro u a v ⟨hpassed, hreachable⟩ - hstep
  refine ⟨passed_step hpassed hstep, ?_⟩
  cases loop_change hstep with
  | outside hthreads _ => exact hreachable.step trivial hthreads
  | iterate => exact hreachable
  | @leave x _ hnext hcall =>
    have hexited : ∀ i, x ≠ .inr i → (u.threads.workers i).isExited = true := fun i hne ↦ by
      rw [hpassed.exited x i (i.isLt.trans_le hnext) hne]
      rfl
    refine hreachable.step (a := .proceed x) trivial ?_
    simp only [threadMachine, Threads.step, Threads.proceed, hcall]
    rw [if_pos hexited]

/-- A thread gets into `shutdown` by calling it, and out of it when its loop has passed all
workers. -/
theorem inShutdown_of_step (h : s.step κ a = some s') (y : Caller n m) :
    (s'.threads.calls y).inShutdown = (s.threads.calls y).inShutdown ∨
      s.threads.calls y = .idle ∧
        ((s'.threads.calls y).inShutdown = true → a = .call y .shutdown) ∨
      (s'.threads.calls y).inShutdown = false ∧ m ≤ s.next y := by
  cases loop_change h with
  | outside hthreads hjoin =>
    obtain hsame | ⟨hmay, hcall⟩ | ⟨-, hmove, hsame⟩ := calls_of_step hthreads y
    · exact Or.inl (congrArg _ hsame)
    · exact Or.inr (Or.inl ⟨idle_of_mayCall hmay, hcall⟩)
    · exact Or.inl (hsame (hjoin y hmove))
  | iterate => exact Or.inl rfl
  | @leave x _ hnext hcall =>
    rw [calls_setCall]
    by_cases hyx : y = x
    · subst hyx
      rw [Function.update_self]
      exact Or.inr (Or.inr ⟨rfl, hnext⟩)
    · rw [Function.update_of_ne hyx]
      exact Or.inl rfl

theorem inShutdown_before (h : s.step κ a = some s') {y : Caller n m}
    (hin : (s'.threads.calls y).inShutdown = true) :
    (s.threads.calls y).inShutdown = true ∨ a = .call y .shutdown := by
  obtain hsame | ⟨-, hcall⟩ | ⟨hout, -⟩ := inShutdown_of_step h y
  · exact Or.inl (hsame.symm.trans hin)
  · exact Or.inr (hcall hin)
  · rw [hout] at hin
    cases hin

/-- Under the condition two callbacks are never inside `shutdown` at the same time. -/
theorem lone_of_reachable
    (h : (joinMachine κ γ Q n m).ReachableWhen (fun s a ↦ loneShutdown s a = true) s) :
    ∀ i j, (s.threads.calls (.inr i)).inShutdown = true →
      (s.threads.calls (.inr j)).inShutdown = true → i = j := by
  refine Machine.Leads.invariant (I := fun s : JoinLoop γ Q n m ↦ ∀ i j,
    (s.threads.calls (.inr i)).inShutdown = true →
      (s.threads.calls (.inr j)).inShutdown = true → i = j) h (fun i j hi ↦ by cases hi) ?_
  intro u a v hlone hguard hstep i j hi hj
  -- whoever calls `shutdown` is alone there
  have halone : ∀ k l, a = .call (.inr k) .shutdown →
      (u.threads.calls (.inr l)).inShutdown = true → k = l := by
    rintro k l rfl hl
    by_contra hne
    rw [of_decide_eq_true hguard l (Ne.symm hne)] at hl
    cases hl
  rcases inShutdown_before hstep hi with hi' | hi' <;>
    rcases inShutdown_before hstep hj with hj' | hj'
  · exact hlone i j hi' hj'
  · exact (halone j i hj' hi').symm
  · exact halone i j hi' hj'
  · rw [hi'] at hj'
    cases hj'
    rfl

/-- **No deadlock under the condition.** In every run in which no callback calls `shutdown` while
the callback of another worker is inside it, there are never two threads in `join` that wait for
each other. (Where two calls join the same thread at a time, this speaks of the waiting only.) -/
theorem no_mutual_join
    (h : (joinMachine κ γ Q n m).ReachableWhen (fun s a ↦ loneShutdown s a = true) s) :
    ¬∃ x y, s.WaitsFor x y ∧ s.WaitsFor y x := by
  rintro ⟨x, y, ⟨hx, hne, j, rfl, -⟩, hy, -, i, rfl, -⟩
  refine hne (congrArg _ (lone_of_reachable h i j ?_ ?_))
  · rw [hx]
    rfl
  · rw [hy]
    rfl

/-- **Two callbacks inside `shutdown` stay there**, whatever the other threads do: the loop of the
one cannot pass the worker of the other. -/
theorem inShutdown_of_leads (h : (joinMachine κ γ Q n m).Reachable s) {i j : Fin m} (hne : i ≠ j)
    (hi : (s.threads.calls (.inr i)).inShutdown = true)
    (hj : (s.threads.calls (.inr j)).inShutdown = true) {t : JoinLoop γ Q n m}
    (hleads : (joinMachine κ γ Q n m).Leads (fun _ _ ↦ True) s t) :
    (t.threads.calls (.inr i)).inShutdown = true ∧
      (t.threads.calls (.inr j)).inShutdown = true := by
  have hstays : ∀ {u v : JoinLoop γ Q n m} {a : Move γ n m} {k l : Fin m}, Passed u →
      u.step κ a = some v → k ≠ l → (u.threads.calls (.inr k)).inShutdown = true →
      (u.threads.calls (.inr l)).inShutdown = true →
      (v.threads.calls (.inr k)).inShutdown = true := by
    intro u v a k l hpassed hstep hkl hk hl
    obtain hsame | ⟨hidle, -⟩ | ⟨-, hnext⟩ := inShutdown_of_step hstep (.inr k)
    · exact hsame.trans hk
    · rw [hidle] at hk
      cases hk
    · -- the other worker would have exited, but it runs a callback
      have hexited := hpassed.exited (.inr k) l (l.isLt.trans_le hnext) (by simpa using hkl)
      have hrunning := hpassed.running l fun hidle ↦ by
        rw [hidle] at hl
        cases hl
      rw [hexited] at hrunning
      cases hrunning
  refine (Machine.Leads.invariant (I := fun t : JoinLoop γ Q n m ↦ Passed t ∧
    (t.threads.calls (.inr i)).inShutdown = true ∧
      (t.threads.calls (.inr j)).inShutdown = true) hleads
    ⟨passed_of_reachable h, hi, hj⟩ ?_).2
  rintro u a v ⟨hpassed, hi', hj'⟩ - hstep
  exact ⟨passed_step hpassed hstep, hstays hpassed hstep hne hi' hj',
    hstays hpassed hstep (Ne.symm hne) hj' hi'⟩

end JoinLoop

/-- Two callbacks run, and both call `shutdown`. Each is then in `join` for the worker of the
other. -/
theorem mutual_join : ∃ s : JoinLoop String (.sortedList HeapItem.after) 1 2,
    (joinMachine .exact String (.sortedList HeapItem.after) 1 2).Reachable s ∧
      s.WaitsFor (.inr 0) (.inr 1) ∧ s.WaitsFor (.inr 1) (.inr 0) := by
  obtain ⟨s, hs, hfinal⟩ := Machine.exists_reachable_of_run
    (M := joinMachine .exact String (.sortedList HeapItem.after) 1 2)
    (fun s ↦ (s.threads.calls (.inr 0), s.threads.calls (.inr 1), s.next (.inr 0), s.next (.inr 1),
      (s.threads.workers 0).isExited, (s.threads.workers 1).isExited))
    [.call (.inl 0) (.addTimer 0 5 0 false (some "first")), .proceed (.inl 0),
      .call (.inl 0) (.addTimer 0 5 0 false (some "second")), .proceed (.inl 0),
      .scheduler 10 10 5, .scheduler 0 0 0, .scheduler 0 0 0, .worker 0, .worker 0, .worker 1,
      .worker 1, .call (.inr 0) .shutdown, .call (.inr 1) .shutdown, .proceed (.inr 0),
      .proceed (.inr 1), .scheduler 0 0 0, .proceed (.inr 0), .proceed (.inr 0), .proceed (.inr 0),
      .proceed (.inr 1), .proceed (.inr 1), .proceed (.inr 1), .proceed (.inr 0)]
    (b := (.joinWorkers, .joinWorkers, 1, 0, false, false)) (by decide +kernel)
  simp only [Prod.mk.injEq] at hfinal
  obtain ⟨hcall, hcall', hnext, hnext', hworker, hworker'⟩ := hfinal
  exact ⟨s, hs, ⟨hcall, by decide, 1, rfl, hnext, hworker'⟩,
    ⟨hcall', by decide, 0, rfl, hnext', hworker⟩⟩

/-- The callback of one worker calls `shutdown`, and so does a thread from outside. The latter waits
for the worker, which waits for the other worker. -/
theorem no_mutual_join_outside : ∃ s : JoinLoop String (.sortedList HeapItem.after) 1 2,
    (joinMachine .exact String (.sortedList HeapItem.after) 1 2).ReachableWhen
      (fun s a ↦ loneShutdown s a = true) s ∧
      s.WaitsFor (.inl 0) (.inr 0) ∧ s.WaitsFor (.inr 0) (.inr 1) ∧
      ¬∃ x y, s.WaitsFor x y ∧ s.WaitsFor y x := by
  obtain ⟨s, hs, hfinal⟩ := Machine.exists_reachableWhen_of_run
    (M := joinMachine .exact String (.sortedList HeapItem.after) 1 2)
    (C := fun s a ↦ loneShutdown s a = true)
    (fun s ↦ (s.threads.calls (.inl 0), s.threads.calls (.inr 0), s.next (.inl 0), s.next (.inr 0),
      (s.threads.workers 0).isExited, (s.threads.workers 1).isExited))
    [.call (.inl 0) (.addTimer 0 5 0 false (some "only")), .proceed (.inl 0), .scheduler 10 10 5,
      .scheduler 0 0 0, .scheduler 0 0 0, .worker 0, .worker 0, .call (.inr 0) .shutdown,
      .call (.inl 0) .shutdown, .proceed (.inr 0), .proceed (.inl 0), .scheduler 0 0 0,
      .proceed (.inr 0), .proceed (.inr 0), .proceed (.inr 0), .proceed (.inl 0),
      .proceed (.inl 0), .proceed (.inl 0), .proceed (.inr 0)]
    (b := (.joinWorkers, .joinWorkers, 0, 1, false, false)) (by decide +kernel)
  simp only [Prod.mk.injEq] at hfinal
  obtain ⟨hcall, hcall', hnext, hnext', hworker, hworker'⟩ := hfinal
  exact ⟨s, hs, ⟨hcall, by decide, 0, rfl, hnext, hworker⟩,
    ⟨hcall', by decide, 1, rfl, hnext', hworker'⟩, no_mutual_join hs⟩

end HighPerformanceTimer

end FoundationComponents
