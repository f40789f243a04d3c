import FoundationComponents.ThreadPool.Basic

/-!
# Lost wake-ups

A worker that finds the queue empty takes the mutex, tests `block` and waits, without looking at the
queue again. A task that is pushed in this *window* signals a condition variable nobody waits on
yet; the worker then blocks although the queue is not empty. `__nonblock` avoids this for `block`,
which it changes under the mutex that the worker holds from the test to the wait.

A worker outside of the window that is not blocked is *attentive*: it looks at the queue before it
blocks, or never blocks again. As long as the queue is not empty, some producer has a signal to send
or some worker is attentive; only a signal that is sent while all workers are in the window breaks
this.
-/

namespace FoundationComponents

namespace ThreadPool

variable {κ : Type*} {n k : ℕ}

/-- Between a failed `__pop_task` and `pthread_cond_wait`. -/
def Worker.inWindow : Worker κ → Bool
  | .lockMutex | .testBlock | .condWait => true
  | _ => false

/-- The worker will look at the queue before it blocks, or will not block again. -/
def Worker.isAttentive (pc : Worker κ) : Bool := !pc.inWindow && !pc.isBlocked

/-- A task has been pushed and its signal is still to be sent. -/
def Producer.hasSignal : Producer κ → Bool
  | .signal => true
  | _ => false

/-- The queue is not empty, every worker is blocked and not signalled, and no producer has a signal
to send. -/
def Stuck (s : Pool κ n k) : Prop :=
  s.queue ≠ [] ∧ (∀ w, (s.workers w).isBlocked) ∧ ∀ p, (s.producers p).hasSignal = false

/-- A signal is not sent while the queue is not empty, every worker is in the window and no other
producer has a signal to send. -/
def SignalsHeard (s : Pool κ n k) : Action κ n k → Prop
  | .signal p _ => s.queue = [] ∨ (∃ q, q ≠ p ∧ (s.producers q).hasSignal) ∨
      ∃ w, (s.workers w).inWindow = false
  | _ => True

instance (s : Pool κ n k) (a : Action κ n k) : Decidable (SignalsHeard s a) :=
  match a with
  | .signal p _ =>
      if hempty : s.queue = [] then .isTrue (Or.inl hempty)
      else decidable_of_iff
        ((∃ q, q ≠ p ∧ (s.producers q).hasSignal) ∨ ∃ w, (s.workers w).inWindow = false)
        (or_iff_right hempty).symm
  | .worker _ | .spurious _ | .post _ _ | .push _ | .terminate => .isTrue trivial

/-- If the queue is not empty, a signal is on its way or some worker is attentive. -/
def Attended (s : Pool κ n k) : Prop :=
  s.queue ≠ [] → (∃ p, (s.producers p).hasSignal) ∨ ∃ w, (s.workers w).isAttentive

theorem Attended.not_stuck {s : Pool κ n k} (h : Attended s) : ¬ Stuck s := by
  rintro ⟨hqueue, hblocked, hsignal⟩
  rcases h hqueue with ⟨p, hp⟩ | ⟨w, hw⟩
  · rw [hsignal p] at hp
    cases hp
  · rw [Worker.isAttentive, hblocked w] at hw
    simp at hw

section Steps

variable {s s' : Pool κ n k}

private theorem attended_setWorker (h : Attended s) {w : Fin n} {pc : Worker κ}
    (hpc : (s.workers w).isAttentive → pc.isAttentive) (hqueue : s'.queue = s.queue)
    (hproducers : s'.producers = s.producers)
    (hworkers : s'.workers = Function.update s.workers w pc) :
    Attended s' := by
  intro hne
  rw [hqueue] at hne
  rcases h hne with hsignal | ⟨u, hu⟩
  · rw [hproducers]
    exact Or.inl hsignal
  · refine Or.inr ⟨u, ?_⟩
    rw [hworkers]
    by_cases huw : u = w
    · rw [huw, Function.update_self]
      exact hpc (huw ▸ hu)
    · rwa [Function.update_of_ne huw]

theorem attended_stepWorker (h : Attended s) {w : Fin n}
    (hstep : s.stepWorker w (s.workers w) = some s') : Attended s' := by
  generalize hpc : s.workers w = pc at hstep
  -- attentive positions lead to attentive ones, except that a worker may find the queue empty
  cases pc with
  | loop =>
    cases hstep
    refine attended_setWorker h (fun _ ↦ ?_) rfl rfl rfl
    cases s.quit <;> rfl
  | popTask =>
    simp only [Pool.stepWorker] at hstep
    split at hstep
    · rename_i hempty
      cases hstep
      exact fun hne ↦ absurd hempty hne
    · cases hstep
      intro _
      exact Or.inr ⟨w, by rw [Pool.workers_setWorker_self]; rfl⟩
  | lockMutex =>
    simp only [Pool.stepWorker] at hstep
    split at hstep
    · cases hstep
      exact attended_setWorker h (fun hold ↦ by rw [hpc] at hold; cases hold) rfl rfl rfl
    · cases hstep
  | testBlock =>
    cases hstep
    exact attended_setWorker h (fun hold ↦ by rw [hpc] at hold; cases hold) rfl rfl rfl
  | condWait =>
    cases hstep
    exact attended_setWorker h (fun hold ↦ by rw [hpc] at hold; cases hold) rfl rfl rfl
  | blocked => cases hstep
  | woken =>
    simp only [Pool.stepWorker] at hstep
    split at hstep
    · cases hstep
      exact attended_setWorker h (fun _ ↦ rfl) rfl rfl rfl
    · cases hstep
  | unlockRetry =>
    cases hstep
    exact attended_setWorker h (fun _ ↦ rfl) rfl rfl rfl
  | unlockNull =>
    cases hstep
    exact attended_setWorker h (fun _ ↦ rfl) rfl rfl rfl
  | callTask task =>
    cases hstep
    exact attended_setWorker h (fun _ ↦ rfl) rfl rfl rfl
  | runTask task =>
    cases hstep
    exact attended_setWorker h (fun _ ↦ rfl) rfl rfl rfl
  | exited => cases hstep

theorem attended_setProducer (h : Attended s) {p : Fin k} (pc : Producer κ)
    (hold : (s.producers p).hasSignal = false) : Attended (s.setProducer p pc) := by
  intro hne
  rcases h hne with ⟨q, hq⟩ | hattentive
  · have hqp : q ≠ p := by
      rintro rfl
      rw [hold] at hq
      cases hq
    exact Or.inl ⟨q, by rwa [Pool.producers_setProducer_of_ne s pc hqp]⟩
  · exact Or.inr hattentive

/-- A signal that no worker waits for. Nobody is blocked, so a worker outside of the window is
attentive. -/
theorem attended_unheard {p : Fin k} (hnone : s.NoneBlocked)
    (hheard : SignalsHeard s (.signal p none)) :
    Attended (s.setProducer p .idle) := by
  intro hne
  rcases hheard with hempty | ⟨q, hqp, hq⟩ | ⟨w, hw⟩
  · exact absurd hempty hne
  · exact Or.inl ⟨q, by rwa [Pool.producers_setProducer_of_ne s _ hqp]⟩
  · refine Or.inr ⟨w, ?_⟩
    have hattentive : (s.workers w).isAttentive := by rw [Worker.isAttentive, hw, hnone w]; rfl
    exact hattentive

theorem attended_stepTerminator (h : Attended s) (hstep : s.stepTerminator s.terminator = some s') :
    Attended s' := by
  generalize s.terminator = pc at hstep
  cases pc with
  | storeQuit =>
    cases hstep
    exact h
  | lockMutex =>
    simp only [Pool.stepTerminator] at hstep
    split at hstep
    · cases hstep
      exact h
    · cases hstep
  | clearBlock =>
    cases hstep
    exact h
  | unlockMutex =>
    cases hstep
    exact h
  | broadcast =>
    cases hstep
    intro hne
    rcases h hne with hsignal | ⟨w, hw⟩
    · exact Or.inl hsignal
    · refine Or.inr ⟨w, ?_⟩
      dsimp only
      split
      · rfl
      · exact hw
  | done => cases hstep

theorem attended_step {a : Action κ n k} (h : Attended s) (hheard : SignalsHeard s a)
    (hstep : s.step a = some s') : Attended s' := by
  cases a with
  | worker w => exact attended_stepWorker h hstep
  | spurious w =>
    simp only [Pool.step] at hstep
    split at hstep
    · cases hstep
      exact attended_setWorker h (fun _ ↦ rfl) rfl rfl rfl
    · cases hstep
  | post p task =>
    simp only [Pool.step] at hstep
    split at hstep
    · rename_i hidle
      cases hstep
      exact attended_setProducer h _ (by rw [hidle]; rfl)
    · cases hstep
  | push p =>
    simp only [Pool.step] at hstep
    split at hstep
    · cases hstep
      intro _
      exact Or.inl ⟨p, by rw [Pool.producers_setProducer_self]; rfl⟩
    · cases hstep
  | signal p target =>
    simp only [Pool.step] at hstep
    split at hstep
    · split at hstep
      · cases hstep
        intro _
        exact Or.inr ⟨_, by rw [Pool.workers_setWorker_self]; rfl⟩
      · cases hstep
    · split at hstep
      · rename_i hnone
        cases hstep
        exact attended_unheard hnone hheard
      · cases hstep
    · cases hstep
  | terminate => exact attended_stepTerminator h hstep

/-- **No wake-up is lost where the signals are heard.** In every run, with any number of workers and
producers, in which no signal is sent while the queue is not empty, every worker is in the window
and no other producer has a signal to send: no state is reached in which the queue is not empty,
every worker is blocked and not signalled, and no signal is on its way. -/
theorem not_stuck_of_signalsHeard (h : (machine κ n k).ReachableWhen SignalsHeard s) :
    ¬ Stuck s := by
  have hattended : Attended s := by
    refine Machine.Leads.invariant h (fun hne ↦ absurd rfl hne) fun hs hheard hstep ↦ ?_
    exact attended_step hs hheard hstep
  exact hattended.not_stuck

end Steps

/-- Two workers: the first blocks, the second is in the window when a task is pushed. The signal
wakes the first worker. -/
theorem not_stuck_of_signalsHeard_oneBlocked :
    ∃ s : Pool ℕ 2 1, (machine ℕ 2 1).ReachableWhen SignalsHeard s ∧
      (s.queue = [7] ∧ s.workers 0 = .woken ∧ s.workers 1 = .blocked ∧ s.producers 0 = .idle) ∧
      ¬ Stuck s := by
  obtain ⟨s, hs, hfinal⟩ := Machine.exists_reachableWhen_of_run (M := machine ℕ 2 1)
    (C := SignalsHeard) (fun s ↦ (s.queue, s.workers 0, s.workers 1, s.producers 0))
    [.worker 0, .worker 0, .worker 0, .worker 0, .worker 0, .worker 1, .worker 1,
      .post 0 7, .push 0, .signal 0 (some 0), .worker 1, .worker 1, .worker 1]
    (b := ([7], .woken, .blocked, .idle)) (by decide +kernel)
  simp only [Prod.mk.injEq] at hfinal
  exact ⟨s, hs, hfinal, not_stuck_of_signalsHeard hs⟩

/-- One worker, one producer: the task is pushed and signalled between the worker's failed
`__pop_task` and its `pthread_cond_wait`. All calls of `__push_task` have returned, the task is in
the queue, and the worker sleeps. -/
theorem exists_stuck :
    ∃ s : Pool ℕ 1 1, (machine ℕ 1 1).Reachable s ∧ Stuck s ∧ ∀ p, s.producers p = .idle := by
  obtain ⟨s, hs, hfinal⟩ := Machine.exists_reachable_of_run (M := machine ℕ 1 1)
    (fun s ↦ (s.queue, decide (∀ w, (s.workers w).isBlocked), decide (∀ p, s.producers p = .idle)))
    [.worker 0, .worker 0, .post 0 7, .push 0, .signal 0 none, .worker 0, .worker 0, .worker 0]
    (b := ([7], true, true)) (by decide +kernel)
  simp only [Prod.mk.injEq] at hfinal
  obtain ⟨hqueue, hblocked, hidle⟩ := hfinal
  have hproducers : ∀ p, s.producers p = .idle := of_decide_eq_true hidle
  refine ⟨s, hs, ⟨?_, of_decide_eq_true hblocked, fun p ↦ ?_⟩, hproducers⟩
  · rw [hqueue]
    exact List.cons_ne_nil 7 []
  · rw [hproducers p]
    rfl

end ThreadPool

end FoundationComponents
