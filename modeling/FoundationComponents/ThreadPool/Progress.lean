import FoundationComponents.Machine.Tally
import FoundationComponents.ThreadPool.Tasks
import FoundationComponents.ThreadPool.Termination
import FoundationComponents.ThreadPool.Wakeup

/-!
# The pool comes to rest

While no task is posted and nobody wakes up without reason, the pool makes only so many steps: every
position of a thread is worth a number of steps, a task in the queue those of the worker that will
take it, a signal and the broadcast those of the workers that they wake.

What the pool is like at rest depends on whether it is being terminated. If it is, all workers have
returned, and can be joined. If it is not, all workers are blocked, and where the signals have been
heard, every task that was pushed has been started.
-/

namespace FoundationComponents

namespace ThreadPool

variable {κ : Type*} {n k : ℕ}

/-- How many steps a worker makes before it blocks or returns, if it finds no task. -/
def Worker.cost : Worker κ → ℕ
  | .blocked | .exited => 0
  | .condWait | .unlockNull => 1
  | .testBlock => 2
  | .lockMutex => 3
  | .popTask => 4
  | .loop | .unlockRetry => 5
  | .runTask _ | .woken => 6
  | .callTask _ => 7

/-- `__get_task` returns `NULL`, or the worker has returned. -/
def Worker.isLeaving : Worker κ → Bool
  | .unlockNull | .exited => true
  | _ => false

def Producer.cost : Producer κ → ℕ
  | .idle => 0
  | .signal => 7
  | .push _ => 12

def Terminator.cost (n : ℕ) : Terminator → ℕ
  | .storeQuit => n * 6 + 5
  | .lockMutex => n * 6 + 4
  | .clearBlock => n * 6 + 3
  | .unlockMutex => n * 6 + 2
  | .broadcast => n * 6 + 1
  | .done => 0

/-- How many steps the pool makes at most. -/
def Pool.potential (s : Pool κ n k) : ℕ :=
  tally Worker.cost s.workers + tally Producer.cost s.producers + 4 * s.queue.length +
    s.terminator.cost n

/-- A step that goes on with what has been begun. -/
def Action.continues : Action κ n k → Bool
  | .post .. | .spurious _ => false
  | _ => true

/-- Such a step, but for those of the terminating thread. -/
def Action.works : Action κ n k → Bool
  | .post .. | .spurious _ | .terminate => false
  | _ => true

theorem Action.continues_of_works {a : Action κ n k} (h : a.works = true) : a.continues = true := by
  cases a with
  | worker | push | signal => rfl
  | post | spurious | terminate => cases h

/-! ## The threads

A worker that takes no task comes to its wait or to its end; a task is worth the round that it costs
the worker. -/

section Steps

variable {s s' : Pool κ n k} {w : Fin n}

/-- A step of the worker `w` to `pc`: it is closer to its end, it holds the mutex if it has taken
it, and it does not return while the pool is working. -/
structure Advances (s : Pool κ n k) (w : Fin n) (pc : Worker κ) (mutex : Option (Holder n))
    (queue : List κ) : Prop where
  cost : pc.cost + 4 * queue.length < (s.workers w).cost + 4 * s.queue.length
  mutex : mutex = s.mutex ∧ pc.holdsMutex = (s.workers w).holdsMutex ∨
    mutex = some (.worker w) ∧ pc.holdsMutex = true ∨ mutex = none
  stays : s.quit = false → s.block = true → (s.workers w).isLeaving = false → pc.isLeaving = false

theorem advances_of_stepWorker (hstep : s.stepWorker w (s.workers w) = some s') :
    ∃ pc mutex queue started, Advances s w pc mutex queue ∧
      s' = { s with queue := queue, mutex := mutex, started := started }.setWorker w pc := by
  generalize hpc : s.workers w = pc at hstep
  cases pc with
  | loop =>
    obtain rfl := Option.some.inj hstep
    refine ⟨_, s.mutex, s.queue, s.started, ⟨?_, Or.inl ⟨rfl, ?_⟩, fun hquit _ _ ↦ ?_⟩, rfl⟩
    · rw [hpc]
      cases s.quit <;> simp [Worker.cost]
    · rw [hpc]
      cases s.quit <;> rfl
    · rw [hquit]
      rfl
  | popTask =>
    rw [Pool.stepWorker] at hstep
    split at hstep
    · obtain rfl := Option.some.inj hstep
      refine ⟨_, s.mutex, s.queue, s.started, ⟨?_, Or.inl ⟨rfl, ?_⟩, fun _ _ _ ↦ ?_⟩, rfl⟩
      · rw [hpc]
        simp [Worker.cost]
      · rw [hpc]
        rfl
      · rfl
    · rename_i task rest hqueue
      obtain rfl := Option.some.inj hstep
      refine ⟨_, s.mutex, rest, s.started, ⟨?_, Or.inl ⟨rfl, ?_⟩, fun _ _ _ ↦ ?_⟩, rfl⟩
      · rw [hpc, hqueue]
        simp [Worker.cost]
        omega
      · rw [hpc]
        rfl
      · rfl
  | lockMutex | woken =>
    rw [Pool.stepWorker, Option.ite_none_right_eq_some, Option.some.injEq] at hstep
    obtain ⟨-, rfl⟩ := hstep
    refine ⟨_, some (.worker w), s.queue, s.started,
      ⟨?_, Or.inr (Or.inl ⟨rfl, rfl⟩), fun _ _ _ ↦ ?_⟩, rfl⟩
    · rw [hpc]
      simp [Worker.cost]
    · rfl
  | testBlock =>
    obtain rfl := Option.some.inj hstep
    refine ⟨_, s.mutex, s.queue, s.started, ⟨?_, Or.inl ⟨rfl, ?_⟩, fun _ hblock _ ↦ ?_⟩, rfl⟩
    · rw [hpc]
      cases s.block <;> simp [Worker.cost]
    · rw [hpc]
      cases s.block <;> rfl
    · rw [hblock]
      rfl
  | condWait | unlockRetry =>
    obtain rfl := Option.some.inj hstep
    refine ⟨_, none, s.queue, s.started, ⟨?_, Or.inr (Or.inr rfl), fun _ _ _ ↦ ?_⟩, rfl⟩
    · rw [hpc]
      simp [Worker.cost]
    · rfl
  | unlockNull =>
    obtain rfl := Option.some.inj hstep
    refine ⟨_, none, s.queue, s.started,
      ⟨?_, Or.inr (Or.inr rfl), fun _ _ hstays ↦ ?_⟩, rfl⟩
    · rw [hpc]
      simp [Worker.cost]
    · rw [hpc] at hstays
      cases hstays
  | callTask task | runTask task =>
    obtain rfl := Option.some.inj hstep
    refine ⟨_, s.mutex, s.queue, _, ⟨?_, Or.inl ⟨rfl, ?_⟩, fun _ _ _ ↦ ?_⟩, rfl⟩
    · rw [hpc]
      simp [Worker.cost]
    · rw [hpc]
      rfl
    · rfl
  | blocked | exited => cases hstep

/-- **Every step uses some of the potential up.** -/
theorem potential_lt_of_step {a : Action κ n k} (ha : a.continues = true)
    (hstep : s.step a = some s') : s'.potential < s.potential := by
  cases a with
  | post | spurious => cases ha
  | worker w =>
    obtain ⟨pc, mutex, queue, started, hadvances, rfl⟩ := advances_of_stepWorker hstep
    have htrade := tally_update Worker.cost s.workers w pc
    have hcost := hadvances.cost
    change tally Worker.cost (Function.update s.workers w pc) + tally Producer.cost s.producers +
      4 * queue.length + s.terminator.cost n < s.potential
    rw [Pool.potential]
    omega
  | push p =>
    rw [Pool.step] at hstep
    split at hstep
    · rename_i task hpc
      obtain rfl := Option.some.inj hstep
      have htrade := tally_update Producer.cost s.producers p .signal
      rw [hpc] at htrade
      change tally Worker.cost s.workers +
        tally Producer.cost (Function.update s.producers p .signal) +
        4 * (s.queue ++ [task]).length + s.terminator.cost n < s.potential
      rw [Pool.potential, List.length_append, List.length_singleton]
      simp only [Producer.cost] at htrade
      omega
    · cases hstep
  | signal p target =>
    have htrade := tally_update Producer.cost s.producers p .idle
    simp only [Pool.step] at hstep
    split at hstep
    · rename_i w hpc
      rw [hpc] at htrade
      split at hstep
      · rename_i hblocked
        obtain rfl := Option.some.inj hstep
        have hwoken := tally_update Worker.cost s.workers w .woken
        rw [hblocked] at hwoken
        change tally Worker.cost (Function.update s.workers w .woken) +
          tally Producer.cost (Function.update s.producers p .idle) + 4 * s.queue.length +
            s.terminator.cost n < s.potential
        rw [Pool.potential]
        simp only [Producer.cost, Worker.cost] at htrade hwoken
        omega
      · cases hstep
    · rename_i hpc
      rw [hpc] at htrade
      rw [Option.ite_none_right_eq_some, Option.some.injEq] at hstep
      obtain ⟨-, rfl⟩ := hstep
      change tally Worker.cost s.workers +
        tally Producer.cost (Function.update s.producers p .idle) + 4 * s.queue.length +
        s.terminator.cost n < s.potential
      rw [Pool.potential]
      simp only [Producer.cost] at htrade
      omega
    · cases hstep
  | terminate =>
    rw [Pool.step] at hstep
    rw [Pool.potential, Pool.potential]
    generalize s.terminator = pc at hstep ⊢
    cases pc with
    | lockMutex =>
      rw [Pool.stepTerminator, Option.ite_none_right_eq_some, Option.some.injEq] at hstep
      obtain ⟨-, rfl⟩ := hstep
      exact Nat.add_lt_add_left (Nat.lt_succ_self _) _
    | broadcast =>
      obtain rfl := Option.some.inj hstep
      have hwoken : tally Worker.cost
          (fun w ↦ if (s.workers w).isBlocked then .woken else s.workers w) ≤
          tally (fun pc ↦ Worker.cost pc + 6) s.workers := by
        refine Finset.sum_le_sum fun w _ ↦ ?_
        dsimp only
        split
        · simp [Worker.cost]
        · exact Nat.le_add_right _ _
      rw [tally_add_const, Fintype.card_fin, smul_eq_mul] at hwoken
      change tally Worker.cost (fun w ↦ if (s.workers w).isBlocked then .woken else s.workers w) +
        tally Producer.cost s.producers + 4 * s.queue.length + 0 < _
      rw [show Terminator.cost n .broadcast = n * 6 + 1 from rfl]
      omega
    | storeQuit | clearBlock | unlockMutex =>
      obtain rfl := Option.some.inj hstep
      exact Nat.add_lt_add_left (Nat.lt_succ_self _) _
    | done => cases hstep

/-! ## What holds at rest

The mutex is never left held by a thread that waits. So with no step left nobody holds it, and what
keeps a worker from going on is that it is blocked or has returned. -/

/-- Whoever holds the mutex is in a section of it, and nobody returns before the pool is
terminated. -/
structure Owned (s : Pool κ n k) : Prop where
  worker : ∀ w, s.mutex = some (.worker w) → (s.workers w).holdsMutex = true
  terminator : s.mutex = some .terminator → s.terminator.holdsMutex = true
  working : s.terminator = .storeQuit →
    s.quit = false ∧ s.block = true ∧ ∀ w, (s.workers w).isLeaving = false

theorem owned_init : Owned (machine κ n k).init :=
  ⟨fun w hmutex ↦ (by cases hmutex), fun hmutex ↦ (by cases hmutex),
    fun _ ↦ ⟨rfl, rfl, fun _ ↦ rfl⟩⟩

theorem Owned.wake (h : Owned s) (hw : s.workers w = .blocked) : Owned (s.setWorker w .woken) := by
  refine ⟨fun u hmutex ↦ ?_, h.terminator, fun hterminator ↦ ?_⟩
  · rw [← h.worker u hmutex]
    exact apply_update_eq Worker.holdsMutex s.workers (by rw [hw]; rfl) u
  · obtain ⟨hquit, hblock, hstays⟩ := h.working hterminator
    refine ⟨hquit, hblock, fun u ↦ ?_⟩
    rw [← hstays u]
    exact apply_update_eq Worker.isLeaving s.workers (by rw [hw]; rfl) u

theorem Owned.step {a : Action κ n k} (h : Owned s) (hstep : s.step a = some s') : Owned s' := by
  cases a with
  | worker w =>
    obtain ⟨pc, mutex, queue, started, hadvances, rfl⟩ := advances_of_stepWorker hstep
    refine ⟨fun u hmutex ↦ ?_, fun hmutex ↦ ?_, fun hterminator ↦ ?_⟩
    · change mutex = some (.worker u) at hmutex
      change (Function.update s.workers w pc u).holdsMutex = true
      rcases hadvances.mutex with ⟨rfl, hsame⟩ | ⟨rfl, hholds⟩ | rfl
      · rw [← h.worker u hmutex]
        exact apply_update_eq Worker.holdsMutex s.workers hsame u
      · cases hmutex
        rw [Function.update_self]
        exact hholds
      · cases hmutex
    · change mutex = some .terminator at hmutex
      rcases hadvances.mutex with ⟨rfl, -⟩ | ⟨rfl, -⟩ | rfl
      · exact h.terminator hmutex
      · cases hmutex
      · cases hmutex
    · obtain ⟨hquit, hblock, hstays⟩ := h.working hterminator
      refine ⟨hquit, hblock, (Function.forall_update_iff s.workers
        fun _ (pc : Worker κ) ↦ pc.isLeaving = false).mpr ⟨?_, fun u _ ↦ hstays u⟩⟩
      exact hadvances.stays hquit hblock (hstays w)
  | spurious w =>
    rw [Pool.step] at hstep
    split at hstep
    · rename_i hw
      obtain rfl := Option.some.inj hstep
      exact h.wake hw
    · cases hstep
  | post p task | push p =>
    rw [Pool.step] at hstep
    split at hstep
    · obtain rfl := Option.some.inj hstep
      exact ⟨h.worker, h.terminator, h.working⟩
    · cases hstep
  | signal p target =>
    simp only [Pool.step] at hstep
    split at hstep
    · split at hstep
      · rename_i hw
        obtain rfl := Option.some.inj hstep
        have hsent : Owned (s.setProducer p .idle) := ⟨h.worker, h.terminator, h.working⟩
        exact hsent.wake hw
      · cases hstep
    · rw [Option.ite_none_right_eq_some, Option.some.injEq] at hstep
      obtain ⟨-, rfl⟩ := hstep
      exact ⟨h.worker, h.terminator, h.working⟩
    · cases hstep
  | terminate =>
    rw [Pool.step] at hstep
    have hterminator := h.terminator
    generalize s.terminator = pc at hstep hterminator
    cases pc with
    | storeQuit =>
      obtain rfl := Option.some.inj hstep
      exact ⟨h.worker, hterminator, fun heq ↦ by cases heq⟩
    | lockMutex =>
      rw [Pool.stepTerminator, Option.ite_none_right_eq_some, Option.some.injEq] at hstep
      obtain ⟨-, rfl⟩ := hstep
      exact ⟨fun w hmutex ↦ (by cases hmutex), fun _ ↦ rfl, fun heq ↦ by cases heq⟩
    | clearBlock =>
      obtain rfl := Option.some.inj hstep
      exact ⟨h.worker, fun _ ↦ rfl, fun heq ↦ by cases heq⟩
    | unlockMutex =>
      obtain rfl := Option.some.inj hstep
      exact ⟨fun w hmutex ↦ (by cases hmutex), fun hmutex ↦ (by cases hmutex),
        fun heq ↦ by cases heq⟩
    | broadcast =>
      obtain rfl := Option.some.inj hstep
      refine ⟨fun w hmutex ↦ ?_, fun hmutex ↦ ?_, fun heq ↦ by cases heq⟩
      · have hholds := h.worker w hmutex
        dsimp only
        split
        · rename_i hblocked
          generalize s.workers w = pc at hblocked hholds
          cases pc with
          | blocked => cases hholds
          | _ => cases hblocked
        · exact hholds
      · cases hterminator hmutex
    | done => cases hstep

theorem owned_of_reachable (h : (machine κ n k).Reachable s) : Owned s :=
  h.invariant owned_init fun hs _ hstep ↦ hs.step hstep

/-- **The pool at rest.** Nobody holds the mutex, every worker is blocked or has returned, and no
producer is inside `__push_task`. -/
structure Resting (s : Pool κ n k) : Prop where
  mutex : s.mutex = none
  workers : ∀ w, s.workers w = .blocked ∨ s.workers w = .exited
  producers : ∀ p, s.producers p = .idle

/-- A worker in a section of the mutex can go on. -/
theorem ne_none_of_holdsMutex (hw : (s.workers w).holdsMutex = true) :
    s.step (.worker w) ≠ none := by
  rw [Pool.step]
  generalize s.workers w = pc at hw
  cases pc with
  | testBlock | condWait | unlockRetry | unlockNull => exact Option.some_ne_none _
  | _ => cases hw

theorem Owned.resting (h : Owned s) (hterminator : s.terminator.holdsMutex = false)
    (hrest : ∀ a : Action κ n k, a.works = true → s.step a = none) : Resting s := by
  have hmutex : s.mutex = none := by
    cases hmutex : s.mutex with
    | none => rfl
    | some holder =>
      cases holder with
      | worker w => exact absurd (hrest (.worker w) rfl) (ne_none_of_holdsMutex (h.worker w hmutex))
      | terminator =>
        rw [h.terminator hmutex] at hterminator
        cases hterminator
  refine ⟨hmutex, fun w ↦ ?_, fun p ↦ ?_⟩
  · have hstuck := hrest (.worker w) rfl
    rw [Pool.step] at hstuck
    generalize s.workers w = pc at hstuck
    cases pc with
    | blocked => exact Or.inl rfl
    | exited => exact Or.inr rfl
    | lockMutex | woken =>
      rw [Pool.stepWorker, hmutex] at hstuck
      cases hstuck
    | popTask =>
      rw [Pool.stepWorker] at hstuck
      split at hstuck <;> cases hstuck
    | _ => cases hstuck
  · cases hpc : s.producers p with
    | idle => rfl
    | push task =>
      have hstuck := hrest (.push p) rfl
      rw [Pool.step, hpc] at hstuck
      cases hstuck
    | signal =>
      -- the signal wakes a blocked worker, if there is one
      by_cases hnone : s.NoneBlocked
      · have hstuck := hrest (.signal p none) rfl
        simp only [Pool.step, hpc, if_pos hnone] at hstuck
        cases hstuck
      · obtain ⟨w, hw⟩ := not_forall.mp hnone
        have hblocked : s.workers w = .blocked := by
          generalize s.workers w = pc at hw
          cases pc with
          | blocked => rfl
          | _ => exact absurd rfl hw
        have hstuck := hrest (.signal p (some w)) rfl
        simp only [Pool.step, hpc, hblocked] at hstuck
        cases hstuck

end Steps

/-- **Termination ends.** From every state, if no more tasks are posted and no worker wakes up
without reason, the pool makes only so many steps, and when none is left, `thrdpool_terminate` has
returned and every worker too. -/
theorem pool_terminates {s : Pool κ n k} (h : (machine κ n k).Reachable s) :
    (machine κ n k).Settles (fun a ↦ a.continues = true) s s.potential fun t ↦
      t.terminator = .done ∧ t.mutex = none ∧ (∀ w, t.workers w = .exited) ∧
        ∀ p, t.producers p = .idle := by
  refine Machine.settles_of_potential (J := fun t ↦ Ordered t ∧ Owned t)
    ⟨ordered_of_reachable h, owned_of_reachable h⟩ (fun hJ ha hstep ↦ ?_) fun {t} hJ hrest ↦ ?_
  · exact ⟨⟨hJ.1.step hstep, hJ.2.step hstep⟩, potential_lt_of_step ha hstep⟩
  · have hstuck := hrest .terminate rfl
    have hholds : t.terminator.holdsMutex = false := by
      change t.stepTerminator t.terminator = none at hstuck
      generalize t.terminator = pc at hstuck
      cases pc with
      | clearBlock | unlockMutex => cases hstuck
      | _ => rfl
    have hresting := hJ.2.resting hholds fun a ha ↦ hrest a (Action.continues_of_works ha)
    have hdone : t.terminator = .done := by
      change t.stepTerminator t.terminator = none at hstuck
      generalize t.terminator = pc at hstuck
      cases pc with
      | done => rfl
      | lockMutex =>
        rw [Pool.stepTerminator, hresting.mutex] at hstuck
        cases hstuck
      | _ => cases hstuck
    refine ⟨hdone, hresting.mutex, fun w ↦ ?_, hresting.producers⟩
    exact (hresting.workers w).resolve_left (hJ.1.awake hdone w)

theorem terminator_eq_of_works {s s' : Pool κ n k} {a : Action κ n k} (ha : a.works = true)
    (hstep : s.step a = some s') : s'.terminator = s.terminator := by
  cases a with
  | post | spurious | terminate => cases ha
  | worker w =>
    obtain ⟨pc, mutex, queue, started, -, rfl⟩ := advances_of_stepWorker hstep
    rfl
  | push p =>
    rw [Pool.step] at hstep
    split at hstep
    · obtain rfl := Option.some.inj hstep
      rfl
    · cases hstep
  | signal p target =>
    simp only [Pool.step] at hstep
    split at hstep
    · split at hstep
      · obtain rfl := Option.some.inj hstep
        rfl
      · cases hstep
    · rw [Option.ite_none_right_eq_some, Option.some.injEq] at hstep
      obtain ⟨-, rfl⟩ := hstep
      rfl
    · cases hstep

theorem Owned.asleep {s : Pool κ n k} (h : Owned s) (hworking : s.terminator = .storeQuit)
    (hresting : Resting s) (w : Fin n) : s.workers w = .blocked := by
  obtain ⟨-, -, hstays⟩ := h.working hworking
  refine (hresting.workers w).resolve_right fun hexited ↦ ?_
  have hstay := hstays w
  rw [hexited] at hstay
  cases hstay

/-- **The work is done.** Take a run in which the signals are heard, up to a state of the working
pool. From there the pool makes only so many steps if nothing new is posted and nobody wakes up
without reason, and then every worker is blocked. If no step is left already, every task that was
pushed in the run has been started, once. -/
theorem work_done {s : Pool κ n k} {labels : List (Action κ n k)}
    (hrun : (machine κ n k).runWhen SignalsHeard (machine κ n k).init labels = some s)
    (hworking : s.terminator = .storeQuit) :
    (machine κ n k).Settles (fun a ↦ a.works = true) s s.potential
        (fun t ↦ Resting t ∧ ∀ w, t.workers w = .blocked) ∧
      ((machine κ n k).AtRest (fun a ↦ a.works = true) s → (s.started.map Prod.snd).Perm
        ((machine κ n k).outputs Pool.pushes (machine κ n k).init labels)) := by
  have hleads := Machine.leads_of_runWhen hrun
  have howned := owned_of_reachable (Machine.ReachableWhen.reachable hleads)
  have hattended : Attended s :=
    hleads.invariant (fun hne ↦ absurd rfl hne) fun hs hheard hstep ↦ attended_step hs hheard hstep
  refine ⟨?_, fun hrest ↦ ?_⟩
  · refine Machine.settles_of_potential (J := fun t ↦ Owned t ∧ t.terminator = .storeQuit)
      ⟨howned, hworking⟩ (fun hJ ha hstep ↦ ?_) fun hJ hrest ↦ ?_
    · exact ⟨⟨hJ.1.step hstep, (terminator_eq_of_works ha hstep).trans hJ.2⟩,
        potential_lt_of_step (Action.continues_of_works ha) hstep⟩
    · have hresting := hJ.1.resting (by rw [hJ.2]; rfl) hrest
      exact ⟨hresting, hJ.1.asleep hJ.2 hresting⟩
  · have hresting := howned.resting (by rw [hworking]; rfl) hrest
    have hblocked := howned.asleep hworking hresting
    have hqueue : s.queue = [] := by
      by_contra hne
      refine hattended.not_stuck ⟨hne, fun w ↦ ?_, fun p ↦ ?_⟩
      · rw [hblocked w]
        rfl
      · rw [hresting.producers p]
        rfl
    obtain ⟨hpushes, htaken⟩ := passes_of_run (Machine.run_of_runWhen hrun)
    rw [hqueue, List.append_nil] at hpushes
    rw [hpushes]
    refine (started_perm htaken fun w ↦ ?_).map Prod.snd
    rw [hblocked w]
    rfl

theorem Resting.atRest {s : Pool κ n k} (h : Resting s) :
    (machine κ n k).AtRest (fun a ↦ a.works = true) s := by
  intro a ha
  cases a with
  | post | spurious | terminate => cases ha
  | worker w =>
    change s.stepWorker w (s.workers w) = none
    rcases h.workers w with hw | hw
    · rw [hw]
      rfl
    · rw [hw]
      rfl
  | push p =>
    change s.step (.push p) = none
    rw [Pool.step, h.producers p]
  | signal p target =>
    change s.step (.signal p target) = none
    simp only [Pool.step, h.producers p]

/-- Two tasks, and two workers that go to sleep again after them. -/
theorem work_done_twice : ∃ s : Pool ℕ 2 1,
    s.started = [(0, 8), (1, 7)] ∧ (s.started.map Prod.snd).Perm [7, 8] := by
  let labels : List (Action ℕ 2 1) :=
    List.replicate 5 (.worker 0) ++
      [.worker 1, .post 0 7, .push 0, .signal 0 (some 0), .worker 1, .post 0 8, .push 0,
        .signal 0 none] ++
      List.replicate 6 (.worker 0) ++ List.replicate 7 (.worker 1) ++ List.replicate 4 (.worker 0)
  have hfinal : ((machine ℕ 2 1).runWhen SignalsHeard (machine ℕ 2 1).init labels).map
      (fun s ↦ (s.started, s.terminator, s.mutex.isNone, decide (∀ w, s.workers w = .blocked),
        decide (∀ p, s.producers p = .idle))) =
      some ([(0, 8), (1, 7)], .storeQuit, true, true, true) := by decide +kernel
  obtain ⟨s, hs, hfeatures⟩ := Option.map_eq_some_iff.mp hfinal
  simp only [Prod.mk.injEq] at hfeatures
  obtain ⟨hstarted, hworking, hmutex, hworkers, hproducers⟩ := hfeatures
  have hpushed : (machine ℕ 2 1).outputs Pool.pushes (machine ℕ 2 1).init labels = [7, 8] := by
    decide +kernel
  have hresting : Resting s :=
    ⟨Option.isNone_iff_eq_none.mp hmutex, fun w ↦ Or.inl (of_decide_eq_true hworkers w),
      of_decide_eq_true hproducers⟩
  have hdone := (work_done hs hworking).2 hresting.atRest
  rw [hpushed] at hdone
  exact ⟨s, hstarted, hdone⟩

/-- A worker sleeps and another one is about to call its task when the pool is terminated. -/
theorem pool_terminates_sleeping : ∃ s t : Pool ℕ 2 1,
    (s.workers 0 = .blocked ∧ s.workers 1 = .callTask 7 ∧ s.terminator = .lockMutex) ∧
      (∃ labels : List (Action ℕ 2 1), labels.length ≤ s.potential ∧
        (machine ℕ 2 1).run s labels = some t) ∧ ∀ w, t.workers w = .exited := by
  obtain ⟨s, hs, hfeatures⟩ := Machine.exists_reachable_of_run
    (fun s ↦ (s.workers 0, s.workers 1, s.terminator))
    (List.replicate 5 (.worker 0) ++ [.worker 1, .post 0 7, .push 0, .worker 1, .terminate])
    (M := machine ℕ 2 1) (b := (.blocked, .callTask 7, .lockMutex)) (by decide +kernel)
  simp only [Prod.mk.injEq] at hfeatures
  have hsettles := pool_terminates hs
  obtain ⟨labels, t, hcontinues, hrun, -, hexited⟩ := hsettles.exists_run
  exact ⟨s, t, hfeatures, ⟨labels, (hsettles labels t hcontinues hrun).1, hrun⟩, hexited.2.2.1⟩

end ThreadPool

end FoundationComponents
