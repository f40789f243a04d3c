import FoundationComponents.Machine.Tally
import FoundationComponents.ThreadPool.Basic

/-!
# Termination

A worker tests `block` and enters the wait in one section of the mutex, and `__nonblock` clears
`block` in another. So once `block` has been cleared no worker is on its way into the wait, and the
workers that are in it by then are woken by the broadcast. `quit` has been stored before all of
this. What a worker may still do is to take one task that it finds in the queue, and to call it.

The invariant says who holds the mutex and what the terminating thread has achieved so far. For the
tasks every position of a worker has a number, which is how many it may still start once both flags
are set.
-/

namespace FoundationComponents

namespace ThreadPool

variable {κ : Type*} {n k : ℕ}

/-- The worker is in a section of the mutex. -/
def Worker.holdsMutex : Worker κ → Bool
  | .testBlock | .condWait | .unlockRetry | .unlockNull => true
  | _ => false

/-- The terminating thread is in its section of the mutex. -/
def Terminator.holdsMutex : Terminator → Bool
  | .clearBlock | .unlockMutex => true
  | _ => false

/-- `block` has been cleared. -/
def Terminator.hasCleared : Terminator → Bool
  | .unlockMutex | .broadcast | .done => true
  | _ => false

/-- How many tasks the worker may still start, if `quit` is set and `block` is not. -/
def Worker.tasksLeft : Worker κ → ℕ
  | .popTask | .lockMutex | .condWait | .blocked | .woken | .unlockRetry | .callTask _ => 1
  | .loop | .testBlock | .unlockNull | .runTask _ | .exited => 0

theorem Worker.tasksLeft_le (pc : Worker κ) : pc.tasksLeft ≤ 1 := by
  cases pc <;> first | exact Nat.zero_le 1 | exact Nat.le_refl 1

/-- The number of tasks that the worker has started. -/
def Pool.startedBy (s : Pool κ n k) (w : Fin n) : ℕ := s.started.countP fun start ↦ start.1 = w

/-! ## What a worker does

Of a step of a worker the invariant needs what it does with the mutex and which task it starts. -/

/-- A step of the worker `w` to `pc`: it leaves the mutex alone, takes it or gives it back, and it
starts the tasks `tasks`, of which there is at most one. -/
structure Moves (s : Pool κ n k) (w : Fin n) (pc : Worker κ) (mutex : Option (Holder n))
    (tasks : List κ) : Prop where
  mutex : mutex = s.mutex ∧ pc.holdsMutex = (s.workers w).holdsMutex ∨
    s.mutex = none ∧ mutex = some (.worker w) ∨
    (s.workers w).holdsMutex = true ∧ mutex = none ∧ pc.holdsMutex = false
  wait : pc = .condWait → s.block = true
  blocked : pc = .blocked → s.workers w = .condWait
  tasks : s.quit = true → s.block = false →
    tasks.length + pc.tasksLeft ≤ (s.workers w).tasksLeft

/-- The state after such a step. -/
def Pool.moved (s : Pool κ n k) (w : Fin n) (pc : Worker κ) (mutex : Option (Holder n))
    (queue tasks : List κ) : Pool κ n k :=
  { s with
    queue := queue
    mutex := mutex
    started := s.started ++ tasks.map fun task ↦ (w, task)
    workers := Function.update s.workers w pc }

section Steps

variable {s s' t : Pool κ n k} {w : Fin n}

theorem moved_of_stepWorker (hstep : s.stepWorker w (s.workers w) = some s') :
    ∃ pc mutex queue tasks, Moves s w pc mutex tasks ∧ s' = s.moved w pc mutex queue tasks := by
  generalize hpc : s.workers w = pc at hstep
  -- a step that starts no task
  have hquiet : ∀ pc' mutex queue, Moves s w pc' mutex [] →
      s' = { s with queue := queue, mutex := mutex }.setWorker w pc' →
      ∃ pc mutex queue tasks, Moves s w pc mutex tasks ∧ s' = s.moved w pc mutex queue tasks := by
    rintro pc' mutex queue hmoves rfl
    refine ⟨pc', mutex, queue, [], hmoves, ?_⟩
    rw [Pool.moved, List.map_nil, List.append_nil]
    rfl
  cases pc with
  | loop =>
    obtain rfl := Option.some.inj hstep
    refine hquiet _ s.mutex s.queue ⟨Or.inl ⟨rfl, ?_⟩, ?_, ?_, fun hquit _ ↦ ?_⟩ rfl
    · rw [hpc]
      cases s.quit <;> rfl
    · cases s.quit <;> nofun
    · cases s.quit <;> nofun
    · rw [hquit, hpc]
      exact le_rfl
  | popTask =>
    simp only [Pool.stepWorker] at hstep
    split at hstep
    · obtain rfl := Option.some.inj hstep
      exact hquiet .lockMutex s.mutex s.queue
        ⟨Or.inl ⟨rfl, by rw [hpc]; rfl⟩, nofun, nofun, fun _ _ ↦ by rw [hpc]; exact le_rfl⟩ rfl
    · rename_i task rest _
      obtain rfl := Option.some.inj hstep
      exact hquiet (.callTask task) s.mutex rest
        ⟨Or.inl ⟨rfl, by rw [hpc]; rfl⟩, nofun, nofun, fun _ _ ↦ by rw [hpc]; exact le_rfl⟩ rfl
  | lockMutex =>
    simp only [Pool.stepWorker] at hstep
    split at hstep
    · rename_i hfree
      obtain rfl := Option.some.inj hstep
      exact hquiet .testBlock (some (.worker w)) s.queue
        ⟨Or.inr (Or.inl ⟨Option.isNone_iff_eq_none.mp hfree, rfl⟩), nofun, nofun,
          fun _ _ ↦ Nat.zero_le _⟩ rfl
    · cases hstep
  | testBlock =>
    obtain rfl := Option.some.inj hstep
    refine hquiet _ s.mutex s.queue ⟨Or.inl ⟨rfl, ?_⟩, ?_, ?_, fun _ hblock ↦ ?_⟩ rfl
    · rw [hpc]
      cases s.block <;> rfl
    · cases s.block with
      | false => nofun
      | true => exact fun _ ↦ rfl
    · cases s.block <;> nofun
    · rw [hblock, hpc]
      exact le_rfl
  | condWait =>
    obtain rfl := Option.some.inj hstep
    exact hquiet .blocked none s.queue
      ⟨Or.inr (Or.inr ⟨by rw [hpc]; rfl, rfl, rfl⟩), nofun, fun _ ↦ hpc,
        fun _ _ ↦ by rw [hpc]; exact le_rfl⟩ rfl
  | blocked => cases hstep
  | woken =>
    simp only [Pool.stepWorker] at hstep
    split at hstep
    · rename_i hfree
      obtain rfl := Option.some.inj hstep
      exact hquiet .unlockRetry (some (.worker w)) s.queue
        ⟨Or.inr (Or.inl ⟨Option.isNone_iff_eq_none.mp hfree, rfl⟩), nofun, nofun,
          fun _ _ ↦ by rw [hpc]; exact le_rfl⟩ rfl
    · cases hstep
  | unlockRetry =>
    obtain rfl := Option.some.inj hstep
    exact hquiet .popTask none s.queue
      ⟨Or.inr (Or.inr ⟨by rw [hpc]; rfl, rfl, rfl⟩), nofun, nofun,
        fun _ _ ↦ by rw [hpc]; exact le_rfl⟩ rfl
  | unlockNull =>
    obtain rfl := Option.some.inj hstep
    exact hquiet .exited none s.queue
      ⟨Or.inr (Or.inr ⟨by rw [hpc]; rfl, rfl, rfl⟩), nofun, nofun, fun _ _ ↦ Nat.zero_le _⟩ rfl
  | callTask task =>
    obtain rfl := Option.some.inj hstep
    exact ⟨.runTask task, s.mutex, s.queue, [task],
      ⟨Or.inl ⟨rfl, by rw [hpc]; rfl⟩, nofun, nofun, fun _ _ ↦ by rw [hpc]; exact le_rfl⟩, rfl⟩
  | runTask task =>
    obtain rfl := Option.some.inj hstep
    exact hquiet .loop s.mutex s.queue
      ⟨Or.inl ⟨rfl, by rw [hpc]; rfl⟩, nofun, nofun, fun _ _ ↦ Nat.zero_le _⟩ rfl
  | exited => cases hstep

/-! ## The invariant

`block` is tested and cleared under the mutex only. After it has been cleared nobody is between the
test and the wait, and after the broadcast nobody is left in the wait. -/

/-- Who holds the mutex, and what the terminating thread has done by where it is. -/
structure Ordered (s : Pool κ n k) : Prop where
  worker_holder : ∀ w, (s.workers w).holdsMutex = true → s.mutex = some (.worker w)
  terminator_holder : s.terminator.holdsMutex = true → s.mutex = some .terminator
  quit : s.terminator ≠ .storeQuit → s.quit = true
  block : s.terminator.hasCleared = true → s.block = false
  unwaiting : s.terminator.hasCleared = true → ∀ w, s.workers w ≠ .condWait
  awake : s.terminator = .done → ∀ w, s.workers w ≠ .blocked

theorem ordered_init : Ordered (machine κ n k).init :=
  ⟨nofun, nofun, fun h ↦ absurd rfl h, nofun, nofun, nofun⟩

theorem Ordered.moved (h : Ordered s) {pc : Worker κ} {mutex : Option (Holder n)}
    {queue tasks : List κ} (hmoves : Moves s w pc mutex tasks) :
    Ordered (s.moved w pc mutex queue tasks) := by
  obtain ⟨hmutex, hwait, hblocked, -⟩ := hmoves
  refine ⟨?_, ?_, h.quit, h.block, fun hcleared ↦ ?_, fun hdone ↦ ?_⟩
  · refine (Function.forall_update_iff s.workers
      fun u (pc : Worker κ) ↦ pc.holdsMutex = true → mutex = some (.worker u)).mpr
      ⟨fun hholds ↦ ?_, fun u hu hholds ↦ ?_⟩
    · rcases hmutex with ⟨rfl, hsame⟩ | ⟨-, hown⟩ | ⟨-, -, hout⟩
      · exact h.worker_holder w (hsame ▸ hholds)
      · exact hown
      · rw [hholds] at hout
        cases hout
    · have hholder := h.worker_holder u hholds
      rcases hmutex with ⟨rfl, -⟩ | ⟨hfree, -⟩ | ⟨hown, -⟩
      · exact hholder
      · rw [hfree] at hholder
        cases hholder
      · rw [h.worker_holder w hown] at hholder
        cases hholder
        exact absurd rfl hu
  · intro hholds
    have hholder := h.terminator_holder hholds
    rcases hmutex with ⟨rfl, -⟩ | ⟨hfree, -⟩ | ⟨hown, -⟩
    · exact hholder
    · rw [hfree] at hholder
      cases hholder
    · rw [h.worker_holder w hown] at hholder
      cases hholder
  · refine (Function.forall_update_iff s.workers fun _ pc ↦ pc ≠ .condWait).mpr
      ⟨fun hpc ↦ ?_, fun u _ ↦ h.unwaiting hcleared u⟩
    have hblock := hwait hpc
    rw [h.block hcleared] at hblock
    cases hblock
  · have hcleared : s.terminator.hasCleared = true := by
      rw [show s.terminator = .done from hdone]
      rfl
    exact (Function.forall_update_iff s.workers fun _ pc ↦ pc ≠ .blocked).mpr
      ⟨fun hpc ↦ h.unwaiting hcleared w (hblocked hpc), fun u _ ↦ h.awake hdone u⟩

theorem Ordered.wake (h : Ordered s) (hw : s.workers w = .blocked) :
    Ordered (s.setWorker w .woken) :=
  ⟨(Function.forall_update_iff s.workers
      fun u (pc : Worker κ) ↦ pc.holdsMutex = true → s.mutex = some (.worker u)).mpr
      ⟨nofun, fun u _ ↦ h.worker_holder u⟩,
    h.terminator_holder, h.quit, h.block,
    fun hcleared ↦ (Function.forall_update_iff s.workers fun _ pc ↦ pc ≠ .condWait).mpr
      ⟨nofun, fun u _ ↦ h.unwaiting hcleared u⟩,
    fun hdone ↦ absurd hw (h.awake hdone w)⟩

/-- The terminating thread moves. It clears `block` in a section of the mutex, so that no worker
can be between the test and the wait. -/
theorem Ordered.terminate (h : Ordered s) (hstep : s.stepTerminator s.terminator = some s') :
    Ordered s' := by
  generalize hpc : s.terminator = pc at hstep
  have hquit : pc ≠ .storeQuit → s.quit = true := hpc ▸ h.quit
  cases pc with
  | storeQuit =>
    obtain rfl := Option.some.inj hstep
    exact ⟨h.worker_holder, nofun, fun _ ↦ rfl, nofun, nofun, nofun⟩
  | lockMutex =>
    simp only [Pool.stepTerminator] at hstep
    split at hstep
    · rename_i hfree
      obtain rfl := Option.some.inj hstep
      have hnone := Option.isNone_iff_eq_none.mp hfree
      refine ⟨fun u hu ↦ ?_, fun _ ↦ rfl, fun _ ↦ hquit nofun, nofun, nofun, nofun⟩
      have hholder := h.worker_holder u hu
      rw [hnone] at hholder
      cases hholder
    · cases hstep
  | clearBlock =>
    obtain rfl := Option.some.inj hstep
    have hmutex : s.mutex = some .terminator := h.terminator_holder (by rw [hpc]; rfl)
    refine ⟨h.worker_holder, fun _ ↦ hmutex, fun _ ↦ hquit nofun, fun _ ↦ rfl, fun _ u hu ↦ ?_,
      nofun⟩
    have hholder := h.worker_holder u (by rw [show s.workers u = .condWait from hu]; rfl)
    rw [hmutex] at hholder
    cases hholder
  | unlockMutex =>
    obtain rfl := Option.some.inj hstep
    have hmutex : s.mutex = some .terminator := h.terminator_holder (by rw [hpc]; rfl)
    have hcleared : s.terminator.hasCleared = true := by
      rw [hpc]
      rfl
    refine ⟨fun u hu ↦ ?_, nofun, fun _ ↦ hquit nofun, fun _ ↦ h.block hcleared,
      fun _ ↦ h.unwaiting hcleared, nofun⟩
    have hholder := h.worker_holder u hu
    rw [hmutex] at hholder
    cases hholder
  | broadcast =>
    obtain rfl := Option.some.inj hstep
    have hcleared : s.terminator.hasCleared = true := by
      rw [hpc]
      rfl
    refine ⟨fun u hu ↦ ?_, nofun, fun _ ↦ hquit nofun, fun _ ↦ h.block hcleared,
      fun _ u hu ↦ ?_, fun _ u hu ↦ ?_⟩
    · dsimp only at hu
      split at hu
      · cases hu
      · exact h.worker_holder u hu
    · dsimp only at hu
      split at hu
      · cases hu
      · exact h.unwaiting hcleared u hu
    · dsimp only at hu
      split at hu
      · cases hu
      · rename_i hblocked
        exact hblocked (by rw [hu]; rfl)
  | done => cases hstep

theorem Ordered.step {a : Action κ n k} (h : Ordered s) (hstep : s.step a = some s') :
    Ordered s' := by
  cases a with
  | worker w =>
    obtain ⟨pc, mutex, queue, tasks, hmoves, rfl⟩ := moved_of_stepWorker hstep
    exact h.moved hmoves
  | spurious w =>
    simp only [Pool.step] at hstep
    split at hstep
    · rename_i hw
      obtain rfl := Option.some.inj hstep
      exact h.wake hw
    · cases hstep
  | post p task | push p =>
    simp only [Pool.step] at hstep
    split at hstep
    · obtain rfl := Option.some.inj hstep
      exact ⟨h.1, h.2, h.3, h.4, h.5, h.6⟩
    · cases hstep
  | signal p target =>
    simp only [Pool.step] at hstep
    split at hstep
    · split at hstep
      · rename_i hw
        obtain rfl := Option.some.inj hstep
        have hproducer : Ordered (s.setProducer p .idle) := ⟨h.1, h.2, h.3, h.4, h.5, h.6⟩
        exact hproducer.wake hw
      · cases hstep
    · split at hstep
      · obtain rfl := Option.some.inj hstep
        exact ⟨h.1, h.2, h.3, h.4, h.5, h.6⟩
      · cases hstep
    · cases hstep
  | terminate => exact h.terminate hstep

theorem ordered_of_reachable (h : (machine κ n k).Reachable s) : Ordered s :=
  Machine.Leads.invariant (I := Ordered) h ordered_init fun hs _ hstep ↦ hs.step hstep

/-! ## After the broadcast

A worker that finds the queue not empty still takes a task, and then sees `quit`. -/

theorem startedBy_moved {pc : Worker κ} {mutex : Option (Holder n)} {queue tasks : List κ}
    (u : Fin n) : (s.moved w pc mutex queue tasks).startedBy u =
      s.startedBy u + if w = u then tasks.length else 0 := by
  rw [Pool.startedBy, Pool.startedBy, Pool.moved, List.countP_append, List.countP_map]
  refine congrArg _ ?_
  split
  · rename_i hwu
    exact List.countP_eq_length.mpr fun _ _ ↦ decide_eq_true hwu
  · rename_i hwu
    exact List.countP_eq_zero.mpr fun _ _ h ↦ hwu (of_decide_eq_true h)

theorem Ordered.step_done {a : Action κ n k} (h : Ordered s) (hdone : s.terminator = .done)
    (hstep : s.step a = some s') : s'.terminator = .done ∧ ∀ u,
      s'.startedBy u + (s'.workers u).tasksLeft ≤ s.startedBy u + (s.workers u).tasksLeft := by
  have hawake := h.awake hdone
  cases a with
  | worker w =>
    obtain ⟨pc, mutex, queue, tasks, hmoves, rfl⟩ := moved_of_stepWorker hstep
    have hquit : s.quit = true := h.quit (by rw [hdone]; nofun)
    have hblock : s.block = false := h.block (by rw [hdone]; rfl)
    have htasks := hmoves.tasks hquit hblock
    refine ⟨hdone, fun u ↦ ?_⟩
    rw [startedBy_moved, Pool.moved]
    dsimp only
    by_cases hu : u = w
    · subst hu
      rw [Function.update_self, if_pos rfl]
      omega
    · rw [Function.update_of_ne hu, if_neg (Ne.symm hu), Nat.add_zero]
  | spurious w =>
    simp only [Pool.step] at hstep
    split at hstep
    · rename_i hw
      exact absurd hw (hawake w)
    · cases hstep
  | post p task | push p =>
    simp only [Pool.step] at hstep
    split at hstep
    · obtain rfl := Option.some.inj hstep
      exact ⟨hdone, fun u ↦ Nat.le_refl _⟩
    · cases hstep
  | signal p target =>
    simp only [Pool.step] at hstep
    split at hstep
    · split at hstep
      · rename_i hw
        exact absurd hw (hawake _)
      · cases hstep
    · split at hstep
      · obtain rfl := Option.some.inj hstep
        exact ⟨hdone, fun u ↦ Nat.le_refl _⟩
      · cases hstep
    · cases hstep
  | terminate =>
    rw [Pool.step, hdone] at hstep
    cases hstep

/-- **Termination wakes every worker.** In every state after the broadcast no worker is blocked or
about to block, so none ever blocks again, and from then on each worker starts at most one more
task. -/
theorem terminate_wakes_all (hs : (machine κ n k).Reachable s) (hdone : s.terminator = .done)
    (h : (machine κ n k).Leads (fun _ _ ↦ True) s t) :
    (∀ w, t.workers w ≠ .blocked ∧ t.workers w ≠ .condWait) ∧
      ∀ w, t.startedBy w ≤ s.startedBy w + 1 := by
  obtain ⟨hordered, hdone, htasks⟩ : Ordered t ∧ t.terminator = .done ∧ ∀ w,
      t.startedBy w + (t.workers w).tasksLeft ≤ s.startedBy w + (s.workers w).tasksLeft := by
    refine h.invariant (I := fun t ↦ Ordered t ∧ t.terminator = .done ∧ ∀ w,
      t.startedBy w + (t.workers w).tasksLeft ≤ s.startedBy w + (s.workers w).tasksLeft)
      ⟨ordered_of_reachable hs, hdone, fun _ ↦ Nat.le_refl _⟩ ?_
    rintro u a v ⟨hordered, hdone, htasks⟩ - hstep
    obtain ⟨hdone', hstarts⟩ := hordered.step_done hdone hstep
    exact ⟨hordered.step hstep, hdone', fun w ↦ (hstarts w).trans (htasks w)⟩
  have hcleared : t.terminator.hasCleared = true := by
    rw [hdone]
    rfl
  refine ⟨fun w ↦ ⟨hordered.awake hdone w, hordered.unwaiting hcleared w⟩, fun w ↦ ?_⟩
  have hleft := (s.workers w).tasksLeft_le
  have hmost := htasks w
  omega

end Steps

/-- Two workers, one of them blocked and the other about to take the mutex when the terminating
thread comes by. The first one wakes up, finds the task that has been pushed meanwhile, and exits
after it; the second one finds `block` cleared. -/
theorem terminate_wakes_all_oneBlocked : ∃ s t : Pool ℕ 2 1,
    (s.workers 0 = .woken ∧ t.workers 0 = .exited ∧ t.workers 1 = .exited ∧ t.startedBy 0 = 1) ∧
    (∀ w, t.workers w ≠ .blocked ∧ t.workers w ≠ .condWait) ∧
      ∀ w, t.startedBy w ≤ s.startedBy w + 1 := by
  obtain ⟨s, t, hs, ht, hfinal⟩ := Machine.exists_reachable_of_runs (M := machine ℕ 2 1)
    (fun s t ↦ (s.terminator, s.workers 0, t.workers 0, t.workers 1, t.startedBy 0))
    [.worker 0, .worker 0, .worker 0, .worker 0, .worker 0, .worker 1, .worker 1, .post 0 7,
      .push 0, .terminate, .terminate, .terminate, .terminate, .terminate]
    [.worker 0, .worker 0, .worker 0, .worker 0, .worker 0, .worker 0, .worker 1, .worker 1,
      .worker 1, .signal 0 none]
    (b := (.done, .woken, .exited, .exited, 1)) (by decide +kernel)
  simp only [Prod.mk.injEq] at hfinal
  exact ⟨s, t, hfinal.2, terminate_wakes_all hs hfinal.1 (Machine.leads_of_runWhen ht)⟩

end ThreadPool

end FoundationComponents
