import FoundationComponents.Machine.Basic
import Mathlib.Data.List.FinRange
import Mathlib.Data.Nat.Notation
import Mathlib.Logic.Function.Basic

/-!
# Starting and stopping the workers

`start` and `stop` of `MultiThreadReactor` run under `lifecycle_mutex`. `start` creates a worker
thread for every loop, and `stop` sets the flags of the loops and then joins the workers. A worker
whose callback calls `stop` does not join itself, it detaches itself; but it needs the mutex like
all others.

So a `stop` that holds the mutex may wait for a worker whose callback waits for the mutex. This
happens if the callback of a worker calls `stop` while another thread is in `stop`, or waits there
for the mutex when another thread gets it and finds the reactor running; and it happens in no other
way.
-/

namespace FoundationComponents

namespace MultiThreadReactor

namespace Lifecycle

/-! ## The machine -/

/-- The threads that use the reactor: `n` from outside, among them that of the destructor, and the
workers of the `m` loops. -/
inductive Thread (n m : ℕ)
  | outside (i : Fin n)
  | worker (w : Fin m)
  deriving Repr, DecidableEq

/-- A worker thread: not created, in `EventLoop::run` outside of callbacks, in a callback, or at its
end. -/
inductive Worker
  | absent
  | looping
  | callback
  | exited
  deriving Repr, DecidableEq

/-- Where a thread is. Lists hold the loops or workers that are still to be dealt with. -/
inductive Pc (m : ℕ)
  | idle
  /-- In front of `lifecycle_mutex`. -/
  | startLocking
  | stopLocking
  /-- In `start`, creating workers. -/
  | creating (rest : List (Fin m))
  /-- In the catch block of `start`, stopping loops. -/
  | failing (rest : List (Fin m))
  /-- In the catch block of `start`, joining the workers that have been created. -/
  | failJoining (rest : List (Fin m))
  /-- In `stop`, stopping loops. -/
  | stopping (rest : List (Fin m))
  /-- In `stop`, in front of `join` or `detach` of the first worker. -/
  | joining (rest : List (Fin m))
  deriving Repr, DecidableEq

/-- The fields of `State`, with the thread that holds `lifecycle_mutex` and the flags of the loops;
the workers; and the positions of the threads. -/
structure State (n m : ℕ) where
  isRunning : Bool
  stoppedAfterStart : Bool
  holder : Option (Thread n m)
  stopping : Fin m → Bool
  /-- The vector `threads`. -/
  threads : List (Fin m)
  workers : Fin m → Worker
  pcs : Thread n m → Pc m

inductive Action (n m : ℕ)
  | start (t : Thread n m)
  | stop (t : Thread n m)
  /-- The thread gets the mutex. -/
  | lock (t : Thread n m)
  /-- The thread goes on under the mutex; the creation of a worker may fail. -/
  | advance (t : Thread n m) (created : Bool)
  /-- A worker starts a callback, returns from it, and returns from `run`. -/
  | callback (w : Fin m)
  | finish (w : Fin m)
  | exit (w : Fin m)
  deriving Repr, DecidableEq

namespace State

variable {n m : ℕ} (s : State n m)

def setPc (t : Thread n m) (pc : Pc m) : State n m :=
  { s with pcs := Function.update s.pcs t pc }

/-- `stop` of a loop. -/
def stopLoop (i : Fin m) : State n m := { s with stopping := Function.update s.stopping i true }

def setWorker (w : Fin m) (worker : Worker) : State n m :=
  { s with workers := Function.update s.workers w worker }

/-- The mutex is released at the end of a call. -/
def unlock (t : Thread n m) : State n m := { s.setPc t .idle with holder := none }

/-- Workers call from their callbacks. -/
def mayCall (t : Thread n m) : Bool :=
  s.pcs t == .idle &&
    match t with
    | .outside _ => true
    | .worker w => s.workers w == .callback

/-- The first section of `start` and of `stop`. -/
def lock (t : Thread n m) : Option (State n m) :=
  match s.holder, s.pcs t with
  | none, .startLocking =>
      if s.isRunning ∨ s.stoppedAfterStart then some (s.setPc t .idle)
      else
        some
          { s.setPc t (.creating (List.finRange m)) with
            isRunning := true
            holder := some t }
  | none, .stopLocking =>
      if s.isRunning then
        some
          { s.setPc t (.stopping (List.finRange m)) with
            isRunning := false
            stoppedAfterStart := true
            holder := some t }
      else some (s.setPc t .idle)
  | _, _ => none

/-- Under the mutex. A thread that joins a worker waits until this has returned from `run`. -/
def advance (t : Thread n m) (created : Bool) : Option (State n m) :=
  match s.pcs t with
  | .creating (w :: rest) =>
      if created then
        some { (s.setWorker w .looping).setPc t (.creating rest) with threads := s.threads ++ [w] }
      else some (s.setPc t (.failing (List.finRange m)))
  | .creating [] => some (s.unlock t)
  | .failing (i :: rest) => some ((s.stopLoop i).setPc t (.failing rest))
  | .failing [] => some (s.setPc t (.failJoining s.threads))
  | .failJoining (w :: rest) =>
      if s.workers w = .exited then some (s.setPc t (.failJoining rest)) else none
  | .failJoining [] =>
      some { s.unlock t with threads := [], isRunning := false, stoppedAfterStart := true }
  | .stopping (i :: rest) => some ((s.stopLoop i).setPc t (.stopping rest))
  | .stopping [] => some (s.setPc t (.joining s.threads))
  | .joining (w :: rest) =>
      -- a worker detaches itself instead
      if t = .worker w ∨ s.workers w = .exited then some (s.setPc t (.joining rest)) else none
  | .joining [] => some { s.unlock t with threads := [] }
  | _ => none

def step : Action n m → Option (State n m)
  | .start t => if s.mayCall t then some (s.setPc t .startLocking) else none
  | .stop t => if s.mayCall t then some (s.setPc t .stopLocking) else none
  | .lock t => s.lock t
  | .advance t created => s.advance t created
  | .callback w => if s.workers w = .looping then some (s.setWorker w .callback) else none
  | .finish w =>
      if s.workers w = .callback ∧ s.pcs (.worker w) = .idle then some (s.setWorker w .looping)
      else none
  | .exit w =>
      if s.workers w = .looping ∧ s.stopping w then some (s.setWorker w .exited) else none

end State

/-- A new reactor. -/
def machine (n m : ℕ) : Machine (State n m) (Action n m) where
  init := ⟨false, false, none, fun _ ↦ false, [], fun _ ↦ .absent, fun _ ↦ .idle⟩
  step := State.step

/-- A thread in `stop` holds the mutex and joins a worker that waits for the mutex in `stop`. -/
def Deadlocked {n m : ℕ} (s : State n m) : Prop :=
  ∃ t w rest, s.holder = some t ∧ s.pcs t = .joining (w :: rest) ∧ t ≠ .worker w ∧
    s.pcs (.worker w) = .stopLocking

/-! ## What a step does -/

namespace Pc

variable {m : ℕ}

/-- The thread holds the mutex. -/
def holds : Pc m → Bool
  | .idle | .startLocking | .stopLocking => false
  | _ => true

/-- The thread holds the mutex in `stop`, which found the reactor running. -/
def inStop : Pc m → Bool
  | .stopping _ | .joining _ => true
  | _ => false

end Pc

section Change

variable {n m : ℕ} {s s' : State n m} {a : Action n m}

/-- What a step does to the mutex and to the positions. -/
inductive Change (s : State n m) (a : Action n m) (s' : State n m) : Prop
  | quiet (holder_eq : s'.holder = s.holder) (pcs_eq : s'.pcs = s.pcs)
  /-- A call begins, or ends without work to do. -/
  | outside (t : Thread n m) (pc : Pc m) (holds_eq : pc.holds = false)
      (before_eq : (s.pcs t).holds = false) (action_of_locking : pc = .stopLocking → a = .stop t)
      (holder_eq : s'.holder = s.holder) (pcs_eq : s'.pcs = Function.update s.pcs t pc)
  | lock (t : Thread n m) (pc : Pc m) (holder_before : s.holder = none) (holds_eq : pc.holds = true)
      (stop_of_inStop : pc.inStop = true →
        a = .lock t ∧ s.pcs t = .stopLocking ∧ s.isRunning = true)
      (holder_eq : s'.holder = some t) (pcs_eq : s'.pcs = Function.update s.pcs t pc)
  | go {t : Thread n m} {pc : Pc m} (before_holds : (s.pcs t).holds = true)
      (holds_eq : pc.holds = true) (inStop_eq : pc.inStop = (s.pcs t).inStop)
      (holder_eq : s'.holder = s.holder) (pcs_eq : s'.pcs = Function.update s.pcs t pc)
  | unlock {t : Thread n m} (before_holds : (s.pcs t).holds = true)
      (holder_eq : s'.holder = none) (pcs_eq : s'.pcs = Function.update s.pcs t .idle)

theorem idle_of_mayCall {t : Thread n m} (h : s.mayCall t = true) : s.pcs t = .idle := by
  simp only [State.mayCall, Bool.and_eq_true, beq_iff_eq] at h
  exact h.1

theorem change_of_lock {t : Thread n m} (h : s.lock t = some s') : Change s (.lock t) s' := by
  simp only [State.lock] at h
  split at h
  · rename_i hholder hpc
    split at h
    · obtain rfl := Option.some.inj h
      exact .outside t .idle rfl (by rw [hpc]; rfl) nofun rfl rfl
    · obtain rfl := Option.some.inj h
      exact .lock t (.creating _) hholder rfl nofun rfl rfl
  · rename_i hholder hpc
    split at h
    · rename_i hrunning
      obtain rfl := Option.some.inj h
      exact .lock t (.stopping _) hholder rfl (fun _ ↦ ⟨rfl, hpc, hrunning⟩) rfl rfl
    · obtain rfl := Option.some.inj h
      exact .outside t .idle rfl (by rw [hpc]; rfl) nofun rfl rfl
  · cases h

theorem change_of_advance {t : Thread n m} {created : Bool} (h : s.advance t created = some s') :
    Change s (.advance t created) s' := by
  simp only [State.advance] at h
  split at h
  · rename_i hpc
    split at h <;> obtain rfl := Option.some.inj h <;>
      exact .go (by rw [hpc]; rfl) rfl (by rw [hpc]; rfl) rfl rfl
  · rename_i hpc
    obtain rfl := Option.some.inj h
    exact .unlock (by rw [hpc]; rfl) rfl rfl
  · rename_i hpc
    obtain rfl := Option.some.inj h
    exact .go (by rw [hpc]; rfl) rfl (by rw [hpc]; rfl) rfl rfl
  · rename_i hpc
    obtain rfl := Option.some.inj h
    exact .go (by rw [hpc]; rfl) rfl (by rw [hpc]; rfl) rfl rfl
  · rename_i hpc
    split at h
    · obtain rfl := Option.some.inj h
      exact .go (by rw [hpc]; rfl) rfl (by rw [hpc]; rfl) rfl rfl
    · cases h
  · rename_i hpc
    obtain rfl := Option.some.inj h
    exact .unlock (by rw [hpc]; rfl) rfl rfl
  · rename_i hpc
    obtain rfl := Option.some.inj h
    exact .go (by rw [hpc]; rfl) rfl (by rw [hpc]; rfl) rfl rfl
  · rename_i hpc
    obtain rfl := Option.some.inj h
    exact .go (by rw [hpc]; rfl) rfl (by rw [hpc]; rfl) rfl rfl
  · rename_i hpc
    split at h
    · obtain rfl := Option.some.inj h
      exact .go (by rw [hpc]; rfl) rfl (by rw [hpc]; rfl) rfl rfl
    · cases h
  · rename_i hpc
    obtain rfl := Option.some.inj h
    exact .unlock (by rw [hpc]; rfl) rfl rfl
  · cases h

theorem change_of_step (h : s.step a = some s') : Change s a s' := by
  cases a with
  | start t =>
    simp only [State.step] at h
    split at h
    · rename_i hcall
      obtain rfl := Option.some.inj h
      exact .outside t .startLocking rfl (by rw [idle_of_mayCall hcall]; rfl) nofun rfl rfl
    · cases h
  | stop t =>
    simp only [State.step] at h
    split at h
    · rename_i hcall
      obtain rfl := Option.some.inj h
      exact .outside t .stopLocking rfl (by rw [idle_of_mayCall hcall]; rfl) (fun _ ↦ rfl) rfl rfl
    · cases h
  | lock t => exact change_of_lock h
  | advance t created => exact change_of_advance h
  | callback w =>
    simp only [State.step] at h
    split at h
    · obtain rfl := Option.some.inj h
      exact .quiet rfl rfl
    · cases h
  | finish w =>
    simp only [State.step] at h
    split at h
    · obtain rfl := Option.some.inj h
      exact .quiet rfl rfl
    · cases h
  | exit w =>
    simp only [State.step] at h
    split at h
    · obtain rfl := Option.some.inj h
      exact .quiet rfl rfl
    · cases h

end Change

/-! ## Runs in which no callback waits for a stop

A callback that waits for the mutex keeps its worker from returning, and the thread that joins the
worker keeps the mutex. The condition excludes this in both orders. -/

section Runs

variable {n m : ℕ} {s s' : State n m} {a : Action n m}

/-- No callback calls `stop` while another thread is at work in `stop`, and no thread gets to work
in `stop` while the callback of another worker waits there for the mutex. -/
def StopsApart (s : State n m) : Action n m → Prop
  | .stop (.worker w) => ∀ t ∈ s.holder, t ≠ .worker w → (s.pcs t).inStop = false
  | .lock t =>
      s.pcs t = .stopLocking → s.isRunning = true →
        ∀ w, t ≠ .worker w → s.pcs (.worker w) ≠ .stopLocking
  | _ => True

instance (s : State n m) (a : Action n m) : Decidable (StopsApart s a) :=
  match a with
  | .stop (.worker w) =>
      inferInstanceAs (Decidable (∀ t ∈ s.holder, t ≠ .worker w → (s.pcs t).inStop = false))
  | .lock t =>
      inferInstanceAs (Decidable (s.pcs t = .stopLocking → s.isRunning = true →
        ∀ w, t ≠ .worker w → s.pcs (.worker w) ≠ .stopLocking))
  | .start _ | .stop (.outside _) | .advance _ _ | .callback _ | .finish _ | .exit _ =>
      .isTrue trivial

/-- A thread under the mutex is its holder, and if it is at work in `stop`, no other worker waits
there for the mutex. -/
structure Apart (s : State n m) : Prop where
  holder_eq : ∀ {t}, (s.pcs t).holds = true → s.holder = some t
  not_locking : ∀ {t}, (s.pcs t).inStop = true → ∀ w, t ≠ .worker w →
    s.pcs (.worker w) ≠ .stopLocking

theorem Pc.holds_of_inStop {pc : Pc m} (h : pc.inStop = true) : pc.holds = true := by
  cases pc with
  | stopping rest => rfl
  | joining rest => rfl
  | _ => cases h

theorem apart_init : Apart (machine n m).init := ⟨nofun, nofun⟩

theorem apart_step (h : Apart s) (hguard : StopsApart s a) (hstep : s.step a = some s') :
    Apart s' := by
  cases change_of_step hstep with
  | quiet holder_eq pcs_eq =>
    refine ⟨fun hholds ↦ ?_, fun hstop ↦ ?_⟩
    · rw [pcs_eq] at hholds
      exact holder_eq.trans (h.holder_eq hholds)
    · rw [pcs_eq] at hstop ⊢
      exact h.not_locking hstop
  | outside t pc holds_eq before_eq action_of_locking holder_eq pcs_eq =>
    have hother : ∀ {t'}, (s'.pcs t').holds = true → s'.pcs t' = s.pcs t' := by
      intro t' hholds
      rw [pcs_eq] at hholds ⊢
      have hne : t' ≠ t := by
        rintro rfl
        rw [Function.update_self, holds_eq] at hholds
        cases hholds
      exact Function.update_of_ne hne ..
    refine ⟨fun hholds ↦ ?_, fun {t'} hstop w hw hlocking ↦ ?_⟩
    · rw [hother hholds] at hholds
      exact holder_eq.trans (h.holder_eq hholds)
    · rw [hother (Pc.holds_of_inStop hstop)] at hstop
      rw [pcs_eq] at hlocking
      by_cases hself : .worker w = t
      · -- the worker has just called `stop`
        rw [hself, Function.update_self] at hlocking
        rw [action_of_locking hlocking, ← hself] at hguard
        have hfalse := hguard t' (h.holder_eq (Pc.holds_of_inStop hstop)) hw
        exact Bool.false_ne_true (hfalse.symm.trans hstop)
      · rw [Function.update_of_ne hself] at hlocking
        exact h.not_locking hstop w hw hlocking
  | lock t pc holder_before holds_eq stop_of_inStop holder_eq pcs_eq =>
    -- the mutex was free, so from now on this thread is the only one under it
    have hself : ∀ {t'}, (s'.pcs t').holds = true → t' = t := by
      intro t' hholds
      by_contra hne
      rw [pcs_eq, Function.update_of_ne hne] at hholds
      exact Option.some_ne_none t' ((h.holder_eq hholds).symm.trans holder_before)
    refine ⟨fun hholds ↦ ?_, fun hstop w hw hlocking ↦ ?_⟩
    · rw [hself hholds]
      exact holder_eq
    · obtain rfl := hself (Pc.holds_of_inStop hstop)
      rw [pcs_eq, Function.update_self] at hstop
      rw [pcs_eq, Function.update_of_ne hw.symm] at hlocking
      obtain ⟨haction, hpc, hrunning⟩ := stop_of_inStop hstop
      rw [haction] at hguard
      exact hguard hpc hrunning w hw hlocking
  | @go t pc before_holds holds_eq inStop_eq holder_eq pcs_eq =>
    have hbefore : ∀ t', (s'.pcs t').holds = (s.pcs t').holds ∧
        (s'.pcs t').inStop = (s.pcs t').inStop := by
      intro t'
      rw [pcs_eq]
      by_cases ht : t' = t
      · rw [ht, Function.update_self, inStop_eq, holds_eq, before_holds]
        exact ⟨rfl, rfl⟩
      · rw [Function.update_of_ne ht]
        exact ⟨rfl, rfl⟩
    refine ⟨fun {t'} hholds ↦ ?_, fun {t'} hstop w hw hlocking ↦ ?_⟩
    · rw [(hbefore t').1] at hholds
      exact holder_eq.trans (h.holder_eq hholds)
    · rw [(hbefore t').2] at hstop
      have hne : .worker w ≠ t := by
        rintro rfl
        rw [pcs_eq, Function.update_self] at hlocking
        rw [hlocking] at holds_eq
        cases holds_eq
      rw [pcs_eq, Function.update_of_ne hne] at hlocking
      exact h.not_locking hstop w hw hlocking
  | @unlock t before_holds holder_eq pcs_eq =>
    have hnone : ∀ t', (s'.pcs t').holds = false := by
      intro t'
      rw [pcs_eq]
      by_cases ht : t' = t
      · rw [ht, Function.update_self]
        rfl
      · rw [Function.update_of_ne ht]
        refine Bool.eq_false_iff.mpr fun hholds ↦ ht ?_
        exact Option.some.inj ((h.holder_eq hholds).symm.trans (h.holder_eq before_holds))
    refine ⟨fun {t'} hholds ↦ ?_, fun {t'} hstop ↦ ?_⟩
    · exact absurd hholds (Bool.eq_false_iff.mp (hnone t'))
    · exact absurd (Pc.holds_of_inStop hstop) (Bool.eq_false_iff.mp (hnone t'))

/-- **No deadlock as long as the calls of `stop` stay apart.** In every run in which no callback
calls `stop` while another thread is at work in `stop`, and no thread gets to work there while the
callback of another worker waits for the mutex, `stop` never waits for a worker that waits for
it. -/
theorem not_deadlocked (h : (machine n m).ReachableWhen StopsApart s) : ¬Deadlocked s := by
  have hapart : Apart s :=
    Machine.Leads.invariant h apart_init fun hs hguard hstep ↦ apart_step hs hguard hstep
  rintro ⟨t, w, rest, -, hjoining, hw, hlocking⟩
  exact hapart.not_locking (by rw [hjoining]; rfl) w hw hlocking

end Runs

/-- Two workers: the callback of the first stops the reactor, detaches itself and joins the
second. -/
theorem not_deadlocked_detached :
    ∃ s : State 1 2, (machine 1 2).ReachableWhen StopsApart s ∧
      (s.pcs (.worker 0) = .joining [1] ∧ s.workers 0 = .callback) ∧ ¬Deadlocked s := by
  obtain ⟨s, hs, hfinal⟩ := Machine.exists_reachableWhen_of_run (M := machine 1 2) (C := StopsApart)
    (fun s ↦ (s.pcs (.worker 0), s.workers 0))
    [.start (.outside 0), .lock (.outside 0), .advance (.outside 0) true,
      .advance (.outside 0) true, .advance (.outside 0) true, .callback 0, .stop (.worker 0),
      .lock (.worker 0), .advance (.worker 0) true, .advance (.worker 0) true,
      .advance (.worker 0) true, .advance (.worker 0) true]
    (b := (.joining [1], .callback)) (by decide +kernel)
  exact ⟨s, hs, Prod.mk.inj hfinal, not_deadlocked hs⟩

/-- A callback calls `stop` while the reactor is stopped from outside. -/
theorem deadlocked_of_callback : ∃ s : State 1 1, (machine 1 1).Reachable s ∧ Deadlocked s := by
  obtain ⟨s, hs, hfinal⟩ := Machine.exists_reachable_of_run (M := machine 1 1)
    (fun s ↦ (s.holder, s.pcs (.outside 0), s.pcs (.worker 0)))
    [.start (.outside 0), .lock (.outside 0), .advance (.outside 0) true,
      .advance (.outside 0) true, .callback 0, .stop (.outside 0), .lock (.outside 0),
      .stop (.worker 0), .advance (.outside 0) true, .advance (.outside 0) true]
    (b := (some (.outside 0), .joining [0], .stopLocking)) (by decide +kernel)
  simp only [Prod.mk.injEq] at hfinal
  obtain ⟨hholder, hjoining, hlocking⟩ := hfinal
  exact ⟨s, hs, .outside 0, 0, [], hholder, hjoining, nofun, hlocking⟩

end Lifecycle

end MultiThreadReactor

end FoundationComponents
