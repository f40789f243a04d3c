import FoundationComponents.Linearizability.Basic
import FoundationComponents.RingBuffer.Monitor
import FoundationComponents.RingBuffer.Refinement

/-!
# The ring buffer is linearizable

The bodies of the operations run under the mutex, so an operation takes effect in the section that
runs its body. It has been called before, and may have waited several times; and it returns later,
after it has sent its notifications, which other sections can come before.

For the history a thread needs the variable in which its operation keeps the result while it sends
the notifications. Apart from that the runs are those of the monitor.
-/

namespace FoundationComponents

namespace RingBuffer

open Linearizability (Spec Status Moves Linearizable)

/-! ## Calls and returns

A monitor does not show what its operations return. The variables of the threads keep it from the
section that runs the body to the return. -/

/-- The operation as it was called: the time of its wait was not up. -/
def Call.called {α : Type*} : Call α → Call α
  | .waitPushFor value _ => .waitPushFor value false
  | .waitPopFor _ => .waitPopFor false
  | call => call

/-- The operation that a thread in front of the mutex is going to run there, unless it has to
wait. -/
def Monitor.body {α : Type*} {n : ℕ} (s : Monitor α n) (t : Fin n) : Option (Call α) :=
  match s.threads t with
  | .entering call | .woken call => if s.buffer.ring.enabled call then some call else none
  | _ => none

def Pc.isOutside {α : Type*} : Pc α → Bool
  | .outside => true
  | _ => false

/-- The monitor, and for every thread the local variable with the result of its operation. -/
structure Traced (α : Type*) (n : ℕ) where
  monitor : Monitor α n
  results : Fin n → Outcome α

namespace Traced

variable {α : Type*} {n : ℕ} (s : Traced α n)

/-- A section that runs a body sets the variable of its thread. -/
def step (a : Action α n) : Option (Traced α n) :=
  (s.monitor.step a).map fun monitor ↦
    { monitor := monitor
      results := match a with
        | .enter t =>
            match s.monitor.body t with
            | some call =>
                Function.update s.results t (s.monitor.buffer.ring.exec call).outcome
            | none => s.results
        | _ => s.results }

/-- An operation returns when its section has been left and all notifications have been sent. -/
def events (a : Action α n) : List (Linearizability.Event (Fin n) (Call α) (Outcome α)) :=
  match a with
  | .call t call => [.call t call]
  | .enter t | .notify t _ =>
      match s.step a with
      | some s' => if (s'.monitor.threads t).isOutside then [.ret t (s'.results t)] else []
      | none => []
  | _ => []

end Traced

/-- `n` threads sharing a new buffer, with their results. -/
def tracedMachine (α : Type*) (capacity : ℕ) (fullPolicy : FullPolicy) (n : ℕ) :
    Machine (Traced α n) (Action α n) where
  init := ⟨(monitorMachine α capacity fullPolicy n).init, fun _ ↦ .done⟩
  step := Traced.step

/-- The bounded queue as a sequential object. A timed operation may find its time up at once. -/
def fifoSpec (α : Type*) (capacity : ℕ) (fullPolicy : FullPolicy) :
    Spec (Fifo α) (Call α) (Outcome α) where
  init := ⟨[], false⟩
  step f call outcome f' := ∃ now : Call α, now.called = call ∧
    f.mustWait capacity fullPolicy now = false ∧
    outcome = (f.exec capacity fullPolicy now).2.1 ∧ f' = (f.exec capacity fullPolicy now).1

/-! ## Statuses

How far an operation is can be read off the position of its thread and its variable. A notification
moves other threads, but none of them past a section. -/

section Status

variable {α : Type*} {n : ℕ} {capacity : ℕ} {fullPolicy : FullPolicy}

/-- The operation of a thread takes effect in its section. -/
def Pc.status : Pc α → Outcome α → Status (Call α) (Outcome α)
  | .outside, _ => .idle
  | .entering call, _ | .blocked call, _ | .woken call, _ => .pending call.called
  | .notifying _ _, result => .effective result

def statuses (threads : Fin n → Pc α) (results : Fin n → Outcome α) (t : Fin n) :
    Status (Call α) (Outcome α) :=
  (threads t).status (results t)

private theorem called_of_isFresh {call : Call α} (h : call.isFresh = true) :
    call.called = call := by
  cases call with
  | waitPushFor value timedOut | waitPopFor timedOut =>
    cases timedOut with
    | false => rfl
    | true => cases h
  | _ => rfl

private theorem called_of_expire {call expired : Call α} (h : call.expire = some expired) :
    expired.called = call.called := by
  rw [Call.expire.eq_def] at h
  split at h
  · rw [← Option.some.inj h]
    rfl
  · rw [← Option.some.inj h]
    rfl
  · cases h

private theorem status_wake (k : Condition) (pc : Pc α) (result : Outcome α) :
    (pc.wake k).status result = pc.status result := by
  cases pc with
  | blocked call =>
    rw [Pc.wake]
    split <;> rfl
  | _ => rfl

private theorem status_notified {threads threads' : Fin n → Pc α} {next : Notification}
    {target : Option (Fin n)} (h : Monitor.notified threads next target = some threads')
    (t : Fin n) (result : Outcome α) : (threads' t).status result = (threads t).status result := by
  cases target with
  | none =>
    simp only [Monitor.notified] at h
    split at h
    · obtain rfl := Option.some.inj h
      exact status_wake _ _ _
    · split at h
      · obtain rfl := Option.some.inj h
        rfl
      · cases h
  | some u =>
    simp only [Monitor.notified] at h
    split at h
    · obtain rfl := Option.some.inj h
      by_cases htu : t = u
      · rw [htu, Function.update_self, status_wake]
      · rw [Function.update_of_ne htu]
    · cases h

private theorem threads_notified_self {threads threads' : Fin n → Pc α} {t : Fin n}
    {rest : List Notification} {next : Notification} {target : Option (Fin n)}
    (h : Monitor.notified (Function.update threads t (.returning rest)) next target =
      some threads') : threads' t = .returning rest := by
  cases target with
  | none =>
    simp only [Monitor.notified] at h
    split at h
    · obtain rfl := Option.some.inj h
      dsimp only
      rw [Function.update_self]
      cases rest <;> rfl
    · split at h
      · obtain rfl := Option.some.inj h
        rw [Function.update_self]
      · cases h
  | some u =>
    simp only [Monitor.notified] at h
    split at h
    · rename_i hblocked
      obtain rfl := Option.some.inj h
      have hne : t ≠ u := by
        rintro rfl
        rw [Function.update_self] at hblocked
        cases rest <;> cases hblocked.2
      rw [Function.update_of_ne hne, Function.update_self]
    · cases h

private theorem statuses_set (threads : Fin n → Pc α) (results : Fin n → Outcome α) (t : Fin n)
    (pc : Pc α) (result : Outcome α) :
    statuses (Function.update threads t pc) (Function.update results t result) =
      Function.update (statuses threads results) t (pc.status result) :=
  funext (Function.apply_update₂ (fun _ ↦ Pc.status) threads results t pc result)

private theorem statuses_update (threads : Fin n → Pc α) (results : Fin n → Outcome α) (t : Fin n)
    (pc : Pc α) : statuses (Function.update threads t pc) results =
      Function.update (statuses threads results) t (pc.status (results t)) :=
  funext (Function.apply_update (fun u pc ↦ pc.status (results u)) threads t pc)

private theorem statuses_update_of_eq {threads : Fin n → Pc α} {results : Fin n → Outcome α}
    {t : Fin n} {pc : Pc α} (h : pc.status (results t) = (threads t).status (results t)) :
    statuses (Function.update threads t pc) results = statuses threads results := by
  rw [statuses_update, h]
  exact Function.update_eq_self t (statuses threads results)

end Status

/-! ## The steps -/

section Steps

variable {α : Type*} {n : ℕ} {capacity : ℕ} {fullPolicy : FullPolicy} {s s' : Traced α n}
  {f : Fifo α}

/-- The book-keeping can follow a step with these events. -/
def CanFollow (capacity : ℕ) (fullPolicy : FullPolicy) (f : Fifo α) (s s' : Traced α n)
    (events : List (Linearizability.Event (Fin n) (Call α) (Outcome α))) : Prop :=
  ∃ f' statuses', Moves (fifoSpec α capacity fullPolicy)
      (f, statuses s.monitor.threads s.results) events (f', statuses') ∧
    Represents capacity fullPolicy s'.monitor.buffer.ring f' ∧
    statuses' = statuses s'.monitor.threads s'.results

private theorem canFollow_quiet (h : Represents capacity fullPolicy s.monitor.buffer.ring f)
    {threads : Fin n → Pc α}
    (hsame : statuses threads s.results = statuses s.monitor.threads s.results) :
    CanFollow capacity fullPolicy f s
      { s with monitor := { s.monitor with threads := threads } } [] :=
  ⟨f, _, .refl, h, hsame.symm⟩

/-- A section that runs its body: the operation takes effect. -/
theorem moves_body (hcap : 1 ≤ capacity)
    (h : Represents capacity fullPolicy s.monitor.buffer.ring f) {t : Fin n} {call : Call α}
    (ht : s.monitor.threads t = .entering call ∨ s.monitor.threads t = .woken call)
    (henabled : s.monitor.buffer.ring.enabled call = true) :
    ∃ f', Represents capacity fullPolicy (s.monitor.buffer.ring.exec call).ring f' ∧
      Moves (fifoSpec α capacity fullPolicy) (f, statuses s.monitor.threads s.results) []
        (f', Function.update (statuses s.monitor.threads s.results) t
          (.effective (s.monitor.buffer.ring.exec call).outcome)) := by
  obtain ⟨hrep, houtcome, -⟩ := matches_exec hcap h call
  have hpending : statuses s.monitor.threads s.results t = .pending call.called := by
    rw [statuses]
    rcases ht with ht | ht <;> rw [ht] <;> rfl
  rw [enabled_eq h, Bool.not_eq_true'] at henabled
  exact ⟨_, hrep, Moves.refl.effect hpending ⟨call, rfl, henabled, houtcome, rfl⟩⟩

theorem step_outside {a : Action α n} (ha : ∀ t, a ≠ .enter t) (hstep : s.step a = some s') :
    ∃ monitor, s.monitor.step a = some monitor ∧ s' = { s with monitor := monitor } := by
  obtain ⟨monitor, hmonitor, rfl⟩ := Option.map_eq_some_iff.mp hstep
  refine ⟨monitor, hmonitor, ?_⟩
  cases a with
  | enter t => exact absurd rfl (ha t)
  | _ => rfl

theorem step_enter {t : Fin n} {call : Call α}
    (ht : s.monitor.threads t = .entering call ∨ s.monitor.threads t = .woken call) :
    (s.monitor.buffer.ring.enabled call = true ∧ ∃ buffer,
      buffer.ring = (s.monitor.buffer.ring.exec call).ring ∧
      s.step (.enter t) = some
        { monitor :=
            { buffer := buffer
              threads := Function.update s.monitor.threads t
                (.returning (call.notifications (s.monitor.buffer.ring.exec call).outcome)) }
          results := Function.update s.results t (s.monitor.buffer.ring.exec call).outcome }) ∨
      s.step (.enter t) = some { s with monitor := s.monitor.goto t (.blocked call) } := by
  have hstep : s.monitor.step (.enter t) = some (s.monitor.enter t call) := by
    simp only [Monitor.step]
    rcases ht with ht | ht <;> rw [ht]
  have hbody : s.monitor.body t =
      if s.monitor.buffer.ring.enabled call then some call else none := by
    simp only [Monitor.body]
    rcases ht with ht | ht <;> rw [ht]
  rw [Traced.step, hstep, Option.map_some, Monitor.enter, System.step, hbody]
  by_cases henabled : s.monitor.buffer.ring.enabled call = true
  · rw [if_pos henabled, if_pos henabled]
    exact Or.inl ⟨henabled, _, rfl, rfl⟩
  · rw [if_neg henabled, if_neg henabled]
    exact Or.inr rfl

/-- An operation whose thread has left it returns its result; otherwise it has taken effect and is
sending notifications. -/
theorem canFollow_left {t : Fin n} (f' : Fifo α) (threads : Fin n → Pc α)
    {notifications : List Notification}
    (hrep : Represents capacity fullPolicy s'.monitor.buffer.ring f')
    (hmoves : Moves (fifoSpec α capacity fullPolicy) (f, statuses s.monitor.threads s.results) []
      (f', Function.update (statuses threads s'.results) t (.effective (s'.results t))))
    (hthreads : statuses s'.monitor.threads s'.results =
      statuses (Function.update threads t (.returning notifications)) s'.results)
    (ht : s'.monitor.threads t = .returning notifications) :
    CanFollow capacity fullPolicy f s s'
      (if (s'.monitor.threads t).isOutside then [.ret t (s'.results t)] else []) := by
  rw [ht]
  cases notifications with
  | nil =>
    refine ⟨f', _, hmoves.ret (t := t) (Function.update_self ..), hrep, ?_⟩
    rw [hthreads, statuses_update, Function.update_idem]
    rfl
  | cons next rest =>
    refine ⟨f', _, hmoves, hrep, ?_⟩
    rw [hthreads, statuses_update]
    rfl

theorem canFollow_enter (hcap : 1 ≤ capacity)
    (h : Represents capacity fullPolicy s.monitor.buffer.ring f) {t : Fin n} {call : Call α}
    (ht : s.monitor.threads t = .entering call ∨ s.monitor.threads t = .woken call)
    (hstep : s.step (.enter t) = some s') :
    CanFollow capacity fullPolicy f s s' (s.events (.enter t)) := by
  simp only [Traced.events, hstep]
  rcases step_enter ht with ⟨henabled, buffer, hbuffer, hbody⟩ | hwait
  · obtain rfl := Option.some.inj (hbody.symm.trans hstep)
    obtain ⟨f', hrep, hmoves⟩ := moves_body hcap h ht henabled
    refine canFollow_left f' s.monitor.threads ?_ ?_ rfl (Function.update_self ..)
    · dsimp only
      rwa [hbuffer]
    · dsimp only
      rw [Function.update_self]
      have hupdate := statuses_set s.monitor.threads s.results t (s.monitor.threads t)
        (s.monitor.buffer.ring.exec call).outcome
      rw [Function.update_eq_self] at hupdate
      rwa [hupdate, Function.update_idem]
  · obtain rfl := Option.some.inj (hwait.symm.trans hstep)
    have hblocked : ((s.monitor.goto t (.blocked call)).threads t).isOutside = false := by
      rw [Monitor.goto]
      dsimp only
      rw [Function.update_self]
      rfl
    rw [hblocked, if_neg Bool.false_ne_true]
    refine canFollow_quiet h (statuses_update_of_eq ?_)
    rcases ht with ht | ht <;> rw [ht] <;> rfl

private theorem canFollow_notify (h : Represents capacity fullPolicy s.monitor.buffer.ring f)
    {t : Fin n} {target : Option (Fin n)} (hstep : s.step (.notify t target) = some s') :
    CanFollow capacity fullPolicy f s s' (s.events (.notify t target)) := by
  simp only [Traced.events, hstep]
  obtain ⟨monitor, hmonitor, rfl⟩ := step_outside (fun _ heq ↦ by cases heq) hstep
  simp only [Monitor.step] at hmonitor
  split at hmonitor
  · rename_i next rest ht
    obtain ⟨threads, hthreads, rfl⟩ := Option.map_eq_some_iff.mp hmonitor
    have hsame : statuses threads s.results =
        statuses (Function.update s.monitor.threads t (.returning rest)) s.results :=
      funext fun u ↦ status_notified hthreads u _
    have hreturning : threads t = .returning rest := threads_notified_self hthreads
    refine canFollow_left f s.monitor.threads h ?_ hsame hreturning
    have heffective : statuses s.monitor.threads s.results t = .effective (s.results t) := by
      rw [statuses, ht]
      rfl
    dsimp only
    rw [← heffective, Function.update_eq_self]
    exact .refl
  · cases hmonitor

theorem canFollow_step (hcap : 1 ≤ capacity)
    (h : Represents capacity fullPolicy s.monitor.buffer.ring f) {a : Action α n}
    (hstep : s.step a = some s') : CanFollow capacity fullPolicy f s s' (s.events a) := by
  cases a with
  | call t call =>
    obtain ⟨monitor, hmonitor, rfl⟩ := step_outside (fun _ heq ↦ by cases heq) hstep
    simp only [Monitor.step] at hmonitor
    split at hmonitor
    · rename_i ht
      split at hmonitor
      · rename_i hfresh
        obtain rfl := Option.some.inj hmonitor
        have hidle : statuses s.monitor.threads s.results t = .idle := by
          rw [statuses, ht]
          rfl
        refine ⟨f, _, Moves.refl.call call hidle, h, ?_⟩
        refine Eq.trans ?_ (statuses_update s.monitor.threads s.results t _).symm
        rw [Pc.status, called_of_isFresh hfresh]
      · cases hmonitor
    · cases hmonitor
  | enter t =>
    obtain ⟨monitor, hmonitor, -⟩ := Option.map_eq_some_iff.mp hstep
    simp only [Monitor.step] at hmonitor
    split at hmonitor
    · rename_i call ht
      exact canFollow_enter hcap h (Or.inl ht) hstep
    · rename_i call ht
      exact canFollow_enter hcap h (Or.inr ht) hstep
    · cases hmonitor
  | wakeSpuriously t =>
    obtain ⟨monitor, hmonitor, rfl⟩ := step_outside (fun _ heq ↦ by cases heq) hstep
    simp only [Monitor.step] at hmonitor
    split at hmonitor
    · rename_i call ht
      obtain rfl := Option.some.inj hmonitor
      refine canFollow_quiet h (statuses_update_of_eq ?_)
      rw [ht]
      rfl
    · cases hmonitor
  | expire t =>
    obtain ⟨monitor, hmonitor, rfl⟩ := step_outside (fun _ heq ↦ by cases heq) hstep
    simp only [Monitor.step] at hmonitor
    split at hmonitor
    · rename_i call ht
      obtain ⟨expired, hexpired, rfl⟩ := Option.map_eq_some_iff.mp hmonitor
      refine canFollow_quiet h (statuses_update_of_eq ?_)
      rw [ht, Pc.status, Pc.status, called_of_expire hexpired]
    · cases hmonitor
  | notify t target => exact canFollow_notify h hstep

/-- **The buffer is linearizable.** For any capacity the constructor accepts, both policies, any
number of threads and any interleaving of their sections, notifications and wake-ups, the calls and
returns are those of a bounded first-in first-out queue whose operations come one after the other,
each of them between its call and its return. -/
theorem monitor_linearizable (hcap : 1 ≤ capacity) {labels : List (Action α n)}
    (h : (tracedMachine α capacity fullPolicy n).run
      (tracedMachine α capacity fullPolicy n).init labels = some s) :
    Linearizable (fifoSpec α capacity fullPolicy)
      ((tracedMachine α capacity fullPolicy n).outputs Traced.events
        (tracedMachine α capacity fullPolicy n).init labels) := by
  refine Linearizability.linearizable_of_simulation (R := fun s f statuses' ↦
    Represents capacity fullPolicy s.monitor.buffer.ring f ∧
      statuses' = statuses s.monitor.threads s.results) h ⟨.fresh_nil hcap, rfl⟩ ?_
  rintro u f _ a v - ⟨hrep, rfl⟩ huv
  exact canFollow_step hcap hrep huv

end Steps

/-- A `waitPop` blocks on an empty buffer, and returns the value that another thread pushes before
that thread has returned. -/
theorem monitor_linearizable_handover : Linearizable (fifoSpec ℕ 1 .reject)
    [.call (0 : Fin 2) .waitPop, .call 1 (.tryPush 7), .ret 0 (.popped 7),
      .ret 1 (.pushed true)] := by
  let M := tracedMachine ℕ 1 .reject 2
  let labels : List (Action ℕ 2) :=
    [.call 0 .waitPop, .enter 0, .call 1 (.tryPush 7), .enter 1, .wakeSpuriously 0, .enter 0,
      .notify 0 none, .notify 1 none]
  have hrun : (M.run M.init labels).isSome = true := by decide +kernel
  obtain ⟨s, hs⟩ := Option.isSome_iff_exists.mp hrun
  have houtputs : M.outputs Traced.events M.init labels =
      [.call 0 .waitPop, .call 1 (.tryPush 7), .ret 0 (.popped 7), .ret 1 (.pushed true)] := by
    decide +kernel
  rw [← houtputs]
  exact monitor_linearizable le_rfl hs

end RingBuffer

end FoundationComponents
