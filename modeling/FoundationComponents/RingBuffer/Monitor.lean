import FoundationComponents.RingBuffer.Basic

/-!
# The ring buffer as a monitor

The bodies of the operations are run by threads. A thread takes the mutex, evaluates its predicate
if it has one, and either runs its body or blocks; all this is one section, since a wait releases
the mutex only after it has blocked. What an operation has to notify it notifies after it has
unlocked, so every notification is a step of its own and other sections may come before it.

A blocked thread leaves its wait when it is notified, when its time is up, or for no reason. It is
then *woken* and has to take the mutex again and evaluate its predicate.

The buffer of the monitor is moved by the same step as in the sequential machine, so what is proved
of that machine's reachable states holds under any interleaving.
-/

namespace FoundationComponents

namespace RingBuffer

/-- The two condition variables. -/
inductive Condition
  | notEmpty
  | notFull
  deriving Repr, DecidableEq

/-- A `notify_one`, or a `notify_all`. -/
structure Notification where
  condition : Condition
  all : Bool
  deriving Repr, DecidableEq

section Call

variable {α : Type*}

/-- The condition variable that an operation may wait on. -/
def Call.waitsOn : Call α → Option Condition
  | .waitPush _ | .waitPushFor _ _ => some .notFull
  | .waitPop | .waitPopFor _ => some .notEmpty
  | _ => none

/-- The time of a timed wait is up. -/
def Call.expire : Call α → Option (Call α)
  | .waitPushFor value false => some (.waitPushFor value true)
  | .waitPopFor false => some (.waitPopFor true)
  | _ => none

/-- The operation as it is called. -/
def Call.isFresh : Call α → Bool
  | .waitPushFor _ timedOut | .waitPopFor timedOut => !timedOut
  | _ => true

/-- What an operation notifies after it has unlocked. -/
def Call.notifications (outcome : Outcome α) : Call α → List Notification
  | .tryPush _ | .waitPush _ | .waitPushFor _ _ =>
      if outcome.isAccepted then [⟨.notEmpty, false⟩] else []
  | .tryPop | .waitPop | .waitPopFor _ =>
      match outcome with
      | .nullopt => []
      | _ => [⟨.notFull, false⟩]
  | .close => [⟨.notEmpty, true⟩, ⟨.notFull, true⟩]
  | .clear => [⟨.notFull, true⟩]

end Call

/-- Where a thread is. -/
inductive Pc (α : Type*)
  | outside
  /-- In front of the mutex. -/
  | entering (call : Call α)
  /-- Blocked in its wait, neither notified nor timed out. -/
  | blocked (call : Call α)
  /-- Has left its wait; the predicate has to be evaluated again. -/
  | woken (call : Call α)
  /-- Has unlocked; in front of a notification, with others to follow. -/
  | notifying (next : Notification) (rest : List Notification)
  deriving Repr, DecidableEq

namespace Pc

variable {α : Type*}

/-- After the section of an operation, with its notifications to send. -/
def returning : List Notification → Pc α
  | [] => .outside
  | next :: rest => .notifying next rest

/-- Blocked on the condition variable. -/
def isBlockedOn (k : Condition) : Pc α → Bool
  | .blocked call => decide (call.waitsOn = some k)
  | _ => false

/-- The thread is notified if it is blocked on the condition variable. -/
def wake (k : Condition) : Pc α → Pc α
  | .blocked call => if call.waitsOn = some k then .woken call else .blocked call
  | pc => pc

end Pc

/-- The buffer and the threads. -/
structure Monitor (α : Type*) (n : ℕ) where
  buffer : System α
  threads : Fin n → Pc α

/-- A thread calls an operation, takes the mutex, leaves its wait (for no reason, or because its
time is up), or sends its next notification, which for a `notify_one` wakes the given thread. -/
inductive Action (α : Type*) (n : ℕ)
  | call (t : Fin n) (call : Call α)
  | enter (t : Fin n)
  | wakeSpuriously (t : Fin n)
  | expire (t : Fin n)
  | notify (t : Fin n) (target : Option (Fin n))
  deriving Repr, DecidableEq

namespace Monitor

variable {α : Type*} {n : ℕ} (s : Monitor α n)

def goto (t : Fin n) (pc : Pc α) : Monitor α n :=
  { s with threads := Function.update s.threads t pc }

/-- The section of an operation: its body, or the start of its wait. -/
def enter (t : Fin n) (call : Call α) : Monitor α n :=
  match s.buffer.step call with
  | some buffer =>
      { buffer := buffer
        threads := Function.update s.threads t
          (.returning (call.notifications (s.buffer.ring.exec call).outcome)) }
  | none => s.goto t (.blocked call)

/-- The threads after a notification. `notify_one` wakes one blocked thread, and none only if no
thread is blocked. -/
def notified (threads : Fin n → Pc α) (next : Notification) :
    Option (Fin n) → Option (Fin n → Pc α)
  | none =>
      if next.all then some fun t ↦ (threads t).wake next.condition
      else if ∀ t, (threads t).isBlockedOn next.condition = false then some threads
      else none
  | some target =>
      if next.all = false ∧ (threads target).isBlockedOn next.condition = true then
        some (Function.update threads target ((threads target).wake next.condition))
      else none

/-- The interleaving semantics. -/
def step : Action α n → Option (Monitor α n)
  | .call t call =>
      match s.threads t with
      | .outside => if call.isFresh then some (s.goto t (.entering call)) else none
      | _ => none
  | .enter t =>
      match s.threads t with
      | .entering call | .woken call => some (s.enter t call)
      | _ => none
  | .wakeSpuriously t =>
      match s.threads t with
      | .blocked call => some (s.goto t (.woken call))
      | _ => none
  | .expire t =>
      match s.threads t with
      | .blocked call => call.expire.map fun expired ↦ s.goto t (.woken expired)
      | _ => none
  | .notify t target =>
      match s.threads t with
      | .notifying next rest =>
          (notified (Function.update s.threads t (.returning rest)) next target).map fun threads ↦
            { s with threads := threads }
      | _ => none

end Monitor

/-- `n` threads sharing a new buffer. -/
def monitorMachine (α : Type*) (capacity : ℕ) (fullPolicy : FullPolicy) (n : ℕ) :
    Machine (Monitor α n) (Action α n) where
  init := { buffer := (machine α capacity fullPolicy).init, threads := fun _ ↦ .outside }
  step := Monitor.step

section Steps

variable {α : Type*} {n : ℕ} {capacity : ℕ} {fullPolicy : FullPolicy}

/-- What a step of the monitor can be. -/
inductive Stepped (s : Monitor α n) : Monitor α n → Prop
  /-- a thread that holds nothing moves without the mutex -/
  | call (t : Fin n) (call : Call α) :
      s.threads t = .outside → Stepped s (s.goto t (.entering call))
  /-- a section runs its body -/
  | body (t : Fin n) (call : Call α) (buffer : System α) :
      s.threads t = .entering call ∨ s.threads t = .woken call →
      s.buffer.step call = some buffer →
      Stepped s
        { buffer := buffer
          threads := Function.update s.threads t
            (.returning (call.notifications (s.buffer.ring.exec call).outcome)) }
  /-- a section finds its predicate false -/
  | block (t : Fin n) (call : Call α) :
      s.threads t = .entering call ∨ s.threads t = .woken call →
      s.buffer.ring.enabled call = false → Stepped s (s.goto t (.blocked call))
  /-- a thread leaves its wait without a notification -/
  | leave (t : Fin n) (call call' : Call α) : s.threads t = .blocked call →
      call'.waitsOn = call.waitsOn → Stepped s (s.goto t (.woken call'))
  | notify (t : Fin n) (next : Notification) (rest : List Notification) (target : Option (Fin n))
      (threads : Fin n → Pc α) : s.threads t = .notifying next rest →
      Monitor.notified (Function.update s.threads t (.returning rest)) next target = some threads →
      Stepped s { s with threads := threads }

private theorem waitsOn_of_expire {call expired : Call α} (h : call.expire = some expired) :
    expired.waitsOn = call.waitsOn := by
  rw [Call.expire.eq_def] at h
  split at h
  · rw [← Option.some.inj h]
    rfl
  · rw [← Option.some.inj h]
    rfl
  · cases h

theorem stepped_enter (s : Monitor α n) {t : Fin n} {call : Call α}
    (ht : s.threads t = .entering call ∨ s.threads t = .woken call) :
    Stepped s (s.enter t call) := by
  rw [Monitor.enter]
  split
  · rename_i buffer hbody
    exact .body t call buffer ht hbody
  · rename_i hbody
    refine .block t call ht ?_
    rw [System.step] at hbody
    split at hbody
    · cases hbody
    · rename_i hfalse
      exact Bool.not_eq_true _ ▸ hfalse

theorem stepped_of_step {s s' : Monitor α n} {a : Action α n} (h : s.step a = some s') :
    Stepped s s' := by
  cases a with
  | call t call =>
    simp only [Monitor.step] at h
    split at h
    · rename_i ht
      split at h
      · obtain rfl := Option.some.inj h
        exact .call t call ht
      · cases h
    · cases h
  | enter t =>
    simp only [Monitor.step] at h
    split at h
    · rename_i call ht
      obtain rfl := Option.some.inj h
      exact stepped_enter s (Or.inl ht)
    · rename_i call ht
      obtain rfl := Option.some.inj h
      exact stepped_enter s (Or.inr ht)
    · cases h
  | wakeSpuriously t =>
    simp only [Monitor.step] at h
    split at h
    · rename_i call ht
      obtain rfl := Option.some.inj h
      exact .leave t call call ht rfl
    · cases h
  | expire t =>
    simp only [Monitor.step] at h
    split at h
    · rename_i call ht
      obtain ⟨expired, hexpired, rfl⟩ := Option.map_eq_some_iff.mp h
      exact .leave t call expired ht (waitsOn_of_expire hexpired)
    · cases h
  | notify t target =>
    simp only [Monitor.step] at h
    split at h
    · rename_i next rest ht
      obtain ⟨threads, hthreads, rfl⟩ := Option.map_eq_some_iff.mp h
      exact .notify t next rest target threads ht hthreads
    · cases h

/-- **Any interleaving is a sequence of bodies.** The buffer of the monitor is one that the
sequential machine reaches. -/
theorem reachable_buffer {s : Monitor α n}
    (h : (monitorMachine α capacity fullPolicy n).Reachable s) :
    (machine α capacity fullPolicy).Reachable s.buffer := by
  induction h with
  | refl => exact Machine.Leads.refl
  | step _ _ hstep ih =>
    cases stepped_of_step hstep with
    | body t call buffer _ hbody => exact ih.step trivial hbody
    | call | block | leave | notify => exact ih

end Steps

end RingBuffer

end FoundationComponents
