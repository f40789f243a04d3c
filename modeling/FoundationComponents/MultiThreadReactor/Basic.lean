import Mathlib.Algebra.Order.Ring.Nat
import Mathlib.Data.Nat.Notation
import Mathlib.Logic.Function.Basic
import FoundationComponents.Machine.Basic
import FoundationComponents.Reactor.Watchers

/-!
# The multi-threaded reactor

`MultiThreadReactor` spreads descriptors over `m` event loops. The map `owners` says which loop a
descriptor belongs to; it has a mutex of its own, so every operation is made of two critical
sections: one on `owners`, and one on the watcher table of a loop. Nothing is held in between.

A call is modelled by its sections. `begin` is the first of them and `advance` the next one, given
the position of the thread; each is a function of the shared state and says whether the call replies
or goes on. The machine interleaves the sections of `n` threads. What the worker threads do on their
own is the copying of ready callbacks; the callbacks themselves are calls like all others.
-/

namespace FoundationComponents

namespace MultiThreadReactor

open Reactor

/-! ## The shared state

`owners`, the table of a loop and `next_loop` are changed in different sections. A position keeps
what a call has read in the sections before. -/

/-- The fields of `State`. The mutex of `start` and `stop` is held while worker threads are created;
`next_loop` is a 64-bit counter. -/
structure State (κ : Type*) (m : ℕ) where
  loops : Fin m → Table κ
  owners : ℤ → Option (Fin m)
  nextLoop : ℕ
  isRunning : Bool
  stoppedAfterStart : Bool
  lifecycleHeld : Bool

/-- The calls of the reactor; an empty callback is `none`. -/
inductive Call (κ : Type*)
  | start
  | stop
  | add (fd : ℤ) (events : UInt32) (callback : Option κ)
  | modify (fd : ℤ) (events : UInt32)
  | remove (fd : ℤ)
  deriving Repr, DecidableEq

/-- What a call returns or throws. -/
inductive Reply (m : ℕ)
  | done
  | added (loop : Fin m)
  | removed (result : Bool)
  | threw (exception : Exception)
  deriving Repr, DecidableEq

/-- Where a thread is: outside, or in front of a section. -/
inductive Pc (κ : Type*) (m : ℕ)
  | idle
  /-- Creating the worker threads. -/
  | starting
  /-- The arguments are checked; the loop is to be chosen. -/
  | addIndex (fd : ℤ) (events : UInt32) (callback : κ)
  | addOwner (fd : ℤ) (events : UInt32) (callback : κ) (loop : Fin m)
  | addLoop (fd : ℤ) (events : UInt32) (callback : κ) (loop : Fin m)
  /-- In the catch block. -/
  | addRollback (fd : ℤ) (loop : Fin m) (exception : Exception)
  | modifyLoop (fd : ℤ) (events : UInt32) (loop : Fin m)
  | removeLoop (fd : ℤ) (loop : Fin m)
  deriving Repr, DecidableEq

/-- After a section the call replies, or continues. -/
inductive Next (κ : Type*) (m : ℕ)
  | reply (reply : Reply m)
  | continue (pc : Pc κ m)

namespace State

variable {κ : Type*} {m : ℕ} (s : State κ m)

/-- `stop` of every loop: its thread is woken. -/
def stopLoops : State κ m :=
  { s with loops := fun i ↦ { s.loops i with wakeCount := (s.loops i).wakeCount + 1 } }

/-- The checks of `add`. -/
def checkAdd (fd : ℤ) (callback : Option κ) : Except Exception κ :=
  if fd < 0 then .error (.invalidArgument "MultiThreadReactor cannot add a negative fd")
  else match callback with
    | none => .error (.invalidArgument "MultiThreadReactor callback cannot be empty")
    | some callback =>
        if s.isRunning then .ok callback
        else .error (.runtimeError "MultiThreadReactor must be started before add")

/-- The section of `add` on `owners`. -/
def claimOwner (fd : ℤ) (loop : Fin m) : Except Exception Unit × State κ m :=
  if (s.owners fd).isSome then
    (.error (.invalidArgument "MultiThreadReactor fd is already registered"), s)
  else (.ok (), { s with owners := Function.update s.owners fd (some loop) })

/-- `owners.erase`. -/
def eraseOwner (fd : ℤ) : State κ m := { s with owners := Function.update s.owners fd none }

/-- Replace the table of a loop. -/
def setLoop (loop : Fin m) (table : Table κ) : State κ m :=
  { s with loops := Function.update s.loops loop table }

/-- The first section of a call; `none` while the mutex it needs is held. -/
def begin : Call κ → Option (State κ m × Next κ m)
  | .start =>
      if s.lifecycleHeld then none
      else if s.isRunning then some (s, .reply .done)
      else if s.stoppedAfterStart then
        some (s, .reply (.threw
          (.runtimeError "MultiThreadReactor cannot be restarted after stop")))
      else some ({ s with isRunning := true, lifecycleHeld := true }, .continue .starting)
  | .stop =>
      if s.lifecycleHeld then none
      else if s.isRunning then
        some ({ s.stopLoops with isRunning := false, stoppedAfterStart := true }, .reply .done)
      else some (s, .reply .done)
  | .add fd events callback =>
      match s.checkAdd fd callback with
      | .error e => some (s, .reply (.threw e))
      | .ok callback => some (s, .continue (.addIndex fd events callback))
  | .modify fd events =>
      match s.owners fd with
      | none => some (s, .reply (.threw
          (.invalidArgument "MultiThreadReactor fd is not registered")))
      | some loop => some (s, .continue (.modifyLoop fd events loop))
  | .remove fd =>
      -- the owner is erased before the loop is asked
      match s.owners fd with
      | none => some (s, .reply (.removed false))
      | some loop => some (s.eraseOwner fd, .continue (.removeLoop fd loop))

/-- The next section of a call. `fault` is the `errno` with which `epoll_ctl`, or the creation of a
thread, is made to fail. -/
def advance [NeZero m] (fault : Option Errno) : Pc κ m → Option (State κ m × Next κ m)
  | .idle => none
  | .starting =>
      match fault with
      | none => some ({ s with lifecycleHeld := false }, .reply .done)
      | some errno =>
          some
            ({ s.stopLoops with
                isRunning := false, stoppedAfterStart := true, lifecycleHeld := false },
              .reply (.threw (.systemError "thread" errno)))
  | .addIndex fd events callback =>
      some ({ s with nextLoop := (s.nextLoop + 1) % 2 ^ 64 },
        .continue (.addOwner fd events callback (Fin.ofNat m s.nextLoop)))
  | .addOwner fd events callback loop =>
      match s.claimOwner fd loop with
      | (.error e, s') => some (s', .reply (.threw e))
      | (.ok (), s') => some (s', .continue (.addLoop fd events callback loop))
  | .addLoop fd events callback loop =>
      match (s.loops loop).add .eventLoop fault fd events (some callback) with
      | (.ok (), table) => some (s.setLoop loop table, .reply (.added loop))
      | (.error e, table) => some (s.setLoop loop table, .continue (.addRollback fd loop e))
  | .addRollback fd _ e => some (s.eraseOwner fd, .reply (.threw e))
  | .modifyLoop fd events loop =>
      match (s.loops loop).modify .eventLoop fault fd events with
      | (.ok (), table) => some (s.setLoop loop table, .reply .done)
      | (.error e, table) => some (s.setLoop loop table, .reply (.threw e))
  | .removeLoop fd loop =>
      match (s.loops loop).remove .eventLoop fault fd with
      | (.ok result, table) => some (s.setLoop loop table, .reply (.removed result))
      | (.error e, table) => some (s.setLoop loop table, .reply (.threw e))

end State

/-! ## The machine

The workers of the loops only copy what is ready; their callbacks are calls like any other. -/

/-- The shared state, the threads, and the replies so far, oldest first. -/
structure System (κ : Type*) (m n : ℕ) where
  state : State κ m
  threads : Fin n → Pc κ m
  replies : List (Fin n × Reply m)

/-- A thread calls; a thread runs its next section; the worker of a loop copies the ready callbacks;
someone closes a descriptor. -/
inductive Action (κ : Type*) (m n : ℕ)
  | call (thread : Fin n) (call : Call κ)
  | advance (thread : Fin n) (fault : Option Errno)
  | dispatch (loop : Fin m) (ready : List (ℤ × UInt32))
  | close (fd : ℤ)

namespace System

variable {κ : Type*} {m n : ℕ}

/-- A thread has run a section. -/
def finish (s : System κ m n) (thread : Fin n) : State κ m × Next κ m → System κ m n
  | (state, .reply reply) =>
      { state := state
        threads := Function.update s.threads thread .idle
        replies := s.replies ++ [(thread, reply)] }
  | (state, .continue pc) =>
      { s with state := state, threads := Function.update s.threads thread pc }

def step [NeZero m] (s : System κ m n) : Action κ m n → Option (System κ m n)
  | .call thread call =>
      match s.threads thread with
      | .idle => (s.state.begin call).map (s.finish thread)
      | _ => none
  | .advance thread fault => (s.state.advance fault (s.threads thread)).map (s.finish thread)
  | .dispatch loop ready =>
      if s.state.isRunning ∨ s.state.stoppedAfterStart then
        some { s with state := s.state.setLoop loop ((s.state.loops loop).collect ready).1 }
      else none
  | .close fd =>
      some { s with state := { s.state with loops := fun i ↦ (s.state.loops i).close fd } }

end System

/-- A new reactor: nothing is registered and no thread has been started. -/
def create (κ : Type*) {m : ℕ} (wakeFd : Fin m → ℤ) : State κ m where
  loops i := .fresh κ (wakeFd i)
  owners _ := none
  nextLoop := 0
  isRunning := false
  stoppedAfterStart := false
  lifecycleHeld := false

/-- `n` threads on a new reactor. -/
def machine (κ : Type*) {m : ℕ} [NeZero m] (wakeFd : Fin m → ℤ) (n : ℕ) :
    Machine (System κ m n) (Action κ m n) where
  init := ⟨create κ wakeFd, fun _ ↦ .idle, []⟩
  step := System.step

end MultiThreadReactor

end FoundationComponents
