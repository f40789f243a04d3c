import Mathlib.Data.Fintype.Option
import Mathlib.Data.Int.Notation
import Mathlib.Data.Nat.Notation
import Mathlib.Logic.Function.Basic
import FoundationComponents.Machine.Basic

/-!
# The database connection pool

`ConnectionPool` lends connections made by a factory. Its counters and the deque of idle
connections are guarded by one mutex, but the calls it makes on connections (`factory()`, `ping()`,
`close()`) are not: every operation is a sequence of critical sections with unguarded calls between
them, and other threads run in the gaps.

A thread's position `Pc` names the next critical section or unguarded call. `threadStep` performs
it: it is the only definition of what the pool's member functions do, and the system interleaves it
over any number of user threads and the cleaner thread. Waiting on a condition variable is split
into a *blocked* position, which only a notification, a timeout or a spurious wakeup leaves, and a
*woken* one, in which the thread has yet to retake the mutex and evaluate its predicate.

`shutdown` tests and joins the one `std::thread` of the cleaner without the mutex. The model lets a
call pass its join whenever the cleaner has finished, so that two calls may be there at a time; in
the source that is a data race, and a run with it says nothing about the program. A factory or a
connection that calls `shutdown` itself is left out: on the cleaner thread, which
`cleaner.get_id() != std::this_thread::get_id()` recognises, such a call would skip the join.

A connection is the number of factory calls that had succeeded before it was made. Times are
nanoseconds; the conversion from milliseconds wraps at 64 bits, as the library's does.
-/

namespace FoundationComponents

namespace ConnectionPool

/-! ## Configuration -/

/-- `ConnectionPoolConfig`; the four durations are in milliseconds. -/
structure Config where
  minIdle : ℕ := 1
  maxSize : ℕ := 8
  acquireTimeout : ℤ := 1000
  idleTimeout : ℤ := 30000
  maxLifetime : ℤ := 300000
  cleanerInterval : ℤ := 1000
  deriving Repr, DecidableEq

/-- The checks of the constructor, in its order. `hasFactory` is whether the factory is callable. -/
def validate (hasFactory : Bool) (config : Config) : Except String Config :=
  if hasFactory = false then .error "ConnectionPool requires a connection factory"
  else if config.maxSize = 0 then .error "ConnectionPool max_size must be greater than 0"
  else if config.minIdle > config.maxSize then
    .error "ConnectionPool min_idle cannot exceed max_size"
  else if config.cleanerInterval ≤ 0 then
    .error "ConnectionPool cleaner_interval must be positive"
  else .ok config

/-- What the constructor lets through. -/
structure Config.Accepted (config : Config) : Prop where
  maxSize_pos : 0 < config.maxSize
  minIdle_le : config.minIdle ≤ config.maxSize
  cleanerInterval_pos : 0 < config.cleanerInterval

/-- The constructor succeeds exactly on the accepted configurations, and keeps them as they are. -/
theorem validate_eq_ok_iff {config c : Config} :
    validate true config = .ok c ↔ config.Accepted ∧ c = config := by
  have haccepted : config.Accepted ↔
      0 < config.maxSize ∧ config.minIdle ≤ config.maxSize ∧ 0 < config.cleanerInterval :=
    ⟨fun h ↦ ⟨h.1, h.2, h.3⟩, fun h ↦ ⟨h.1, h.2.1, h.2.2⟩⟩
  rw [validate, haccepted]
  by_cases hmax : config.maxSize = 0
  · simp [hmax]
  by_cases hmin : config.minIdle > config.maxSize
  · simp [hmax, hmin]
  by_cases hcleaner : config.cleanerInterval ≤ 0
  · simp [hmax, hmin, hcleaner]
  · simp only [hmax, hmin, hcleaner, reduceCtorEq, if_false, Except.ok.injEq]
    constructor
    · rintro rfl
      exact ⟨⟨by omega, by omega, by omega⟩, rfl⟩
    · rintro ⟨-, rfl⟩
      rfl

/-! ## Time

Time points and durations are 64-bit counts, and both the conversion to nanoseconds and the
comparison wrap. -/

/-- A signed 64-bit result. -/
def wrap (x : ℤ) : ℤ := Int.bmod x (2 ^ 64)

/-- Milliseconds as a 64-bit count of nanoseconds. -/
def toNanos (milliseconds : ℤ) : ℤ := wrap (milliseconds * 10 ^ 6)

/-- `isExpired`: a negative limit never expires. -/
def isExpired (start now limit : ℤ) : Bool :=
  decide (0 ≤ limit) && decide (toNanos limit ≤ wrap (now - start))

structure Entry where
  connection : ℕ
  createdAt : ℤ
  lastUsedAt : ℤ
  deriving Repr, DecidableEq

def shouldRetire (config : Config) (entry : Entry) (now : ℤ) : Bool :=
  isExpired entry.createdAt now config.maxLifetime ||
    isExpired entry.lastUsedAt now config.idleTimeout

/-! ## The guarded state -/

/-- The fields under the mutex. `underflow` is not one of the source: it records that a counter was
decremented below `0`, where `std::size_t` wraps. -/
structure Pool where
  idle : List Entry := []
  shuttingDown : Bool := false
  total : ℕ := 0
  active : ℕ := 0
  waiting : ℕ := 0
  created : ℕ := 0
  destroyed : ℕ := 0
  acquired : ℕ := 0
  timeouts : ℕ := 0
  underflow : Bool := false
  deriving Repr, DecidableEq

/-- Subtraction of `std::size_t`. -/
def sizeSub (a b : ℕ) : ℕ := if b ≤ a then a - b else a + 2 ^ 64 - b

namespace Pool

def subTotal (p : Pool) (k : ℕ) : Pool :=
  { p with total := sizeSub p.total k, underflow := p.underflow || decide (p.total < k) }

def subActive (p : Pool) : Pool :=
  { p with active := sizeSub p.active 1, underflow := p.underflow || decide (p.active < 1) }

def subWaiting (p : Pool) : Pool :=
  { p with waiting := sizeSub p.waiting 1, underflow := p.underflow || decide (p.waiting < 1) }

/-- The predicate of `available.wait_until`. -/
def ready (config : Config) (p : Pool) : Bool :=
  p.shuttingDown || !p.idle.isEmpty || decide (p.total < config.maxSize)

/-- The loop of `cleanupIdle` over the entries of `idle` not visited yet; those visited and kept
are the `idle` of the pool it is given. Returns the stale entries in deque order. -/
def cleanupIdle (config : Config) (now : ℤ) : List Entry → Pool → Pool × List Entry
  | [], p => (p, [])
  | entry :: rest, p =>
      if shouldRetire config entry now = true ∧ p.total > config.minIdle then
        let next := cleanupIdle config now rest
          { p.subTotal 1 with destroyed := p.destroyed + 1 }
        (next.1, entry :: next.2)
      else cleanupIdle config now rest { p with idle := p.idle ++ [entry] }

end Pool

/-! ## Positions

A position names the next section or unguarded call and has the local variables that are still
needed, so that a step of a thread depends on its position and on what it finds. -/

/-- Where a thread stands: outside the pool, or before the named critical section or unguarded
call. Waits keep their deadline. A `retire` position keeps the deadline of the `tryAcquireFor` loop
it continues with, or `none` if the call gives up afterwards. `afterWait` marks an acquire check
reached by leaving `available.wait_until`. -/
inductive Pc
  | outside
  | acqCheck (deadline : ℤ) (afterWait : Bool)
  | acqBlocked (deadline : ℤ)
  | acqWoken (deadline : ℤ) (timedOut : Bool)
  | acqCreate (deadline : ℤ)
  | acqRollback
  | acqCount (deadline : ℤ) (entry : Entry)
  | acqExpiry (deadline : ℤ) (entry : Entry)
  | acqPing (deadline : ℤ) (entry : Entry)
  | acqFinish (deadline : ℤ) (entry : Entry)
  | retireClose (entry : Entry) (resume : Option ℤ)
  | retireCount (resume : Option ℤ)
  | releaseStamp (entry : Entry)
  | releaseReturn (entry : Entry) (reachedLifetime : Bool)
  | releaseClose (entry : Entry)
  | warmCheck (warmed : ℕ)
  | warmCreate (warmed : ℕ)
  | warmRollback (warmed : ℕ)
  | warmPublish (warmed : ℕ) (entry : Entry)
  | warmClose (warmed : ℕ) (entry : Entry)
  | cleanerWait
  | cleanerBlocked (deadline : ℤ)
  | cleanerWoken (deadline : ℤ) (timedOut : Bool)
  | cleanerStamp
  | cleanerSweep (now : ℤ)
  | cleanerClose (stale : List Entry)
  | cleanerDone
  | shutdownSet
  | shutdownJoin
  | shutdownCheck
  | shutdownBlocked
  | shutdownClose (idleToClose : List Entry)
  deriving Repr, DecidableEq

/-- Blocked in `available.wait_until`, neither notified nor timed out. -/
def Pc.isBlocked : Pc → Bool
  | .acqBlocked _ => true
  | _ => false

def Pc.isOutside : Pc → Bool
  | .outside => true
  | _ => false

/-- `available` notifies the thread. -/
def Pc.wakeAvailable : Pc → Pc
  | .acqBlocked deadline => .acqWoken deadline false
  | pc => pc

/-- `shutdown_done` notifies the thread. -/
def Pc.wakeShutdownDone : Pc → Pc
  | .shutdownBlocked => .shutdownCheck
  | pc => pc

/-- `cleaner_wakeup` notifies the thread. -/
def Pc.wakeCleaner : Pc → Pc
  | .cleanerBlocked deadline => .cleanerWoken deadline false
  | pc => pc

/-- The thread leaves its wait without a notification and before its deadline. -/
def Pc.spurious (pc : Pc) : Pc := pc.wakeAvailable.wakeShutdownDone.wakeCleaner

/-- The deadline of the thread's wait has passed. -/
def Pc.expire (now : ℤ) : Pc → Pc
  | .acqBlocked deadline =>
      if deadline ≤ now then .acqWoken deadline true else .acqBlocked deadline
  | .cleanerBlocked deadline =>
      if deadline ≤ now then .cleanerWoken deadline true else .cleanerBlocked deadline
  | pc => pc

/-! ## One thread -/

/-- How many waiters of `available` a critical section notifies. -/
inductive Notify
  | nobody
  | one
  | all
  deriving Repr, DecidableEq

/-- What a step makes observable. -/
inductive Event
  /-- the factory returned a new connection -/
  | made (connection : ℕ)
  /-- `ping()` was called and was true, or was false or threw -/
  | pinged (connection : ℕ) (healthy : Bool)
  /-- `close()` was called -/
  | closed (connection : ℕ)
  /-- `tryAcquireFor` returned a handle, or an empty pointer -/
  | acquired (connection : Option ℕ)
  /-- `warmUp` returned -/
  | warmedUp (warmed : ℕ)
  /-- `release` returned -/
  | released
  /-- `shutdown` returned -/
  | shutDown
  deriving Repr, DecidableEq

/-- What a step finds outside the pool: the clock, the number of connections made so far, whether
the cleaner thread has finished, and whether the factory or ping call of this step succeeds. -/
structure Env where
  now : ℤ
  made : ℕ
  cleanerDone : Bool
  succeeds : Bool
  deriving Repr, DecidableEq

/-- The outcome of a step: the guarded state, the thread's next position, whom it notifies, the
entry it hands to the borrower, and what it makes observable. -/
structure Effect where
  pool : Pool
  next : Pc
  available : Notify := .nobody
  shutdownDone : Bool := false
  cleanerWakeup : Bool := false
  lent : Option Entry := none
  events : List Event := []

/-- Where a thread is once an operation has returned: the cleaner thread goes back to its wait. -/
def home (isCleaner : Bool) : Pc := if isCleaner then .cleanerWait else .outside

/-- The common end of the sections that give up an active slot: `available.notify_one()`, and
`shutdown_done.notify_all()` if no slot is active any more. -/
def Effect.slotFreed (pool : Pool) (next : Pc) (events : List Event) : Effect where
  pool := pool
  next := next
  available := .one
  shutdownDone := decide (pool.active = 0)
  events := events

/-- One critical section or unguarded call of the thread at `pc`; `none` when the thread cannot move
by itself. -/
def threadStep (config : Config) (isCleaner : Bool) (env : Env) (p : Pool) : Pc → Option Effect
  | .outside => none
  -- tryAcquireFor
  | .acqCheck deadline _ =>
      if p.shuttingDown then
        some { pool := p, next := home isCleaner, events := [.acquired none] }
      else match p.idle with
        | entry :: rest =>
            some { pool := { p with idle := rest, active := p.active + 1 },
                   next := .acqExpiry deadline entry }
        | [] =>
            if p.total < config.maxSize then
              some { pool := { p with total := p.total + 1, active := p.active + 1 },
                     next := .acqCreate deadline }
            -- the predicate of the wait has just been found false under the same lock
            else some { pool := { p with waiting := p.waiting + 1 }, next := .acqBlocked deadline }
  | .acqBlocked _ => none
  | .acqWoken deadline timedOut =>
      if p.ready config then
        some { pool := p.subWaiting, next := .acqCheck deadline true }
      else if timedOut then
        some { pool := { p.subWaiting with timeouts := p.timeouts + 1 },
               next := home isCleaner, events := [.acquired none] }
      else some { pool := p, next := .acqBlocked deadline }
  | .acqCreate deadline =>
      if env.succeeds then
        some { pool := p, next := .acqCount deadline ⟨env.made, env.now, env.now⟩,
               events := [.made env.made] }
      else some { pool := p, next := .acqRollback }
  | .acqRollback =>
      some (.slotFreed (p.subActive.subTotal 1) (home isCleaner) [.acquired none])
  | .acqCount deadline entry =>
      some { pool := { p with created := p.created + 1 }, next := .acqFinish deadline entry }
  | .acqExpiry deadline entry =>
      if shouldRetire config entry env.now then
        some { pool := p, next := .retireClose entry (some deadline) }
      else some { pool := p, next := .acqPing deadline entry }
  | .acqPing deadline entry =>
      some { pool := p,
             next := if env.succeeds then .acqFinish deadline entry
               else .retireClose entry (some deadline),
             events := [.pinged entry.connection env.succeeds] }
  | .acqFinish _ entry =>
      if p.shuttingDown then some { pool := p, next := .retireClose entry none }
      else some { pool := { p with acquired := p.acquired + 1 }, next := home isCleaner,
                  lent := some entry, events := [.acquired (some entry.connection)] }
  -- retireActive
  | .retireClose entry resume =>
      some { pool := p, next := .retireCount resume, events := [.closed entry.connection] }
  | .retireCount resume =>
      let p' := { p.subActive.subTotal 1 with destroyed := p.destroyed + 1 }
      match resume with
      | some deadline => some (.slotFreed p' (.acqCheck deadline false) [])
      | none => some (.slotFreed p' (home isCleaner) [.acquired none])
  -- release
  | .releaseStamp entry =>
      some { pool := p, next := .releaseReturn { entry with lastUsedAt := env.now }
               (isExpired entry.createdAt env.now config.maxLifetime) }
  | .releaseReturn entry reachedLifetime =>
      if p.shuttingDown || reachedLifetime then
        some (.slotFreed { p.subActive.subTotal 1 with destroyed := p.destroyed + 1 }
          (.releaseClose entry) [])
      else
        some (.slotFreed { p.subActive with idle := p.idle ++ [entry] } (home isCleaner)
          [.released])
  | .releaseClose entry =>
      some { pool := p, next := home isCleaner, events := [.closed entry.connection, .released] }
  -- warmUp
  | .warmCheck warmed =>
      if p.shuttingDown ∨ p.idle.length ≥ config.minIdle ∨ p.total ≥ config.maxSize then
        some { pool := p, next := home isCleaner, events := [.warmedUp warmed] }
      else some { pool := { p with total := p.total + 1 }, next := .warmCreate warmed }
  | .warmCreate warmed =>
      if env.succeeds then
        some { pool := p, next := .warmPublish warmed ⟨env.made, env.now, env.now⟩,
               events := [.made env.made] }
      else some { pool := p, next := .warmRollback warmed }
  | .warmRollback warmed =>
      some { pool := p.subTotal 1, next := home isCleaner, available := .one,
             events := [.warmedUp warmed] }
  | .warmPublish warmed entry =>
      if p.shuttingDown then some { pool := p.subTotal 1, next := .warmClose warmed entry }
      else some { pool := { p with created := p.created + 1, idle := p.idle ++ [entry] },
                  next := .warmCheck (warmed + 1), available := .one }
  | .warmClose warmed entry =>
      some { pool := p, next := .warmCheck warmed, events := [.closed entry.connection] }
  -- cleanerLoop and cleanupIdle
  | .cleanerWait =>
      if p.shuttingDown then some { pool := p, next := .cleanerDone }
      else some { pool := p,
                  next := .cleanerBlocked (wrap (env.now + toNanos config.cleanerInterval)) }
  | .cleanerBlocked _ => none
  | .cleanerWoken deadline timedOut =>
      if p.shuttingDown then some { pool := p, next := .cleanerDone }
      else if timedOut then some { pool := p, next := .cleanerStamp }
      else some { pool := p, next := .cleanerBlocked deadline }
  | .cleanerStamp => some { pool := p, next := .cleanerSweep env.now }
  | .cleanerSweep now =>
      let swept := Pool.cleanupIdle config now p.idle { p with idle := [] }
      some { pool := swept.1, next := .cleanerClose swept.2,
             available := if swept.2.isEmpty then .nobody else .all }
  | .cleanerClose [] => some { pool := p, next := .warmCheck 0 }
  | .cleanerClose (entry :: stale) =>
      some { pool := p, next := .cleanerClose stale, events := [.closed entry.connection] }
  | .cleanerDone => none
  -- shutdown
  | .shutdownSet =>
      some { pool := { p with shuttingDown := true }, next := .shutdownJoin, available := .all,
             cleanerWakeup := true }
  -- the caller is not the cleaner thread, which does not call `shutdown`
  | .shutdownJoin => if env.cleanerDone then some { pool := p, next := .shutdownCheck } else none
  | .shutdownCheck =>
      if p.active = 0 then
        some { pool := { p.subTotal p.idle.length with
                 idle := [], destroyed := p.destroyed + p.idle.length },
               next := .shutdownClose p.idle }
      else some { pool := p, next := .shutdownBlocked }
  | .shutdownBlocked => none
  | .shutdownClose [] => some { pool := p, next := home isCleaner, events := [.shutDown] }
  | .shutdownClose (entry :: rest) =>
      some { pool := p, next := .shutdownClose rest, events := [.closed entry.connection] }

/-! ## Many threads

A step moves one thread, applies its effect to the shared state, and wakes the threads that it
notifies. Handles are owned by nobody: any user thread may drop one. -/

/-- The user threads, and the cleaner thread as `none`. -/
abbrev Thread (n : ℕ) := Option (Fin n)

/-- The guarded state, the position of every thread, the borrowed handles, the clock, the number of
connections the factory has returned, and the events so far, oldest first. -/
structure System (n : ℕ) where
  pool : Pool
  threads : Thread n → Pc
  handles : List Entry
  clock : ℤ
  made : ℕ
  history : List (Thread n × Event)

/-- A user thread starts an operation (`release` drops the last copy of the handle at an index), a
thread performs its next section or call, leaves a wait, or time passes. The label of a step
carries the result of its factory or ping call and the waiter its `notify_one` picks. -/
inductive Action (n : ℕ)
  | tryAcquireFor (thread : Fin n) (timeout : ℤ)
  | release (thread : Fin n) (handle : ℕ)
  | warmUp (thread : Fin n)
  | shutdown (thread : Fin n)
  | step (thread : Thread n) (succeeds : Bool) (waiter : Option (Thread n))
  | wakeSpuriously (thread : Thread n)
  | expire (thread : Thread n)
  | tick (nanoseconds : ℕ)
  deriving Repr, DecidableEq

section System

variable {n : ℕ}

/-- Notify the waiters of `available`. `notify_one` wakes the given blocked thread, and nobody only
if no thread is blocked. -/
def notifyAvailable (threads : Thread n → Pc) : Notify → Option (Thread n) →
    Option (Thread n → Pc)
  | .nobody, none => some threads
  | .all, none => some fun t ↦ (threads t).wakeAvailable
  | .one, some t =>
      if (threads t).isBlocked then
        some (Function.update threads t (threads t).wakeAvailable)
      else none
  | .one, none => if ∀ t, (threads t).isBlocked = false then some threads else none
  | _, some _ => none

/-- Notify the waiters of the other two condition variables. -/
def notifyOthers (threads : Thread n → Pc) (shutdownDone cleanerWakeup : Bool) : Thread n → Pc :=
  fun t ↦
    let pc := if shutdownDone then (threads t).wakeShutdownDone else threads t
    if cleanerWakeup then pc.wakeCleaner else pc

/-- The connections made among some events. -/
def madeIn (events : List Event) : List ℕ :=
  events.filterMap fun
    | .made c => some c
    | _ => none

/-- The connections on which `close()` was called, in order. -/
def closedIn (events : List Event) : List ℕ :=
  events.filterMap fun
    | .closed c => some c
    | _ => none

namespace System

variable (s : System n)

/-- What a step of the system shows a thread. -/
def env (succeeds : Bool) : Env where
  now := s.clock
  made := s.made
  cleanerDone := decide (s.threads none = .cleanerDone)
  succeeds := succeeds

/-- Thread `t` moves by `e`; the threads it notifies become `threads`. -/
def commit (t : Thread n) (e : Effect) (threads : Thread n → Pc) : System n where
  pool := e.pool
  threads := notifyOthers threads e.shutdownDone e.cleanerWakeup
  handles := s.handles ++ e.lent.toList
  clock := s.clock
  made := s.made + (madeIn e.events).length
  history := s.history ++ e.events.map fun event ↦ (t, event)

/-- Thread `t` is put at another position, nothing else happens. -/
def goto (t : Thread n) (pc : Pc) : System n := { s with threads := Function.update s.threads t pc }

/-- A user thread outside the pool starts an operation. -/
def start (t : Fin n) (pc : Pc) : Option (System n) :=
  if (s.threads (some t)).isOutside then some (s.goto (some t) pc) else none

/-- A waiting thread leaves its wait. -/
def leaveWait (t : Thread n) (pc : Pc) : Option (System n) :=
  if pc = s.threads t then none else some (s.goto t pc)

/-- The interleaving semantics. -/
def step (config : Config) : Action n → Option (System n)
  | .tryAcquireFor t timeout =>
      s.start t (.acqCheck (wrap (s.clock + toNanos (max timeout 0))) false)
  | .release t k =>
      (s.handles[k]?).bind fun entry ↦
        { s with handles := s.handles.eraseIdx k }.start t (.releaseStamp entry)
  | .warmUp t => s.start t (.warmCheck 0)
  | .shutdown t => s.start t .shutdownSet
  | .step t succeeds waiter =>
      (threadStep config t.isNone (s.env succeeds) s.pool (s.threads t)).bind fun e ↦
        (notifyAvailable (Function.update s.threads t e.next) e.available waiter).map fun threads ↦
          s.commit t e threads
  | .wakeSpuriously t => s.leaveWait t (s.threads t).spurious
  | .expire t => s.leaveWait t ((s.threads t).expire s.clock)
  | .tick nanoseconds => some { s with clock := s.clock + nanoseconds }

/-- The events so far, without the threads. -/
def events : List Event := s.history.map Prod.snd

/-- The connections the factory has returned and whose `close()` has not been called yet. -/
def openConnections : List ℕ :=
  (madeIn s.events).filter fun c ↦ decide (c ∉ closedIn s.events)

end System

/-- `n` user threads sharing a pool made when the clock read `now`; its cleaner thread has just
been started. -/
def machine (config : Config) (now : ℤ) (n : ℕ) : Machine (System n) (Action n) where
  init :=
    { pool := {}
      threads := fun t ↦ home t.isNone
      handles := []
      clock := now
      made := 0
      history := [] }
  step s := s.step config

end System

end ConnectionPool

end FoundationComponents
