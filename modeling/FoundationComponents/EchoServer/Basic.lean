import FoundationComponents.Machine.Basic
import FoundationComponents.Reactor.Watchers

/-!
# The echo server

`EchoServer` serves any number of connections with one thread and one `EpollReactor`. The listening
descriptor and the clients are registered edge-triggered: `epoll_wait` reports a descriptor once,
and again only when something new happens to it or when `epoll_ctl` finds it ready. A callback is
interrupted by nothing, but while it runs bytes arrive, peers shut down, connections fail and send
buffers are emptied, between any two of its system calls.

A step is one system call of the server, with the computation around it, or one thing that happens
in the network. The label of a system call carries what it returns, and the step is defined when
the kernel may return that. Nobody calls `stop`, so the wake-up descriptor is never ready.
-/

namespace FoundationComponents

namespace EchoServer

open Reactor

/-! ## Sockets

Of a connection the server sees what `recv`, `send` and `epoll_wait` return. The bytes are in the
model so that what is sent can be compared with what has arrived. -/

/-- A connected socket. The last three fields only record: all bytes that have arrived, all bytes
that `send` has accepted, and whether `send` has ever reported a full buffer. -/
structure Socket where
  inbox : List UInt8
  peerShutdown : Bool
  failed : Bool
  space : ℕ
  arrived : List UInt8
  sent : List UInt8
  stalled : Bool
  deriving Repr, DecidableEq

/-- What the kernel reports of a socket. -/
def pollBits (unread peerShutdown failed writable : Bool) : UInt32 :=
  (if unread || peerShutdown || failed then EPOLLIN else 0) |||
    (if writable || failed then EPOLLOUT else 0) |||
    (if peerShutdown || failed then EPOLLRDHUP else 0) |||
    (if failed then EPOLLERR ||| EPOLLHUP else 0)

def Socket.poll (socket : Socket) : UInt32 :=
  pollBits (!socket.inbox.isEmpty) socket.peerShutdown socket.failed (decide (0 < socket.space))

/-- The events that are reported for a registered mask: errors always are. -/
def reported (poll mask : UInt32) : UInt32 := poll &&& (mask ||| EPOLLERR ||| EPOLLHUP)

/-! ## The server

A callback is interrupted by system calls only, and a task names the next of them. The network may
do something in front of each. -/

/-- The two lambdas that are registered. -/
inductive Callback
  | acceptClients
  | handleClient
  deriving Repr, DecidableEq

structure Client where
  out : List UInt8
  deriving Repr, DecidableEq

/-- The methods of `EpollEvent`. -/
def readable (events : UInt32) : Bool := events &&& eventRead ≠ 0
def writable (events : UInt32) : Bool := events &&& eventWrite ≠ 0
def isError (events : UInt32) : Bool := events &&& eventError ≠ 0
def hangUp (events : UInt32) : Bool := events &&& eventHangUp ≠ 0
def peerClosed (events : UInt32) : Bool := events &&& eventPeerClosed ≠ 0

/-- The events a client is registered for. -/
def interest (writing : Bool) : UInt32 :=
  eventRead ||| eventEdgeTriggered ||| if writing then eventWrite else 0

/-- What follows a call of `flushClient` that returns true: the next `recv`, or the new interest. -/
inductive AfterFlush
  | receive
  | interest
  deriving Repr, DecidableEq

/-- What the server is doing in a batch of callbacks. -/
inductive Task
  /-- Between two callbacks. -/
  | dispatching
  /-- In `acceptClients`, in front of `accept4`. -/
  | accepting
  /-- In `acceptClients`, in front of `add`. -/
  | adding (fd : ℤ)
  /-- In `handleClient`, in front of `recv`. -/
  | receiving (fd : ℤ) (events : UInt32)
  /-- Behind the loop around `recv`. -/
  | received (fd : ℤ) (events : UInt32)
  /-- In `flushClient`, in front of the condition of its loop. -/
  | flushing (fd : ℤ) (events : UInt32) (next : AfterFlush)
  /-- In `handleClient`, in front of `modify`. -/
  | modifying (fd : ℤ)
  /-- In `closeClient`, in front of `remove`. -/
  | removing (fd : ℤ)
  /-- In `closeClient`, in front of `close`. -/
  | closing (fd : ℤ)
  deriving Repr, DecidableEq

/-- Where the server is: in `epoll_wait`, in a batch with the callbacks that have not been run yet,
or out of `run` with an exception. -/
inductive Position
  | waiting
  | running (task : Task) (rest : List (Dispatch Callback))
  | failed (e : Exception)
  deriving Repr, DecidableEq

/-- A connection that was closed: the socket and the client when the client was erased. -/
structure Closed where
  socket : Socket
  out : List UInt8
  deriving Repr, DecidableEq

/-- The members of `EchoServer`, the sockets behind the descriptors, the connections that wait to be
accepted, the descriptors on the ready list of epoll, and a record of the closed connections. -/
structure System where
  reactor : Table Callback
  listenFd : ℤ
  clients : ℤ → Option Client
  position : Position
  sockets : ℤ → Option Socket
  backlog : ℕ
  ready : ℤ → Bool
  closed : List Closed

/-- The size of the vector `ready`. -/
def maxEvents : ℕ := 256

/-- The size of the buffer for `recv`. -/
def bufferSize : ℕ := 4096

inductive AcceptResult
  /-- A connection, to which bytes may have been sent already. -/
  | connection (fd : ℤ) (inbox : List UInt8) (space : ℕ)
  | again
  | interrupted
  | error (errno : Errno)
  deriving Repr, DecidableEq

/-- What `recv` and `send` return. -/
inductive IoResult
  | done (count : ℕ)
  | again
  | interrupted
  | error
  deriving Repr, DecidableEq

inductive Action
  /-- A connection is made. -/
  | connect
  | arrive (fd : ℤ) (bytes : List UInt8)
  /-- The peer has sent everything. -/
  | shutdown (fd : ℤ)
  /-- The connection fails. -/
  | reset (fd : ℤ)
  /-- The peer takes bytes out of the send buffer. -/
  | drain (fd : ℤ) (amount : ℕ)
  /-- The kernel may put a descriptor on the ready list for no reason. -/
  | wakeUp (fd : ℤ)
  /-- `epoll_wait` returns. -/
  | wait (fds : List ℤ)
  /-- The server goes on without a system call. -/
  | proceed
  | accept (result : AcceptResult)
  | recv (result : IoResult)
  | send (result : IoResult)
  /-- `epoll_ctl`, which may fail. -/
  | control (fault : Option Errno)
  | close
  deriving Repr, DecidableEq

namespace System

variable (s : System)

/-! ### The kernel -/

/-- What the kernel would report of a descriptor. -/
def poll (fd : ℤ) : UInt32 :=
  if fd = s.listenFd then if 0 < s.backlog then EPOLLIN else 0
  else match s.sockets fd with
    | some socket => socket.poll
    | none => 0

def revents (fd : ℤ) : UInt32 :=
  match s.reactor.kernel fd with
  | some mask => reported (s.poll fd) mask
  | none => 0

/-- Something has happened to a descriptor, which is on the ready list now if it is registered for
that. -/
def signal (fd : ℤ) (bits : UInt32) : System :=
  { s with
    ready := Function.update s.ready fd
      (s.ready fd || (s.reactor.kernel fd).any fun mask ↦ reported bits mask ≠ 0) }

/-- `epoll_ctl` puts a descriptor on the ready list that is ready. -/
def recheck (fd : ℤ) : System :=
  { s with ready := Function.update s.ready fd (s.ready fd || s.revents fd ≠ 0) }

def setSocket (fd : ℤ) (socket : Socket) : System :=
  { s with sockets := Function.update s.sockets fd (some socket) }

def setClient (fd : ℤ) (client : Client) : System :=
  { s with clients := Function.update s.clients fd (some client) }

def setTask (task : Task) (rest : List (Dispatch Callback)) : System :=
  { s with position := .running task rest }

/-- `epoll_wait` reports descriptors of the ready list and takes them off it; the callbacks are
copied. -/
def wait (fds : List ℤ) : Option System :=
  if s.position = .waiting ∧ fds ≠ [] ∧ fds.Nodup ∧ fds.length ≤ maxEvents ∧
      ∀ fd ∈ fds, s.ready fd = true ∧ s.revents fd ≠ 0 then
    let collected := s.reactor.collect (fds.map fun fd ↦ (fd, s.revents fd))
    some { s with
      reactor := collected.1
      position := .running .dispatching collected.2
      ready := fun fd ↦ s.ready fd && !decide (fd ∈ fds) }
  else none

/-! ### The callbacks -/

/-- The first task of a callback. -/
def enter (event : Dispatch Callback) : Task :=
  match event.callback with
  | .acceptClients => .accepting
  | .handleClient =>
      if isError event.events || hangUp event.events then .removing event.fd
      else if readable event.events || peerClosed event.events then
        .receiving event.fd event.events
      else .received event.fd event.events

/-- What needs no system call. -/
def proceed : Option System :=
  match s.position with
  | .running .dispatching [] => some { s with position := .waiting }
  | .running .dispatching (event :: rest) => some (s.setTask (enter event) rest)
  | .running (.received fd events) rest =>
      if writable events then some (s.setTask (.flushing fd events .interest) rest)
      else some (s.setTask (.modifying fd) rest)
  | .running (.flushing fd events next) rest =>
      match s.clients fd with
      | none => some (s.setTask .dispatching rest)
      | some client =>
          if client.out = [] then
            match next with
            | .receive => some (s.setTask (.receiving fd events) rest)
            | .interest => some (s.setTask (.modifying fd) rest)
          else none
  | .running (.modifying fd) rest =>
      match s.clients fd with
      | none => some (s.setTask .dispatching rest)
      | some _ => none
  | _ => none

/-- `accept4` in `acceptClients`. The number of a new descriptor is not in use. -/
def acceptClients (result : AcceptResult) : Option System :=
  match s.position with
  | .running .accepting rest =>
      match result with
      | .connection fd inbox space =>
          if 0 < s.backlog ∧ 0 ≤ fd ∧ fd ≠ s.listenFd ∧ fd ≠ s.reactor.wakeFd ∧
              s.sockets fd = none then
            some { s with
              backlog := s.backlog - 1
              sockets := Function.update s.sockets fd
                (some ⟨inbox, false, false, space, inbox, [], false⟩)
              -- `emplace` keeps a client that is there
              clients := Function.update s.clients fd ((s.clients fd).orElse fun _ ↦ some ⟨[]⟩)
              position := .running (.adding fd) rest }
          else none
      | .again => if s.backlog = 0 then some (s.setTask .dispatching rest) else none
      | .interrupted => some s
      | .error errno => some { s with position := .failed (.systemError "accept4" errno) }
  | _ => none

/-- `recv` in `handleClient`. It fails for another reason only if the connection has failed. -/
def recv (result : IoResult) : Option System :=
  match s.position with
  | .running (.receiving fd events) rest =>
      match s.sockets fd with
      | none => none
      | some socket =>
          match result with
          | .done 0 =>
              if socket.inbox = [] ∧ socket.peerShutdown = true then
                some (s.setTask (.removing fd) rest)
              else none
          | .done count =>
              if count ≤ socket.inbox.length ∧ count ≤ bufferSize then
                -- `clients_[fd]` makes a client if there is none
                let out := ((s.clients fd).getD ⟨[]⟩).out ++ socket.inbox.take count
                some (((s.setSocket fd { socket with inbox := socket.inbox.drop count }).setClient
                  fd ⟨out⟩).setTask (.flushing fd events .receive) rest)
              else none
          | .again =>
              if socket.inbox = [] ∧ socket.peerShutdown = false ∧ socket.failed = false then
                some (s.setTask (.received fd events) rest)
              else none
          | .interrupted => some s
          | .error => if socket.failed then some (s.setTask (.removing fd) rest) else none
  | _ => none

/-- `send` in `flushClient`. -/
def send (result : IoResult) : Option System :=
  match s.position with
  | .running (.flushing fd events next) rest =>
      match s.sockets fd, s.clients fd with
      | some socket, some client =>
          if client.out = [] then none
          else match result with
            | .done count =>
                if 0 < count ∧ count ≤ client.out.length ∧ count ≤ socket.space then
                  some ((s.setSocket fd { socket with
                    space := socket.space - count
                    sent := socket.sent ++ client.out.take count }).setClient fd
                      ⟨client.out.drop count⟩)
                else none
            | .again =>
                if socket.space = 0 ∧ socket.failed = false then
                  let stalled := s.setSocket fd { socket with stalled := true }
                  match next with
                  | .receive => some (stalled.setTask (.receiving fd events) rest)
                  | .interest => some (stalled.setTask (.modifying fd) rest)
                else none
            | .interrupted => some s
            | .error => if socket.failed then some (s.setTask (.removing fd) rest) else none
      | _, _ => none
  | _ => none

/-- `epoll_ctl` in `add`, `modify` and `remove`. -/
def control (fault : Option Errno) : Option System :=
  match s.position with
  | .running (.adding fd) rest =>
      match s.reactor.add .epollReactor fault fd (interest false) (some .handleClient) with
      | (.ok _, reactor) =>
          some (({ s with reactor := reactor }.recheck fd).setTask .accepting rest)
      | (.error e, reactor) => some { s with reactor := reactor, position := .failed e }
  | .running (.modifying fd) rest =>
      match s.clients fd with
      | none => none
      | some client =>
          match s.reactor.modify .epollReactor fault fd (interest (!client.out.isEmpty)) with
          | (.ok _, reactor) =>
              some (({ s with reactor := reactor }.recheck fd).setTask .dispatching rest)
          | (.error e, reactor) => some { s with reactor := reactor, position := .failed e }
  | .running (.removing fd) rest =>
      match s.reactor.remove .epollReactor fault fd with
      | (.ok _, reactor) =>
          some { s with
            reactor := reactor
            ready := Function.update s.ready fd false
            clients := Function.update s.clients fd none
            closed := match s.sockets fd, s.clients fd with
              | some socket, some client => ⟨socket, client.out⟩ :: s.closed
              | _, _ => s.closed
            position := .running (.closing fd) rest }
      | (.error e, reactor) => some { s with reactor := reactor, position := .failed e }
  | _ => none

/-- `close` in `closeClient`. -/
def close : Option System :=
  match s.position with
  | .running (.closing fd) rest =>
      some { s with
        reactor := s.reactor.close fd
        ready := Function.update s.ready fd false
        sockets := Function.update s.sockets fd none
        position := .running .dispatching rest }
  | _ => none

/-! ### The network -/

/-- Bytes arrive, until the peer has shut down or the connection has failed. -/
def arrive (fd : ℤ) (bytes : List UInt8) : Option System :=
  match s.sockets fd with
  | none => none
  | some socket =>
      if bytes ≠ [] ∧ socket.peerShutdown = false ∧ socket.failed = false then
        some ((s.setSocket fd { socket with
          inbox := socket.inbox ++ bytes
          arrived := socket.arrived ++ bytes }).signal fd EPOLLIN)
      else none

def shutdown (fd : ℤ) : Option System :=
  (s.sockets fd).map fun socket ↦
    (s.setSocket fd { socket with peerShutdown := true }).signal fd (EPOLLIN ||| EPOLLRDHUP)

def reset (fd : ℤ) : Option System :=
  (s.sockets fd).map fun socket ↦
    (s.setSocket fd { socket with failed := true }).signal fd
      (EPOLLIN ||| EPOLLRDHUP ||| EPOLLERR ||| EPOLLHUP)

/-- An emptied send buffer is news only if it was full. -/
def drain (fd : ℤ) (amount : ℕ) : Option System :=
  (s.sockets fd).map fun socket ↦
    let drained := s.setSocket fd { socket with space := socket.space + amount }
    if socket.space = 0 ∧ 0 < amount then drained.signal fd EPOLLOUT else drained

def connect : System := { s with backlog := s.backlog + 1 }.signal s.listenFd EPOLLIN

def step : Action → Option System
  | .connect => some s.connect
  | .arrive fd bytes => s.arrive fd bytes
  | .shutdown fd => s.shutdown fd
  | .reset fd => s.reset fd
  | .drain fd amount => s.drain fd amount
  | .wakeUp fd => some { s with ready := Function.update s.ready fd true }
  | .wait fds => s.wait fds
  | .proceed => s.proceed
  | .accept result => s.acceptClients result
  | .recv result => s.recv result
  | .send result => s.send result
  | .control fault => s.control fault
  | .close => s.close

end System

/-- The server after its constructor, which has registered the listening descriptor. -/
def machine (wakeFd listenFd : ℤ) : Machine System Action where
  init :=
    { reactor := ((Table.fresh Callback wakeFd).add .epollReactor none listenFd (interest false)
        (some .acceptClients)).2
      listenFd := listenFd
      clients := fun _ ↦ none
      position := .waiting
      sockets := fun _ ↦ none
      backlog := 0
      ready := fun _ ↦ false
      closed := [] }
  step := System.step

end EchoServer

end FoundationComponents
