import Mathlib.Data.List.Nodup
import FoundationComponents.EchoServer.Basic

/-!
# What the server, the reactor and the kernel know of a descriptor

The invariant is about one descriptor at a time. What the three know of it, its *entry*, depends on
the *role* it has in what the server is doing: no callback of it is left in the batch, one is left
to be run, or the server is busy with it. A step changes the entry and the role of a single
descriptor, except that `epoll_wait` gives a new role to all that it reports.

Bytes are accounted for all the time: those that have arrived are those sent back, those to be sent
back, and those not received, in this order.
-/

namespace FoundationComponents

namespace EchoServer

open Reactor

/-! ## Events -/

private theorem reported_eq_zero_iff (unread peerShutdown failed writable writing : Bool) :
    reported (pollBits unread peerShutdown failed writable)
        (toNativeEvents (interest writing)) = 0 ↔
      unread = false ∧ peerShutdown = false ∧ failed = false ∧
        (writing = true → writable = false) := by
  revert unread peerShutdown failed writable writing
  decide

theorem poll_eq_zero_iff (socket : Socket) (writing : Bool) :
    reported socket.poll (toNativeEvents (interest writing)) = 0 ↔
      socket.inbox = [] ∧ socket.peerShutdown = false ∧ socket.failed = false ∧
        (writing = true → socket.space = 0) := by
  rw [Socket.poll, reported_eq_zero_iff, Bool.not_eq_false', List.isEmpty_iff,
    decide_eq_false_iff_not, Nat.pos_iff_ne_zero, not_ne_iff]

theorem failed_of_pollBits (unread peerShutdown failed writable writing : Bool) :
    (isError (fromNativeEvents (reported (pollBits unread peerShutdown failed writable)
          (toNativeEvents (interest writing)))) ||
        hangUp (fromNativeEvents (reported (pollBits unread peerShutdown failed writable)
          (toNativeEvents (interest writing))))) = true → failed = true := by
  revert unread peerShutdown failed writable writing
  decide

/-! ## Roles

The server works through a batch one callback after the other. Where a descriptor stands in it is
all that the invariant needs to know of the position. -/

/-- The descriptor that a task is about. -/
def Task.fd : Task → Option ℤ
  | .dispatching | .accepting => none
  | .adding fd | .receiving fd _ | .received fd _ | .flushing fd _ _ | .modifying fd
  | .removing fd | .closing fd => some fd

/-- The role of a descriptor in what the server is doing. -/
inductive Role
  /-- No callback of it is left. -/
  | settled
  /-- A callback of it is still to be run. -/
  | pending (events : UInt32)
  | busy (task : Task)
  /-- The server has failed. -/
  | abandoned
  deriving Repr, DecidableEq

/-- The role of a descriptor whose turn has not come yet. -/
def pendingRole : List (Dispatch Callback) → ℤ → Role
  | [], _ => .settled
  | event :: rest, fd => if fd = event.fd then .pending event.events else pendingRole rest fd

def Position.role : Position → ℤ → Role
  | .waiting, _ => .settled
  | .running task rest, fd => if task.fd = some fd then .busy task else pendingRole rest fd
  | .failed _, _ => .abandoned

section Role

variable {rest : List (Dispatch Callback)} {event : Dispatch Callback} {task : Task} {fd : ℤ}

private theorem pendingRole_of_notMem (h : fd ∉ rest.map Dispatch.fd) :
    pendingRole rest fd = .settled := by
  induction rest with
  | nil => rfl
  | cons event rest ih =>
    rw [List.map_cons, List.mem_cons, not_or] at h
    rw [pendingRole, if_neg h.1, ih h.2]

theorem exists_of_mem_pendingRole (h : fd ∈ rest.map Dispatch.fd) :
    ∃ events, pendingRole rest fd = .pending events := by
  induction rest with
  | nil => cases h
  | cons event rest ih =>
    rw [pendingRole]
    split
    · exact ⟨_, rfl⟩
    · rename_i hne
      exact ih ((List.mem_cons.mp h).resolve_left hne)

theorem exists_of_pendingRole_ne (h : pendingRole rest fd ≠ .settled) :
    ∃ event ∈ rest, event.fd = fd ∧ pendingRole rest fd = .pending event.events := by
  induction rest with
  | nil => exact absurd rfl h
  | cons event rest ih =>
    rw [pendingRole] at h ⊢
    split at h
    · rename_i heq
      exact ⟨event, List.mem_cons_self, heq.symm, if_pos heq⟩
    · rename_i hne
      obtain ⟨event', hmem, hfd, hrole⟩ := ih h
      exact ⟨event', List.mem_cons_of_mem _ hmem, hfd, (if_neg hne).trans hrole⟩

theorem pendingRole_cons_self :
    pendingRole (event :: rest) event.fd = .pending event.events :=
  if_pos rfl

theorem pendingRole_cons_of_ne (h : fd ≠ event.fd) :
    pendingRole (event :: rest) fd = pendingRole rest fd :=
  if_neg h

theorem role_of_fd_eq (task : Task) (h : task.fd = some fd) :
    (Position.running task rest).role fd = .busy task := by
  rw [Position.role, if_pos h]

theorem role_of_fd_ne (task : Task) (h : task.fd ≠ some fd) :
    (Position.running task rest).role fd = pendingRole rest fd := by
  rw [Position.role, if_neg h]

theorem role_of_fd_eq_none (task : Task) (h : task.fd = none) :
    (Position.running task rest).role fd = pendingRole rest fd :=
  role_of_fd_ne task (h ▸ (Option.some_ne_none fd).symm)

end Role

/-! ## Entries

What is known of one descriptor in the three tables, against its role. What the network does to the
socket changes the entry and not the role. -/

/-- What is known of a descriptor. -/
structure Entry where
  socket : Option Socket
  client : Option Client
  watcher : Option (Watcher Callback)
  mask : Option UInt32
  ready : Bool

def System.entry (s : System) (fd : ℤ) : Entry :=
  ⟨s.sockets fd, s.clients fd, s.reactor.watchers fd, s.reactor.kernel fd, s.ready fd⟩

/-- Every byte that has arrived has been sent back, or is to be sent back, or has not been
received. -/
def Accounted (socket : Socket) (client : Client) : Prop :=
  socket.arrived = socket.sent ++ client.out ++ socket.inbox

theorem Accounted.isPrefix {socket : Socket} {client : Client} (h : Accounted socket client) :
    socket.sent <+: socket.arrived := by
  rw [h, List.append_assoc]
  exact List.prefix_append _ _

/-- What a role says about a client that is registered. Outside `flushClient`, bytes are left over
only because `send` has reported a full buffer; and a client is closed if its connection has failed
or all bytes have been received. -/
def Role.Allows : Role → Socket → Client → Bool → Bool → Prop
  | .settled, socket, client, writing, ready =>
      (client.out ≠ [] → writing = true ∧ socket.stalled = true) ∧
        (ready = false → reported socket.poll (toNativeEvents (interest writing)) = 0)
  | .pending events, socket, client, _, _ =>
      (client.out ≠ [] → socket.stalled = true) ∧
        ((isError events || hangUp events) = true → socket.failed = true)
  | .busy (.receiving _ _), socket, client, _, _
  | .busy (.received _ _), socket, client, _, _
  | .busy (.modifying _), socket, client, _, _ => client.out ≠ [] → socket.stalled = true
  | .busy (.flushing _ _ _), _, _, _, _ => True
  | .busy (.removing _), socket, client, _, _ =>
      socket.failed = true ∨ socket.peerShutdown = true ∧ socket.inbox = [] ∧
        (client.out ≠ [] → socket.stalled = true)
  | _, _, _, _, _ => False

inductive Entry.Ok (fd : ℤ) : Role → Entry → Prop
  | free {ready : Bool} : Ok fd .settled ⟨none, none, none, none, ready⟩
  /-- Accepted, but not registered yet. -/
  | adding {socket : Socket} {ready : Bool} : 0 ≤ fd → Accounted socket ⟨[]⟩ →
      Ok fd (.busy (.adding fd)) ⟨some socket, some ⟨[]⟩, none, none, ready⟩
  | serving {role : Role} {socket : Socket} {client : Client} {writing ready : Bool} :
      Accounted socket client → role.Allows socket client writing ready →
      Ok fd role ⟨some socket, some client, some ⟨interest writing, .handleClient⟩,
        some (toNativeEvents (interest writing)), ready⟩
  /-- Removed, but not closed yet. -/
  | closing {socket : Socket} {mask : Option UInt32} {ready : Bool} :
      socket.sent <+: socket.arrived →
      Ok fd (.busy (.closing fd)) ⟨some socket, none, none, mask, ready⟩
  | abandoned {entry : Entry} :
      (∀ socket, entry.socket = some socket → socket.sent <+: socket.arrived) →
      (∀ socket client, entry.socket = some socket → entry.client = some client →
        Accounted socket client) → Ok fd .abandoned entry

section Entry

variable {fd : ℤ} {role : Role} {entry : Entry}

theorem Entry.Ok.isPrefix (h : entry.Ok fd role) {socket : Socket}
    (hsocket : entry.socket = some socket) : socket.sent <+: socket.arrived := by
  cases h with
  | free => cases hsocket
  | adding _ hsum => exact Option.some.inj hsocket ▸ hsum.isPrefix
  | serving hsum _ => exact Option.some.inj hsocket ▸ hsum.isPrefix
  | closing hpre => exact Option.some.inj hsocket ▸ hpre
  | abandoned hpre _ => exact hpre socket hsocket

theorem Entry.Ok.accounted (h : entry.Ok fd role) {socket : Socket} {client : Client}
    (hsocket : entry.socket = some socket) (hclient : entry.client = some client) :
    Accounted socket client := by
  cases h with
  | free => cases hsocket
  | adding _ hsum => exact Option.some.inj hsocket ▸ Option.some.inj hclient ▸ hsum
  | serving hsum _ => exact Option.some.inj hsocket ▸ Option.some.inj hclient ▸ hsum
  | closing => cases hclient
  | abandoned _ hsum => exact hsum socket client hsocket hclient

/-- The server fails: the bytes are accounted for still. -/
theorem Entry.Ok.abandon (h : entry.Ok fd role) {watcher : Option (Watcher Callback)}
    {mask : Option UInt32} {ready : Bool} :
    Entry.Ok fd .abandoned ⟨entry.socket, entry.client, watcher, mask, ready⟩ :=
  .abandoned (fun _ hsocket ↦ h.isPrefix hsocket) fun _ _ hsocket hclient ↦
    h.accounted hsocket hclient

theorem Entry.Ok.setReady (h : entry.Ok fd role) :
    Entry.Ok fd role { entry with ready := true } := by
  cases h with
  | free => exact .free
  | adding hfd hsum => exact .adding hfd hsum
  | closing hpre => exact .closing hpre
  | abandoned hpre hsum => exact .abandoned hpre hsum
  | serving hsum hallows =>
    refine .serving hsum ?_
    cases role with
    | settled => exact ⟨hallows.1, fun hready ↦ by cases hready⟩
    | pending events => exact hallows
    | busy task => cases task <;> exact hallows
    | abandoned => exact hallows

/-- What may happen to a socket in the network. -/
structure Evolves (socket socket' : Socket) (bytes : List UInt8) : Prop where
  inbox : socket'.inbox = socket.inbox ++ bytes
  arrived : socket'.arrived = socket.arrived ++ bytes
  sent : socket'.sent = socket.sent
  stalled : socket'.stalled = socket.stalled
  failed : socket.failed = true → socket'.failed = true
  peerShutdown : socket.peerShutdown = true → socket'.peerShutdown = true ∧ bytes = []

namespace Evolves

variable {socket socket' : Socket} {bytes : List UInt8} {client : Client}

theorem accounted (h : Evolves socket socket' bytes) (hsum : Accounted socket client) :
    Accounted socket' client := by
  rw [Accounted, h.arrived, h.sent, h.inbox, hsum, List.append_assoc _ socket.inbox]

theorem isPrefix (h : Evolves socket socket' bytes) (hpre : socket.sent <+: socket.arrived) :
    socket'.sent <+: socket'.arrived := by
  rw [h.arrived, h.sent]
  exact hpre.trans (List.prefix_append _ _)

end Evolves

/-- **The network.** Whatever happens to a socket, the descriptor gets on the ready list if it was
not to be reported before and is now. -/
theorem Entry.Ok.evolve {socket socket' : Socket} {bytes : List UInt8} (h : entry.Ok fd role)
    (hsocket : entry.socket = some socket) (hevolves : Evolves socket socket' bytes) (ready' : Bool)
    (hedge : ∀ writing, entry.mask = some (toNativeEvents (interest writing)) → ready' = false →
      entry.ready = false ∧ (reported socket.poll (toNativeEvents (interest writing)) = 0 →
        reported socket'.poll (toNativeEvents (interest writing)) = 0)) :
    Entry.Ok fd role ⟨some socket', entry.client, entry.watcher, entry.mask, ready'⟩ := by
  cases h with
  | free => cases hsocket
  | adding hfd hsum =>
    obtain rfl := Option.some.inj hsocket
    exact .adding hfd (hevolves.accounted hsum)
  | closing hpre =>
    obtain rfl := Option.some.inj hsocket
    exact .closing (hevolves.isPrefix hpre)
  | abandoned hpre hsum =>
    refine .abandoned (fun _ heq ↦ ?_) fun _ client heq hclient ↦ ?_
    · exact Option.some.inj heq ▸ hevolves.isPrefix (hpre _ hsocket)
    · exact Option.some.inj heq ▸ hevolves.accounted (hsum _ client hsocket hclient)
  | @serving _ held client writing ready hsum hallows =>
    obtain rfl := Option.some.inj hsocket
    refine .serving (hevolves.accounted hsum) ?_
    have hstalled : (client.out ≠ [] → held.stalled = true) →
        client.out ≠ [] → socket'.stalled = true := fun hout hne ↦ hevolves.stalled ▸ hout hne
    cases role with
    | settled =>
      refine ⟨fun hne ↦ ⟨(hallows.1 hne).1, hevolves.stalled ▸ (hallows.1 hne).2⟩, fun hready ↦ ?_⟩
      obtain ⟨hbefore, hquiet⟩ := hedge writing rfl hready
      exact hquiet (hallows.2 hbefore)
    | pending events => exact ⟨hstalled hallows.1, fun herror ↦ hevolves.failed (hallows.2 herror)⟩
    | abandoned => exact hallows
    | busy task =>
      cases task with
      | receiving | received | modifying => exact hstalled hallows
      | removing =>
        rcases hallows with hfailed | ⟨hshutdown, hinbox, hout⟩
        · exact Or.inl (hevolves.failed hfailed)
        · obtain ⟨hshutdown', rfl⟩ := hevolves.peerShutdown hshutdown
          refine Or.inr ⟨hshutdown', ?_, hstalled hout⟩
          rw [hevolves.inbox, hinbox, List.append_nil]
      | _ => exact hallows

end Entry

/-! ## The invariant

Every descriptor has its entry, a batch has one callback for each, and nothing else is shared. So a
step has to be checked for the one descriptor that it is about. -/

/-- The descriptors of a batch that are left, those of the present callback first. -/
def Task.fds (listenFd : ℤ) : Task → List ℤ
  | .dispatching => []
  | .accepting => [listenFd]
  | .adding fd => [fd, listenFd]
  | .receiving fd _ | .received fd _ | .flushing fd _ _ | .modifying fd | .removing fd
  | .closing fd => [fd]

def Position.fds (listenFd : ℤ) : Position → List ℤ
  | .running task rest => task.fds listenFd ++ rest.map Dispatch.fd
  | _ => []

/-- A batch has one callback for a descriptor, the one that was registered for it. -/
structure Batch (wakeFd listenFd : ℤ) (task : Task) (rest : List (Dispatch Callback)) : Prop where
  nodup : (task.fds listenFd ++ rest.map Dispatch.fd).Nodup
  task : ∀ fd, task.fd = some fd → fd ≠ listenFd ∧ fd ≠ wakeFd
  callback : ∀ event ∈ rest, event.fd ≠ wakeFd ∧
    (event.fd = listenFd ∧ event.callback = .acceptClients ∨
      event.fd ≠ listenFd ∧ event.callback = .handleClient)

/-- A closed connection. -/
structure Closed.Ok (c : Closed) : Prop where
  sum : Accounted c.socket ⟨c.out⟩
  served : c.socket.failed = false → c.socket.peerShutdown = true ∧ c.socket.inbox = [] ∧
    (c.out ≠ [] → c.socket.stalled = true)

structure Inv (wakeFd listenFd : ℤ) (s : System) : Prop where
  wakeFd_eq : s.reactor.wakeFd = wakeFd
  listenFd_eq : s.listenFd = listenFd
  distinct : wakeFd ≠ listenFd
  wake : s.sockets wakeFd = none
  noClient : s.clients listenFd = none ∧ s.clients wakeFd = none
  noWatcher : s.reactor.watchers wakeFd = none
  listener : s.sockets listenFd = none ∧
    s.reactor.watchers listenFd = some ⟨interest false, .acceptClients⟩ ∧
    s.reactor.kernel listenFd = some (toNativeEvents (interest false))
  backlog : s.ready listenFd = true ∨ s.backlog = 0 ∨ listenFd ∈ s.position.fds listenFd ∨
    ∃ e, s.position = .failed e
  batch : ∀ task rest, s.position = .running task rest → Batch wakeFd listenFd task rest
  entries : ∀ fd, fd ≠ listenFd → fd ≠ wakeFd → (s.entry fd).Ok fd (s.position.role fd)
  closed : ∀ c ∈ s.closed, c.Ok

section Steps

variable {wakeFd listenFd : ℤ} {s s' : System} {f : ℤ}

/-- Nothing is known of other descriptors that was not known before. -/
structure Frame (f : ℤ) (s s' : System) : Prop where
  wakeFd : s'.reactor.wakeFd = s.reactor.wakeFd
  listenFd : s'.listenFd = s.listenFd
  entry : ∀ fd, fd ≠ f → s'.entry fd = s.entry fd

/-- **The frame rule.** A step that changes the entry and the role of one client. -/
theorem Inv.touch (h : Inv wakeFd listenFd s) (hf : f ≠ listenFd ∧ f ≠ wakeFd)
    (hframe : Frame f s s')
    (hrole : ∀ fd, fd ≠ f → fd ≠ listenFd → s'.position.role fd = s.position.role fd)
    (hok : (s'.entry f).Ok f (s'.position.role f))
    (hbacklog : s.ready listenFd = true ∨ s'.backlog = 0 ∨ listenFd ∈ s'.position.fds listenFd ∨
      ∃ e, s'.position = .failed e)
    (hbatch : ∀ task rest, s'.position = .running task rest → Batch wakeFd listenFd task rest)
    (hclosed : ∀ c ∈ s'.closed, c.Ok) : Inv wakeFd listenFd s' where
  wakeFd_eq := hframe.wakeFd.trans h.wakeFd_eq
  listenFd_eq := hframe.listenFd.trans h.listenFd_eq
  distinct := h.distinct
  wake := (congrArg Entry.socket (hframe.entry wakeFd hf.2.symm)).trans h.wake
  noClient :=
    ⟨(congrArg Entry.client (hframe.entry listenFd hf.1.symm)).trans h.noClient.1,
      (congrArg Entry.client (hframe.entry wakeFd hf.2.symm)).trans h.noClient.2⟩
  noWatcher := (congrArg Entry.watcher (hframe.entry wakeFd hf.2.symm)).trans h.noWatcher
  listener := by
    have hentry := hframe.entry listenFd hf.1.symm
    exact ⟨(congrArg Entry.socket hentry).trans h.listener.1,
      (congrArg Entry.watcher hentry).trans h.listener.2.1,
      (congrArg Entry.mask hentry).trans h.listener.2.2⟩
  backlog := by
    rw [show s'.ready listenFd = s.ready listenFd from
      congrArg Entry.ready (hframe.entry listenFd hf.1.symm)]
    exact hbacklog
  batch := hbatch
  entries := by
    intro fd hlisten hwake
    by_cases hfd : fd = f
    · exact hfd ▸ hok
    · rw [hframe.entry fd hfd, hrole fd hfd hlisten]
      exact h.entries fd hlisten hwake
  closed := hclosed

theorem Inv.touch_network (h : Inv wakeFd listenFd s) (hf : f ≠ listenFd ∧ f ≠ wakeFd)
    (hframe : Frame f s s') (hposition : s'.position = s.position)
    (hbacklog : s'.backlog = s.backlog) (hclosed : s'.closed = s.closed)
    (hok : (s'.entry f).Ok f (s.position.role f)) :
    Inv wakeFd listenFd s' := by
  refine h.touch hf hframe (fun _ _ _ ↦ by rw [hposition]) (by rwa [hposition]) ?_ ?_ ?_
  · rw [hposition, hbacklog]
    exact h.backlog
  · rw [hposition]
    exact h.batch
  · rw [hclosed]
    exact h.closed

theorem Inv.touch_task (h : Inv wakeFd listenFd s) (hf : f ≠ listenFd ∧ f ≠ wakeFd)
    (hframe : Frame f s s') {task task' : Task} {rest : List (Dispatch Callback)}
    (hposition : s.position = .running task rest) (hposition' : s'.position = .running task' rest)
    (htask : task.fd = some f) (hfds : (task'.fds listenFd).Sublist (task.fds listenFd))
    (htask' : ∀ fd, task'.fd = some fd → fd = f)
    (hlisten : listenFd ∈ task.fds listenFd → listenFd ∈ task'.fds listenFd)
    (hbacklog : s'.backlog = s.backlog) (hclosed : ∀ c ∈ s'.closed, c.Ok)
    (hok : (s'.entry f).Ok f ((Position.running task' rest).role f)) :
    Inv wakeFd listenFd s' := by
  have hbatch := h.batch task rest hposition
  refine h.touch hf hframe (fun fd hfd _ ↦ ?_) (by rwa [hposition']) ?_ ?_ hclosed
  · rw [hposition, hposition', role_of_fd_ne _ fun heq ↦ hfd (htask' fd heq),
      role_of_fd_ne _ fun heq ↦ hfd (Option.some.inj (heq.symm.trans htask))]
  · rw [hposition', hbacklog]
    refine h.backlog.imp_right (Or.imp_right (Or.imp ?_ ?_))
    · rw [hposition]
      intro hmem
      exact List.mem_append.mpr ((List.mem_append.mp hmem).imp_left hlisten)
    · rintro ⟨e, he⟩
      rw [hposition] at he
      cases he
  · intro task'' rest'' heq
    rw [hposition'] at heq
    cases heq
    exact ⟨hbatch.nodup.sublist (hfds.append_right _), fun fd hfd ↦ htask' fd hfd ▸ hf,
      hbatch.callback⟩

/-- When the server is done with a client, no callback of it is left. -/
theorem Inv.role_dispatching (h : Inv wakeFd listenFd s) {task : Task}
    {rest : List (Dispatch Callback)} (hposition : s.position = .running task rest)
    (hf : f ∈ task.fds listenFd) (task' : Task) (htask' : task'.fd = none) :
    (Position.running task' rest).role f = .settled := by
  rw [role_of_fd_ne _ (htask' ▸ (Option.some_ne_none f).symm)]
  exact pendingRole_of_notMem fun hmem ↦
    (List.nodup_append.mp (h.batch task rest hposition).nodup).2.2 f hf f hmem rfl

/-! ### The network -/

theorem Inv.ne_of_socket (h : Inv wakeFd listenFd s) {socket : Socket}
    (hsocket : s.sockets f = some socket) : f ≠ listenFd ∧ f ≠ wakeFd := by
  constructor
  · rintro rfl
    rw [h.listener.1] at hsocket
    cases hsocket
  · rintro rfl
    rw [h.wake] at hsocket
    cases hsocket

theorem Inv.ne_of_client (h : Inv wakeFd listenFd s) {client : Client}
    (hclient : s.clients f = some client) : f ≠ listenFd ∧ f ≠ wakeFd := by
  constructor
  · rintro rfl
    rw [h.noClient.1] at hclient
    cases hclient
  · rintro rfl
    rw [h.noClient.2] at hclient
    cases hclient

/-- A socket evolves, and the descriptor is signalled if it is to be reported now and was not
before. -/
theorem Inv.evolve (h : Inv wakeFd listenFd s) {socket socket' : Socket} {bytes : List UInt8}
    (hsocket : s.sockets f = some socket) (hevolves : Evolves socket socket' bytes) (bits : UInt32)
    (hedge : ∀ writing, reported bits (toNativeEvents (interest writing)) = 0 →
      reported socket.poll (toNativeEvents (interest writing)) = 0 →
        reported socket'.poll (toNativeEvents (interest writing)) = 0) :
    Inv wakeFd listenFd ((s.setSocket f socket').signal f bits) := by
  have hf := h.ne_of_socket hsocket
  have hframe : Frame f s ((s.setSocket f socket').signal f bits) := by
    refine ⟨rfl, rfl, fun fd hfd ↦ ?_⟩
    simp only [System.entry, System.signal, System.setSocket, Function.update_of_ne hfd]
  refine h.touch_network hf hframe rfl rfl rfl ?_
  have hok := (h.entries f hf.1 hf.2).evolve hsocket hevolves
    (s.ready f || (s.reactor.kernel f).any fun mask ↦ reported bits mask ≠ 0)
    fun writing hmask hready ↦ ?_
  · simpa only [System.entry, System.signal, System.setSocket, Function.update_self] using hok
  · have hmask' : s.reactor.kernel f = some (toNativeEvents (interest writing)) := hmask
    rw [hmask', Option.any_some, Bool.or_eq_false_iff, decide_eq_false_iff_not, not_not] at hready
    exact ⟨hready.1, hedge writing hready.2⟩

theorem reported_in_ne_zero (writing : Bool) :
    reported EPOLLIN (toNativeEvents (interest writing)) ≠ 0 := by
  revert writing
  decide

private theorem reported_out_ne_zero : reported EPOLLOUT (toNativeEvents (interest true)) ≠ 0 := by
  decide

theorem Inv.arrive (h : Inv wakeFd listenFd s) {bytes : List UInt8}
    (hs : s.arrive f bytes = some s') : Inv wakeFd listenFd s' := by
  rw [System.arrive] at hs
  split at hs
  · cases hs
  · rename_i socket hsocket
    rw [Option.ite_none_right_eq_some, Option.some.injEq] at hs
    obtain ⟨⟨-, hshutdown, -⟩, rfl⟩ := hs
    have hevolves : Evolves socket { socket with
        inbox := socket.inbox ++ bytes
        arrived := socket.arrived ++ bytes } bytes := by
      refine ⟨rfl, rfl, rfl, rfl, id, fun htrue ↦ ?_⟩
      rw [hshutdown] at htrue
      cases htrue
    exact h.evolve hsocket hevolves EPOLLIN fun writing hnone ↦
      absurd hnone (reported_in_ne_zero writing)

theorem Inv.shutdown (h : Inv wakeFd listenFd s) (hs : s.shutdown f = some s') :
    Inv wakeFd listenFd s' := by
  obtain ⟨socket, hsocket, rfl⟩ := Option.map_eq_some_iff.mp hs
  have hedge : ∀ writing,
      reported (EPOLLIN ||| EPOLLRDHUP) (toNativeEvents (interest writing)) ≠ 0 := by
    decide
  have hevolves : Evolves socket { socket with peerShutdown := true } [] :=
    ⟨(List.append_nil _).symm, (List.append_nil _).symm, rfl, rfl, id, fun _ ↦ ⟨rfl, rfl⟩⟩
  exact h.evolve hsocket hevolves _ fun writing hnone ↦ absurd hnone (hedge writing)

theorem Inv.reset (h : Inv wakeFd listenFd s) (hs : s.reset f = some s') :
    Inv wakeFd listenFd s' := by
  obtain ⟨socket, hsocket, rfl⟩ := Option.map_eq_some_iff.mp hs
  have hedge : ∀ writing, reported (EPOLLIN ||| EPOLLRDHUP ||| EPOLLERR ||| EPOLLHUP)
      (toNativeEvents (interest writing)) ≠ 0 := by
    decide
  have hevolves : Evolves socket { socket with failed := true } [] :=
    ⟨(List.append_nil _).symm, (List.append_nil _).symm, rfl, rfl, fun _ ↦ rfl,
      fun htrue ↦ ⟨htrue, rfl⟩⟩
  exact h.evolve hsocket hevolves _ fun writing hnone ↦ absurd hnone (hedge writing)

private theorem signal_zero (s : System) (f : ℤ) : s.signal f 0 = s := by
  have hnone : ((s.reactor.kernel f).any fun mask ↦ reported 0 mask ≠ 0) = false := by
    cases s.reactor.kernel f with
    | none => rfl
    | some mask => simp [reported]
  rw [System.signal, hnone, Bool.or_false, Function.update_eq_self]

theorem Inv.drain (h : Inv wakeFd listenFd s) {amount : ℕ} (hs : s.drain f amount = some s') :
    Inv wakeFd listenFd s' := by
  obtain ⟨socket, hsocket, rfl⟩ := Option.map_eq_some_iff.mp hs
  have hevolves : Evolves socket { socket with space := socket.space + amount } [] :=
    ⟨(List.append_nil _).symm, (List.append_nil _).symm, rfl, rfl, id, fun htrue ↦ ⟨htrue, rfl⟩⟩
  dsimp only
  split
  · refine h.evolve hsocket hevolves _ fun writing hnone hquiet ↦ ?_
    rw [poll_eq_zero_iff] at hquiet ⊢
    refine ⟨hquiet.1, hquiet.2.1, hquiet.2.2.1, fun hwriting ↦ ?_⟩
    subst hwriting
    exact absurd hnone reported_out_ne_zero
  · -- the buffer was not full, or nothing has been taken out
    rename_i hnews
    have hsame := h.evolve hsocket hevolves 0 fun writing _ hquiet ↦ by
      rw [poll_eq_zero_iff] at hquiet ⊢
      refine ⟨hquiet.1, hquiet.2.1, hquiet.2.2.1, fun hwriting ↦ ?_⟩
      have hspace := hquiet.2.2.2 hwriting
      have hamount : ¬0 < amount := fun hpos ↦ hnews ⟨hspace, hpos⟩
      dsimp only
      omega
    rwa [signal_zero] at hsame

theorem Inv.setReady (h : Inv wakeFd listenFd s) (fd : ℤ) :
    Inv wakeFd listenFd { s with ready := Function.update s.ready fd true } where
  wakeFd_eq := h.wakeFd_eq
  listenFd_eq := h.listenFd_eq
  distinct := h.distinct
  wake := h.wake
  noClient := h.noClient
  noWatcher := h.noWatcher
  listener := h.listener
  backlog := by
    refine h.backlog.imp_left fun hready ↦ ?_
    by_cases hfd : listenFd = fd
    · simp only [hfd, Function.update_self]
    · simp only [Function.update_of_ne hfd, hready]
  batch := h.batch
  entries := by
    intro fd' hlisten hwake
    have hok := h.entries fd' hlisten hwake
    by_cases hfd : fd' = fd
    · have hready := hok.setReady
      simpa only [System.entry, hfd, Function.update_self] using hready
    · simpa only [System.entry, Function.update_of_ne hfd] using hok
  closed := h.closed

theorem Inv.connect (h : Inv wakeFd listenFd s) : Inv wakeFd listenFd s.connect := by
  have hready : s.connect.ready = Function.update s.ready listenFd true := by
    rw [System.connect, System.signal]
    dsimp only
    rw [h.listenFd_eq, h.listener.2.2, Option.any_some]
    have hin : decide (reported EPOLLIN (toNativeEvents (interest false)) ≠ 0) = true := by decide
    rw [hin, Bool.or_true]
  have hset := h.setReady listenFd
  refine ⟨hset.wakeFd_eq, hset.listenFd_eq, hset.distinct, hset.wake, hset.noClient,
    hset.noWatcher, hset.listener, Or.inl ?_, hset.batch, ?_, hset.closed⟩
  · rw [hready, Function.update_self]
  · intro fd hlisten hwake
    have hok := hset.entries fd hlisten hwake
    rw [System.entry] at hok ⊢
    rw [hready]
    exact hok

end Steps

end EchoServer

end FoundationComponents
