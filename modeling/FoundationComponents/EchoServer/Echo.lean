import FoundationComponents.EchoServer.Serving

/-!
# What the echo server does for its clients

The first result is about the bytes: no client gets a byte twice, or one of another client, or bytes
in another order. The second is about the events: when the server blocks in `epoll_wait`, everything
that has arrived has been sent back as far as the send buffers take it, although the kernel reports
no descriptor twice. The third is about connections that end, and the last two about the three
tables in which a client stands.
-/

namespace FoundationComponents

namespace EchoServer

open Reactor

variable {wakeFd listenFd : ℤ} {s : System}

/-! ## Bytes -/

theorem Inv.accounted (h : Inv wakeFd listenFd s) {fd : ℤ} {socket : Socket}
    (hsocket : s.sockets fd = some socket) : socket.sent <+: socket.arrived ∧
      ∀ client, s.clients fd = some client → Accounted socket client := by
  have hne := h.ne_of_socket hsocket
  have hok := h.entries fd hne.1 hne.2
  exact ⟨hok.isPrefix hsocket, fun client ↦ hok.accounted hsocket⟩

/-- **The echo.** In every run, whatever the network does: the bytes that have arrived from a client
are those sent back to it, those left in its output and those not received yet, in this order. This
also holds of connections that have been closed, for the bytes that had arrived. -/
theorem echo_accounted (hlisten : 0 ≤ listenFd) (hne : wakeFd ≠ listenFd)
    (h : (machine wakeFd listenFd).Reachable s) :
    (∀ fd socket client, s.sockets fd = some socket → s.clients fd = some client →
      socket.arrived = socket.sent ++ client.out ++ socket.inbox) ∧
    (∀ fd socket, s.sockets fd = some socket → socket.sent <+: socket.arrived) ∧
    ∀ c ∈ s.closed, c.socket.arrived = c.socket.sent ++ c.out ++ c.socket.inbox := by
  have hI := inv_of_reachable hlisten hne h
  exact ⟨fun fd socket client hsocket ↦ (hI.accounted hsocket).2 client,
    fun fd socket hsocket ↦ (hI.accounted hsocket).1, fun c hc ↦ (hI.closed c hc).sum⟩

/-- A client connects and sends three bytes, of which the send buffer takes two, and the server is
in `epoll_wait` again. -/
def partly : List Action :=
  [.connect, .wait [5], .proceed, .accept (.connection 6 [1, 2, 3] 2), .control none,
    .accept .again, .proceed, .wait [6], .proceed, .recv (.done 3), .send (.done 2), .send .again,
    .recv .again, .proceed, .control none, .proceed]

/-- Three bytes arrive, and the send buffer takes two of them. -/
theorem echo_accounted_partly : ∃ s, (machine 4 5).Reachable s ∧
    (s.sockets 6).map Socket.sent = some [1, 2] ∧ (s.clients 6).map Client.out = some [3] ∧
    ∀ socket client, s.sockets 6 = some socket → s.clients 6 = some client →
      socket.arrived = socket.sent ++ client.out ++ socket.inbox := by
  obtain ⟨s, hs, hfeatures⟩ := Machine.exists_reachable_of_run
    (fun s ↦ ((s.sockets 6).map Socket.sent, (s.clients 6).map Client.out))
    partly (b := (some [1, 2], some [3])) (M := machine 4 5) (by decide +kernel)
  obtain ⟨hsent, hout⟩ := Prod.mk.inj hfeatures
  exact ⟨s, hs, hsent, hout, (echo_accounted (by decide) (by decide) hs).1 6⟩

/-! ## Events

The kernel reports an edge-triggered descriptor once. That nothing is forgotten rests on what the
server has last seen of it: `EAGAIN` from `accept4` and `recv`, and a full buffer from `send`. -/

/-- **No event is lost.** When the server is in `epoll_wait` and the kernel has nothing to report,
no connection waits to be accepted, and every client has got back everything that has arrived from
it, unless its send buffer is full; then the server will be told when it is not. Clients that have
shut down or failed have been closed. -/
theorem drained_of_blocked (hlisten : 0 ≤ listenFd) (hne : wakeFd ≠ listenFd)
    (h : (machine wakeFd listenFd).Reachable s) (hwaiting : s.position = .waiting)
    (hquiet : ∀ fd, s.ready fd = true → s.revents fd = 0) :
    s.backlog = 0 ∧ ∀ fd client, s.clients fd = some client → ∃ socket,
      s.sockets fd = some socket ∧ socket.arrived = socket.sent ++ client.out ∧
      socket.peerShutdown = false ∧ socket.failed = false ∧
      (client.out = [] ∨
        socket.space = 0 ∧ s.reactor.kernel fd = some (toNativeEvents (interest true))) := by
  have hI := inv_of_reachable hlisten hne h
  constructor
  · have hbacklog := hI.backlog
    rw [hwaiting] at hbacklog
    rcases hbacklog with hready | hzero | hmem | ⟨e, he⟩
    · -- the listening descriptor would be reported
      by_contra hpos
      have hrevents := hquiet listenFd hready
      rw [System.revents, hI.listener.2.2] at hrevents
      dsimp only at hrevents
      rw [System.poll, if_pos hI.listenFd_eq.symm, if_pos (Nat.pos_of_ne_zero hpos)] at hrevents
      exact reported_in_ne_zero false hrevents
    · exact hzero
    · cases hmem
    · cases he
  · intro fd client hclient
    have hfd : fd ≠ listenFd ∧ fd ≠ wakeFd := hI.ne_of_client hclient
    have hok := hI.entries fd hfd.1 hfd.2
    rw [hwaiting] at hok
    generalize hentry : s.entry fd = entry at hok
    have hentry' : entry.client = some client := hentry ▸ hclient
    cases hok with
    | free => cases hentry'
    | @serving _ socket client' writing ready hsum hallows =>
      obtain rfl := Option.some.inj hentry'
      have hsocket : s.sockets fd = some socket := congrArg Entry.socket hentry
      have hkernel : s.reactor.kernel fd = _ := congrArg Entry.mask hentry
      have hready : s.ready fd = ready := congrArg Entry.ready hentry
      have hnone : reported socket.poll (toNativeEvents (interest writing)) = 0 := by
        cases ready with
        | false => exact hallows.2 rfl
        | true =>
          rw [← hI.revents_eq hfd.1 hsocket hkernel]
          exact hquiet fd hready
      obtain ⟨hinbox, hshutdown, hfailed, hspace⟩ := (poll_eq_zero_iff socket writing).mp hnone
      refine ⟨socket, hsocket, ?_, hshutdown, hfailed, ?_⟩
      · rw [hsum, hinbox, List.append_nil]
      · by_cases hout : client'.out = []
        · exact Or.inl hout
        · have hwriting := (hallows.1 hout).1
          exact Or.inr ⟨hspace hwriting, hwriting ▸ hkernel⟩

theorem ready_partly : ((machine 4 5).run (machine 4 5).init partly).map System.ready =
    some (Function.update (fun fd ↦ (Function.update (fun fd ↦
      Function.update (fun _ ↦ false) 5 true fd && !decide (fd ∈ [5])) 6 true) fd &&
        !decide (fd ∈ [6])) 6 false) :=
  rfl

/-- The server is blocked with one byte left over. -/
theorem drained_of_blocked_partly : ∃ s, (machine 4 5).Reachable s ∧ s.clients 6 = some ⟨[3]⟩ ∧
    ∃ socket, s.sockets 6 = some socket ∧ socket.arrived = socket.sent ++ [3] ∧
      socket.peerShutdown = false ∧ socket.failed = false ∧ (([3] : List UInt8) = [] ∨
        socket.space = 0 ∧ s.reactor.kernel 6 = some (toNativeEvents (interest true))) := by
  let M := machine 4 5
  have hrun : (M.run M.init partly).isSome = true := by decide +kernel
  obtain ⟨s, hs⟩ := Option.isSome_iff_exists.mp hrun
  have hposition : (M.run M.init partly).map System.position = some .waiting := by decide +kernel
  have hclient : (M.run M.init partly).map (fun s ↦ s.clients 6) = some (some ⟨[3]⟩) := by
    decide +kernel
  have hready : (M.run M.init partly).map System.ready = _ := ready_partly
  rw [hs, Option.map_some, Option.some.injEq] at hposition hclient hready
  have hquiet : ∀ fd, s.ready fd = false := by
    intro fd
    rw [hready]
    by_cases h6 : fd = 6
    · rw [h6, Function.update_self]
    · rw [Function.update_of_ne h6, Function.update_of_ne h6]
      by_cases h5 : fd = 5
      · simp [h5]
      · rw [Function.update_of_ne h5]
        rfl
  have hreachable := Machine.reachable_of_run hs
  refine ⟨s, hreachable, hclient, ?_⟩
  refine (drained_of_blocked (by decide) (by decide) hreachable hposition fun fd hfd ↦ ?_).2 6 _
    hclient
  rw [hquiet fd] at hfd
  cases hfd

/-! ## Connections that end

A client is closed by the server only, and the role of its descriptor at that moment says why. -/

/-- **No connection is closed early.** A connection that has not failed is closed only when its peer
has shut down and all bytes have been received; and then they have all been sent back, if `send` has
never reported a full buffer. -/
theorem echo_of_closed (hlisten : 0 ≤ listenFd) (hne : wakeFd ≠ listenFd)
    (h : (machine wakeFd listenFd).Reachable s) {c : Closed} (hc : c ∈ s.closed)
    (hfailed : c.socket.failed = false) : c.socket.peerShutdown = true ∧
      c.socket.arrived = c.socket.sent ++ c.out ∧
      (c.socket.stalled = false → c.socket.sent = c.socket.arrived) := by
  have hok := (inv_of_reachable hlisten hne h).closed c hc
  obtain ⟨hshutdown, hinbox, hout⟩ := hok.served hfailed
  have hsum : c.socket.arrived = c.socket.sent ++ c.out := by
    rw [hok.sum, hinbox, List.append_nil]
  refine ⟨hshutdown, hsum, fun hstalled ↦ ?_⟩
  have hempty : c.out = [] := by
    by_contra hne
    rw [hout hne] at hstalled
    cases hstalled
  rw [hsum, hempty, List.append_nil]

/-- A client that sends two bytes and shuts down. -/
theorem echo_of_closed_served : ∃ s c, (machine 4 5).Reachable s ∧ c ∈ s.closed ∧
    c.socket.peerShutdown = true ∧ c.socket.arrived = c.socket.sent ++ c.out ∧
      (c.socket.stalled = false → c.socket.sent = c.socket.arrived) := by
  obtain ⟨s, hs, hclosed⟩ := Machine.exists_reachable_of_run System.closed
    [.connect, .wait [5], .proceed, .accept (.connection 6 [1, 2] 9), .shutdown 6, .control none,
      .accept .again, .proceed, .wait [6], .proceed, .recv (.done 2), .send (.done 2), .proceed,
      .recv (.done 0), .control none, .close]
    (b := [⟨⟨[], true, false, 7, [1, 2], [1, 2], false⟩, []⟩]) (M := machine 4 5)
    (by decide +kernel)
  have hmem : ⟨⟨[], true, false, 7, [1, 2], [1, 2], false⟩, []⟩ ∈ s.closed :=
    hclosed ▸ List.mem_cons_self
  exact ⟨s, _, hs, hmem, echo_of_closed (by decide) (by decide) hs hmem rfl⟩

/-! ## Tables

The three tables are changed one after the other, so they differ for the descriptor that the server
is adding or closing, and for no other. -/

private theorem mem_fds_of_fd {task : Task} {fd : ℤ} (h : task.fd = some fd) :
    fd ∈ task.fds listenFd := by
  cases task with
  | dispatching | accepting => cases h
  | _ => exact Option.some.inj h ▸ List.mem_cons_self

private theorem exists_of_role_busy {position : Position} {task : Task} {fd : ℤ}
    (h : position.role fd = .busy task) : ∃ rest, position = .running task rest := by
  cases position with
  | waiting | failed => cases h
  | running task' rest =>
    by_cases hfd : task'.fd = some fd
    · rw [role_of_fd_eq _ hfd] at h
      exact ⟨rest, by rw [Role.busy.inj h]⟩
    · rw [role_of_fd_ne _ hfd] at h
      have hne : pendingRole rest fd ≠ .settled := by
        rw [h]
        exact fun heq ↦ by cases heq
      obtain ⟨event, -, -, hpending⟩ := exists_of_pendingRole_ne hne
      rw [hpending] at h
      cases h

private theorem exists_of_role_abandoned {position : Position} {fd : ℤ}
    (h : position.role fd = .abandoned) : ∃ e, position = .failed e := by
  cases position with
  | waiting => cases h
  | failed e => exact ⟨e, rfl⟩
  | running task rest =>
    by_cases hfd : task.fd = some fd
    · rw [role_of_fd_eq _ hfd] at h
      cases h
    · rw [role_of_fd_ne _ hfd] at h
      have hne : pendingRole rest fd ≠ .settled := by
        rw [h]
        exact fun heq ↦ by cases heq
      obtain ⟨event, -, -, hpending⟩ := exists_of_pendingRole_ne hne
      rw [hpending] at h
      cases h

theorem Inv.watcher_of_mem (h : Inv wakeFd listenFd s) {task : Task}
    {rest : List (Dispatch Callback)} (hposition : s.position = .running task rest)
    {event : Dispatch Callback} (hmem : event ∈ rest) (hfd : event.fd ≠ listenFd) :
    event.callback = .handleClient ∧ (s.reactor.watchers event.fd).isSome = true := by
  have hbatch := h.batch task rest hposition
  obtain ⟨hwake, ⟨hlisten, -⟩ | ⟨-, hcallback⟩⟩ := hbatch.callback event hmem
  · exact absurd hlisten hfd
  have hmem' : event.fd ∈ rest.map Dispatch.fd := List.mem_map_of_mem hmem
  have hne : task.fd ≠ some event.fd := fun heq ↦
    (List.nodup_append.mp hbatch.nodup).2.2 _ (mem_fds_of_fd heq) _ hmem' rfl
  obtain ⟨events, hpending⟩ := exists_of_mem_pendingRole hmem'
  have hok := h.entries event.fd hfd hwake
  rw [hposition, role_of_fd_ne _ hne, hpending] at hok
  generalize hentry : s.entry event.fd = entry at hok
  cases hok with
  | serving =>
    have hwatcher : s.reactor.watchers event.fd = _ := congrArg Entry.watcher hentry
    exact ⟨hcallback, by rw [hwatcher, Option.isSome_some]⟩

/-- **The tables agree.** While the server runs, a descriptor with a watcher belongs to a client, a
client to a connection, and a connection to a client; a client without a watcher is being added, and
a connection without a client is being closed. No callback is left in a batch whose client has
gone. -/
theorem tables_agree (hlisten : 0 ≤ listenFd) (hne : wakeFd ≠ listenFd)
    (h : (machine wakeFd listenFd).Reachable s) (hruns : ∀ e, s.position ≠ .failed e) {fd : ℤ}
    (hfd : fd ≠ listenFd) :
    ((s.reactor.watchers fd).isSome = true → (s.clients fd).isSome = true) ∧
    ((s.clients fd).isSome = true → (s.sockets fd).isSome = true ∧
      ((s.reactor.watchers fd).isSome = true ∨ ∃ rest, s.position = .running (.adding fd) rest)) ∧
    ((s.sockets fd).isSome = true →
      (s.clients fd).isSome = true ∨ ∃ rest, s.position = .running (.closing fd) rest) ∧
    ∀ task rest, s.position = .running task rest → ∀ event ∈ rest, event.fd = fd →
      event.callback = .handleClient ∧ (s.reactor.watchers fd).isSome = true := by
  have hI := inv_of_reachable hlisten hne h
  have hevents : ∀ task rest, s.position = .running task rest → ∀ event ∈ rest, event.fd = fd →
      event.callback = .handleClient ∧ (s.reactor.watchers fd).isSome = true := by
    rintro task rest hposition event hmem rfl
    exact hI.watcher_of_mem hposition hmem hfd
  by_cases hwake : fd = wakeFd
  · subst hwake
    rw [hI.noWatcher, hI.noClient.2, hI.wake] at *
    exact ⟨id, fun hsome ↦ (by cases hsome), Or.inl, hevents⟩
  have hok := hI.entries fd hfd hwake
  generalize hrole : s.position.role fd = role at hok
  generalize hentry : s.entry fd = entry at hok
  have hsocket : s.sockets fd = entry.socket := congrArg Entry.socket hentry
  have hclient : s.clients fd = entry.client := congrArg Entry.client hentry
  have hwatcher : s.reactor.watchers fd = entry.watcher := congrArg Entry.watcher hentry
  rw [hsocket, hclient, hwatcher]
  rw [hwatcher] at hevents
  cases hok with
  | free => exact ⟨id, fun hsome ↦ (by cases hsome), Or.inl, hevents⟩
  | adding =>
    exact ⟨fun hsome ↦ (by cases hsome), fun _ ↦ ⟨rfl, Or.inr (exists_of_role_busy hrole)⟩,
      fun _ ↦ Or.inl rfl, hevents⟩
  | serving => exact ⟨fun _ ↦ rfl, fun _ ↦ ⟨rfl, Or.inl rfl⟩, fun _ ↦ Or.inl rfl, hevents⟩
  | closing =>
    exact ⟨fun hsome ↦ (by cases hsome), fun hsome ↦ (by cases hsome),
      fun _ ↦ Or.inr (exists_of_role_busy hrole), hevents⟩
  | abandoned =>
    obtain ⟨e, he⟩ := exists_of_role_abandoned hrole
    exact absurd he (hruns e)

/-- A client that has been accepted and is not registered yet. -/
theorem tables_agree_adding : ∃ s, (machine 4 5).Reachable s ∧
    s.position = .running (.adding 6) [] ∧
    ((s.clients 6).isSome = true → (s.sockets 6).isSome = true ∧
      ((s.reactor.watchers 6).isSome = true ∨ ∃ rest, s.position = .running (.adding 6) rest)) := by
  obtain ⟨s, hs, hposition⟩ := Machine.exists_reachable_of_run System.position
    [.connect, .wait [5], .proceed, .accept (.connection 6 [] 9)]
    (b := .running (.adding 6) []) (M := machine 4 5) (by decide +kernel)
  refine ⟨s, hs, hposition, (tables_agree (by decide) (by decide) hs (fun e heq ↦ ?_)
    (by decide)).2.1⟩
  rw [hposition] at heq
  cases heq

/-- The system calls that report an error. -/
def Action.isFault : Action → Bool
  | .accept (.error _) | .control (some _) => true
  | _ => false

section Faults

variable {s' : System}

private theorem not_failed_accept {result : AcceptResult}
    (ha : (Action.accept result).isFault = false) (hruns : ∀ e, s.position ≠ .failed e)
    (hs : s.acceptClients result = some s') (e : Exception) :
    s'.position ≠ .failed e := by
  rw [System.acceptClients] at hs
  split at hs
  · cases result with
    | connection fd inbox space =>
      rw [Option.ite_none_right_eq_some, Option.some.injEq] at hs
      obtain ⟨-, rfl⟩ := hs
      exact fun heq ↦ by cases heq
    | again =>
      rw [Option.ite_none_right_eq_some, Option.some.injEq] at hs
      obtain ⟨-, rfl⟩ := hs
      exact fun heq ↦ by cases heq
    | interrupted => exact Option.some.inj hs ▸ hruns e
    | error errno => cases ha
  · cases hs

private theorem not_failed_recv {result : IoResult} (hruns : ∀ e, s.position ≠ .failed e)
    (hs : s.recv result = some s') (e : Exception) : s'.position ≠ .failed e := by
  rw [System.recv] at hs
  split at hs
  · split at hs
    · cases hs
    · split at hs
      case h_4 => exact Option.some.inj hs ▸ hruns e
      all_goals
        rw [Option.ite_none_right_eq_some, Option.some.injEq] at hs
        obtain ⟨-, rfl⟩ := hs
        exact fun heq ↦ by cases heq
  · cases hs

private theorem not_failed_send {result : IoResult} (hruns : ∀ e, s.position ≠ .failed e)
    (hs : s.send result = some s') (e : Exception) : s'.position ≠ .failed e := by
  rw [System.send] at hs
  split at hs
  · rename_i next rest hposition
    split at hs
    · rw [Option.ite_none_left_eq_some] at hs
      obtain ⟨-, hs⟩ := hs
      split at hs
      · rw [Option.ite_none_right_eq_some, Option.some.injEq] at hs
        obtain ⟨-, rfl⟩ := hs
        exact hruns e
      · rw [Option.ite_none_right_eq_some] at hs
        obtain ⟨-, hs⟩ := hs
        split at hs
        · exact Option.some.inj hs ▸ fun heq ↦ by cases heq
        · exact Option.some.inj hs ▸ fun heq ↦ by cases heq
      · exact Option.some.inj hs ▸ hruns e
      · rw [Option.ite_none_right_eq_some, Option.some.injEq] at hs
        obtain ⟨-, rfl⟩ := hs
        exact fun heq ↦ by cases heq
    · cases hs
  · cases hs

/-- Without a fault `epoll_ctl` does what the server asks for, since the tables agree. -/
theorem Inv.not_failed_control (h : Inv wakeFd listenFd s) (hs : s.control none = some s')
    (e : Exception) : s'.position ≠ .failed e := by
  rw [System.control] at hs
  split at hs
  · rename_i fd rest hposition
    have hne := (h.batch _ rest hposition).task fd rfl
    have hok := h.entries fd hne.1 hne.2
    rw [hposition, role_of_fd_eq (.adding fd) rfl] at hok
    generalize hentry : s.entry fd = entry at hok
    cases hok with
    | serving _ hallows => exact hallows.elim
    | adding hfd _ =>
      rw [add_eq hfd (h.wakeFd_eq ▸ hne.2) (congrArg Entry.watcher hentry)
        (congrArg Entry.mask hentry)] at hs
      exact Option.some.inj hs ▸ fun heq ↦ by cases heq
  · rename_i fd rest hposition
    obtain ⟨socket, client, writing, -, hclient, hwatcher, hkernel, -, -⟩ :=
      h.serving hposition rfl (fun heq ↦ by cases heq) (fun heq ↦ by cases heq)
    rw [hclient] at hs
    dsimp only at hs
    rw [modify_eq hwatcher hkernel] at hs
    exact Option.some.inj hs ▸ fun heq ↦ by cases heq
  · rename_i fd rest hposition
    obtain ⟨socket, client, writing, -, -, hwatcher, hkernel, -, -⟩ :=
      h.serving hposition rfl (fun heq ↦ by cases heq) (fun heq ↦ by cases heq)
    rw [remove_eq hwatcher hkernel] at hs
    exact Option.some.inj hs ▸ fun heq ↦ by cases heq
  · cases hs

private theorem not_failed_proceed (hs : s.proceed = some s') (e : Exception) :
    s'.position ≠ .failed e := by
  rw [System.proceed] at hs
  repeat' split at hs
  all_goals
    first
      | exact Option.some.inj hs ▸ fun heq ↦ by cases heq
      | cases hs

theorem Inv.not_failed_step (h : Inv wakeFd listenFd s) (hruns : ∀ e, s.position ≠ .failed e)
    {a : Action} (ha : a.isFault = false) (hs : s.step a = some s') (e : Exception) :
    s'.position ≠ .failed e := by
  cases a with
  | connect | wakeUp fd => exact Option.some.inj hs ▸ hruns e
  | arrive fd bytes =>
    rw [System.step, System.arrive] at hs
    split at hs
    · cases hs
    · rw [Option.ite_none_right_eq_some, Option.some.injEq] at hs
      obtain ⟨-, rfl⟩ := hs
      exact hruns e
  | shutdown fd | reset fd =>
    obtain ⟨socket, -, rfl⟩ := Option.map_eq_some_iff.mp hs
    exact hruns e
  | drain fd amount =>
    obtain ⟨socket, -, rfl⟩ := Option.map_eq_some_iff.mp hs
    dsimp only
    split
    · exact hruns e
    · exact hruns e
  | wait fds =>
    rw [System.step, System.wait, Option.ite_none_right_eq_some, Option.some.injEq] at hs
    obtain ⟨-, rfl⟩ := hs
    exact fun heq ↦ by cases heq
  | proceed => exact not_failed_proceed hs e
  | accept result => exact not_failed_accept ha hruns hs e
  | recv result => exact not_failed_recv hruns hs e
  | send result => exact not_failed_send hruns hs e
  | control fault =>
    cases fault with
    | none => exact h.not_failed_control hs e
    | some errno => cases ha
  | close =>
    rw [System.step, System.close] at hs
    split at hs
    · exact Option.some.inj hs ▸ fun heq ↦ by cases heq
    · cases hs

end Faults

/-- **The server does not fail.** No exception leaves `run` unless `accept4` or `epoll_ctl` reports
an error: the server adds no descriptor twice and modifies none that is not registered. -/
theorem never_fails (hlisten : 0 ≤ listenFd) (hne : wakeFd ≠ listenFd)
    (h : (machine wakeFd listenFd).ReachableWhen (fun _ a ↦ a.isFault = false) s) (e : Exception) :
    s.position ≠ .failed e := by
  have hboth := Machine.Leads.invariant
    (I := fun s ↦ Inv wakeFd listenFd s ∧ ∀ e, s.position ≠ .failed e) h
    ⟨inv_init hlisten hne, fun e heq ↦ by cases heq⟩
    fun hI ha hs ↦ ⟨inv_step hI.1 hs, hI.1.not_failed_step hI.2 ha hs⟩
  exact hboth.2 e

/-- Two clients, the second of which gets the number of the first after that is closed. -/
theorem never_fails_reused : ∃ s, (machine 4 5).ReachableWhen (fun _ a ↦ a.isFault = false) s ∧
    s.closed.length = 1 ∧ (s.reactor.watchers 6).isSome = true ∧
    s.position ≠ .failed (.systemError "epoll_ctl add" EEXIST) := by
  obtain ⟨s, hs, hfeatures⟩ := Machine.exists_reachableWhen_of_run
    (C := fun _ (a : Action) ↦ a.isFault = false)
    (fun s ↦ (s.closed.length, (s.reactor.watchers 6).isSome))
    [.connect, .wait [5], .proceed, .accept (.connection 6 [] 9), .control none, .accept .again,
      .proceed, .shutdown 6, .wait [6], .proceed, .recv (.done 0), .control none, .close, .proceed,
      .connect, .wait [5], .proceed, .accept (.connection 6 [7] 9), .control none]
    (b := (1, true)) (M := machine 4 5) (by decide +kernel)
  obtain ⟨hclosed, hwatcher⟩ := Prod.mk.inj hfeatures
  exact ⟨s, hs, hclosed, hwatcher, never_fails (by decide) (by decide) hs _⟩

end EchoServer

end FoundationComponents
