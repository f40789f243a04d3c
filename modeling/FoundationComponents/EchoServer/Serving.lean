import FoundationComponents.EchoServer.Invariant

/-!
# The steps of the server

Every system call keeps the invariant: the server goes on with the client it is busy with, and what
the reactor's table and the kernel hold for that client is what the calls of `add`, `modify` and
`remove` have made of it. `modify` at the end of `handleClient` looks at the socket again, so a
descriptor that is ready then is on the ready list.
-/

namespace FoundationComponents

namespace EchoServer

open Reactor

/-! ## The reactor

What the calls of `add`, `modify` and `remove` do for a descriptor whose entry is known. They fail
only if the kernel reports an error. -/

section Reactor

variable {t : Table Callback} {fd : ℤ} {events : UInt32}

theorem add_eq (hfd : 0 ≤ fd) (hwake : fd ≠ t.wakeFd) (hwatcher : t.watchers fd = none)
    (hkernel : t.kernel fd = none) (fault : Option Errno) (callback : Callback) :
    t.add .epollReactor fault fd events (some callback) =
      match fault with
      | some errno => (.error (.systemError "epoll_ctl add" errno), t)
      | none => (.ok (), { t with
          watchers := Function.update t.watchers fd (some ⟨events, callback⟩)
          kernel := Function.update t.kernel fd (some (toNativeEvents events)) }) := by
  rw [Table.add, if_neg (Int.not_lt.mpr hfd), if_neg hwake, hwatcher, Option.isSome_none,
    if_neg Bool.false_ne_true]
  cases fault with
  | some errno => rfl
  | none =>
    rw [Kernel.add]
    dsimp only
    rw [hkernel, Option.isSome_none, if_neg Bool.false_ne_true]
    rfl

theorem modify_eq {watcher : Watcher Callback} {mask : UInt32}
    (hwatcher : t.watchers fd = some watcher) (hkernel : t.kernel fd = some mask)
    (fault : Option Errno) : t.modify .epollReactor fault fd events =
      match fault with
      | some errno => (.error (.systemError "epoll_ctl modify" errno), t)
      | none => (.ok (), { t with
          watchers := Function.update t.watchers fd (some { watcher with events := events })
          kernel := Function.update t.kernel fd (some (toNativeEvents events)) }) := by
  rw [Table.modify, hwatcher]
  dsimp only
  cases fault with
  | some errno => rfl
  | none =>
    rw [Kernel.modify]
    dsimp only
    rw [hkernel, Option.isSome_some, if_pos rfl]
    rfl

theorem remove_eq {watcher : Watcher Callback} {mask : UInt32}
    (hwatcher : t.watchers fd = some watcher) (hkernel : t.kernel fd = some mask)
    (fault : Option Errno) : t.remove .epollReactor fault fd =
      match fault with
      | some errno =>
          (if errno ≠ ENOENT ∧ errno ≠ EBADF then .error (.systemError "epoll_ctl remove" errno)
            else .ok true, { t with watchers := Function.update t.watchers fd none })
      | none => (.ok true, { t with
          watchers := Function.update t.watchers fd none
          kernel := Function.update t.kernel fd none }) := by
  rw [Table.remove, hwatcher]
  dsimp only
  cases fault with
  | some errno =>
    rw [Kernel.delete]
    dsimp only
    split
    · rfl
    · rfl
  | none =>
    rw [Kernel.delete]
    dsimp only
    rw [hkernel, Option.isSome_some, if_pos rfl]
    rfl

/-- Every descriptor that is reported has a watcher, so all callbacks are copied. -/
theorem collect_eq {callback : ℤ → Callback} {revents : ℤ → UInt32} (t : Table Callback)
    {fds : List ℤ} (hwake : t.wakeFd ∉ fds)
    (hwatcher : ∀ fd ∈ fds, ∃ events, t.watchers fd = some ⟨events, callback fd⟩) :
    t.collect (fds.map fun fd ↦ (fd, revents fd)) =
      (t, fds.map fun fd ↦ ⟨fd, fromNativeEvents (revents fd), callback fd⟩) := by
  induction fds with
  | nil => rfl
  | cons fd fds ih =>
    rw [List.mem_cons, not_or] at hwake
    obtain ⟨events, hevents⟩ := hwatcher fd List.mem_cons_self
    rw [List.map_cons, Table.collect, if_neg fun heq ↦ hwake.1 heq.symm, hevents]
    dsimp only
    rw [ih hwake.2 fun fd' hmem ↦ hwatcher fd' (List.mem_cons_of_mem _ hmem), List.map_cons]

end Reactor

section Steps

variable {wakeFd listenFd : ℤ} {s s' : System} {f : ℤ} {task : Task}
  {rest : List (Dispatch Callback)}

theorem Inv.serving (h : Inv wakeFd listenFd s) (hposition : s.position = .running task rest)
    (hf : task.fd = some f) (hadding : task ≠ .adding f) (hclosing : task ≠ .closing f) :
    ∃ socket client writing, s.sockets f = some socket ∧ s.clients f = some client ∧
      s.reactor.watchers f = some ⟨interest writing, .handleClient⟩ ∧
      s.reactor.kernel f = some (toNativeEvents (interest writing)) ∧
      Accounted socket client ∧ (Role.busy task).Allows socket client writing (s.ready f) := by
  have hne := (h.batch task rest hposition).task f hf
  have hok := h.entries f hne.1 hne.2
  rw [hposition, role_of_fd_eq _ hf] at hok
  generalize hentry : s.entry f = entry at hok
  cases hok with
  | adding => exact absurd rfl hadding
  | closing => exact absurd rfl hclosing
  | @serving _ socket client writing ready hsum hallows =>
    have hready : s.ready f = ready := congrArg Entry.ready hentry
    exact ⟨socket, client, writing, congrArg Entry.socket hentry, congrArg Entry.client hentry,
      congrArg Entry.watcher hentry, congrArg Entry.mask hentry, hsum, hready ▸ hallows⟩

theorem Inv.fail (h : Inv wakeFd listenFd s) (hwakeFd : s'.reactor.wakeFd = s.reactor.wakeFd)
    (hlistenFd : s'.listenFd = s.listenFd) (hentry : s'.entry listenFd = s.entry listenFd)
    (hwatcher : s'.reactor.watchers wakeFd = s.reactor.watchers wakeFd)
    {e : Exception} (hposition : s'.position = .failed e) (hsockets : s'.sockets = s.sockets)
    (hclients : s'.clients = s.clients) (hclosed : s'.closed = s.closed) :
    Inv wakeFd listenFd s' where
  wakeFd_eq := hwakeFd.trans h.wakeFd_eq
  listenFd_eq := hlistenFd.trans h.listenFd_eq
  distinct := h.distinct
  wake := by
    rw [hsockets]
    exact h.wake
  noClient := by
    rw [hclients]
    exact h.noClient
  noWatcher := hwatcher.trans h.noWatcher
  listener :=
    ⟨(congrArg Entry.socket hentry).trans h.listener.1,
      (congrArg Entry.watcher hentry).trans h.listener.2.1,
      (congrArg Entry.mask hentry).trans h.listener.2.2⟩
  backlog := Or.inr (Or.inr (Or.inr ⟨e, hposition⟩))
  batch := by
    intro task rest heq
    rw [hposition] at heq
    cases heq
  entries := by
    intro fd hlisten hwake
    rw [hposition, System.entry, hsockets, hclients]
    exact (h.entries fd hlisten hwake).abandon
  closed := by
    rw [hclosed]
    exact h.closed

theorem Inv.continue (h : Inv wakeFd listenFd s) (hposition : s.position = .running task rest)
    (hf : task.fd = some f) (hadding : task ≠ .adding f) (hclosing : task ≠ .closing f)
    (hframe : Frame f s s') {task' : Task} (hposition' : s'.position = .running task' rest)
    (hfds : task'.fds listenFd = task.fds listenFd) (hf' : task'.fd = some f)
    (hreactor : s'.reactor = s.reactor) (hready : s'.ready = s.ready)
    (hbacklog : s'.backlog = s.backlog) (hclosed : s'.closed = s.closed) {socket : Socket}
    {client : Client} (hsocket : s'.sockets f = some socket) (hclient : s'.clients f = some client)
    (hsum : Accounted socket client)
    (hallows : ∀ writing, (Role.busy task').Allows socket client writing (s.ready f)) :
    Inv wakeFd listenFd s' := by
  obtain ⟨-, -, writing, -, -, hwatcher, hkernel, -, -⟩ := h.serving hposition hf hadding hclosing
  refine h.touch_task ((h.batch task rest hposition).task f hf) hframe hposition hposition' hf
    (hfds ▸ List.Sublist.refl _) (fun fd heq ↦ Option.some.inj (heq.symm.trans hf'))
    (fun hmem ↦ hfds ▸ hmem) hbacklog (hclosed ▸ h.closed) ?_
  rw [role_of_fd_eq _ hf', System.entry, hsocket, hclient, hreactor, hwatcher, hkernel, hready]
  exact .serving hsum (hallows writing)

/-! ## The callbacks

One lemma for every system call, with the role the descriptor has before it and after it. -/

theorem Inv.recv (h : Inv wakeFd listenFd s) {result : IoResult} (hs : s.recv result = some s') :
    Inv wakeFd listenFd s' := by
  rw [System.recv] at hs
  split at hs
  · rename_i fd events rest hposition
    obtain ⟨socket, client, writing, hsocket, hclient, -, -, hsum, hallows⟩ :=
      h.serving hposition rfl (fun heq ↦ by cases heq) (fun heq ↦ by cases heq)
    rw [hsocket] at hs
    dsimp only at hs
    split at hs
    · -- everything has been received
      rw [Option.ite_none_right_eq_some, Option.some.injEq] at hs
      obtain ⟨⟨hinbox, hshutdown⟩, rfl⟩ := hs
      exact h.continue hposition rfl (fun heq ↦ by cases heq) (fun heq ↦ by cases heq)
        ⟨rfl, rfl, fun _ _ ↦ rfl⟩ rfl rfl rfl rfl rfl rfl rfl hsocket hclient hsum
        fun _ ↦ Or.inr ⟨hshutdown, hinbox, hallows⟩
    · rename_i count hcount
      rw [Option.ite_none_right_eq_some, Option.some.injEq] at hs
      obtain ⟨-, rfl⟩ := hs
      refine h.continue hposition rfl (fun heq ↦ by cases heq) (fun heq ↦ by cases heq)
        ⟨rfl, rfl, fun fd' hfd ↦ ?_⟩ rfl rfl rfl rfl rfl rfl rfl (Function.update_self ..)
        (Function.update_self ..) ?_ fun _ ↦ trivial
      · simp only [System.entry, System.setTask, System.setClient, System.setSocket,
          Function.update_of_ne hfd]
      · rw [Accounted, hclient, Option.getD_some]
        dsimp only
        rw [hsum, List.append_assoc _ (client.out ++ _), List.append_assoc client.out,
          List.take_append_drop, List.append_assoc]
    · rw [Option.ite_none_right_eq_some, Option.some.injEq] at hs
      obtain ⟨-, rfl⟩ := hs
      exact h.continue hposition rfl (fun heq ↦ by cases heq) (fun heq ↦ by cases heq)
        ⟨rfl, rfl, fun _ _ ↦ rfl⟩ rfl rfl rfl rfl rfl rfl rfl hsocket hclient hsum fun _ ↦ hallows
    · obtain rfl := Option.some.inj hs
      exact h
    · rw [Option.ite_none_right_eq_some, Option.some.injEq] at hs
      obtain ⟨hfailed, rfl⟩ := hs
      exact h.continue hposition rfl (fun heq ↦ by cases heq) (fun heq ↦ by cases heq)
        ⟨rfl, rfl, fun _ _ ↦ rfl⟩ rfl rfl rfl rfl rfl rfl rfl hsocket hclient hsum
        fun _ ↦ Or.inl hfailed
  · cases hs

theorem Inv.send (h : Inv wakeFd listenFd s) {result : IoResult} (hs : s.send result = some s') :
    Inv wakeFd listenFd s' := by
  rw [System.send] at hs
  split at hs
  · rename_i fd events next rest hposition
    obtain ⟨socket, client, writing, hsocket, hclient, -, -, hsum, -⟩ :=
      h.serving hposition rfl (fun heq ↦ by cases heq) (fun heq ↦ by cases heq)
    rw [hsocket, hclient] at hs
    dsimp only at hs
    rw [Option.ite_none_left_eq_some] at hs
    obtain ⟨-, hs⟩ := hs
    split at hs
    · rename_i count
      rw [Option.ite_none_right_eq_some, Option.some.injEq] at hs
      obtain ⟨-, rfl⟩ := hs
      refine h.continue hposition rfl (fun heq ↦ by cases heq) (fun heq ↦ by cases heq)
        ⟨rfl, rfl, fun fd' hfd ↦ ?_⟩ hposition rfl rfl rfl rfl rfl rfl (Function.update_self ..)
        (Function.update_self ..) ?_ fun _ ↦ trivial
      · simp only [System.entry, System.setClient, System.setSocket, Function.update_of_ne hfd]
      · rw [Accounted]
        dsimp only
        rw [hsum, List.append_assoc _ (client.out.take count), List.take_append_drop]
    · rw [Option.ite_none_right_eq_some] at hs
      obtain ⟨-, hs⟩ := hs
      have hframe : ∀ task', Frame fd s
          ((s.setSocket fd { socket with stalled := true }).setTask task' rest) := by
        refine fun task' ↦ ⟨rfl, rfl, fun fd' hfd ↦ ?_⟩
        simp only [System.entry, System.setTask, System.setSocket, Function.update_of_ne hfd]
      cases next with
      | receive =>
        obtain rfl := Option.some.inj hs
        exact h.continue hposition rfl (fun heq ↦ by cases heq) (fun heq ↦ by cases heq) (hframe _)
          rfl rfl rfl rfl rfl rfl rfl (Function.update_self ..) hclient hsum fun _ _ ↦ rfl
      | interest =>
        obtain rfl := Option.some.inj hs
        exact h.continue hposition rfl (fun heq ↦ by cases heq) (fun heq ↦ by cases heq) (hframe _)
          rfl rfl rfl rfl rfl rfl rfl (Function.update_self ..) hclient hsum fun _ _ ↦ rfl
    · obtain rfl := Option.some.inj hs
      exact h
    · rw [Option.ite_none_right_eq_some, Option.some.injEq] at hs
      obtain ⟨hfailed, rfl⟩ := hs
      exact h.continue hposition rfl (fun heq ↦ by cases heq) (fun heq ↦ by cases heq)
        ⟨rfl, rfl, fun _ _ ↦ rfl⟩ rfl rfl rfl rfl rfl rfl rfl hsocket hclient hsum
        fun _ ↦ Or.inl hfailed
  · cases hs

theorem Inv.finish (h : Inv wakeFd listenFd s) (hposition : s.position = .running task rest)
    (hf : task.fd = some f) (hframe : Frame f s s') {task' : Task}
    (hposition' : s'.position = .running task' rest)
    (hfds : (task'.fds listenFd).Sublist (task.fds listenFd))
    (hlisten : listenFd ∈ task.fds listenFd → listenFd ∈ task'.fds listenFd)
    (hmem : f ∈ task.fds listenFd) (htask' : task'.fd = none) (hbacklog : s'.backlog = s.backlog)
    (hclosed : s'.closed = s.closed) (hok : (s'.entry f).Ok f .settled) :
    Inv wakeFd listenFd s' := by
  refine h.touch_task ((h.batch task rest hposition).task f hf) hframe hposition hposition' hf hfds
    (fun fd heq ↦ ?_) hlisten hbacklog (hclosed ▸ h.closed) ?_
  · rw [htask'] at heq
    cases heq
  · rwa [h.role_dispatching hposition hmem task' htask']

/-- `epoll_ctl` has looked at a client: it is on the ready list if it is to be reported. -/
theorem ok_recheck {socket : Socket} {client : Client} {writing : Bool}
    (hsocket : s.sockets f = some socket) (hclient : s.clients f = some client)
    (hlisten : f ≠ s.listenFd)
    (hwatcher : s.reactor.watchers f = some ⟨interest writing, .handleClient⟩)
    (hkernel : s.reactor.kernel f = some (toNativeEvents (interest writing)))
    (hsum : Accounted socket client)
    (hout : client.out ≠ [] → writing = true ∧ socket.stalled = true) :
    ((s.recheck f).entry f).Ok f .settled := by
  have hpoll : s.revents f = reported socket.poll (toNativeEvents (interest writing)) := by
    rw [System.revents, hkernel]
    dsimp only
    rw [System.poll, if_neg hlisten, hsocket]
  rw [System.entry, System.recheck]
  dsimp only
  rw [hsocket, hclient, hwatcher, hkernel, Function.update_self]
  refine .serving hsum ⟨hout, fun hready ↦ ?_⟩
  rw [Bool.or_eq_false_iff, decide_eq_false_iff_not, not_not, hpoll] at hready
  exact hready.2

theorem Inv.control_adding (h : Inv wakeFd listenFd s)
    (hposition : s.position = .running (.adding f) rest) {fault : Option Errno}
    (hs : s.control fault = some s') : Inv wakeFd listenFd s' := by
  have hne := (h.batch _ rest hposition).task f rfl
  have hok := h.entries f hne.1 hne.2
  rw [hposition, role_of_fd_eq (.adding f) rfl] at hok
  rw [System.control, hposition] at hs
  generalize hentry : s.entry f = entry at hok
  cases hok with
  | serving _ hallows => exact hallows.elim
  | @adding socket ready hfd hsum =>
    have hwatcher : s.reactor.watchers f = none := congrArg Entry.watcher hentry
    have hkernel : s.reactor.kernel f = none := congrArg Entry.mask hentry
    dsimp only at hs
    rw [add_eq hfd (h.wakeFd_eq ▸ hne.2) hwatcher hkernel] at hs
    cases fault with
    | some errno =>
      obtain rfl := Option.some.inj hs
      exact h.fail rfl rfl rfl rfl rfl rfl rfl rfl
    | none =>
      obtain rfl := Option.some.inj hs
      refine h.finish hposition rfl ⟨rfl, rfl, fun fd' hfd' ↦ ?_⟩ rfl
        (List.sublist_cons_self ..) (fun _ ↦ List.mem_cons_self) List.mem_cons_self rfl rfl rfl ?_
      · simp only [System.entry, System.recheck, System.setTask, Function.update_of_ne hfd']
      · exact ok_recheck (s := { s with reactor := _ }) (congrArg Entry.socket hentry)
          (congrArg Entry.client hentry) (h.listenFd_eq ▸ hne.1) (Function.update_self ..)
          (Function.update_self ..) hsum fun hout ↦ absurd rfl hout

theorem Inv.control_modifying (h : Inv wakeFd listenFd s)
    (hposition : s.position = .running (.modifying f) rest) {fault : Option Errno}
    (hs : s.control fault = some s') : Inv wakeFd listenFd s' := by
  have hne := (h.batch _ rest hposition).task f rfl
  obtain ⟨socket, client, writing, hsocket, hclient, hwatcher, hkernel, hsum, hallows⟩ :=
    h.serving hposition rfl (fun heq ↦ by cases heq) (fun heq ↦ by cases heq)
  rw [System.control, hposition] at hs
  dsimp only at hs
  rw [hclient] at hs
  dsimp only at hs
  rw [modify_eq hwatcher hkernel] at hs
  cases fault with
  | some errno =>
    obtain rfl := Option.some.inj hs
    exact h.fail rfl rfl rfl rfl rfl rfl rfl rfl
  | none =>
    obtain rfl := Option.some.inj hs
    refine h.finish hposition rfl ⟨rfl, rfl, fun fd' hfd' ↦ ?_⟩ rfl (List.nil_sublist _)
      (fun hmem ↦ absurd (List.mem_singleton.mp hmem) hne.1.symm) List.mem_cons_self rfl rfl rfl ?_
    · simp only [System.entry, System.recheck, System.setTask, Function.update_of_ne hfd']
    · refine ok_recheck (s := { s with reactor := _ }) hsocket hclient (h.listenFd_eq ▸ hne.1)
        (Function.update_self ..) (Function.update_self ..) hsum fun hout ↦ ⟨?_, hallows hout⟩
      rwa [Bool.not_eq_true', Bool.eq_false_iff, ne_eq, List.isEmpty_iff]

theorem Inv.control_removing (h : Inv wakeFd listenFd s)
    (hposition : s.position = .running (.removing f) rest) {fault : Option Errno}
    (hs : s.control fault = some s') : Inv wakeFd listenFd s' := by
  have hne := (h.batch _ rest hposition).task f rfl
  obtain ⟨socket, client, writing, hsocket, hclient, hwatcher, hkernel, hsum, hallows⟩ :=
    h.serving hposition rfl (fun heq ↦ by cases heq) (fun heq ↦ by cases heq)
  have hrecord : ∀ c ∈ ⟨socket, client.out⟩ :: s.closed, c.Ok := by
    refine List.forall_mem_cons.mpr ⟨⟨hsum, fun hfailed ↦ ?_⟩, h.closed⟩
    refine hallows.resolve_left fun htrue ↦ ?_
    rw [hfailed] at htrue
    cases htrue
  -- whatever `epoll_ctl` says, no watcher is left
  have hremoved : ∀ reactor : Table Callback, reactor.wakeFd = s.reactor.wakeFd →
      reactor.watchers = Function.update s.reactor.watchers f none →
      (∀ fd, fd ≠ f → reactor.kernel fd = s.reactor.kernel fd) →
      Inv wakeFd listenFd { s with
        reactor := reactor
        ready := Function.update s.ready f false
        clients := Function.update s.clients f none
        closed := ⟨socket, client.out⟩ :: s.closed
        position := .running (.closing f) rest } := by
    intro reactor hwake hwatchers hmasks
    refine h.touch_task hne ⟨hwake, rfl, fun fd' hfd' ↦ ?_⟩ hposition rfl rfl (List.Sublist.refl _)
      (fun fd heq ↦ Option.some.inj heq.symm) id rfl hrecord ?_
    · simp only [System.entry, hwatchers, hmasks fd' hfd', Function.update_of_ne hfd']
    · rw [role_of_fd_eq (.closing f) rfl]
      simp only [System.entry, hwatchers, Function.update_self, hsocket]
      exact .closing hsum.isPrefix
  rw [System.control, hposition] at hs
  dsimp only at hs
  rw [remove_eq hwatcher hkernel, hsocket, hclient] at hs
  cases fault with
  | none =>
    obtain rfl := Option.some.inj hs
    exact hremoved _ rfl rfl fun fd hfd ↦ Function.update_of_ne hfd _ _
  | some errno =>
    dsimp only at hs
    by_cases herrno : errno ≠ ENOENT ∧ errno ≠ EBADF
    · rw [if_pos herrno] at hs
      obtain rfl := Option.some.inj hs
      refine h.fail rfl rfl ?_ (Function.update_of_ne hne.2.symm _ _) rfl rfl rfl rfl
      simp only [System.entry, Function.update_of_ne hne.1.symm]
    · rw [if_neg herrno] at hs
      obtain rfl := Option.some.inj hs
      exact hremoved _ rfl rfl fun _ _ ↦ rfl

theorem Inv.control (h : Inv wakeFd listenFd s) {fault : Option Errno}
    (hs : s.control fault = some s') : Inv wakeFd listenFd s' := by
  have hs' := hs
  rw [System.control] at hs'
  split at hs'
  · rename_i hposition
    exact h.control_adding hposition hs
  · rename_i hposition
    exact h.control_modifying hposition hs
  · rename_i hposition
    exact h.control_removing hposition hs
  · cases hs'

theorem Inv.close (h : Inv wakeFd listenFd s) (hs : s.close = some s') :
    Inv wakeFd listenFd s' := by
  rw [System.close] at hs
  split at hs
  · rename_i fd rest hposition
    obtain rfl := Option.some.inj hs
    have hne := (h.batch _ rest hposition).task fd rfl
    have hok := h.entries fd hne.1 hne.2
    rw [hposition, role_of_fd_eq (.closing fd) rfl] at hok
    generalize hentry : s.entry fd = entry at hok
    cases hok with
    | serving _ hallows => exact hallows.elim
    | closing =>
      refine h.finish hposition rfl ⟨rfl, rfl, fun fd' hfd' ↦ ?_⟩ rfl (List.nil_sublist _)
        (fun hmem ↦ absurd (List.mem_singleton.mp hmem) hne.1.symm) List.mem_cons_self
        rfl rfl rfl ?_
      · simp only [System.entry, Table.close, Function.update_of_ne hfd']
      · have hclient : s.clients fd = none := congrArg Entry.client hentry
        have hwatcher : s.reactor.watchers fd = none := congrArg Entry.watcher hentry
        simp only [System.entry, Table.close, Function.update_self, hclient, hwatcher]
        exact .free
  · cases hs

theorem Inv.setPosition (h : Inv wakeFd listenFd s) {position : Position}
    (hrole : ∀ fd, fd ≠ listenFd → position.role fd = s.position.role fd)
    (hbacklog : s.ready listenFd = true ∨ s.backlog = 0 ∨ listenFd ∈ position.fds listenFd)
    (hbatch : ∀ task rest, position = .running task rest → Batch wakeFd listenFd task rest) :
    Inv wakeFd listenFd { s with position := position } where
  wakeFd_eq := h.wakeFd_eq
  listenFd_eq := h.listenFd_eq
  distinct := h.distinct
  wake := h.wake
  noClient := h.noClient
  noWatcher := h.noWatcher
  listener := h.listener
  backlog := hbacklog.imp_right (Or.imp_right Or.inl)
  batch := hbatch
  entries := by
    intro fd hlisten hwake
    have hok := h.entries fd hlisten hwake
    rwa [← hrole fd hlisten] at hok
  closed := h.closed

theorem Inv.backlog_running (h : Inv wakeFd listenFd s)
    (hposition : s.position = .running task rest) : s.ready listenFd = true ∨ s.backlog = 0 ∨
      listenFd ∈ task.fds listenFd ++ rest.map Dispatch.fd := by
  have hbacklog := h.backlog
  rw [hposition] at hbacklog
  rcases hbacklog with hready | hzero | hmem | ⟨e, he⟩
  · exact Or.inl hready
  · exact Or.inr (Or.inl hzero)
  · exact Or.inr (Or.inr hmem)
  · cases he

theorem Inv.acceptClients (h : Inv wakeFd listenFd s) {result : AcceptResult}
    (hs : s.acceptClients result = some s') : Inv wakeFd listenFd s' := by
  rw [System.acceptClients] at hs
  split at hs
  · rename_i rest hposition
    have hbatch := h.batch _ rest hposition
    split at hs
    · rename_i fd inbox space
      rw [Option.ite_none_right_eq_some, Option.some.injEq] at hs
      obtain ⟨⟨-, hfd, hlisten, hwake, hfree⟩, rfl⟩ := hs
      rw [h.listenFd_eq] at hlisten
      rw [h.wakeFd_eq] at hwake
      have hok := h.entries fd hlisten hwake
      rw [hposition] at hok
      -- nobody knows the descriptor, so no callback of it is left
      have hnone : fd ∉ rest.map Dispatch.fd ∧
          s.entry fd = ⟨none, none, none, none, s.ready fd⟩ := by
        rw [role_of_fd_eq_none _ rfl] at hok
        generalize hentry : s.entry fd = entry at hok
        generalize hrole : pendingRole rest fd = role at hok
        have hsocket : entry.socket = none := hentry ▸ hfree
        cases hok with
        | free =>
          refine ⟨fun hmem ↦ ?_, ?_⟩
          · obtain ⟨events, hevents⟩ := exists_of_mem_pendingRole hmem
            rw [hrole] at hevents
            cases hevents
          · rw [show s.ready fd = _ from congrArg Entry.ready hentry]
        | abandoned =>
          have hne : pendingRole rest fd ≠ .settled := by
            rw [hrole]
            exact fun heq ↦ by cases heq
          obtain ⟨_, -, -, hpending⟩ := exists_of_pendingRole_ne hne
          rw [hrole] at hpending
          cases hpending
        | adding | serving | closing => cases hsocket
      refine h.touch ⟨hlisten, hwake⟩ ⟨rfl, rfl, fun fd' hfd' ↦ ?_⟩ (fun fd' hfd' _ ↦ ?_) ?_ ?_ ?_
        h.closed
      · simp only [System.entry, Function.update_of_ne hfd']
      · rw [hposition, role_of_fd_eq_none .accepting rfl,
          role_of_fd_ne (.adding fd) fun heq ↦ hfd' (Option.some.inj heq).symm]
      · have hclient : s.clients fd = none := congrArg Entry.client hnone.2
        have hwatcher : s.reactor.watchers fd = none := congrArg Entry.watcher hnone.2
        have hkernel : s.reactor.kernel fd = none := congrArg Entry.mask hnone.2
        rw [role_of_fd_eq (.adding fd) rfl]
        simp only [System.entry, Function.update_self, hclient, hwatcher, hkernel]
        exact .adding hfd rfl
      · exact Or.inr (Or.inr (Or.inl (List.mem_cons_of_mem _ List.mem_cons_self)))
      · intro task' rest' heq
        cases heq
        refine ⟨List.nodup_cons.mpr ⟨?_, hbatch.nodup⟩, fun fd' hfd' ↦ ?_, hbatch.callback⟩
        · exact fun hmem ↦ (List.mem_cons.mp hmem).elim hlisten hnone.1
        · exact Option.some.inj hfd' ▸ ⟨hlisten, hwake⟩
    · rw [Option.ite_none_right_eq_some, Option.some.injEq] at hs
      obtain ⟨hzero, rfl⟩ := hs
      refine h.setPosition (fun fd _ ↦ ?_) (Or.inr (Or.inl hzero)) fun task' rest' heq ↦ ?_
      · rw [hposition, role_of_fd_eq_none .accepting rfl,
          role_of_fd_eq_none .dispatching rfl]
      · cases heq
        exact ⟨hbatch.nodup.sublist (List.sublist_cons_self ..), fun fd heq ↦ (by cases heq),
          hbatch.callback⟩
    · obtain rfl := Option.some.inj hs
      exact h
    · obtain rfl := Option.some.inj hs
      exact h.fail rfl rfl rfl rfl rfl rfl rfl rfl
  · cases hs

theorem Inv.enter (h : Inv wakeFd listenFd s) {event : Dispatch Callback}
    (hposition : s.position = .running .dispatching (event :: rest)) :
    Inv wakeFd listenFd (s.setTask (System.enter event) rest) := by
  have hbatch := h.batch _ _ hposition
  have hnodup : (event.fd :: rest.map Dispatch.fd).Nodup := hbatch.nodup
  have hrest : ∀ other ∈ rest, other.fd ≠ wakeFd ∧
      (other.fd = listenFd ∧ other.callback = .acceptClients ∨
        other.fd ≠ listenFd ∧ other.callback = .handleClient) :=
    fun other hmem ↦ hbatch.callback other (List.mem_cons_of_mem _ hmem)
  obtain ⟨hwake, ⟨hlisten, hcallback⟩ | ⟨hlisten, hcallback⟩⟩ :=
    hbatch.callback event List.mem_cons_self
  · -- the listening descriptor: no client changes its role
    rw [System.enter, hcallback]
    refine h.setPosition (fun fd hfd ↦ ?_) ?_ fun task' rest' heq ↦ ?_
    · rw [hposition, role_of_fd_eq_none .accepting rfl, role_of_fd_eq_none .dispatching rfl,
        pendingRole_cons_of_ne (hlisten ▸ hfd)]
    · exact Or.inr (Or.inr List.mem_cons_self)
    · cases heq
      exact ⟨hlisten ▸ hnodup, fun fd heq ↦ (by cases heq), hrest⟩
  · -- a client: its turn has come
    have hok := h.entries event.fd hlisten hwake
    rw [hposition, role_of_fd_eq_none .dispatching rfl, pendingRole_cons_self] at hok
    generalize hentry : s.entry event.fd = entry at hok
    cases hok with
    | @serving _ socket client writing ready hsum hallows =>
      have hgo : ∀ task' : Task, task'.fd = some event.fd → task'.fds listenFd = [event.fd] →
          (Role.busy task').Allows socket client writing ready →
          Inv wakeFd listenFd (s.setTask task' rest) := by
        intro task' hfd hfds hallows'
        refine h.touch ⟨hlisten, hwake⟩ ⟨rfl, rfl, fun _ _ ↦ rfl⟩ (fun fd' hne _ ↦ ?_) ?_ ?_ ?_
          h.closed
        · rw [hposition, role_of_fd_eq_none .dispatching rfl, pendingRole_cons_of_ne hne]
          exact role_of_fd_ne task' fun heq ↦ hne (Option.some.inj (heq.symm.trans hfd))
        · rw [show (s.setTask task' rest).position.role event.fd = .busy task' from
            role_of_fd_eq task' hfd]
          rw [show (s.setTask task' rest).entry event.fd = s.entry event.fd from rfl, hentry]
          exact .serving hsum hallows'
        · refine (h.backlog_running hposition).imp_right (Or.imp_right fun hmem ↦ Or.inl ?_)
          change listenFd ∈ task'.fds listenFd ++ rest.map Dispatch.fd
          rw [hfds]
          exact hmem
        · intro task'' rest'' heq
          cases heq
          refine ⟨?_, fun fd heq ↦ ?_, hrest⟩
          · rw [hfds]
            exact hnodup
          · exact Option.some.inj (hfd.symm.trans heq) ▸ ⟨hlisten, hwake⟩
      rw [System.enter, hcallback]
      dsimp only
      split
      · rename_i herror
        exact hgo _ rfl rfl (Or.inl (hallows.2 herror))
      · split
        · exact hgo _ rfl rfl hallows.1
        · exact hgo _ rfl rfl hallows.1

theorem Inv.proceed (h : Inv wakeFd listenFd s) (hs : s.proceed = some s') :
    Inv wakeFd listenFd s' := by
  rw [System.proceed] at hs
  split at hs
  · rename_i hposition
    obtain rfl := Option.some.inj hs
    refine h.setPosition (fun fd _ ↦ ?_) ?_ fun _ _ heq ↦ by cases heq
    · rw [hposition, role_of_fd_eq_none .dispatching rfl]
      rfl
    · exact (h.backlog_running hposition).imp_right (Or.imp_right fun hmem ↦ by cases hmem)
  · rename_i event rest hposition
    obtain rfl := Option.some.inj hs
    exact h.enter hposition
  · rename_i fd events rest hposition
    obtain ⟨socket, client, writing, hsocket, hclient, -, -, hsum, hallows⟩ :=
      h.serving hposition rfl (fun heq ↦ by cases heq) (fun heq ↦ by cases heq)
    split at hs
    · obtain rfl := Option.some.inj hs
      exact h.continue hposition rfl (fun heq ↦ by cases heq) (fun heq ↦ by cases heq)
        ⟨rfl, rfl, fun _ _ ↦ rfl⟩ rfl rfl rfl rfl rfl rfl rfl hsocket hclient hsum fun _ ↦ trivial
    · obtain rfl := Option.some.inj hs
      exact h.continue hposition rfl (fun heq ↦ by cases heq) (fun heq ↦ by cases heq)
        ⟨rfl, rfl, fun _ _ ↦ rfl⟩ rfl rfl rfl rfl rfl rfl rfl hsocket hclient hsum fun _ ↦ hallows
  · rename_i fd events next rest hposition
    obtain ⟨socket, client, writing, hsocket, hclient, -, -, hsum, -⟩ :=
      h.serving hposition rfl (fun heq ↦ by cases heq) (fun heq ↦ by cases heq)
    rw [hclient] at hs
    dsimp only at hs
    split at hs
    · rename_i hempty
      cases next with
      | receive =>
        obtain rfl := Option.some.inj hs
        exact h.continue hposition rfl (fun heq ↦ by cases heq) (fun heq ↦ by cases heq)
          ⟨rfl, rfl, fun _ _ ↦ rfl⟩ rfl rfl rfl rfl rfl rfl rfl hsocket hclient hsum
          fun _ hout ↦ absurd hempty hout
      | interest =>
        obtain rfl := Option.some.inj hs
        exact h.continue hposition rfl (fun heq ↦ by cases heq) (fun heq ↦ by cases heq)
          ⟨rfl, rfl, fun _ _ ↦ rfl⟩ rfl rfl rfl rfl rfl rfl rfl hsocket hclient hsum
          fun _ hout ↦ absurd hempty hout
    · cases hs
  · rename_i fd rest hposition
    obtain ⟨socket, client, writing, -, hclient, -, -, -, -⟩ :=
      h.serving hposition rfl (fun heq ↦ by cases heq) (fun heq ↦ by cases heq)
    rw [hclient] at hs
    cases hs
  · cases hs

private theorem pendingRole_map {fds : List ℤ} {events : ℤ → UInt32} {callback : ℤ → Callback}
    (fd : ℤ) :
    pendingRole (fds.map fun fd ↦ ⟨fd, events fd, callback fd⟩) fd =
      if fd ∈ fds then .pending (events fd) else .settled := by
  induction fds with
  | nil => rfl
  | cons fd' fds ih =>
    rw [List.map_cons, pendingRole, ih]
    by_cases heq : fd = fd'
    · rw [if_pos heq, if_pos (heq ▸ List.mem_cons_self), heq]
    · rw [if_neg heq]
      simp only [List.mem_cons, heq, false_or]

/-- What the kernel reports of a client. -/
theorem Inv.revents_eq (h : Inv wakeFd listenFd s) (hlisten : f ≠ listenFd) {socket : Socket}
    {writing : Bool} (hsocket : s.sockets f = some socket)
    (hkernel : s.reactor.kernel f = some (toNativeEvents (interest writing))) :
    s.revents f = reported socket.poll (toNativeEvents (interest writing)) := by
  rw [System.revents, hkernel]
  dsimp only
  rw [System.poll, if_neg (h.listenFd_eq ▸ hlisten), hsocket]

/-- The callback that is registered for a descriptor. -/
def callbackOf (listenFd fd : ℤ) : Callback :=
  if fd = listenFd then .acceptClients else .handleClient

theorem Inv.collect_eq (h : Inv wakeFd listenFd s) (hposition : s.position = .waiting)
    {fds : List ℤ} (hready : ∀ fd ∈ fds, s.ready fd = true ∧ s.revents fd ≠ 0) :
    wakeFd ∉ fds ∧ s.reactor.collect (fds.map fun fd ↦ (fd, s.revents fd)) = (s.reactor,
      fds.map fun fd ↦ ⟨fd, fromNativeEvents (s.revents fd), callbackOf listenFd fd⟩) := by
  have hwake : wakeFd ∉ fds := by
    intro hmem
    refine (hready wakeFd hmem).2 ?_
    rw [System.revents]
    split
    · rw [System.poll, if_neg (h.listenFd_eq ▸ h.distinct), h.wake]
      exact UInt32.zero_and
    · rfl
  refine ⟨hwake, EchoServer.collect_eq s.reactor (h.wakeFd_eq ▸ hwake) fun fd hmem ↦ ?_⟩
  rw [callbackOf]
  split
  · rename_i heq
    exact ⟨_, heq ▸ h.listener.2.1⟩
  · rename_i hlisten
    have hok := h.entries fd hlisten fun heq ↦ hwake (heq ▸ hmem)
    rw [hposition] at hok
    generalize hentry : s.entry fd = entry at hok
    cases hok with
    | free =>
      have hkernel : s.reactor.kernel fd = none := congrArg Entry.mask hentry
      refine absurd ?_ (hready fd hmem).2
      rw [System.revents, hkernel]
    | serving => exact ⟨_, congrArg Entry.watcher hentry⟩

theorem Inv.wait (h : Inv wakeFd listenFd s) {fds : List ℤ} (hs : s.wait fds = some s') :
    Inv wakeFd listenFd s' := by
  rw [System.wait, Option.ite_none_right_eq_some, Option.some.injEq] at hs
  obtain ⟨⟨hposition, -, hnodup, -, hready⟩, rfl⟩ := hs
  obtain ⟨hwake, hcollect⟩ := h.collect_eq hposition hready
  rw [hcollect]
  have hfds : (fds.map fun fd ↦ (⟨fd, fromNativeEvents (s.revents fd), callbackOf listenFd fd⟩ :
      Dispatch Callback)).map Dispatch.fd = fds := by
    rw [List.map_map]
    exact List.map_id _
  refine ⟨h.wakeFd_eq, h.listenFd_eq, h.distinct, h.wake, h.noClient, h.noWatcher, h.listener,
    ?_, ?_, ?_, h.closed⟩
  · have hbacklog := h.backlog
    rw [hposition] at hbacklog
    by_cases hmem : listenFd ∈ fds
    · refine Or.inr (Or.inr (Or.inl ?_))
      change listenFd ∈ [] ++ _
      rw [hfds]
      exact hmem
    · rcases hbacklog with hbefore | hzero | hmem' | ⟨e, he⟩
      · left
        simp only [hbefore, hmem, decide_false, Bool.not_false, Bool.and_true]
      · exact Or.inr (Or.inl hzero)
      · cases hmem'
      · cases he
  · intro task rest heq
    cases heq
    refine ⟨?_, fun fd heq ↦ (by cases heq), fun event hmem ↦ ?_⟩
    · rw [hfds]
      exact hnodup
    · obtain ⟨fd, hfd, rfl⟩ := List.mem_map.mp hmem
      refine ⟨fun heq ↦ hwake (heq ▸ hfd), ?_⟩
      by_cases hlisten : fd = listenFd
      · exact Or.inl ⟨hlisten, if_pos hlisten⟩
      · exact Or.inr ⟨hlisten, if_neg hlisten⟩
  · intro fd hlisten hne
    have hok := h.entries fd hlisten hne
    rw [hposition] at hok
    rw [role_of_fd_eq_none .dispatching rfl, pendingRole_map]
    by_cases hmem : fd ∈ fds
    · rw [if_pos hmem]
      generalize hentry : s.entry fd = entry at hok
      cases hok with
      | free =>
        have hkernel : s.reactor.kernel fd = none := congrArg Entry.mask hentry
        refine absurd ?_ (hready fd hmem).2
        rw [System.revents, hkernel]
      | @serving _ socket client writing ready hsum hallows =>
        have hsocket : s.sockets fd = some socket := congrArg Entry.socket hentry
        have hclient : s.clients fd = some client := congrArg Entry.client hentry
        have hwatcher : s.reactor.watchers fd = _ := congrArg Entry.watcher hentry
        have hkernel : s.reactor.kernel fd = _ := congrArg Entry.mask hentry
        simp only [System.entry, hsocket, hclient, hwatcher, hkernel]
        refine .serving hsum ⟨fun hout ↦ (hallows.1 hout).2, fun herror ↦ ?_⟩
        rw [h.revents_eq hlisten hsocket hkernel] at herror
        exact failed_of_pollBits _ _ _ _ _ herror
    · rw [if_neg hmem]
      simp only [System.entry, hmem, decide_false, Bool.not_false, Bool.and_true]
      exact hok

/-! ## Runs -/

theorem inv_step (h : Inv wakeFd listenFd s) {a : Action} (hs : s.step a = some s') :
    Inv wakeFd listenFd s' := by
  cases a with
  | connect => exact Option.some.inj hs ▸ h.connect
  | arrive fd bytes => exact h.arrive hs
  | shutdown fd => exact h.shutdown hs
  | reset fd => exact h.reset hs
  | drain fd amount => exact h.drain hs
  | wakeUp fd => exact Option.some.inj hs ▸ h.setReady fd
  | wait fds => exact h.wait hs
  | proceed => exact h.proceed hs
  | accept result => exact h.acceptClients hs
  | recv result => exact h.recv hs
  | send result => exact h.send hs
  | control fault => exact h.control hs
  | close => exact h.close hs

theorem kernel_fresh {fd : ℤ} (hne : fd ≠ wakeFd) :
    (Table.fresh Callback wakeFd).kernel fd = none := by
  rw [Table.fresh]
  dsimp only
  rw [Function.update_of_ne hne]

theorem inv_init (hlisten : 0 ≤ listenFd) (hne : wakeFd ≠ listenFd) :
    Inv wakeFd listenFd (machine wakeFd listenFd).init := by
  rw [machine, add_eq hlisten hne.symm rfl (kernel_fresh hne.symm)]
  refine ⟨rfl, rfl, hne, rfl, ⟨rfl, rfl⟩, Function.update_of_ne hne _ _,
    ⟨rfl, Function.update_self .., Function.update_self ..⟩, Or.inr (Or.inl rfl),
    fun _ _ heq ↦ (by cases heq), fun fd hfd hwake ↦ ?_, fun _ hc ↦ by cases hc⟩
  have hwatcher : Function.update (Table.fresh Callback wakeFd).watchers listenFd
      (some ⟨interest false, .acceptClients⟩) fd = none := Function.update_of_ne hfd _ _
  have hmask : Function.update (Table.fresh Callback wakeFd).kernel listenFd
      (some (toNativeEvents (interest false))) fd = none := by
    rw [Function.update_of_ne hfd, kernel_fresh hwake]
  rw [System.entry]
  dsimp only
  rw [hwatcher, hmask]
  exact .free

theorem inv_of_reachable (hlisten : 0 ≤ listenFd) (hne : wakeFd ≠ listenFd)
    (h : (machine wakeFd listenFd).Reachable s) : Inv wakeFd listenFd s :=
  Machine.Leads.invariant h (inv_init hlisten hne) fun hI _ hs ↦ inv_step hI hs

end Steps

end EchoServer

end FoundationComponents
