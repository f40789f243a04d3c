import FoundationComponents.Machine.Tally
import FoundationComponents.ThreadPool.Queue

/-!
# The sections under the spinlock

`__push_task` and `__pop_task` taken apart into the single loads and stores, executed by any number
of threads: a worker that has popped a task reads its two other fields, frees the node and calls the
handler, which may push tasks in turn. `*link = NULL` is stored before the spinlock is locked, and
the fields of a popped node are read after it has been unlocked. What else the threads do between
two calls does not matter here: they may try to pop a task whenever they like.

Every node is in the hands of one thread or in the queue, from the time it is allocated until it is
freed. Hence no access under the spinlock meets one outside of it, and each store that changes the
chain appends a node or takes one off.
-/

namespace FoundationComponents

namespace ThreadPool

open TaskQueue (IsNode Beside)

/-! ## Threads

Outside of the two functions a thread may hold a node, read it and free it, and anyone may allocate
and write memory that is not in use. So what a thread accesses has to be shown to be there. -/

/-- The fields `func` and `arg` of a node. -/
structure Task where
  func : ℕ
  arg : ℕ
  deriving Repr, DecidableEq

/-- The addresses of the two fields. -/
def funcField (node : ℕ) : ℕ := node + 8
def argField (node : ℕ) : ℕ := node + 16

/-- Where a thread is. Each constructor but `idle` names the next access. -/
inductive Pc
  /-- Outside of the functions of the queue, possibly in a handler. -/
  | idle
  /-- `*link = NULL` in `__push_task`. -/
  | clearLink (node : ℕ)
  | pushLock (node : ℕ)
  /-- `*queue->tail = link`. -/
  | loadTail (node : ℕ)
  | storeLink (node tail : ℕ)
  /-- `queue->tail = link`. -/
  | storeTail (node : ℕ)
  | pushUnlock
  | popLock
  /-- `queue->head == NULL` in `__pop_task`. -/
  | testHead
  | unlockEmpty
  /-- `task = queue->head`. -/
  | loadHead
  /-- `queue->head = task->next`. -/
  | loadNext (node : ℕ)
  | storeHead (node next : ℕ)
  /-- `queue->head == NULL`, for the new head. -/
  | testLast (node : ℕ)
  /-- `queue->tail = &queue->head`. -/
  | resetTail (node : ℕ)
  | popUnlock (node : ℕ)
  /-- `func = task->func` in `__thrdpool_worker`. -/
  | loadFunc (node : ℕ)
  /-- `ctx = task->arg`. -/
  | loadArg (node func : ℕ)
  | free (node : ℕ) (task : Task)
  /-- `func(ctx)`. -/
  | call (task : Task)
  deriving Repr, DecidableEq

/-- The thread has the spinlock. -/
def Pc.holds : Pc → Bool
  | .loadTail _ | .storeLink _ _ | .storeTail _ | .pushUnlock | .testHead | .unlockEmpty | .loadHead
  | .loadNext _ | .storeHead _ _ | .testLast _ | .resetTail _ | .popUnlock _ => true
  | _ => false

/-- The node in the hands of the thread. -/
def Pc.nodes : Pc → Multiset ℕ
  | .clearLink node | .pushLock node | .loadTail node | .storeLink node _ | .testLast node
  | .resetTail node | .popUnlock node | .loadFunc node | .loadArg node _ | .free node _ => {node}
  | _ => 0

/-- The task that the thread has popped and whose handler it has not called yet. -/
def Pc.held (tasks : ℕ → Task) : Pc → Multiset Task
  | .testLast node | .resetTail node | .popUnlock node | .loadFunc node | .loadArg node _ =>
      {tasks node}
  | .free _ task | .call task => {task}
  | _ => 0

/-- The word that the next access loads or stores. -/
def Pc.accesses (queue : ℕ) : Pc → List ℕ
  | .clearLink node | .loadNext node => [node]
  | .loadTail _ | .storeTail _ | .resetTail _ => [tailField queue]
  | .storeLink _ tail => [tail]
  | .testHead | .loadHead | .storeHead _ _ | .testLast _ => [queue]
  | .loadFunc node => [funcField node]
  | .loadArg node _ => [argField node]
  | _ => []

/-- The memory, the spinlock and the threads. The other fields record: the nodes that are allocated,
with their tasks; the nodes in the queue; and the tasks that have been pushed, popped and called, in
their order. -/
structure Sections (n : ℕ) where
  memory : Memory
  lock : Option (Fin n)
  threads : Fin n → Pc
  live : List ℕ
  tasks : ℕ → Task
  queued : List ℕ
  pushed : List Task
  popped : List Task
  called : List Task

inductive Access (n : ℕ)
  /-- A thread allocates a node, sets its fields and calls `__push_task`. -/
  | post (t : Fin n) (node : ℕ) (task : Task)
  /-- A thread calls `__pop_task`. -/
  | get (t : Fin n)
  /-- The next access of a thread. -/
  | step (t : Fin n)
  /-- A write to memory that is neither in the queue nor in an allocated node. -/
  | write (address : ℕ) (byte : UInt8)
  deriving Repr, DecidableEq

namespace Sections

variable {n : ℕ} (queue : ℕ) (s : Sections n)

def setPc (t : Fin n) (pc : Pc) : Sections n :=
  { s with threads := Function.update s.threads t pc }

/-- The next access of the thread `t`. -/
def access (t : Fin n) : Pc → Option (Sections n)
  | .idle => none
  | .clearLink node => some ({ s with memory := s.memory.store node 0 }.setPc t (.pushLock node))
  | .pushLock node =>
      if s.lock.isNone then some ({ s with lock := some t }.setPc t (.loadTail node)) else none
  | .loadTail node => some (s.setPc t (.storeLink node (s.memory.load (tailField queue))))
  | .storeLink node tail =>
      some ({ s with
        memory := s.memory.store tail node
        queued := s.queued ++ [node]
        pushed := s.pushed ++ [s.tasks node] }.setPc t (.storeTail node))
  | .storeTail node =>
      some ({ s with memory := s.memory.store (tailField queue) node }.setPc t .pushUnlock)
  | .pushUnlock => some ({ s with lock := none }.setPc t .idle)
  | .popLock => if s.lock.isNone then some ({ s with lock := some t }.setPc t .testHead) else none
  | .testHead => some (s.setPc t (if s.memory.load queue = 0 then .unlockEmpty else .loadHead))
  | .unlockEmpty => some ({ s with lock := none }.setPc t .idle)
  | .loadHead => some (s.setPc t (.loadNext (s.memory.load queue)))
  | .loadNext node => some (s.setPc t (.storeHead node (s.memory.load node)))
  | .storeHead node next =>
      some ({ s with
        memory := s.memory.store queue next
        queued := s.queued.tail
        popped := s.popped ++ [s.tasks node] }.setPc t (.testLast node))
  | .testLast node =>
      some (s.setPc t (if s.memory.load queue = 0 then .resetTail node else .popUnlock node))
  | .resetTail node =>
      some ({ s with memory := s.memory.store (tailField queue) queue }.setPc t (.popUnlock node))
  | .popUnlock node => some ({ s with lock := none }.setPc t (.loadFunc node))
  | .loadFunc node => some (s.setPc t (.loadArg node (s.memory.load (funcField node))))
  | .loadArg node func => some (s.setPc t (.free node ⟨func, s.memory.load (argField node)⟩))
  | .free node task => some ({ s with live := s.live.erase node }.setPc t (.call task))
  | .call task => some ({ s with called := s.called ++ [task] }.setPc t .idle)

def step : Access n → Option (Sections n)
  | .post t node task =>
      if s.threads t = .idle ∧ IsNode queue node ∧ (∀ other ∈ s.live, Beside node other) ∧
          task.func < Memory.size ∧ task.arg < Memory.size then
        some ({ s with
          memory := (s.memory.store (funcField node) task.func).store (argField node) task.arg
          live := node :: s.live
          tasks := Function.update s.tasks node task }.setPc t (.clearLink node))
      else none
  | .get t => if s.threads t = .idle then some (s.setPc t .popLock) else none
  | .step t => s.access queue t (s.threads t)
  | .write address byte =>
      if (address < queue ∨ queue + 16 ≤ address) ∧
          ∀ node ∈ s.live, address < node ∨ node + taskSize ≤ address then
        some { s with memory := s.memory.writeByte address byte }
      else none

end Sections

/-- `n` threads on the queue that `__taskqueue_create` has set up in a memory with any content. -/
def sectionsMachine (n queue : ℕ) (m : Memory) : Machine (Sections n) (Access n) where
  init :=
    { memory := taskqueueCreate queue m
      lock := none
      threads := fun _ ↦ .idle
      live := []
      tasks := fun _ ↦ ⟨0, 0⟩
      queued := []
      pushed := []
      popped := []
      called := [] }
  step := Sections.step queue

/-! ## The invariant

The chain is that of the single-threaded queue up to the store that a thread with the spinlock has
still to do. What that thread knows depends on its position; the others know their own nodes. -/

/-- `tail` is the address of the last word of the row. -/
def TailOk (queue : ℕ) (m : Memory) (queued : List ℕ) : Prop :=
  m.load (tailField queue) = Memory.lastWord queue queued

/-- What a thread knows of the node it has. -/
def Pc.Own (m : Memory) (tasks : ℕ → Task) : Pc → Prop
  | .pushLock node | .loadTail node | .storeLink node _ => m.load node = 0
  | .loadArg node func => func = (tasks node).func
  | .free node task => task = tasks node
  | _ => True

/-- What the thread with the spinlock knows of the queue. -/
def Pc.Section (queue : ℕ) (m : Memory) (queued : List ℕ) : Pc → Prop
  | .storeLink _ tail => tail = Memory.lastWord queue queued
  | .storeTail node => Memory.lastWord queue queued = node
  | .unlockEmpty => TailOk queue m queued ∧ queued = []
  | .loadHead => TailOk queue m queued ∧ queued ≠ []
  | .loadNext node => TailOk queue m queued ∧ queued.head? = some node
  | .storeHead node next =>
      TailOk queue m queued ∧ queued.head? = some node ∧ next = m.load node
  -- the node that was taken off is still the first one in the eyes of `tail`
  | .testLast node => m.load (tailField queue) = Memory.lastWord node queued
  | .resetTail _ => queued = []
  | _ => TailOk queue m queued

structure Kept {n : ℕ} (queue : ℕ) (s : Sections n) : Prop where
  lock_iff : ∀ t, s.lock = some t ↔ (s.threads t).holds = true
  node : ∀ node ∈ s.live, IsNode queue node
  beside : s.live.Pairwise Beside
  owned : (s.live : Multiset ℕ) = tally Pc.nodes s.threads + ↑s.queued
  linked : s.memory.Linked queue s.queued
  content : ∀ node ∈ s.live, s.memory.load (funcField node) = (s.tasks node).func ∧
    s.memory.load (argField node) = (s.tasks node).arg
  own : ∀ t, (s.threads t).Own s.memory s.tasks
  free : s.lock = none → TailOk queue s.memory s.queued
  held : ∀ t, s.lock = some t → (s.threads t).Section queue s.memory s.queued
  fifo : s.pushed = s.popped ++ s.queued.map s.tasks
  once : (s.popped : Multiset Task) = ↑s.called + tally (Pc.held s.tasks) s.threads

section Kept

variable {n queue : ℕ} {s s' : Sections n} {t : Fin n} {node : ℕ}

/-! ## Nodes

A node that is allocated is in the queue or in the hands of one thread, and no two of them share
memory. -/

instance : Std.Symm Beside := ⟨fun _ _ hbeside ↦ Or.symm hbeside⟩

theorem not_beside_self (node : ℕ) : ¬Beside node node := by
  rw [Beside, taskSize]
  omega

theorem Kept.nodup (h : Kept queue s) : s.live.Nodup :=
  h.beside.imp fun {a b} hbeside ↦ by
    rintro rfl
    exact not_beside_self a hbeside

theorem Kept.nodup_owned (h : Kept queue s) :
    (tally Pc.nodes s.threads + (s.queued : Multiset ℕ)).Nodup := by
  rw [← h.owned]
  exact Multiset.coe_nodup.mpr h.nodup

theorem Kept.beside_of_ne (h : Kept queue s) {other : ℕ} (hnode : node ∈ s.live)
    (hother : other ∈ s.live) (hne : node ≠ other) : Beside node other :=
  h.beside.forall hnode hother hne

theorem Kept.mem_live_of_thread (h : Kept queue s) (hnode : node ∈ (s.threads t).nodes) :
    node ∈ s.live := by
  have hmem : node ∈ tally Pc.nodes s.threads + (s.queued : Multiset ℕ) :=
    Multiset.mem_add.mpr (Or.inl (Multiset.mem_of_le (le_tally Pc.nodes s.threads t) hnode))
  rwa [← h.owned] at hmem

theorem Kept.mem_live_of_queued (h : Kept queue s) (hnode : node ∈ s.queued) : node ∈ s.live := by
  have hmem : node ∈ tally Pc.nodes s.threads + (s.queued : Multiset ℕ) :=
    Multiset.mem_add.mpr (Or.inr hnode)
  rwa [← h.owned] at hmem

/-- A node in the hands of a thread is not in the queue. -/
theorem Kept.notMem_queued (h : Kept queue s) (hnode : node ∈ (s.threads t).nodes) :
    node ∉ s.queued := fun hmem ↦
  (Multiset.disjoint_left.mp (Multiset.nodup_add.mp h.nodup_owned).2.2)
    (Multiset.mem_of_le (le_tally Pc.nodes s.threads t) hnode) hmem

theorem Kept.notMem_nodes (h : Kept queue s) {u : Fin n} (hne : u ≠ t)
    (hnode : node ∈ (s.threads t).nodes) : node ∉ (s.threads u).nodes := by
  have hnodup := Multiset.nodup_of_le (add_le_tally Pc.nodes s.threads hne)
    (Multiset.nodup_add.mp h.nodup_owned).1
  exact fun hmem ↦ Multiset.disjoint_left.mp (Multiset.nodup_add.mp hnodup).2.2 hmem hnode

/-! ## Words

Only the two fields of the queue and the links of allocated nodes are ever stored to. These words do
not overlap, so a store to one of them is not seen at the others. -/

/-- A word that is stored to: a field of the queue, or the link of an allocated node. -/
def IsLinkWord (queue : ℕ) (s : Sections n) (a : ℕ) : Prop :=
  a = queue ∨ a = tailField queue ∨ a ∈ s.live

theorem Kept.apart_of_ne (h : Kept queue s) {a b : ℕ} (ha : IsLinkWord queue s a)
    (hb : IsLinkWord queue s b) (hne : a ≠ b) : Memory.Apart a b := by
  have hfields : Memory.Apart queue (tailField queue) := Or.inl (Nat.le_refl _)
  rcases ha with rfl | rfl | ha
  · rcases hb with rfl | rfl | hb
    · exact absurd rfl hne
    · exact hfields
    · exact (h.node b hb).apart.1
  · rcases hb with rfl | rfl | hb
    · exact hfields.symm
    · exact absurd rfl hne
    · exact (h.node b hb).apart.2
  · rcases hb with rfl | rfl | hb
    · exact (h.node a ha).apart.1.symm
    · exact (h.node a ha).apart.2.symm
    · exact (h.beside_of_ne ha hb hne).apart

/-- The other fields of a node are apart from these words. -/
theorem Kept.apart_content (h : Kept queue s) {a : ℕ} (ha : IsLinkWord queue s a)
    (hnode : node ∈ s.live) :
    Memory.Apart a (funcField node) ∧ Memory.Apart a (argField node) := by
  have hplace := (h.node node hnode).2.2
  rw [taskSize] at hplace
  rw [Memory.Apart, Memory.Apart, funcField, argField]
  rcases ha with rfl | rfl | ha
  · omega
  · rw [tailField]
    omega
  · by_cases heq : a = node
    · omega
    · have hbeside := h.beside_of_ne ha hnode heq
      rw [Beside, taskSize] at hbeside
      omega

theorem isLinkWord_of_row (h : Kept queue s) {a : ℕ} (ha : a ∈ queue :: s.queued) :
    IsLinkWord queue s a := by
  rcases List.mem_cons.mp ha with rfl | hmem
  · exact Or.inl rfl
  · exact Or.inr (Or.inr (h.mem_live_of_queued hmem))

/-- A store to one word does not change another. -/
theorem Kept.load_store (h : Kept queue s) {a b v : ℕ} (ha : IsLinkWord queue s a)
    (hb : IsLinkWord queue s b) (hne : a ≠ b) : (s.memory.store a v).load b = s.memory.load b :=
  Memory.load_store_of_disjoint (h.apart_of_ne ha hb hne)

theorem Kept.content_store (h : Kept queue s) {a v : ℕ} (ha : IsLinkWord queue s a) :
    ∀ node ∈ s.live, (s.memory.store a v).load (funcField node) = (s.tasks node).func ∧
      (s.memory.store a v).load (argField node) = (s.tasks node).arg := by
  intro node hnode
  have happart := h.apart_content ha hnode
  rw [Memory.load_store_of_disjoint happart.1, Memory.load_store_of_disjoint happart.2]
  exact h.content node hnode

theorem Kept.tailField_ne (h : Kept queue s) {a : ℕ} (ha : a ∈ queue :: s.queued) :
    tailField queue ≠ a := by
  rcases List.mem_cons.mp ha with rfl | hmem
  · rw [tailField]
    omega
  · rintro rfl
    have happart := (h.node _ (h.mem_live_of_queued hmem)).apart.2
    rw [Memory.Apart] at happart
    omega

theorem Kept.row (h : Kept queue s) : (queue :: s.queued).Pairwise Memory.Apart := by
  refine List.pairwise_cons.mpr ⟨fun node hnode ↦ ?_, ?_⟩
  · exact (h.node node (h.mem_live_of_queued hnode)).apart.1
  · have hnodup : s.queued.Nodup := Multiset.coe_nodup.mp (Multiset.nodup_add.mp h.nodup_owned).2.1
    refine hnodup.imp_of_mem fun hnode hother hne ↦ ?_
    exact (h.beside_of_ne (h.mem_live_of_queued hnode) (h.mem_live_of_queued hother) hne).apart

/-! ## What a thread knows -/

private theorem own_congr {m m' : Memory} {tasks tasks' : ℕ → Task} {pc : Pc} (h : pc.Own m tasks)
    (hsame : ∀ node ∈ pc.nodes, m'.load node = m.load node ∧ tasks' node = tasks node) :
    pc.Own m' tasks' := by
  cases pc with
  | pushLock node | loadTail node | storeLink node tail =>
    exact (hsame node (Multiset.mem_singleton_self node)).1.trans h
  | loadArg node func =>
    have htask := (hsame node (Multiset.mem_singleton_self node)).2
    exact h.trans (congrArg Task.func htask.symm)
  | free node task => exact h.trans (hsame node (Multiset.mem_singleton_self node)).2.symm
  | _ => exact h

private theorem held_congr {tasks tasks' : ℕ → Task} {pc : Pc}
    (hsame : ∀ node ∈ pc.nodes, tasks' node = tasks node) : pc.held tasks' = pc.held tasks := by
  cases pc with
  | testLast node | resetTail node | popUnlock node | loadFunc node | loadArg node func =>
    rw [Pc.held, Pc.held, hsame node (Multiset.mem_singleton_self node)]
  | _ => rfl

private theorem section_congr {m m' : Memory} {queued : List ℕ} {pc : Pc}
    (h : pc.Section queue m queued) (htail : m'.load (tailField queue) = m.load (tailField queue))
    (hhead : ∀ node, queued.head? = some node → m'.load node = m.load node) :
    pc.Section queue m' queued := by
  cases pc with
  | storeLink | storeTail | resetTail => exact h
  | unlockEmpty | loadHead => exact ⟨htail.trans h.1, h.2⟩
  | loadNext node => exact ⟨htail.trans h.1, h.2⟩
  | storeHead node next =>
    exact ⟨htail.trans h.1, h.2.1, h.2.2.trans (hhead node h.2.1).symm⟩
  | _ => exact htail.trans h

/-! ## The spinlock

Whoever is in a section of it has it. So at most one thread is between the stores of a push or a
pop. -/

theorem Kept.section_of_holds (h : Kept queue s) {pc : Pc} (ht : s.threads t = pc)
    (hholds : pc.holds = true) : pc.Section queue s.memory s.queued :=
  ht ▸ h.held t ((h.lock_iff t).mpr (ht ▸ hholds))

theorem Kept.lock_goOn (h : Kept queue s) {pc' : Pc} (hholds : pc'.holds = (s.threads t).holds)
    (u : Fin n) : s.lock = some u ↔ (Function.update s.threads t pc' u).holds = true := by
  rw [apply_update_eq Pc.holds s.threads hholds u]
  exact h.lock_iff u

theorem Kept.lock_acquire (h : Kept queue s) {pc' : Pc} (hfree : s.lock = none)
    (hholds : pc'.holds = true) (u : Fin n) :
    some t = some u ↔ (Function.update s.threads t pc' u).holds = true := by
  by_cases hu : u = t
  · rw [hu, Function.update_self, hholds]
    exact iff_of_true rfl rfl
  · rw [Function.update_of_ne hu, ← h.lock_iff u, hfree]
    exact iff_of_false (fun heq ↦ hu (Option.some.inj heq).symm) fun heq ↦ by cases heq

theorem Kept.lock_release (h : Kept queue s) {pc' : Pc} (hlock : s.lock = some t)
    (hholds : pc'.holds = false) (u : Fin n) :
    none = some u ↔ (Function.update s.threads t pc' u).holds = true := by
  by_cases hu : u = t
  · rw [hu, Function.update_self, hholds]
    exact iff_of_false (fun heq ↦ by cases heq) Bool.false_ne_true
  · rw [Function.update_of_ne hu, ← h.lock_iff u, hlock]
    exact iff_of_false (fun heq ↦ by cases heq) fun heq ↦ hu (Option.some.inj heq).symm

/-! ## Steps that change no memory -/

theorem Kept.quiet (h : Kept queue s) {pc' : Pc} {lock' : Option (Fin n)}
    (hlock : ∀ u, lock' = some u ↔ (Function.update s.threads t pc' u).holds = true)
    (hnodes : pc'.nodes = (s.threads t).nodes)
    (hheld : pc'.held s.tasks = (s.threads t).held s.tasks) (hown : pc'.Own s.memory s.tasks)
    (hfree : lock' = none → TailOk queue s.memory s.queued)
    (hsection : lock' = some t → pc'.Section queue s.memory s.queued)
    (hothers : ∀ u, u ≠ t → lock' = some u → s.lock = some u) :
    Kept queue ({ s with lock := lock' }.setPc t pc') := by
  have howned : (s.live : Multiset ℕ) =
      tally Pc.nodes (Function.update s.threads t pc') + ↑s.queued := by
    rw [tally_update_of_eq Pc.nodes s.threads hnodes, h.owned]
  have honce : (s.popped : Multiset Task) =
      ↑s.called + tally (Pc.held s.tasks) (Function.update s.threads t pc') := by
    rw [tally_update_of_eq (Pc.held s.tasks) s.threads hheld, h.once]
  have howns : ∀ u, (Function.update s.threads t pc' u).Own s.memory s.tasks :=
    (Function.forall_update_iff s.threads fun _ pc ↦ pc.Own s.memory s.tasks).mpr
      ⟨hown, fun u _ ↦ h.own u⟩
  have hsections : ∀ u, lock' = some u →
      (Function.update s.threads t pc' u).Section queue s.memory s.queued :=
    (Function.forall_update_iff s.threads fun u pc ↦
      lock' = some u → pc.Section queue s.memory s.queued).mpr
      ⟨hsection, fun u hu hl ↦ h.held u (hothers u hu hl)⟩
  exact ⟨hlock, h.node, h.beside, howned, h.linked, h.content, howns, hfree, hsections, h.fifo,
    honce⟩

theorem Kept.goOn (h : Kept queue s) {pc pc' : Pc} (ht : s.threads t = pc)
    (hholds : pc'.holds = pc.holds) (hnodes : pc'.nodes = pc.nodes)
    (hheld : pc'.held s.tasks = pc.held s.tasks) (hown : pc'.Own s.memory s.tasks)
    (hsection : pc.holds = true → pc'.Section queue s.memory s.queued) :
    Kept queue (s.setPc t pc') := by
  subst ht
  exact h.quiet (h.lock_goOn hholds) hnodes hheld hown h.free
    (fun hlock ↦ hsection ((h.lock_iff t).mp hlock)) fun _ _ hlock ↦ hlock

theorem Kept.acquire (h : Kept queue s) {pc pc' : Pc} (ht : s.threads t = pc)
    (hlock : s.lock.isNone = true) (hholds : pc'.holds = true) (hnodes : pc'.nodes = pc.nodes)
    (hheld : pc'.held s.tasks = pc.held s.tasks) (hown : pc'.Own s.memory s.tasks)
    (hsection : TailOk queue s.memory s.queued → pc'.Section queue s.memory s.queued) :
    Kept queue ({ s with lock := some t }.setPc t pc') := by
  subst ht
  have hfree := Option.isNone_iff_eq_none.mp hlock
  refine h.quiet (h.lock_acquire hfree hholds) hnodes hheld hown (fun heq ↦ by cases heq)
    (fun _ ↦ hsection (h.free hfree)) fun u hu heq ↦ absurd (Option.some.inj heq).symm hu

theorem Kept.release (h : Kept queue s) {pc pc' : Pc} (ht : s.threads t = pc)
    (hholds : pc.holds = true) (hholds' : pc'.holds = false) (hnodes : pc'.nodes = pc.nodes)
    (hheld : pc'.held s.tasks = pc.held s.tasks) (hown : pc'.Own s.memory s.tasks)
    (htail : pc.Section queue s.memory s.queued → TailOk queue s.memory s.queued) :
    Kept queue ({ s with lock := none }.setPc t pc') := by
  subst ht
  have hlock := (h.lock_iff t).mpr hholds
  exact h.quiet (h.lock_release hlock hholds') hnodes hheld hown (fun _ ↦ htail (h.held t hlock))
    (fun heq ↦ by cases heq) fun u _ heq ↦ by cases heq

/-! ## Stores

A node that is not linked yet may get its link, and `tail` may move, without a change of the
chain. -/

theorem Kept.store (h : Kept queue s) {pc pc' : Pc} {a v : ℕ} (ht : s.threads t = pc)
    (ha : IsLinkWord queue s a) (hrow : ∀ b ∈ queue :: s.queued, a ≠ b)
    (hothers : ∀ u, u ≠ t → a ∉ (s.threads u).nodes) (hholds : pc'.holds = pc.holds)
    (hnodes : pc'.nodes = pc.nodes) (hheld : pc'.held s.tasks = pc.held s.tasks)
    (hown : pc'.Own (s.memory.store a v) s.tasks)
    (htail : pc.holds = false → a ≠ tailField queue)
    (hsection : pc.holds = true → pc'.Section queue (s.memory.store a v) s.queued) :
    Kept queue ({ s with memory := s.memory.store a v }.setPc t pc') := by
  subst ht
  have hsame : ∀ b ∈ queue :: s.queued, (s.memory.store a v).load b = s.memory.load b :=
    fun b hb ↦ h.load_store ha (isLinkWord_of_row h hb) (hrow b hb)
  have hfield : (s.threads t).holds = false →
      (s.memory.store a v).load (tailField queue) = s.memory.load (tailField queue) :=
    fun hholds ↦ h.load_store ha (Or.inr (Or.inl rfl)) (htail hholds)
  have howned : (s.live : Multiset ℕ) =
      tally Pc.nodes (Function.update s.threads t pc') + ↑s.queued := by
    rw [tally_update_of_eq Pc.nodes s.threads hnodes, h.owned]
  have honce : (s.popped : Multiset Task) =
      ↑s.called + tally (Pc.held s.tasks) (Function.update s.threads t pc') := by
    rw [tally_update_of_eq (Pc.held s.tasks) s.threads hheld, h.once]
  have howns : ∀ u, (Function.update s.threads t pc' u).Own (s.memory.store a v) s.tasks := by
    refine (Function.forall_update_iff s.threads fun _ pc ↦
      pc.Own (s.memory.store a v) s.tasks).mpr ⟨hown, fun u hu ↦ ?_⟩
    refine own_congr (h.own u) fun node hnode ↦ ⟨?_, rfl⟩
    exact h.load_store ha (Or.inr (Or.inr (h.mem_live_of_thread hnode)))
      fun heq ↦ hothers u hu (heq ▸ hnode)
  -- the others know something of `tail` only if this thread does not have the spinlock
  have hnot : ∀ {lock : Option (Fin n)}, s.lock = lock → lock ≠ some t →
      (s.threads t).holds = false := by
    intro lock hlock hne
    rw [← Bool.not_eq_true, ← h.lock_iff t, hlock]
    exact hne
  have hfree : s.lock = none → TailOk queue (s.memory.store a v) s.queued := fun hlock ↦
    (hfield (hnot hlock (Option.some_ne_none t).symm)).trans (h.free hlock)
  have hsections : ∀ u, s.lock = some u → (Function.update s.threads t pc' u).Section queue
      (s.memory.store a v) s.queued := by
    refine (Function.forall_update_iff s.threads fun u pc ↦
      s.lock = some u → pc.Section queue (s.memory.store a v) s.queued).mpr
      ⟨fun hlock ↦ hsection ((h.lock_iff t).mp hlock), fun u hu hlock ↦ ?_⟩
    refine section_congr (h.held u hlock) (hfield (hnot hlock fun heq ↦ hu (Option.some.inj heq)))
      fun node hnode ↦ hsame node (List.mem_cons_of_mem _ (List.mem_of_mem_head? hnode))
  exact ⟨h.lock_goOn hholds, h.node, h.beside, howned, h.linked.congr hsame, h.content_store ha,
    howns, hfree, hsections, h.fifo, honce⟩

/-! ## Steps

One lemma for every kind of access. Two of them change the list of the queue: the store that links a
node, and the store to `head`. -/

/-- The last word of a row that is not empty does not depend on where the row hangs. -/
theorem lastWord_of_ne_nil {queued : List ℕ} (h : queued ≠ []) (a b : ℕ) :
    Memory.lastWord a queued = Memory.lastWord b queued := by
  cases queued with
  | nil => exact absurd rfl h
  | cons c queued => rw [Memory.lastWord_cons, Memory.lastWord_cons]

theorem Kept.load_head_eq_zero_iff (h : Kept queue s) :
    s.memory.load queue = 0 ↔ s.queued = [] := by
  rw [h.linked.load_eq]
  cases hqueued : s.queued with
  | nil => exact iff_of_true rfl rfl
  | cons node rest =>
    have hlive : node ∈ s.live := h.mem_live_of_queued (hqueued ▸ List.mem_cons_self)
    exact iff_of_false (h.node node hlive).1 (List.cons_ne_nil node rest)

theorem Kept.ne_fields (h : Kept queue s) (hnode : node ∈ s.live) :
    node ≠ queue ∧ node ≠ tailField queue := by
  have hplace := (h.node node hnode).2.2
  rw [taskSize] at hplace
  rw [tailField]
  omega

theorem Kept.lt_size (h : Kept queue s) (hnode : node ∈ s.live) : node < Memory.size := by
  have hfits := (h.node node hnode).2.1
  rw [taskSize] at hfits
  omega

theorem Kept.clearLink (h : Kept queue s) (ht : s.threads t = .clearLink node) :
    Kept queue ({ s with memory := s.memory.store node 0 }.setPc t (.pushLock node)) := by
  have hmem : node ∈ (s.threads t).nodes := ht ▸ Multiset.mem_singleton_self node
  have hlive := h.mem_live_of_thread hmem
  refine h.store ht (Or.inr (Or.inr hlive)) (fun b hb ↦ ?_) (fun u hu ↦ h.notMem_nodes hu hmem) rfl
    rfl rfl (Memory.load_store_self (by decide)) (fun _ ↦ (h.ne_fields hlive).2)
    fun heq ↦ by cases heq
  rcases List.mem_cons.mp hb with rfl | hqueued
  · exact (h.ne_fields hlive).1
  · rintro rfl
    exact h.notMem_queued hmem hqueued

theorem Kept.tailField_notMem (h : Kept queue s) (u : Fin n) :
    tailField queue ∉ (s.threads u).nodes := fun hmem ↦
  (h.ne_fields (h.mem_live_of_thread hmem)).2 rfl

theorem Kept.storeTail (h : Kept queue s) (ht : s.threads t = .storeTail node)
    (hnode : node < Memory.size) :
    Kept queue
      ({ s with memory := s.memory.store (tailField queue) node }.setPc t .pushUnlock) := by
  refine h.store ht (Or.inr (Or.inl rfl)) (fun b hb ↦ h.tailField_ne hb)
    (fun u _ ↦ h.tailField_notMem u) rfl rfl rfl trivial (fun heq ↦ by cases heq) fun hholds ↦ ?_
  have hlast := h.held t ((h.lock_iff t).mpr (ht ▸ hholds))
  rw [ht] at hlast
  exact (Memory.load_store_self hnode).trans hlast.symm

theorem Kept.resetTail (h : Kept queue s) (ht : s.threads t = .resetTail node)
    (hfits : queue < Memory.size) :
    Kept queue ({ s with memory := s.memory.store (tailField queue) queue }.setPc t
      (.popUnlock node)) := by
  refine h.store ht (Or.inr (Or.inl rfl)) (fun b hb ↦ h.tailField_ne hb)
    (fun u _ ↦ h.tailField_notMem u) rfl rfl rfl trivial (fun heq ↦ by cases heq) fun hholds ↦ ?_
  have hempty := h.held t ((h.lock_iff t).mpr (ht ▸ hholds))
  rw [ht] at hempty
  have hqueued : s.queued = [] := hempty
  rw [hqueued]
  exact Memory.load_store_self hfits

/-- **Appending.** The node goes from the hands of the thread into the queue. -/
theorem Kept.storeLink (h : Kept queue s) {tail : ℕ} (ht : s.threads t = .storeLink node tail) :
    Kept queue ({ s with
      memory := s.memory.store tail node
      queued := s.queued ++ [node]
      pushed := s.pushed ++ [s.tasks node] }.setPc t (.storeTail node)) := by
  have hmem : node ∈ (s.threads t).nodes := ht ▸ Multiset.mem_singleton_self node
  have hlive := h.mem_live_of_thread hmem
  have hlock : s.lock = some t := (h.lock_iff t).mpr (ht ▸ rfl)
  have htail : tail = Memory.lastWord queue s.queued := by
    have hsection := h.held t hlock
    rwa [ht] at hsection
  have hnull : s.memory.load node = 0 := by
    have hown := h.own t
    rwa [ht] at hown
  have hrow : tail ∈ queue :: s.queued := htail ▸ Memory.lastWord_mem
  have hword := isLinkWord_of_row h hrow
  have hapart : ∀ c ∈ queue :: s.queued, Memory.Apart c node := by
    intro c hc
    refine h.apart_of_ne (isLinkWord_of_row h hc) (Or.inr (Or.inr hlive)) ?_
    rcases List.mem_cons.mp hc with rfl | hqueued
    · exact (h.ne_fields hlive).1.symm
    · rintro rfl
      exact h.notMem_queued hmem hqueued
  have hlinked : (s.memory.store tail node).Linked queue (s.queued ++ [node]) :=
    htail ▸ h.linked.concat h.row hapart hnull (h.lt_size hlive)
  have howned : (s.live : Multiset ℕ) =
      tally Pc.nodes (Function.update s.threads t (.storeTail node)) + ↑(s.queued ++ [node]) := by
    have htrade := tally_update Pc.nodes s.threads t (.storeTail node)
    rw [ht] at htrade
    have hsum : tally Pc.nodes (Function.update s.threads t (.storeTail node)) + {node} =
        tally Pc.nodes s.threads := htrade.trans (add_zero _)
    rw [h.owned, ← hsum, ← Multiset.coe_add, Multiset.coe_singleton, add_assoc,
      add_comm (s.queued : Multiset ℕ)]
  have honce : (s.popped : Multiset Task) = ↑s.called +
      tally (Pc.held s.tasks) (Function.update s.threads t (.storeTail node)) := by
    rw [tally_update_of_eq (Pc.held s.tasks) s.threads (by rw [ht]; rfl), h.once]
  have howns : ∀ u, (Function.update s.threads t (.storeTail node) u).Own
      (s.memory.store tail node) s.tasks := by
    refine (Function.forall_update_iff s.threads fun _ pc ↦
      pc.Own (s.memory.store tail node) s.tasks).mpr ⟨trivial, fun u hu ↦ ?_⟩
    refine own_congr (h.own u) fun other hother ↦ ⟨?_, rfl⟩
    have hother' := h.mem_live_of_thread hother
    refine h.load_store hword (Or.inr (Or.inr hother')) ?_
    rintro rfl
    rcases List.mem_cons.mp hrow with heq | hqueued
    · exact (h.ne_fields hother').1 heq
    · exact h.notMem_queued hother hqueued
  have hsections : ∀ u, s.lock = some u → (Function.update s.threads t (.storeTail node) u).Section
      queue (s.memory.store tail node) (s.queued ++ [node]) := by
    intro u hu
    obtain rfl := Option.some.inj (hlock.symm.trans hu)
    rw [Function.update_self]
    exact Memory.lastWord_concat
  have hfifo : s.pushed ++ [s.tasks node] = s.popped ++ (s.queued ++ [node]).map s.tasks := by
    rw [h.fifo, List.map_append, List.append_assoc]
    rfl
  exact ⟨h.lock_goOn (by rw [ht]; rfl), h.node, h.beside, howned, hlinked, h.content_store hword,
    howns, fun hfree ↦ absurd (hlock.symm.trans hfree) (Option.some_ne_none t), hsections, hfifo,
    honce⟩

/-- **Taking off.** The first node goes from the queue into the hands of the thread. -/
theorem Kept.storeHead (h : Kept queue s) {next : ℕ} (ht : s.threads t = .storeHead node next) :
    Kept queue ({ s with
      memory := s.memory.store queue next
      queued := s.queued.tail
      popped := s.popped ++ [s.tasks node] }.setPc t (.testLast node)) := by
  have hlock : s.lock = some t := (h.lock_iff t).mpr (ht ▸ rfl)
  obtain ⟨htail, hhead, hnext⟩ : TailOk queue s.memory s.queued ∧ s.queued.head? = some node ∧
      next = s.memory.load node := by
    have hsection := h.held t hlock
    rwa [ht] at hsection
  obtain ⟨rest, hqueued⟩ := List.head?_eq_some_iff.mp hhead
  have hword : IsLinkWord queue s queue := Or.inl rfl
  have hlinked : (s.memory.store queue next).Linked queue rest := by
    have hbefore := h.linked
    have hrow := h.row
    rw [hqueued] at hbefore hrow
    exact hnext ▸ hbefore.tail hrow
  have howned : (s.live : Multiset ℕ) =
      tally Pc.nodes (Function.update s.threads t (.testLast node)) + ↑rest := by
    have htrade := tally_update Pc.nodes s.threads t (.testLast node)
    rw [ht] at htrade
    have hsum : tally Pc.nodes (Function.update s.threads t (.testLast node)) =
        tally Pc.nodes s.threads + {node} := (add_zero _).symm.trans htrade
    rw [h.owned, hsum, hqueued, ← Multiset.cons_coe, ← Multiset.singleton_add, add_assoc]
  have honce : ((s.popped ++ [s.tasks node] : List Task) : Multiset Task) = ↑s.called +
      tally (Pc.held s.tasks) (Function.update s.threads t (.testLast node)) := by
    have htrade := tally_update (Pc.held s.tasks) s.threads t (.testLast node)
    rw [ht] at htrade
    have hsum : tally (Pc.held s.tasks) (Function.update s.threads t (.testLast node)) =
        tally (Pc.held s.tasks) s.threads + {s.tasks node} := (add_zero _).symm.trans htrade
    rw [hsum, ← Multiset.coe_add, Multiset.coe_singleton, h.once, add_assoc]
  have howns : ∀ u, (Function.update s.threads t (.testLast node) u).Own
      (s.memory.store queue next) s.tasks := by
    refine (Function.forall_update_iff s.threads fun _ pc ↦
      pc.Own (s.memory.store queue next) s.tasks).mpr ⟨trivial, fun u _ ↦ ?_⟩
    refine own_congr (h.own u) fun other hother ↦ ⟨?_, rfl⟩
    have hother' := h.mem_live_of_thread hother
    exact h.load_store hword (Or.inr (Or.inr hother')) (h.ne_fields hother').1.symm
  have hsections : ∀ u, s.lock = some u → (Function.update s.threads t (.testLast node) u).Section
      queue (s.memory.store queue next) rest := by
    intro u hu
    obtain rfl := Option.some.inj (hlock.symm.trans hu)
    rw [Function.update_self]
    have hsame := h.load_store (v := next) hword (Or.inr (Or.inl rfl))
      (h.tailField_ne List.mem_cons_self).symm
    have hlast : s.memory.load (tailField queue) = Memory.lastWord node rest := by
      rw [htail, hqueued, Memory.lastWord_cons]
    exact hsame.trans hlast
  have hfifo : s.pushed = (s.popped ++ [s.tasks node]) ++ rest.map s.tasks := by
    rw [h.fifo, hqueued, List.map_cons, List.append_assoc, List.singleton_append]
  have htails : s.queued.tail = rest := by rw [hqueued, List.tail_cons]
  rw [htails]
  exact ⟨h.lock_goOn (by rw [ht]; rfl), h.node, h.beside, howned, hlinked, h.content_store hword,
    howns, fun hfree ↦ absurd (hlock.symm.trans hfree) (Option.some_ne_none t), hsections, hfifo,
    honce⟩

theorem Kept.freeNode (h : Kept queue s) {task : Task} (ht : s.threads t = .free node task) :
    Kept queue ({ s with live := s.live.erase node }.setPc t (.call task)) := by
  have hmem : node ∈ (s.threads t).nodes := ht ▸ Multiset.mem_singleton_self node
  have hsub : ∀ other ∈ s.live.erase node, other ∈ s.live := fun _ ↦ List.mem_of_mem_erase
  have howned : ((s.live.erase node : List ℕ) : Multiset ℕ) =
      tally Pc.nodes (Function.update s.threads t (.call task)) + ↑s.queued := by
    have htrade := tally_update Pc.nodes s.threads t (.call task)
    rw [ht] at htrade
    have hsum : tally Pc.nodes (Function.update s.threads t (.call task)) + {node} =
        tally Pc.nodes s.threads := htrade.trans (add_zero _)
    rw [← Multiset.coe_erase, h.owned, ← hsum, add_comm _ ({node} : Multiset ℕ), add_assoc,
      Multiset.singleton_add, Multiset.erase_cons_head]
  have honce : (s.popped : Multiset Task) = ↑s.called +
      tally (Pc.held s.tasks) (Function.update s.threads t (.call task)) := by
    rw [tally_update_of_eq (Pc.held s.tasks) s.threads (by rw [ht]; rfl), h.once]
  have howns : ∀ u, (Function.update s.threads t (.call task) u).Own s.memory s.tasks :=
    (Function.forall_update_iff s.threads fun _ pc ↦ pc.Own s.memory s.tasks).mpr
      ⟨trivial, fun u _ ↦ h.own u⟩
  have hsections : ∀ u, s.lock = some u →
      (Function.update s.threads t (.call task) u).Section queue s.memory s.queued := by
    refine (Function.forall_update_iff s.threads fun u pc ↦
      s.lock = some u → pc.Section queue s.memory s.queued).mpr
      ⟨fun hlock ↦ ?_, fun u _ ↦ h.held u⟩
    have hholds := (h.lock_iff t).mp hlock
    rw [ht] at hholds
    cases hholds
  exact ⟨h.lock_goOn (by rw [ht]; rfl), fun other hother ↦ h.node other (hsub other hother),
    h.beside.sublist List.erase_sublist, howned, h.linked,
    fun other hother ↦ h.content other (hsub other hother), howns, h.free, hsections, h.fifo, honce⟩

theorem Kept.callTask (h : Kept queue s) {task : Task} (ht : s.threads t = .call task) :
    Kept queue ({ s with called := s.called ++ [task] }.setPc t .idle) := by
  have honce : (s.popped : Multiset Task) = ((s.called ++ [task] : List Task) : Multiset Task) +
      tally (Pc.held s.tasks) (Function.update s.threads t .idle) := by
    have htrade := tally_update (Pc.held s.tasks) s.threads t .idle
    rw [ht] at htrade
    have hsum : tally (Pc.held s.tasks) (Function.update s.threads t .idle) + {task} =
        tally (Pc.held s.tasks) s.threads := htrade.trans (add_zero _)
    rw [h.once, ← hsum, ← Multiset.coe_add, Multiset.coe_singleton, add_assoc,
      add_comm _ ({task} : Multiset Task)]
  have howned : (s.live : Multiset ℕ) =
      tally Pc.nodes (Function.update s.threads t .idle) + ↑s.queued := by
    rw [tally_update_of_eq Pc.nodes s.threads (by rw [ht]; rfl), h.owned]
  have howns : ∀ u, (Function.update s.threads t .idle u).Own s.memory s.tasks :=
    (Function.forall_update_iff s.threads fun _ pc ↦ pc.Own s.memory s.tasks).mpr
      ⟨trivial, fun u _ ↦ h.own u⟩
  have hsections : ∀ u, s.lock = some u →
      (Function.update s.threads t .idle u).Section queue s.memory s.queued := by
    refine (Function.forall_update_iff s.threads fun u pc ↦
      s.lock = some u → pc.Section queue s.memory s.queued).mpr
      ⟨fun hlock ↦ ?_, fun u _ ↦ h.held u⟩
    have hholds := (h.lock_iff t).mp hlock
    rw [ht] at hholds
    cases hholds
  exact ⟨h.lock_goOn (by rw [ht]; rfl), h.node, h.beside, howned, h.linked, h.content, howns,
    h.free, hsections, h.fifo, honce⟩

theorem Kept.apart_fresh (h : Kept queue s) (hnode : IsNode queue node)
    (hfresh : ∀ other ∈ s.live, Beside node other) {a : ℕ} (ha : IsLinkWord queue s a) :
    Memory.Apart (funcField node) a ∧ Memory.Apart (argField node) a := by
  have hplace := hnode.2.2
  rw [taskSize] at hplace
  rw [Memory.Apart, Memory.Apart, funcField, argField]
  rcases ha with rfl | rfl | ha
  · omega
  · rw [tailField]
    omega
  · have hbeside := hfresh a ha
    rw [Beside, taskSize] at hbeside
    omega

theorem Kept.post (h : Kept queue s) {task : Task} (ht : s.threads t = .idle)
    (hnode : IsNode queue node) (hfresh : ∀ other ∈ s.live, Beside node other)
    (hfunc : task.func < Memory.size) (harg : task.arg < Memory.size) :
    Kept queue ({ s with
      memory := (s.memory.store (funcField node) task.func).store (argField node) task.arg
      live := node :: s.live
      tasks := Function.update s.tasks node task }.setPc t (.clearLink node)) := by
  have hnew : ∀ other ∈ s.live, Function.update s.tasks node task other = s.tasks other := by
    intro other hother
    refine Function.update_of_ne ?_ _ _
    rintro rfl
    exact not_beside_self other (hfresh other hother)
  have hsame : ∀ a, IsLinkWord queue s a →
      ((s.memory.store (funcField node) task.func).store (argField node) task.arg).load a =
        s.memory.load a := by
    intro a ha
    have happart := h.apart_fresh hnode hfresh ha
    rw [Memory.load_store_of_disjoint happart.2, Memory.load_store_of_disjoint happart.1]
  have howned : ((node :: s.live : List ℕ) : Multiset ℕ) =
      tally Pc.nodes (Function.update s.threads t (.clearLink node)) + ↑s.queued := by
    have htrade := tally_update Pc.nodes s.threads t (.clearLink node)
    rw [ht] at htrade
    have hsum : tally Pc.nodes (Function.update s.threads t (.clearLink node)) =
        tally Pc.nodes s.threads + {node} := (add_zero _).symm.trans htrade
    rw [hsum, ← Multiset.cons_coe, h.owned, ← Multiset.singleton_add, add_right_comm, add_comm]
  have hcontent : ∀ other ∈ node :: s.live,
      ((s.memory.store (funcField node) task.func).store (argField node) task.arg).load
          (funcField other) = (Function.update s.tasks node task other).func ∧
      ((s.memory.store (funcField node) task.func).store (argField node) task.arg).load
          (argField other) = (Function.update s.tasks node task other).arg := by
    refine List.forall_mem_cons.mpr ⟨?_, fun other hother ↦ ?_⟩
    · have happart : Memory.Apart (argField node) (funcField node) := by
        rw [Memory.Apart, funcField, argField]
        omega
      rw [Function.update_self, Memory.load_store_of_disjoint happart, Memory.load_store_self hfunc,
        Memory.load_store_self harg]
      exact ⟨rfl, rfl⟩
    · have hbeside := hfresh other hother
      rw [Beside, taskSize] at hbeside
      have happart : ∀ a b, a = funcField node ∨ a = argField node →
          b = funcField other ∨ b = argField other → a + 8 ≤ b ∨ b + 8 ≤ a := by
        intro a b ha hb
        rw [funcField, argField] at ha hb
        omega
      rw [hnew other hother, Memory.load_store_of_disjoint (happart _ _ (Or.inr rfl) (Or.inl rfl)),
        Memory.load_store_of_disjoint (happart _ _ (Or.inl rfl) (Or.inl rfl)),
        Memory.load_store_of_disjoint (happart _ _ (Or.inr rfl) (Or.inr rfl)),
        Memory.load_store_of_disjoint (happart _ _ (Or.inl rfl) (Or.inr rfl))]
      exact h.content other hother
  have htail := hsame (tailField queue) (Or.inr (Or.inl rfl))
  have howns : ∀ u, (Function.update s.threads t (.clearLink node) u).Own
      ((s.memory.store (funcField node) task.func).store (argField node) task.arg)
      (Function.update s.tasks node task) := by
    refine (Function.forall_update_iff s.threads fun _ pc ↦ pc.Own _ _).mpr
      ⟨trivial, fun u _ ↦ own_congr (h.own u) fun other hother ↦ ?_⟩
    have hlive := h.mem_live_of_thread hother
    exact ⟨hsame other (Or.inr (Or.inr hlive)), hnew other hlive⟩
  have hsections : ∀ u, s.lock = some u →
      (Function.update s.threads t (.clearLink node) u).Section queue
        ((s.memory.store (funcField node) task.func).store (argField node) task.arg) s.queued := by
    refine (Function.forall_update_iff s.threads fun u pc ↦
      s.lock = some u → pc.Section queue _ s.queued).mpr
      ⟨fun hlock ↦ ?_, fun u _ hlock ↦ section_congr (h.held u hlock) htail fun other hhead ↦ ?_⟩
    · have hholds := (h.lock_iff t).mp hlock
      rw [ht] at hholds
      cases hholds
    · have hqueued := List.mem_of_mem_head? hhead
      exact hsame other (Or.inr (Or.inr (h.mem_live_of_queued hqueued)))
  have hfifo : s.pushed = s.popped ++ s.queued.map (Function.update s.tasks node task) := by
    rw [h.fifo]
    refine congrArg _ (List.map_congr_left fun other hother ↦ ?_)
    exact (hnew other (h.mem_live_of_queued hother)).symm
  have honce : (s.popped : Multiset Task) = ↑s.called +
      tally (Pc.held (Function.update s.tasks node task))
        (Function.update s.threads t (.clearLink node)) := by
    rw [tally_update_of_eq _ s.threads (by rw [ht]; rfl), h.once]
    refine congrArg _ (Finset.sum_congr rfl fun u _ ↦ (held_congr fun other hother ↦ ?_).symm)
    exact hnew other (h.mem_live_of_thread hother)
  refine ⟨h.lock_goOn (by rw [ht]; rfl), List.forall_mem_cons.mpr ⟨hnode, h.node⟩,
    List.pairwise_cons.mpr ⟨hfresh, h.beside⟩, howned, h.linked.congr fun a ha ↦ ?_, hcontent,
    howns, fun hfree ↦ htail.trans (h.free hfree), hsections, hfifo, honce⟩
  exact hsame a (isLinkWord_of_row h ha)

theorem Kept.writeByte (h : Kept queue s) {address : ℕ} (byte : UInt8)
    (hfields : address < queue ∨ queue + 16 ≤ address)
    (hnodes : ∀ node ∈ s.live, address < node ∨ node + taskSize ≤ address) :
    Kept queue { s with memory := s.memory.writeByte address byte } := by
  have hsame : ∀ a, IsLinkWord queue s a →
      (s.memory.writeByte address byte).load a = s.memory.load a := by
    rintro a (rfl | rfl | ha)
    · exact Memory.load_writeByte_of_disjoint (by omega)
    · exact Memory.load_writeByte_of_disjoint (by rw [tailField]; omega)
    · have hbeside := hnodes a ha
      rw [taskSize] at hbeside
      exact Memory.load_writeByte_of_disjoint (by omega)
  have htail := hsame (tailField queue) (Or.inr (Or.inl rfl))
  refine ⟨h.lock_iff, h.node, h.beside, h.owned, h.linked.congr fun a ha ↦ ?_, fun node hnode ↦ ?_,
    fun u ↦ own_congr (h.own u) fun node hnode ↦ ⟨?_, rfl⟩, fun hfree ↦ htail.trans (h.free hfree),
    fun u hlock ↦ section_congr (h.held u hlock) htail fun node hhead ↦ ?_, h.fifo, h.once⟩
  · exact hsame a (isLinkWord_of_row h ha)
  · have hbeside := hnodes node hnode
    rw [taskSize] at hbeside
    rw [Memory.load_writeByte_of_disjoint (by rw [funcField]; omega),
      Memory.load_writeByte_of_disjoint (by rw [argField]; omega)]
    exact h.content node hnode
  · exact hsame node (Or.inr (Or.inr (h.mem_live_of_thread hnode)))
  · exact hsame node (Or.inr (Or.inr (h.mem_live_of_queued (List.mem_of_mem_head? hhead))))

/-- **Every access keeps the invariant.** -/
theorem Kept.access (h : Kept queue s) (hfits : queue < Memory.size)
    (hs : s.access queue t (s.threads t) = some s') : Kept queue s' := by
  generalize ht : s.threads t = pc at hs
  have hsection : pc.holds = true → pc.Section queue s.memory s.queued := h.section_of_holds ht
  have hown := h.own t
  rw [ht] at hown
  have hnode : ∀ node ∈ pc.nodes, node ∈ s.live := fun node hmem ↦
    h.mem_live_of_thread (t := t) (ht ▸ hmem)
  cases pc with
  | idle => cases hs
  | clearLink node =>
    obtain rfl := Option.some.inj hs
    exact h.clearLink ht
  | pushLock node =>
    rw [Sections.access, Option.ite_none_right_eq_some, Option.some.injEq] at hs
    obtain ⟨hfree, rfl⟩ := hs
    exact h.acquire ht hfree rfl rfl rfl hown id
  | loadTail node =>
    obtain rfl := Option.some.inj hs
    exact h.goOn ht rfl rfl rfl hown hsection
  | storeLink node tail =>
    obtain rfl := Option.some.inj hs
    exact h.storeLink ht
  | storeTail node =>
    obtain rfl := Option.some.inj hs
    have hlast : Memory.lastWord queue s.queued = node := hsection rfl
    have hword := isLinkWord_of_row h (hlast ▸ Memory.lastWord_mem)
    refine h.storeTail ht ?_
    rcases hword with rfl | rfl | hlive
    · exact hfits
    · exact absurd hlast.symm (h.tailField_ne Memory.lastWord_mem)
    · exact h.lt_size hlive
  | pushUnlock =>
    obtain rfl := Option.some.inj hs
    exact h.release ht rfl rfl rfl rfl trivial id
  | popLock =>
    rw [Sections.access, Option.ite_none_right_eq_some, Option.some.injEq] at hs
    obtain ⟨hfree, rfl⟩ := hs
    exact h.acquire ht hfree rfl rfl rfl trivial id
  | testHead =>
    obtain rfl := Option.some.inj hs
    split
    · rename_i hhead
      exact h.goOn ht rfl rfl rfl trivial fun hholds ↦
        ⟨hsection hholds, h.load_head_eq_zero_iff.mp hhead⟩
    · rename_i hhead
      exact h.goOn ht rfl rfl rfl trivial fun hholds ↦
        ⟨hsection hholds, mt h.load_head_eq_zero_iff.mpr hhead⟩
  | unlockEmpty =>
    obtain rfl := Option.some.inj hs
    exact h.release ht rfl rfl rfl rfl trivial And.left
  | loadHead =>
    obtain rfl := Option.some.inj hs
    refine h.goOn ht rfl rfl rfl trivial fun hholds ↦ ⟨(hsection hholds).1, ?_⟩
    obtain ⟨node, rest, hqueued⟩ := List.exists_cons_of_ne_nil (hsection hholds).2
    rw [h.linked.load_eq, hqueued]
    rfl
  | loadNext node =>
    obtain rfl := Option.some.inj hs
    exact h.goOn ht rfl rfl rfl trivial fun hholds ↦
      ⟨(hsection hholds).1, (hsection hholds).2, rfl⟩
  | storeHead node next =>
    obtain rfl := Option.some.inj hs
    exact h.storeHead ht
  | testLast node =>
    obtain rfl := Option.some.inj hs
    split
    · rename_i hhead
      exact h.goOn ht rfl rfl rfl trivial fun _ ↦ h.load_head_eq_zero_iff.mp hhead
    · rename_i hhead
      refine h.goOn ht rfl rfl rfl trivial fun hholds ↦ (hsection hholds).trans ?_
      exact lastWord_of_ne_nil (mt h.load_head_eq_zero_iff.mpr hhead) node queue
  | resetTail node =>
    obtain rfl := Option.some.inj hs
    exact h.resetTail ht hfits
  | popUnlock node =>
    obtain rfl := Option.some.inj hs
    exact h.release ht rfl rfl rfl rfl trivial id
  | loadFunc node =>
    obtain rfl := Option.some.inj hs
    have hcontent := h.content node (hnode node (Multiset.mem_singleton_self node))
    exact h.goOn ht rfl rfl rfl hcontent.1 fun hholds ↦ by cases hholds
  | loadArg node func =>
    obtain rfl := Option.some.inj hs
    -- what has been read is the task of the node
    have hcontent := h.content node (hnode node (Multiset.mem_singleton_self node))
    have htask : (⟨func, s.memory.load (argField node)⟩ : Task) = s.tasks node := by
      rw [hcontent.2, show func = (s.tasks node).func from hown]
    refine h.goOn ht rfl rfl ?_ htask fun hholds ↦ by cases hholds
    exact congrArg (fun task ↦ ({task} : Multiset Task)) htask
  | free node task =>
    obtain rfl := Option.some.inj hs
    exact h.freeNode ht
  | call task =>
    obtain rfl := Option.some.inj hs
    exact h.callTask ht

theorem Kept.step (h : Kept queue s) (hfits : queue < Memory.size) {a : Access n}
    (hs : s.step queue a = some s') : Kept queue s' := by
  cases a with
  | post t node task =>
    rw [Sections.step, Option.ite_none_right_eq_some, Option.some.injEq] at hs
    obtain ⟨⟨ht, hnode, hfresh, hfunc, harg⟩, rfl⟩ := hs
    exact h.post ht hnode hfresh hfunc harg
  | get t =>
    rw [Sections.step, Option.ite_none_right_eq_some, Option.some.injEq] at hs
    obtain ⟨ht, rfl⟩ := hs
    exact h.goOn ht rfl rfl rfl trivial fun hholds ↦ by cases hholds
  | step t => exact h.access hfits hs
  | write address byte =>
    rw [Sections.step, Option.ite_none_right_eq_some, Option.some.injEq] at hs
    obtain ⟨⟨hfields, hnodes⟩, rfl⟩ := hs
    exact h.writeByte byte hfields hnodes

theorem kept_init (n : ℕ) (hfits : queue < Memory.size) (m : Memory) :
    Kept queue (sectionsMachine n queue m).init := by
  have hchained := Chained.create hfits m
  refine ⟨fun t ↦ iff_of_false (fun heq ↦ (by cases heq)) Bool.false_ne_true,
    fun _ hmem ↦ (by cases hmem), List.Pairwise.nil, ?_, hchained.linked,
    fun _ hmem ↦ (by cases hmem), fun _ ↦ trivial, fun _ ↦ hchained.tail,
    fun t heq ↦ (by cases heq), rfl, ?_⟩
  · rw [tally_eq_zero Pc.nodes _ fun _ ↦ rfl]
    rfl
  · rw [tally_eq_zero (Pc.held _) _ fun _ ↦ rfl]
    rfl

theorem kept_of_reachable {m : Memory} (hfits : queue < Memory.size)
    (h : (sectionsMachine n queue m).Reachable s) : Kept queue s :=
  Machine.Leads.invariant h (kept_init n hfits m) fun hK _ hs ↦ hK.step hfits hs

/-- The thread may access the node: it has it in its hands, or it has the spinlock and the node is
in the queue. -/
def Sections.MayAccess (s : Sections n) (t : Fin n) (node : ℕ) : Prop :=
  node ∈ (s.threads t).nodes ∨ ((s.threads t).holds = true ∧ node ∈ s.queued)

/-- What the queue does for the threads. -/
structure Delivers {n : ℕ} (queue : ℕ) (s : Sections n) : Prop where
  /-- Tasks are popped in the order in which they are pushed. -/
  fifo : s.pushed = s.popped ++ s.queued.map s.tasks
  /-- The handler of a popped task has been called once, with its argument, unless the thread that
  popped it is about to do so. -/
  once : (s.popped : Multiset Task) = ↑s.called + tally (Pc.held s.tasks) s.threads
  /-- The chain consists of the nodes in the queue. -/
  chain : s.memory.walk s.queued.length (s.memory.load queue) = s.queued
  /-- `head` is null if and only if no task is in the queue. -/
  empty_iff : s.memory.load queue = 0 ↔ s.queued = []
  /-- A pop returns `NULL` only if no task is in the queue, -/
  null : ∀ t, s.threads t = .unlockEmpty → s.queued = []
  /-- goes on only if there is one, -/
  nonempty : ∀ t, s.threads t = .loadHead → s.queued ≠ []
  /-- and takes the oldest off. -/
  oldest : ∀ t node next, s.threads t = .storeHead node next → s.queued.head? = some node
  /-- At most one thread has the spinlock. -/
  exclusive : ∀ t u, (s.threads t).holds = true → (s.threads u).holds = true → t = u
  /-- A node that is allocated is in the hands of one thread or in the queue, once. -/
  owned : (s.live : Multiset ℕ) = tally Pc.nodes s.threads + ↑s.queued ∧ s.live.Nodup
  /-- The nodes do not share memory with each other. -/
  beside : s.live.Pairwise Beside
  /-- A thread accesses the fields of the queue with the spinlock only, and otherwise the fields of
  a node that is allocated and that it may access. -/
  allocated : ∀ t, ∀ a ∈ (s.threads t).accesses queue,
    ((s.threads t).holds = true ∧ (a = queue ∨ a = tailField queue)) ∨
      ∃ node ∈ s.live, s.MayAccess t node ∧ (a = node ∨ a = funcField node ∨ a = argField node)
  /-- No node is freed twice. -/
  freed : ∀ t node task, s.threads t = .free node task → node ∈ s.live

theorem Kept.exclusive (h : Kept queue s) {t u : Fin n} (ht : (s.threads t).holds = true)
    (hu : (s.threads u).holds = true) : t = u :=
  Option.some.inj (((h.lock_iff t).mpr ht).symm.trans ((h.lock_iff u).mpr hu))

theorem Kept.allocated_row (h : Kept queue s) (hholds : (s.threads t).holds = true) {a : ℕ}
    (ha : a ∈ queue :: s.queued) :
    ((s.threads t).holds = true ∧ (a = queue ∨ a = tailField queue)) ∨
      ∃ node ∈ s.live, s.MayAccess t node ∧
        (a = node ∨ a = funcField node ∨ a = argField node) := by
  rcases List.mem_cons.mp ha with rfl | hqueued
  · exact Or.inl ⟨hholds, Or.inl rfl⟩
  · exact Or.inr ⟨a, h.mem_live_of_queued hqueued, Or.inr ⟨hholds, hqueued⟩, Or.inl rfl⟩

theorem Kept.allocated (h : Kept queue s) (t : Fin n) {a : ℕ}
    (ha : a ∈ (s.threads t).accesses queue) :
    ((s.threads t).holds = true ∧ (a = queue ∨ a = tailField queue)) ∨
      ∃ node ∈ s.live, s.MayAccess t node ∧
        (a = node ∨ a = funcField node ∨ a = argField node) := by
  have hmine : ∀ node ∈ (s.threads t).nodes, node ∈ s.live ∧ s.MayAccess t node :=
    fun node hmem ↦ ⟨h.mem_live_of_thread hmem, Or.inl hmem⟩
  have hrow : (s.threads t).holds = true → ∀ b ∈ queue :: s.queued, _ :=
    fun hholds b hb ↦ h.allocated_row (t := t) hholds hb
  have hsection : ∀ pc, s.threads t = pc → pc.holds = true →
      pc.Section queue s.memory s.queued := fun pc ht ↦ h.section_of_holds ht
  generalize ht : s.threads t = pc at ha hmine hrow ⊢
  cases pc with
  | clearLink node =>
    obtain rfl := List.mem_singleton.mp ha
    obtain ⟨hlive, hmay⟩ := hmine a (Multiset.mem_singleton_self a)
    exact Or.inr ⟨a, hlive, hmay, Or.inl rfl⟩
  | loadNext node =>
    obtain rfl := List.mem_singleton.mp ha
    have hqueued := List.mem_of_mem_head? (hsection _ ht rfl).2
    exact hrow rfl a (List.mem_cons_of_mem queue hqueued)
  | storeLink node tail =>
    obtain rfl := List.mem_singleton.mp ha
    have htail : a = Memory.lastWord queue s.queued := hsection _ ht rfl
    exact hrow rfl a (htail ▸ Memory.lastWord_mem)
  | loadTail | storeTail | resetTail =>
    exact Or.inl ⟨rfl, Or.inr (List.mem_singleton.mp ha)⟩
  | testHead | loadHead | storeHead | testLast =>
    exact Or.inl ⟨rfl, Or.inl (List.mem_singleton.mp ha)⟩
  | loadFunc node =>
    obtain ⟨hlive, hmay⟩ := hmine node (Multiset.mem_singleton_self node)
    exact Or.inr ⟨node, hlive, hmay, Or.inr (Or.inl (List.mem_singleton.mp ha))⟩
  | loadArg node func =>
    obtain ⟨hlive, hmay⟩ := hmine node (Multiset.mem_singleton_self node)
    exact Or.inr ⟨node, hlive, hmay, Or.inr (Or.inr (List.mem_singleton.mp ha))⟩
  | _ => cases ha

end Kept

end ThreadPool

end FoundationComponents
