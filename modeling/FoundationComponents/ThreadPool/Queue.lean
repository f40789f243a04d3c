import FoundationComponents.Machine.Basic
import FoundationComponents.Memory.Chain

/-!
# The task queue

The tasks are linked through the first word of their nodes, and `tail` is the address of the word in
which the next node has to be stored: the `head` field as long as the queue is empty, the link of
the last node otherwise. When the last node is popped it is about to be freed, and `tail` is set
back to the `head` field. So at every time `tail` is the last word of the row that consists of the
`head` field and the nodes, and a push does not have to distinguish the two cases.

The queue runs in a memory of bytes. Besides pushing and popping anybody may write to any byte that
is neither in the two fields nor in the link of a queued node; in particular popped nodes may be
freed and their memory may be used for something else, for other nodes as well.
-/

namespace FoundationComponents

namespace ThreadPool

/-- The address of the field `tail` of a `task_queue_t`. The field `head` comes first. -/
def tailField (queue : ℕ) : ℕ := queue + 8

/-- `sizeof(task_t)`. -/
def taskSize : ℕ := 24

/-- `__taskqueue_create`, in the memory it has allocated, with the fields of the list. -/
def taskqueueCreate (queue : ℕ) (m : Memory) : Memory :=
  (m.store queue 0).store (tailField queue) queue

/-- `__push_task`. -/
def pushTask (queue task : ℕ) (m : Memory) : Memory :=
  let linked := m.store task 0
  let stored := linked.store (linked.load (tailField queue)) task
  stored.store (tailField queue) task

/-- `__pop_task`, with the task it returns. -/
def popTask (queue : ℕ) (m : Memory) : Memory × ℕ :=
  if m.load queue = 0 then (m, 0)
  else
    let task := m.load queue
    let popped := m.store queue (m.load task)
    if popped.load queue = 0 then (popped.store (tailField queue) queue, task) else (popped, task)

/-! ## Runs

Pushed tasks are addresses of nodes. The caller promises what C cannot check: a pushed node is one,
and shares no memory with a node in the queue; what else is written stays clear of both. -/

/-- The memory, the tasks that have been pushed, and those that have been popped, oldest first. -/
structure TaskQueue where
  memory : Memory
  pushed : List ℕ
  popped : List ℕ

/-- A push, a pop, or a write to memory that the queue does not use. -/
inductive QueueAction
  | push (task : ℕ)
  | pop
  | write (address : ℕ) (byte : UInt8)
  deriving DecidableEq

namespace TaskQueue

variable (queue : ℕ) (s : TaskQueue)

/-- The tasks that have been pushed and not been popped. -/
def pending : List ℕ := s.pushed.drop s.popped.length

/-- There is a node of a task at this address: it is not null, and it does not share memory with the
fields of the queue. -/
def IsNode (task : ℕ) : Prop :=
  task ≠ 0 ∧ task + taskSize ≤ Memory.size ∧ (task + taskSize ≤ queue ∨ queue + 16 ≤ task)

/-- The two nodes do not share memory. -/
def Beside (task other : ℕ) : Prop := task + taskSize ≤ other ∨ other + taskSize ≤ task

instance (task : ℕ) : Decidable (IsNode queue task) :=
  inferInstanceAs (Decidable (_ ∧ _ ∧ (_ ∨ _)))

instance (task other : ℕ) : Decidable (Beside task other) :=
  inferInstanceAs (Decidable (_ ∨ _))

/-- The queue does not use the byte. -/
def IsFree (address : ℕ) : Prop :=
  (address < queue ∨ queue + 16 ≤ address) ∧
    ∀ task ∈ s.pending, address < task ∨ task + 8 ≤ address

instance (address : ℕ) : Decidable (s.IsFree queue address) :=
  inferInstanceAs (Decidable ((_ ∨ _) ∧ _))

/-- The task that a pop has returned, unless it is the null pointer. -/
def returned (task : ℕ) : List ℕ := if task = 0 then [] else [task]

def step : QueueAction → Option TaskQueue
  | .push task =>
      if IsNode queue task ∧ ∀ other ∈ s.pending, Beside task other then
        some { s with memory := pushTask queue task s.memory, pushed := s.pushed ++ [task] }
      else none
  | .pop =>
      some
        { s with
          memory := (popTask queue s.memory).1
          popped := s.popped ++ returned (popTask queue s.memory).2 }
  | .write address byte =>
      if s.IsFree queue address then some { s with memory := s.memory.writeByte address byte }
      else none

end TaskQueue

/-- The queue that `__taskqueue_create` returns, in a memory with any content. -/
def queueMachine (queue : ℕ) (m : Memory) : Machine TaskQueue QueueAction where
  init := ⟨taskqueueCreate queue m, [], []⟩
  step := TaskQueue.step queue

/-! ## What is written

Both functions load some words and store others. As a list of stores they can be compared with the
lemmas about chains. -/

/-- The stores of `__push_task`. -/
def pushStores (queue task : ℕ) (m : Memory) : List (ℕ × ℕ) :=
  [(task, 0), ((m.store task 0).load (tailField queue), task), (tailField queue, task)]

/-- The stores of `__pop_task`. -/
def popStores (queue : ℕ) (m : Memory) : List (ℕ × ℕ) :=
  if m.load queue = 0 then []
  else
    let next := m.load (m.load queue)
    if next = 0 then [(queue, next), (tailField queue, queue)] else [(queue, next)]

theorem pushTask_eq_storeAll (queue task : ℕ) (m : Memory) :
    pushTask queue task m = m.storeAll (pushStores queue task m) := rfl

theorem popTask_eq_storeAll (queue : ℕ) (m : Memory) :
    (popTask queue m).1 = m.storeAll (popStores queue m) := by
  have hnext : (m.store queue (m.load (m.load queue))).load queue = m.load (m.load queue) :=
    Memory.load_store_self (Memory.load_lt m _)
  rw [popTask, popStores]
  dsimp only
  rw [hnext]
  split
  · rfl
  · split <;> rfl

/-- The stores of an operation on the queue. -/
def QueueAction.stores (queue : ℕ) (m : Memory) : QueueAction → List (ℕ × ℕ)
  | .push task => pushStores queue task m
  | .pop => popStores queue m
  | .write _ _ => []

/-! ## The invariant

The row of a chain begins with the word it hangs from, here the field `head`. So `tail` is the
address of the last word of the row in every case, and a push is one store there. -/

section Invariant

open TaskQueue

variable {queue : ℕ} {pending : List ℕ} {m : Memory} {s s' t : TaskQueue} {a : QueueAction}
  {task : ℕ}

/-- The tasks `pending` are in the queue: they are those that come after the popped ones in the
order of the pushes, and the chain consists of their nodes. -/
structure Chained (queue : ℕ) (pending : List ℕ) (s : TaskQueue) : Prop where
  pushed_eq : s.pushed = s.popped ++ pending
  linked : s.memory.Linked queue pending
  tail : s.memory.load (tailField queue) = Memory.lastWord queue pending
  node : ∀ task ∈ pending, IsNode queue task
  beside : pending.Pairwise Beside

theorem TaskQueue.IsNode.apart (h : IsNode queue task) :
    Memory.Apart queue task ∧ Memory.Apart (tailField queue) task := by
  have happart := h.2.2
  rw [taskSize] at happart
  rw [Memory.Apart, Memory.Apart, tailField]
  omega

theorem TaskQueue.Beside.apart {other : ℕ} (h : Beside task other) : Memory.Apart task other := by
  rw [Beside, taskSize] at h
  rw [Memory.Apart]
  omega

theorem popTask_snd (queue : ℕ) (m : Memory) : (popTask queue m).2 = m.load queue := by
  rw [popTask]
  split
  · rename_i hempty
    exact hempty.symm
  · dsimp only
    split <;> rfl

namespace Chained

theorem pending_eq (h : Chained queue pending s) : s.pending = pending := by
  rw [TaskQueue.pending, h.pushed_eq, List.drop_left]

/-- The words of the row do not overlap. -/
theorem row (h : Chained queue pending s) : (queue :: pending).Pairwise Memory.Apart :=
  List.pairwise_cons.mpr
    ⟨fun task htask ↦ (h.node task htask).apart.1, h.beside.imp fun hbeside ↦ hbeside.apart⟩

theorem tailField_apart (h : Chained queue pending s) :
    ∀ a ∈ queue :: pending, Memory.Apart (tailField queue) a :=
  List.forall_mem_cons.mpr ⟨Or.inr (Nat.le_refl _), fun task htask ↦ (h.node task htask).apart.2⟩

theorem create (hfits : queue < Memory.size) (m : Memory) :
    Chained queue [] (queueMachine queue m).init where
  pushed_eq := rfl
  linked := (Memory.load_store_of_disjoint (Or.inr (Nat.le_refl _))).trans
    (Memory.load_store_self (by decide))
  tail := Memory.load_store_self hfits
  node := nofun
  beside := List.Pairwise.nil

theorem push (h : Chained queue pending s) (hnode : IsNode queue task)
    (hbeside : ∀ other ∈ pending, Beside task other) : Chained queue (pending ++ [task])
      { s with memory := pushTask queue task s.memory, pushed := s.pushed ++ [task] } := by
  have happart : ∀ a ∈ queue :: pending, Memory.Apart a task :=
    List.forall_mem_cons.mpr
      ⟨hnode.apart.1, fun other hother ↦ (hbeside other hother).apart.symm⟩
  have hsize : task < Memory.size := by
    have hfits := hnode.2.1
    rw [taskSize] at hfits
    omega
  -- the link of the new node is null, and `tail` is still the last word
  have hnull : (s.memory.store task 0).load task = 0 := Memory.load_store_self (by decide)
  have hlinked : (s.memory.store task 0).Linked queue pending :=
    h.linked.store fun a ha ↦ (happart a ha).symm
  have htail : (s.memory.store task 0).load (tailField queue) = Memory.lastWord queue pending :=
    (Memory.load_store_of_disjoint hnode.apart.2.symm).trans h.tail
  have hrow : ∀ a ∈ queue :: (pending ++ [task]), Memory.Apart (tailField queue) a := by
    rw [← List.cons_append]
    exact List.forall_mem_append.mpr
      ⟨h.tailField_apart, List.forall_mem_singleton.mpr hnode.apart.2⟩
  refine ⟨?_, ?_, ?_, ?_, ?_⟩
  · rw [← List.append_assoc, ← h.pushed_eq]
  · dsimp only [pushTask]
    rw [htail]
    exact (hlinked.concat h.row happart hnull hsize).store hrow
  · rw [Memory.lastWord_concat]
    exact Memory.load_store_self hsize
  · exact List.forall_mem_append.mpr ⟨h.node, List.forall_mem_singleton.mpr hnode⟩
  · refine List.pairwise_append.mpr
      ⟨h.beside, List.pairwise_singleton _ _, fun other hother a ha ↦ ?_⟩
    obtain rfl := List.mem_singleton.mp ha
    exact (hbeside other hother).symm

/-- **Popping from the empty queue** changes nothing. -/
theorem popTask_nil (h : Chained queue [] s) : popTask queue s.memory = (s.memory, 0) :=
  if_pos h.linked

/-- What `__pop_task` does to the memory of a queue that is not empty. -/
theorem popTask_cons (h : Chained queue (task :: pending) s) : (popTask queue s.memory).1 =
    if pending = [] then
      (s.memory.store queue (s.memory.load task)).store (tailField queue) queue
    else s.memory.store queue (s.memory.load task) := by
  have hsome : task ≠ 0 := (h.node task List.mem_cons_self).1
  rw [popTask, h.linked.1, if_neg hsome]
  dsimp only
  rw [(h.linked.tail h.row).load_eq]
  cases pending with
  | nil => rw [List.headD_nil, if_pos rfl, if_pos rfl]
  | cons next rest =>
    have hnext := h.node next (List.mem_cons_of_mem task List.mem_cons_self)
    rw [List.headD_cons, if_neg hnext.1, if_neg (List.cons_ne_nil next rest)]

/-- **Popping.** If the last node is taken, `tail` is set back to the field `head`. -/
theorem pop (h : Chained queue (task :: pending) s) (hfits : queue < Memory.size) :
    Chained queue pending
      { s with memory := (popTask queue s.memory).1, popped := s.popped ++ [task] } := by
  have hlinked := h.linked.tail h.row
  have hapart := (List.forall_mem_cons.mp h.tailField_apart).1
  refine ⟨?_, ?_, ?_, (List.forall_mem_cons.mp h.node).2, (List.pairwise_cons.mp h.beside).2⟩
  · rw [List.append_assoc]
    exact h.pushed_eq
  · dsimp only
    rw [h.popTask_cons]
    split
    · rename_i hlast
      subst hlast
      exact hlinked.store (List.forall_mem_singleton.mpr hapart)
    · exact hlinked
  · dsimp only
    rw [h.popTask_cons]
    split
    · rename_i hlast
      subst hlast
      exact Memory.load_store_self hfits
    · rename_i hleft
      obtain ⟨next, rest, rfl⟩ := List.exists_cons_of_ne_nil hleft
      exact (Memory.load_store_of_disjoint hapart.symm).trans h.tail

theorem write (h : Chained queue pending s) {address : ℕ} (hfree : s.IsFree queue address)
    (byte : UInt8) :
    Chained queue pending { s with memory := s.memory.writeByte address byte } := by
  obtain ⟨hfields, hlinks⟩ := hfree
  rw [h.pending_eq] at hlinks
  refine ⟨h.pushed_eq, h.linked.congr ?_, ?_, h.node, h.beside⟩
  · refine List.forall_mem_cons.mpr ⟨Memory.load_writeByte_of_disjoint (by omega), ?_⟩
    exact fun task htask ↦ Memory.load_writeByte_of_disjoint (hlinks task htask)
  · rw [← h.tail]
    exact Memory.load_writeByte_of_disjoint (by rw [tailField]; omega)

end Chained

/-- What an action does to the list of the tasks in the queue. -/
def QueueAction.onPending : QueueAction → List ℕ → List ℕ
  | .push task, pending => pending ++ [task]
  | .pop, pending => pending.tail
  | .write _ _, pending => pending

/-- **One step.** The chain follows the list. -/
theorem Chained.step (h : Chained queue pending s) (hfits : queue < Memory.size)
    (hstep : s.step queue a = some s') : Chained queue (a.onPending pending) s' := by
  cases a with
  | push task =>
    simp only [TaskQueue.step] at hstep
    split at hstep
    · rename_i hallowed
      obtain rfl := Option.some.inj hstep
      rw [h.pending_eq] at hallowed
      exact h.push hallowed.1 hallowed.2
    · cases hstep
  | pop =>
    obtain rfl := Option.some.inj hstep
    cases pending with
    | nil =>
      rw [h.popTask_nil, TaskQueue.returned, if_pos rfl, List.append_nil]
      exact h
    | cons task rest =>
      have hsome : task ≠ 0 := (h.node task List.mem_cons_self).1
      rw [popTask_snd, h.linked.1, TaskQueue.returned, if_neg hsome]
      exact h.pop hfits
  | write address byte =>
    simp only [TaskQueue.step] at hstep
    split at hstep
    · rename_i hfree
      obtain rfl := Option.some.inj hstep
      exact h.write hfree byte
    · cases hstep

theorem chained_of_reachable (hfits : queue < Memory.size)
    (h : (queueMachine queue m).Reachable s) : Chained queue s.pending s := by
  obtain ⟨pending, hchained⟩ : ∃ pending, Chained queue pending s :=
    Machine.Leads.invariant (I := fun s ↦ ∃ pending, Chained queue pending s) h
      ⟨[], Chained.create hfits m⟩ fun ⟨pending, hs⟩ _ hstep ↦ ⟨_, hs.step hfits hstep⟩
  rwa [hchained.pending_eq]

/-! ## Popped nodes

That a popped node is left alone is a statement about all later steps: none of the words that they
store to is in it. -/

/-- The store does not write to the node. -/
def Spares (task : ℕ) (store : ℕ × ℕ) : Prop := store.1 + 8 ≤ task ∨ task + taskSize ≤ store.1

/-- The action does not push the node, nor another one in its memory. -/
def NotPushed (task : ℕ) (_ : TaskQueue) : QueueAction → Prop
  | .push other => Beside task other
  | .pop | .write _ _ => True

/-- The stores go to the fields of the queue, to the nodes in it, and to the node that is pushed. -/
theorem Chained.stores_spare (h : Chained queue pending s) (hnode : IsNode queue task)
    (hbeside : ∀ other ∈ pending, Beside task other) (hother : NotPushed task s a)
    (hstep : s.step queue a = some s') : ∀ store ∈ a.stores queue s.memory, Spares task store := by
  have hfields := hnode.2.2
  have hhead : ∀ v, Spares task (queue, v) := fun v ↦ by
    rw [Spares]
    omega
  have htail : ∀ v, Spares task (tailField queue, v) := fun v ↦ by
    rw [Spares, tailField]
    omega
  have hcell : ∀ {other} v, Beside task other → Spares task (other, v) := fun v hbeside ↦ by
    rw [Beside, taskSize] at hbeside
    rw [Spares, taskSize]
    omega
  cases a with
  | push other =>
    simp only [TaskQueue.step] at hstep
    split at hstep
    · rename_i hallowed
      have hlast : (s.memory.store other 0).load (tailField queue) =
          Memory.lastWord queue pending :=
        (Memory.load_store_of_disjoint hallowed.1.apart.2.symm).trans h.tail
      have hword : ∀ a ∈ queue :: pending, Spares task (a, other) :=
        List.forall_mem_cons.mpr ⟨hhead other, fun a ha ↦ hcell other (hbeside a ha)⟩
      rw [QueueAction.stores, pushStores, hlast]
      exact List.forall_mem_cons.mpr ⟨hcell 0 hother, List.forall_mem_cons.mpr
        ⟨hword _ Memory.lastWord_mem, List.forall_mem_singleton.mpr (htail other)⟩⟩
    · cases hstep
  | pop =>
    rw [QueueAction.stores, popStores]
    split
    · nofun
    · dsimp only
      split
      · exact List.forall_mem_cons.mpr ⟨hhead _, List.forall_mem_singleton.mpr (htail queue)⟩
      · exact List.forall_mem_singleton.mpr (hhead _)
  | write address byte => nofun

/-- What the queue promises. -/
structure Fifo (queue : ℕ) (s : TaskQueue) : Prop where
  pushed_eq : s.pushed = s.popped ++ s.pending
  /-- The chain from `head` leads to the tasks in the queue, oldest first, and ends there. -/
  chain : s.memory.walk s.pending.length (s.memory.load queue) = s.pending
  chain_null : s.memory.load (s.pending.getLastD queue) = 0
  node : ∀ task ∈ s.pending, task ≠ 0
  tail : s.memory.load (tailField queue) = s.pending.getLastD queue
  pop_eq : (popTask queue s.memory).2 = s.pending.headD 0
  pop_null_iff : (popTask queue s.memory).2 = 0 ↔ s.pending = []

theorem Chained.fifo (h : Chained queue s.pending s) : Fifo queue s := by
  have hpop : (popTask queue s.memory).2 = s.pending.headD 0 :=
    (popTask_snd queue s.memory).trans h.linked.load_eq
  refine ⟨h.pushed_eq, h.linked.walk_eq, h.linked.load_lastWord,
    fun task htask ↦ (h.node task htask).1, h.tail, hpop, ?_⟩
  rw [hpop]
  cases hpending : s.pending with
  | nil => exact iff_of_true rfl rfl
  | cons task rest =>
    have hsome : task ≠ 0 := (h.node task (hpending ▸ List.mem_cons_self)).1
    exact iff_of_false hsome (List.cons_ne_nil task rest)

/-- **The queue is a FIFO.** Whatever is pushed and popped, the chain consists of the tasks that
have been pushed and not been popped, in their order, and `tail` is the address of its last word. A
task that has been popped is not written to by the queue unless it is pushed again. -/
theorem queue_fifo (hfits : queue < Memory.size) (hs : (queueMachine queue m).Reachable s) :
    Fifo queue s ∧ ∀ {s₁ t t' : TaskQueue} {a : QueueAction},
      (popTask queue s.memory).2 ≠ 0 → s.step queue .pop = some s₁ →
      (queueMachine queue m).Leads (NotPushed (popTask queue s.memory).2) s₁ t →
      NotPushed (popTask queue s.memory).2 t a → t.step queue a = some t' →
      ∀ store ∈ a.stores queue t.memory, Spares (popTask queue s.memory).2 store := by
  have hchained := chained_of_reachable hfits hs
  have hfifo := hchained.fifo
  refine ⟨hfifo, fun {s₁ t t' a} hsome hpop ht hother hstep ↦ ?_⟩
  obtain ⟨task, rest, hpending⟩ := List.exists_cons_of_ne_nil (mt hfifo.pop_null_iff.mpr hsome)
  rw [hpending] at hchained
  have htask : (popTask queue s.memory).2 = task := by
    rw [hfifo.pop_eq, hpending, List.headD_cons]
  rw [htask] at ht hother ⊢
  -- all tasks that are in the queue from now on are beside the popped one
  obtain ⟨pending, hlater, hbeside⟩ : ∃ pending, Chained queue pending t ∧
      ∀ other ∈ pending, Beside task other := by
    refine ht.invariant (I := fun t ↦ ∃ pending, Chained queue pending t ∧
      ∀ other ∈ pending, Beside task other)
      ⟨rest, hchained.step hfits hpop, (List.pairwise_cons.mp hchained.beside).1⟩ ?_
    rintro u a v ⟨pending, hu, hbeside⟩ hother huv
    refine ⟨_, hu.step hfits huv, ?_⟩
    cases a with
    | push other => exact List.forall_mem_append.mpr ⟨hbeside, List.forall_mem_singleton.mpr hother⟩
    | pop => exact fun other hmem ↦ hbeside other (List.mem_of_mem_tail hmem)
    | write address byte => exact hbeside
  exact hlater.stores_spare (hchained.node task List.mem_cons_self) hbeside hother hstep

end Invariant

/-- The queue is emptied and refilled, and the memory of the first node is written to in between.
Two nodes later that memory is a node again, and the node popped meanwhile stays untouched. -/
theorem queue_fifo_refilled : ∃ s t : TaskQueue,
    (s.pending = [67000, 68000] ∧ t.pending = [68000, 66000]) ∧ Fifo 65536 s ∧
      ∀ store ∈ QueueAction.pop.stores 65536 t.memory, Spares 67000 store := by
  obtain ⟨s, t, hs, ht, hfinal⟩ := Machine.exists_reachable_of_runs
    (M := queueMachine 65536 fun _ ↦ 255) (fun s t ↦ (s.pending, t.pending))
    [.push 66000, .pop, .write 66003 1, .push 67000, .push 68000] [.pop, .push 66000]
    (b := ([67000, 68000], [68000, 66000])) (by decide +kernel)
  obtain ⟨hpending, hpending'⟩ := Prod.mk.inj hfinal
  have hfifo := (queue_fifo (by decide) hs).1
  have htask : (popTask 65536 s.memory).2 = 67000 := by
    rw [hfifo.pop_eq, hpending, List.headD_cons]
  rw [← List.singleton_append, Machine.run_append, Option.bind_eq_some_iff] at ht
  obtain ⟨s₁, hpop, hpush⟩ := ht
  rw [Machine.run_singleton] at hpop hpush
  have hleads : (queueMachine 65536 fun _ ↦ 255).Leads
      (NotPushed (popTask 65536 s.memory).2) s₁ t := by
    rw [htask]
    have hbeside : TaskQueue.Beside 67000 66000 := by decide
    exact Machine.Leads.refl.step (a := .push 66000) hbeside hpush
  have hspares : ∀ store ∈ QueueAction.pop.stores 65536 t.memory,
      Spares (popTask 65536 s.memory).2 store :=
    (queue_fifo (by decide) hs).2 (by rw [htask]; decide) hpop hleads trivial rfl
  rw [htask] at hspares
  exact ⟨s, t, ⟨hpending, hpending'⟩, hfifo, hspares⟩

end ThreadPool

end FoundationComponents
