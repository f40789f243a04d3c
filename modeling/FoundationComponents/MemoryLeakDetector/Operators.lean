import FoundationComponents.MemoryLeakDetector.Leaks

/-!
# The operators new and delete

The global `operator new` takes a block from the C library and records it, `operator delete` removes
the record and gives the block back. The methods of the detector allocate as well: a node of the
map, an array of records, the text of a report. They do it inside the detector, some of them while
they hold the mutex, and end up in the same operators. A counter of the thread, `g_detector_depth`,
tells these calls from those of the program, and keeps them away from the map and from the mutex.

Here a thread is a stack of calls, with one step for each that matters to another thread. For every
interleaving: the map holds the records of the blocks that were recorded and are still there, it
never holds a block of the detector itself, and no call waits for ever. There are two families of
allocators, one for the blocks with an alignment of their own; to which of them a block is given
back is settled as well.
-/

namespace FoundationComponents

namespace MemoryLeakDetector

/-- The arguments of `allocateMemory`. -/
structure Request where
  size : ℕ
  file : Option String
  line : ℤ
  arrayAllocation : Bool
  alignment : ℕ
  deriving Repr, DecidableEq

/-- The allocators of the C library: `malloc` and `free`, and those for a larger alignment. -/
inductive Family
  | malloc
  | aligned
  deriving Repr, DecidableEq

/-- The test of `allocateRaw` and of `freeRaw`. -/
def family (defaultNewAlignment alignment : ℕ) : Family :=
  if alignment > defaultNewAlignment then .aligned else .malloc

/-- A block that the C library has handed out. It is `inside` if it was asked for inside the
detector, and `tracked` from the moment its record is stored until the record is removed. While a
call has the block in its hands, the `holder` is the thread, with the place of the call in its
stack. -/
structure Allocated (n : ℕ) where
  request : Request
  obtained : ℕ
  thread : Fin n
  inside : Bool
  tracked : Bool
  holder : Option (Fin n × ℕ)

/-- The local variables of `deallocateMemory`. Whether the block was tracked is noted when its
record is looked up. -/
structure Deletion where
  ptr : Address
  arrayDelete : Bool
  fallbackAlignment : ℕ
  alignment : ℕ
  found : Bool
  deriving Repr, DecidableEq

/-- The methods that allocate, release memory or take the mutex. -/
inductive Method
  | stats
  | snapshot
  | hasLeaksSince
  | liveAllocations
  | leaksSince
  | reset
  | report
  | reportSince
  deriving Repr, DecidableEq

/-- The functions with a `DetectorInternalScope`. -/
inductive Guarded
  | recordAllocation (request : Request) (ptr : Address)
  | recordDeallocation (deletion : Deletion)
  | method (method : Method)
  deriving Repr, DecidableEq

/-- A report calls other methods, and does not take the mutex itself. -/
def Guarded.locks : Guarded → Bool
  | .method .report | .method .reportSince => false
  | _ => true

/-- The methods that a method calls. -/
def Guarded.calls : Guarded → Method → Bool
  | .method .report, .liveAllocations | .method .report, .stats => true
  | .method .reportSince, .leaksSince => true
  | _, _ => false

/-- A call that has not returned, and where it is. -/
inductive Frame
  -- `allocateMemory`, with the test at the start of `recordAllocation`
  | allocateRaw (request : Request)
  | testNew (request : Request) (ptr : Address)
  | testEnabled (request : Request) (ptr : Address)
  | returnNew (ptr : Address)
  -- `deallocateMemory`
  | testDelete (deletion : Deletion)
  | freeRaw (deletion : Deletion)
  -- the scope is entered, the mutex is locked, the body is executed, the scope is left
  | enter (scope : Guarded)
  | lock (scope : Guarded)
  | body (scope : Guarded)
  | leave (scope : Guarded)
  deriving Repr, DecidableEq

/-- `g_detector_depth`, and the calls that have not returned, the last one in front. -/
structure Thread where
  depth : ℕ
  stack : List Frame
  deriving Repr, DecidableEq

/-- A block that has been given back, with the families it came from and went to. -/
structure Release where
  request : Request
  deletion : Deletion
  obtainedFrom : Family
  freedWith : Family
  deriving Repr, DecidableEq

/-- The detector, the memory and the threads. The mutex is held by a thread, or free. -/
structure Operators (n : ℕ) where
  detector : State
  mutex : Option (Fin n)
  blocks : Address → Option (Allocated n)
  threads : Fin n → Thread
  released : List Release

inductive Action (n : ℕ)
  | new (t : Fin n) (request : Request)
  | delete (t : Fin n) (ptr : Address) (arrayDelete : Bool) (alignment : ℕ)
  | call (t : Fin n) (method : Method)
  | setEnabled (t : Fin n) (enabled : Bool)
  /-- The last call goes on. The C library may have a block, and the insertion into the map may
  succeed. -/
  | run (t : Fin n) (address : Option Address) (inserted : Bool)

/-- The critical section of `recordAllocation`. The detector has been seen enabled before. -/
def State.commit (d : State) (defaultNewAlignment : ℕ) (allocation : Allocation)
    (inserted : Bool) : State :=
  { (d.setEnabled true).recordAllocation defaultNewAlignment allocation inserted with
    enabled := d.enabled }

section Blocks

variable {n : ℕ}

/-- The arguments of `recordAllocation`. -/
def Request.allocation (request : Request) (ptr : Address) (t : Fin n) : Allocation :=
  ⟨ptr, request.size, request.file, request.line, request.arrayAllocation, request.alignment, t⟩

/-- The record of a block, without its number. -/
def Allocated.record (defaultNewAlignment : ℕ) (ptr : Address) (block : Allocated n) : Record :=
  .of defaultNewAlignment (block.request.allocation ptr block.thread) 0

def Allocated.track (tracked : Bool) (block : Allocated n) : Allocated n :=
  { block with tracked := tracked }

def Allocated.hold (holder : Option (Fin n × ℕ)) (block : Allocated n) : Allocated n :=
  { block with holder := holder }

end Blocks

namespace Operators

variable {n : ℕ} (s : Operators n)

def setThread (t : Fin n) (depth : ℕ) (stack : List Frame) : Operators n :=
  { s with threads := Function.update s.threads t ⟨depth, stack⟩ }

def setBlock (ptr : Address) (block : Option (Allocated n)) : Operators n :=
  { s with blocks := Function.update s.blocks ptr block }

/-- The end of a critical section, or of a report, with the scope as it leaves it. -/
def close (defaultNewAlignment : ℕ) (t : Fin n) (inserted : Bool) : Guarded → Operators n × Guarded
  | .recordAllocation request ptr =>
      ({ s.setBlock ptr ((s.blocks ptr).map (.track inserted)) with
          detector := s.detector.commit defaultNewAlignment (request.allocation ptr t) inserted },
        .recordAllocation request ptr)
  | .recordDeallocation d =>
      let result := s.detector.recordDeallocation d.ptr d.arrayDelete d.fallbackAlignment
      ({ s.setBlock d.ptr ((s.blocks d.ptr).map (.track false)) with detector := result.1 },
        .recordDeallocation
          { d with
            alignment := result.2
            found := (s.blocks d.ptr).any Allocated.tracked })
  | .method .reset =>
      ({ s with
          detector := s.detector.reset
          blocks := fun ptr ↦ (s.blocks ptr).map (.track false) },
        .method .reset)
  | .method method => (s, .method method)

/-- One step of the last call of a thread; `rest` are the calls below it. -/
def runFrame (defaultNewAlignment : ℕ) (t : Fin n) (depth : ℕ) (rest : List Frame)
    (address : Option Address) (inserted : Bool) : Frame → Option (Operators n)
  | .allocateRaw request =>
      match address with
      -- `std::bad_alloc`: on its way the exception leaves the scopes below like a return
      | none => some (s.setThread t depth rest)
      | some ptr =>
          if ptr = 0#64 ∨ (s.blocks ptr).isSome then none
          else
            some
              ((s.setThread t depth (.testNew request ptr :: rest)).setBlock ptr
                (some
                  { request := request
                    obtained := if request.size = 0 then 1 else request.size
                    thread := t
                    inside := decide (0 < depth)
                    tracked := false
                    holder := some (t, rest.length) }))
  | .testNew request ptr =>
      some
        (s.setThread t depth
          ((if 0 < depth then .returnNew ptr else .testEnabled request ptr) :: rest))
  | .testEnabled request ptr =>
      some
        (s.setThread t depth
          ((if s.detector.enabled then .enter (.recordAllocation request ptr)
            else .returnNew ptr) :: rest))
  | .returnNew ptr =>
      some ((s.setThread t depth rest).setBlock ptr ((s.blocks ptr).map (.hold none)))
  | .testDelete d =>
      some
        (s.setThread t depth
          ((if 0 < depth then .freeRaw d else .enter (.recordDeallocation d)) :: rest))
  | .freeRaw d =>
      (s.blocks d.ptr).map fun block ↦
        { (s.setThread t depth rest).setBlock d.ptr none with
          released :=
            s.released ++
              [⟨block.request, d, family defaultNewAlignment block.request.alignment,
                family defaultNewAlignment d.alignment⟩] }
  | .enter scope =>
      some
        (s.setThread t (depth + 1)
          ((if scope.locks then .lock scope else .body scope) :: rest))
  | .lock scope =>
      if s.mutex = none then
        some { s.setThread t depth (.body scope :: rest) with mutex := some t }
      else none
  | .body scope =>
      let closed := s.close defaultNewAlignment t inserted scope
      some
        { closed.1.setThread t depth (.leave closed.2 :: rest) with
          mutex := if scope.locks then none else s.mutex }
  | .leave scope =>
      some
        (s.setThread t (depth - 1)
          (match scope with
          | .recordAllocation _ ptr => .returnNew ptr :: rest
          | .recordDeallocation d => .freeRaw d :: rest
          | .method _ => rest))

/-- What the last call of a thread may call: the program calls anything, the body of a scope what is
allowed for it. -/
def mayCall (t : Fin n) (allowed : Guarded → Bool) : Bool :=
  match (s.threads t).stack with
  | [] => true
  | .body scope :: _ => allowed scope
  | _ :: _ => false

def push (t : Fin n) (frame : Frame) : Operators n :=
  s.setThread t (s.threads t).depth (frame :: (s.threads t).stack)

def step (defaultNewAlignment : ℕ) : Action n → Option (Operators n)
  | .new t request =>
      if s.mayCall t fun _ ↦ true then some (s.push t (.allocateRaw request)) else none
  | .delete t ptr arrayDelete alignment =>
      if ptr = 0#64 then some s
      else
        match s.blocks ptr with
        | some block =>
            -- a block is deleted once, and inside the detector only what comes from there
            if block.holder = none ∧ s.mayCall t (fun _ ↦ block.inside) then
              some
                ((s.push t
                    (.testDelete ⟨ptr, arrayDelete, alignment, alignment, false⟩)).setBlock ptr
                  (some (block.hold (some (t, (s.threads t).stack.length)))))
            else none
        | none => none
  | .call t method =>
      if s.mayCall t fun scope ↦ scope.calls method then
        some (s.push t (.enter (.method method)))
      else none
  | .setEnabled t enabled =>
      if (s.threads t).stack = [] then
        some { s with detector := s.detector.setEnabled enabled }
      else none
  | .run t address inserted =>
      match (s.threads t).stack with
      | [] => none
      | frame :: rest =>
          s.runFrame defaultNewAlignment t (s.threads t).depth rest address inserted frame

end Operators

/-- Any interleaving of `n` threads. -/
def operatorsMachine (defaultNewAlignment n : ℕ) : Machine (Operators n) (Action n) where
  init := ⟨.initial, none, fun _ ↦ none, fun _ ↦ ⟨0, []⟩, []⟩
  step s := s.step defaultNewAlignment

/-! ## The map and the blocks

A record is stored and removed by the thread that has its block in its hands, in a critical section.
In between the block belongs to the program, or to the detector, which has no records. -/

section Reflects

variable {n : ℕ} {defaultNewAlignment : ℕ} {live live' : Live}
  {blocks : Address → Option (Allocated n)} {ptr : Address}

/-- The map holds the records of the tracked blocks, and of no block of the detector itself. -/
structure Reflects (defaultNewAlignment : ℕ) (live : Live)
    (blocks : Address → Option (Allocated n)) : Prop where
  records : ∀ ptr, (live.lookup ptr).map Record.unnumbered =
    ((blocks ptr).filter Allocated.tracked).map (Allocated.record defaultNewAlignment ptr)
  inside : ∀ ptr block, blocks ptr = some block → block.inside = true → block.tracked = false
  null : blocks 0#64 = none

theorem Reflects.ne_null (h : Reflects defaultNewAlignment live blocks) {block : Allocated n}
    (hptr : blocks ptr = some block) : ptr ≠ 0#64 := by
  rintro rfl
  rw [h.null] at hptr
  cases hptr

theorem Reflects.lookup_eq_none (h : Reflects defaultNewAlignment live blocks)
    (hblock : ∀ block, blocks ptr = some block → block.tracked = false) :
    live.lookup ptr = none := by
  have hrecord := h.records ptr
  rw [Option.filter_eq_none_iff.mpr fun block hptr ↦ by rw [hblock block hptr]; decide,
    Option.map_none, Option.map_eq_none_iff] at hrecord
  exact hrecord

/-- The alignment in a record is that of the block. -/
theorem Reflects.alignment_eq (h : Reflects defaultNewAlignment live blocks) {block : Allocated n}
    (hptr : blocks ptr = some block) (htracked : block.tracked = true) :
    ∃ record, live.lookup ptr = some record ∧ record.alignment = block.request.alignment := by
  have hrecord := h.records ptr
  rw [hptr, Option.filter_some, if_pos htracked, Option.map_some, Option.map_eq_some_iff] at hrecord
  obtain ⟨record, hlookup, hunnumbered⟩ := hrecord
  exact ⟨record, hlookup, (congrArg Record.alignment hunnumbered :)⟩

theorem Reflects.set (h : Reflects defaultNewAlignment live blocks) {block : Option (Allocated n)}
    (hother : ∀ ptr', ptr' ≠ ptr → live'.lookup ptr' = live.lookup ptr')
    (hself : (live'.lookup ptr).map Record.unnumbered =
      (block.filter Allocated.tracked).map (Allocated.record defaultNewAlignment ptr))
    (hinside : ∀ b ∈ block, b.inside = true → b.tracked = false)
    (hnull : block ≠ none → ptr ≠ 0#64) :
    Reflects defaultNewAlignment live' (Function.update blocks ptr block) := by
  refine ⟨fun ptr' ↦ ?_, fun ptr' b ↦ ?_, ?_⟩
  · by_cases hptr : ptr' = ptr
    · subst hptr
      rw [hself, Function.update_self]
    · rw [hother ptr' hptr, h.records ptr', Function.update_of_ne hptr]
  · by_cases hptr : ptr' = ptr
    · subst hptr
      rw [Function.update_self]
      exact hinside b
    · rw [Function.update_of_ne hptr]
      exact h.inside ptr' b
  · by_cases hptr : (0#64 : Address) = ptr
    · subst hptr
      rw [Function.update_self]
      exact of_not_not fun hblock ↦ hnull hblock rfl
    · rw [Function.update_of_ne hptr]
      exact h.null

theorem commit_live {d : State} {allocation : Allocation} {inserted : Bool}
    (hnull : allocation.address ≠ 0#64)
    (hlookup : d.liveAllocations.lookup allocation.address = none) :
    (d.commit defaultNewAlignment allocation inserted).liveAllocations =
      if inserted then
        d.liveAllocations.insert allocation.address
          (.of defaultNewAlignment allocation d.nextSequence)
      else d.liveAllocations := by
  have hnumbered : ¬(allocation.address = 0#64 ∨ (d.setEnabled true).enabled = false) := by
    rintro (hnull' | henabled)
    · exact hnull hnull'
    · cases henabled
  have hlookup' : (d.setEnabled true).liveAllocations.lookup allocation.address = none := hlookup
  cases inserted <;>
    simp only [State.commit, State.recordAllocation, if_neg hnumbered, hlookup'] <;> rfl

theorem Reflects.commit {d : State} (h : Reflects defaultNewAlignment d.liveAllocations blocks)
    {block : Allocated n} (hptr : blocks ptr = some block) (htracked : block.tracked = false)
    (hinside : block.inside = false) (inserted : Bool) :
    Reflects defaultNewAlignment
      (d.commit defaultNewAlignment (block.request.allocation ptr block.thread)
        inserted).liveAllocations
      (Function.update blocks ptr (some (block.track inserted))) := by
  have hnull := h.ne_null hptr
  have hlookup : d.liveAllocations.lookup ptr = none := by
    refine h.lookup_eq_none fun block' hptr' ↦ ?_
    obtain rfl := Option.some.inj (hptr.symm.trans hptr')
    exact htracked
  rw [commit_live hnull hlookup]
  refine h.set (fun ptr' hne ↦ ?_) ?_ (fun b hb hb' ↦ ?_) fun _ ↦ hnull
  · cases inserted with
    | false => rfl
    | true => exact AList.lookup_insert_ne hne
  · cases inserted with
    | false =>
      exact congrArg (Option.map Record.unnumbered) hlookup
    | true =>
      exact congrArg (Option.map Record.unnumbered) (AList.lookup_insert d.liveAllocations)
  · obtain rfl := Option.some.inj hb
    rw [Allocated.track, hinside] at hb'
    cases hb'

theorem Reflects.erase {d : State} (h : Reflects defaultNewAlignment d.liveAllocations blocks)
    {block : Allocated n} (hptr : blocks ptr = some block) (arrayDelete : Bool)
    (fallbackAlignment : ℕ) :
    Reflects defaultNewAlignment
      (d.recordDeallocation ptr arrayDelete fallbackAlignment).1.liveAllocations
      (Function.update blocks ptr (some (block.track false))) := by
  have hnull := h.ne_null hptr
  rw [(recordDeallocation_live ptr arrayDelete fallbackAlignment).2, if_neg hnull]
  refine h.set (fun ptr' hne ↦ AList.lookup_erase_ne hne) ?_ (fun b hb _ ↦ ?_) fun _ ↦ hnull
  · rw [AList.lookup_erase]
    rfl
  · obtain rfl := Option.some.inj hb
    rfl

theorem Reflects.hold (h : Reflects defaultNewAlignment live blocks) {block : Allocated n}
    (hptr : blocks ptr = some block) (holder : Option (Fin n × ℕ)) :
    Reflects defaultNewAlignment live (Function.update blocks ptr (some (block.hold holder))) := by
  refine h.set (fun _ _ ↦ rfl) ?_ (fun b hb hinside ↦ ?_) fun _ ↦ h.ne_null hptr
  · rw [h.records ptr, hptr, Option.filter_some, Option.filter_some]
    change _ = Option.map _ (if block.tracked = true then some (block.hold holder) else none)
    split <;> rfl
  · obtain rfl := Option.some.inj hb
    exact h.inside ptr block hptr hinside

theorem Reflects.remove (h : Reflects defaultNewAlignment live blocks) {block : Allocated n}
    (hptr : blocks ptr = some block) (htracked : block.tracked = false) :
    Reflects defaultNewAlignment live (Function.update blocks ptr none) := by
  refine h.set (fun _ _ ↦ rfl) ?_ (fun b hb ↦ by cases hb) fun hne ↦ absurd rfl hne
  rw [h.lookup_eq_none fun block' hptr' ↦ ?_]
  · rfl
  · obtain rfl := Option.some.inj (hptr.symm.trans hptr')
    exact htracked

theorem Reflects.recordDeallocation_snd {d : State}
    (h : Reflects defaultNewAlignment d.liveAllocations blocks) {block : Allocated n}
    (hptr : blocks ptr = some block) (arrayDelete : Bool) (fallbackAlignment : ℕ) :
    (d.recordDeallocation ptr arrayDelete fallbackAlignment).2 =
      if block.tracked = true ∧ block.request.alignment ≠ 0 then block.request.alignment
      else fallbackAlignment := by
  have hnull := h.ne_null hptr
  rw [State.recordDeallocation, if_neg hnull]
  by_cases htracked : block.tracked = true
  · obtain ⟨record, hlookup, halignment⟩ := h.alignment_eq hptr htracked
    rw [hlookup, ← halignment]
    simp only [htracked, true_and]
  · have hlookup : d.liveAllocations.lookup ptr = none := by
      refine h.lookup_eq_none fun block' hptr' ↦ ?_
      obtain rfl := Option.some.inj (hptr.symm.trans hptr')
      exact eq_false_of_ne_true htracked
    rw [hlookup, if_neg fun hboth ↦ htracked hboth.1]

theorem Reflects.reset (h : Reflects defaultNewAlignment live blocks) :
    Reflects defaultNewAlignment ∅ fun ptr ↦ (blocks ptr).map (.track false) := by
  refine ⟨fun ptr ↦ ?_, fun ptr block hptr _ ↦ ?_, ?_⟩
  · cases hptr : blocks ptr with
    | none => rfl
    | some block => rfl
  · obtain ⟨block', -, rfl⟩ := Option.map_eq_some_iff.mp hptr
    rfl
  · rw [h.null, Option.map_none]

end Reflects

/-! ## The stack of a thread

A call inside the detector is one whose thread has an earlier call that has not returned. What each
of them knows of its block depends on its place in the stack. -/

/-- The block that a call has in its hands. -/
def Guarded.pointer : Guarded → Option Address
  | .recordAllocation _ ptr => some ptr
  | .recordDeallocation d => some d.ptr
  | .method _ => none

def Frame.pointer : Frame → Option Address
  | .allocateRaw _ => none
  | .testNew _ ptr | .testEnabled _ ptr | .returnNew ptr => some ptr
  | .testDelete d | .freeRaw d => some d.ptr
  | .enter scope | .lock scope | .body scope | .leave scope => scope.pointer

/-- The calls that count for `g_detector_depth`. -/
def Frame.guarded : Frame → Bool
  | .lock _ | .body _ | .leave _ => true
  | _ => false

/-- The call that has the mutex. -/
def Frame.holds : Frame → Bool
  | .body scope => scope.locks
  | _ => false

/-- What the body of a scope may have called: an operator, which keeps away from the map, or a
method, unless the body has the mutex. -/
def Frame.Within (caller : Guarded) : Frame → Prop
  | .testEnabled .. => False
  | .enter scope | .lock scope | .body scope | .leave scope =>
      caller.locks = false ∧ ∃ method, scope = .method method
  | _ => True

section Stacks

variable {n : ℕ} {defaultNewAlignment : ℕ} {blocks blocks' : Address → Option (Allocated n)}
  {t : Fin n} {k : ℕ} {frame : Frame} {rest stack : List Frame}

/-- A block that is to be recorded. -/
structure Allocated.New (t : Fin n) (request : Request) (block : Allocated n) : Prop where
  request : block.request = request
  thread : block.thread = t
  tracked : block.tracked = false

/-- A block whose record has been removed, if it had one. -/
structure Deletion.Settled (d : Deletion) (block : Allocated n) : Prop where
  tracked : block.tracked = false
  alignment : d.alignment = if d.found = true ∧ block.request.alignment ≠ 0 then
    block.request.alignment else d.fallbackAlignment

/-- What a scope knows of its block. -/
def Guarded.Of (t : Fin n) (block : Allocated n) : Guarded → Prop
  | .recordAllocation request _ => block.New t request ∧ block.inside = false
  | _ => True

/-- What a call knows of its block, at its place in the stack. -/
def Frame.Of (t : Fin n) (k : ℕ) (block : Allocated n) : Frame → Prop
  | .testNew request _ => block.New t request ∧ block.inside = decide (0 < k)
  | .testEnabled request _ => block.New t request ∧ block.inside = false
  | .testDelete d =>
      (0 < k → block.inside = true) ∧ d.alignment = d.fallbackAlignment ∧ d.found = false
  | .freeRaw d | .leave (.recordDeallocation d) => d.Settled block
  | .enter scope | .lock scope | .body scope => scope.Of t block
  | _ => True

/-- Only a scope that has a critical section waits for the mutex. -/
def Frame.Waits : Frame → Prop
  | .lock scope => scope.locks = true
  | _ => True

/-- The calls of a thread. -/
def Stacked (blocks : Address → Option (Allocated n)) (t : Fin n) : List Frame → Prop
  | [] => True
  | frame :: rest =>
      Stacked blocks t rest ∧ frame.Waits ∧
        (∀ caller ∈ rest.head?, ∃ scope, caller = .body scope ∧ frame.Within scope) ∧
        ∀ ptr ∈ frame.pointer, ∃ block, blocks ptr = some block ∧
          block.holder = some (t, rest.length) ∧ frame.Of t rest.length block

/-- A change to blocks that does not concern these calls. -/
theorem Stacked.congr (h : Stacked blocks t stack)
    (hkeep : ∀ ptr block k, blocks ptr = some block → block.holder = some (t, k) →
      k < stack.length → ∃ block', blocks' ptr = some block' ∧ block'.holder = some (t, k) ∧
        ∀ frame : Frame, frame.Of t k block → frame.Of t k block') :
    Stacked blocks' t stack := by
  induction stack with
  | nil => trivial
  | cons frame rest ih =>
    obtain ⟨hrest, hwaits, hwithin, hblock⟩ := h
    refine ⟨ih hrest fun ptr block k hptr hholder hk ↦ hkeep ptr block k hptr hholder
      (Nat.lt_succ_of_lt hk), hwaits, hwithin, fun ptr hptr ↦ ?_⟩
    obtain ⟨block, hblock, hholder, hof⟩ := hblock ptr hptr
    obtain ⟨block', hblock', hholder', hof'⟩ :=
      hkeep ptr block rest.length hblock hholder (Nat.lt_succ_self _)
    exact ⟨block', hblock', hholder', hof' frame hof⟩

theorem Stacked.update (h : Stacked blocks t stack) {ptr : Address} {block' : Option (Allocated n)}
    (hfree : ∀ block, blocks ptr = some block → ∀ k < stack.length, block.holder ≠ some (t, k)) :
    Stacked (Function.update blocks ptr block') t stack := by
  refine h.congr fun ptr' block k hptr' hholder hk ↦ ⟨block, ?_, hholder, fun _ hof ↦ hof⟩
  rw [Function.update_of_ne, hptr']
  rintro rfl
  exact hfree block hptr' k hk hholder

theorem Frame.Of.untrack {block : Allocated n} (h : frame.Of t k block) :
    frame.Of t k (block.track false) := by
  have hnew : ∀ request, block.New t request → (block.track false).New t request :=
    fun request hnew ↦ ⟨hnew.request, hnew.thread, rfl⟩
  have hscope : ∀ scope : Guarded, scope.Of t block → scope.Of t (block.track false) := by
    intro scope hof
    cases scope with
    | recordAllocation request ptr => exact ⟨hnew _ hof.1, hof.2⟩
    | recordDeallocation | method => trivial
  cases frame with
  | testNew request ptr => exact ⟨hnew _ h.1, h.2⟩
  | testEnabled request ptr => exact ⟨hnew _ h.1, h.2⟩
  | testDelete d => exact h
  | freeRaw d => exact ⟨rfl, h.alignment⟩
  | enter scope => exact hscope _ h
  | body scope => exact hscope _ h
  | lock scope => exact hscope _ h
  | leave scope =>
    cases scope with
    | recordDeallocation d => exact ⟨rfl, h.alignment⟩
    | recordAllocation | method => trivial
  | allocateRaw | returnNew => trivial

theorem Stacked.reset (h : Stacked blocks t stack) :
    Stacked (fun ptr ↦ (blocks ptr).map (.track false)) t stack := by
  refine h.congr fun ptr block k hptr hholder _ ↦
    ⟨block.track false, ?_, hholder, fun _ ↦ Frame.Of.untrack⟩
  rw [hptr, Option.map_some]

theorem Stacked.not_holds (h : Stacked blocks t (frame :: rest))
    (hframe : ∀ scope, frame.Within scope → scope.locks = false) :
    rest.any Frame.holds = false := by
  induction rest generalizing frame with
  | nil => rfl
  | cons caller rest ih =>
    obtain ⟨scope, rfl, hwithin⟩ := h.2.2.1 caller rfl
    rw [List.any_cons, ih h.1 fun scope' hwithin' ↦ hwithin'.1, Bool.or_false]
    exact hframe scope hwithin

/-- A call is inside the detector if it is not the first. -/
theorem Stacked.countP_pos (h : Stacked blocks t (frame :: rest)) :
    0 < rest.countP Frame.guarded ↔ 0 < rest.length := by
  cases rest with
  | nil => exact Iff.rfl
  | cons caller rest =>
    obtain ⟨scope, rfl, -⟩ := h.2.2.1 caller rfl
    rw [List.countP_cons_of_pos rfl, List.length_cons]
    exact iff_of_true (Nat.succ_pos _) (Nat.succ_pos _)

end Stacks

/-! ## The invariant

A step changes the stack of one thread, and the block that this thread has in its hands or the map.
The others are not concerned, since no two calls have the same block. -/

section Inv

variable {n : ℕ} {defaultNewAlignment : ℕ} {s s' : Operators n} {t : Fin n} {depth : ℕ}
  {frame : Frame} {rest stack : List Frame} {ptr : Address} {block : Allocated n}

/-- The alignment a block is given back with is that of its record, if it has one that says
something, and else that of the `delete`. -/
structure Release.Right (defaultNewAlignment : ℕ) (r : Release) : Prop where
  obtainedFrom : r.obtainedFrom = family defaultNewAlignment r.request.alignment
  freedWith : r.freedWith = family defaultNewAlignment
    (if r.deletion.found = true ∧ r.request.alignment ≠ 0 then r.request.alignment
      else r.deletion.fallbackAlignment)

/-- What holds in every state. -/
structure Inv (defaultNewAlignment : ℕ) (s : Operators n) : Prop where
  stacked : ∀ t, Stacked s.blocks t (s.threads t).stack
  depth : ∀ t, (s.threads t).depth = (s.threads t).stack.countP Frame.guarded
  mutex : ∀ t, s.mutex = some t ↔ (s.threads t).stack.any Frame.holds = true
  reflects : Reflects defaultNewAlignment s.detector.liveAllocations s.blocks
  released : ∀ r ∈ s.released, r.Right defaultNewAlignment

theorem inv_init : Inv defaultNewAlignment (operatorsMachine defaultNewAlignment n).init := by
  refine ⟨fun t ↦ trivial, fun t ↦ rfl, fun t ↦ ?_, ⟨fun ptr ↦ rfl, fun ptr block hptr ↦ ?_, rfl⟩,
    fun r hr ↦ absurd hr List.not_mem_nil⟩
  · exact ⟨fun hmutex ↦ (by cases hmutex), fun hholds ↦ (by cases hholds)⟩
  · cases hptr

theorem Inv.move (h : Inv defaultNewAlignment s)
    (hthreads : s'.threads = Function.update s.threads t ⟨depth, stack⟩)
    (hself : Stacked s'.blocks t stack)
    (hothers : ∀ u, u ≠ t → Stacked s'.blocks u (s.threads u).stack)
    (hdepth : depth = stack.countP Frame.guarded)
    (hmutex : s'.mutex = some t ↔ stack.any Frame.holds = true)
    (hmutexes : ∀ u, u ≠ t → (s'.mutex = some u ↔ s.mutex = some u))
    (hreflects : Reflects defaultNewAlignment s'.detector.liveAllocations s'.blocks)
    (hreleased : ∀ r ∈ s'.released, r.Right defaultNewAlignment) :
    Inv defaultNewAlignment s' := by
  have hself_eq : s'.threads t = ⟨depth, stack⟩ := by rw [hthreads, Function.update_self]
  have hother_eq : ∀ u, u ≠ t → s'.threads u = s.threads u := fun u hu ↦ by
    rw [hthreads, Function.update_of_ne hu]
  refine ⟨fun u ↦ ?_, fun u ↦ ?_, fun u ↦ ?_, hreflects, hreleased⟩ <;> by_cases hu : u = t
  · subst hu
    rwa [hself_eq]
  · rw [hother_eq u hu]
    exact hothers u hu
  · subst hu
    rwa [hself_eq]
  · rw [hother_eq u hu]
    exact h.depth u
  · subst hu
    rwa [hself_eq]
  · rw [hother_eq u hu, hmutexes u hu]
    exact h.mutex u

theorem Inv.setThread (h : Inv defaultNewAlignment s) (hself : Stacked s.blocks t stack)
    (hdepth : depth = stack.countP Frame.guarded)
    (hholds : stack.any Frame.holds = (s.threads t).stack.any Frame.holds) :
    Inv defaultNewAlignment (s.setThread t depth stack) := by
  refine h.move rfl hself (fun u _ ↦ h.stacked u) hdepth ?_ (fun u _ ↦ Iff.rfl) h.reflects
    h.released
  rw [hholds]
  exact h.mutex t

/-- A block that no other call has in its hands is of no concern to them. -/
theorem Inv.apart (h : Inv defaultNewAlignment s) (hself : Stacked s.blocks t stack)
    (hfree : ∀ block, s.blocks ptr = some block →
      block.holder = none ∨ block.holder = some (t, stack.length))
    (block' : Option (Allocated n)) :
    Stacked (Function.update s.blocks ptr block') t stack ∧
      ∀ u, u ≠ t → Stacked (Function.update s.blocks ptr block') u (s.threads u).stack := by
  refine ⟨hself.update fun block hptr k hk hholder ↦ ?_,
    fun u hu ↦ (h.stacked u).update fun block hptr k _ hholder ↦ ?_⟩
  · rcases hfree block hptr with hnone | hsome
    · rw [hnone] at hholder
      cases hholder
    · rw [hsome, Option.some.injEq, Prod.mk.injEq] at hholder
      omega
  · rcases hfree block hptr with hnone | hsome
    · rw [hnone] at hholder
      cases hholder
    · rw [hsome, Option.some.injEq, Prod.mk.injEq] at hholder
      exact hu hholder.1.symm

theorem Inv.apart_top (h : Inv defaultNewAlignment s) (hst : Stacked s.blocks t (frame :: rest))
    (hptr : s.blocks ptr = some block) (hholder : block.holder = some (t, rest.length))
    (block' : Option (Allocated n)) :
    Stacked (Function.update s.blocks ptr block') t rest ∧
      ∀ u, u ≠ t → Stacked (Function.update s.blocks ptr block') u (s.threads u).stack := by
  refine h.apart hst.1 (fun block'' hptr'' ↦ Or.inr ?_) block'
  obtain rfl := Option.some.inj (hptr.symm.trans hptr'')
  exact hholder

theorem Inv.mutex_iff (h : Inv defaultNewAlignment s) (hstack : (s.threads t).stack = frame :: rest)
    (hframe : frame.holds = false) : s.mutex = some t ↔ rest.any Frame.holds = true := by
  rw [h.mutex t, hstack, List.any_cons, hframe, Bool.false_or]

theorem Inv.goto (h : Inv defaultNewAlignment s) (hst : Stacked s.blocks t (frame :: rest))
    (hstack : (s.threads t).stack = frame :: rest) {frame' : Frame}
    (hwaits : frame'.Waits)
    (hwithin : ∀ scope, frame.Within scope → rest ≠ [] → frame'.Within scope)
    (hpointer : frame'.pointer = frame.pointer)
    (hof : ∀ ptr block, s.blocks ptr = some block → frame.Of t rest.length block →
      frame'.Of t rest.length block)
    (hdepth : depth = (frame' :: rest).countP Frame.guarded) (hholds : frame'.holds = frame.holds) :
    Inv defaultNewAlignment (s.setThread t depth (frame' :: rest)) := by
  refine h.setThread ⟨hst.1, hwaits, fun caller hcaller ↦ ?_, fun ptr hptr ↦ ?_⟩ hdepth ?_
  · obtain ⟨scope, rfl, hwithin'⟩ := hst.2.2.1 caller hcaller
    exact ⟨scope, rfl, hwithin scope hwithin' fun hnil ↦ by rw [hnil] at hcaller; cases hcaller⟩
  · obtain ⟨block, hblock, hholder, hof'⟩ := hst.2.2.2 ptr (hpointer ▸ hptr)
    exact ⟨block, hblock, hholder, hof ptr block hblock hof'⟩
  · rw [hstack, List.any_cons, List.any_cons, hholds]

theorem Inv.unlock (h : Inv defaultNewAlignment s) {scope scope' : Guarded}
    (hstack : (s.threads t).stack = .body scope :: rest)
    {detector : State} {blocks : Address → Option (Allocated n)}
    (hself : Stacked blocks t (.leave scope' :: rest))
    (hothers : ∀ u, u ≠ t → Stacked blocks u (s.threads u).stack)
    (hreflects : Reflects defaultNewAlignment detector.liveAllocations blocks) :
    Inv defaultNewAlignment
      ⟨detector, if scope.locks then none else s.mutex, blocks,
        Function.update s.threads t ⟨(s.threads t).depth, .leave scope' :: rest⟩, s.released⟩ := by
  have hst : Stacked s.blocks t (.body scope :: rest) := hstack ▸ h.stacked t
  have hdepth : (s.threads t).depth = (Frame.body scope :: rest).countP Frame.guarded :=
    hstack ▸ h.depth t
  rw [List.countP_cons_of_pos rfl] at hdepth
  have hmutex : s.mutex = some t ↔ (scope.locks || rest.any Frame.holds) = true := by
    rw [h.mutex t, hstack]
    rfl
  refine h.move rfl hself hothers ?_ ?_ (fun u hu ↦ ?_) hreflects h.released
  · rw [List.countP_cons_of_pos rfl]
    exact hdepth
  · rw [List.any_cons]
    change (if scope.locks = true then none else s.mutex) = some t ↔
      (false || rest.any Frame.holds) = true
    by_cases hlocks : scope.locks = true
    · rw [if_pos hlocks, Bool.false_or, hst.not_holds fun _ hwithin ↦ hwithin.1]
      exact iff_of_false (fun heq ↦ by cases heq) Bool.false_ne_true
    · rw [if_neg hlocks, hmutex, eq_false_of_ne_true hlocks]
  · change (if scope.locks = true then none else s.mutex) = some u ↔ _
    by_cases hlocks : scope.locks = true
    · rw [if_pos hlocks, hmutex.mpr (by rw [hlocks, Bool.true_or])]
      exact iff_of_false (fun heq ↦ by cases heq) fun heq ↦ hu (Option.some.inj heq).symm
    · rw [if_neg hlocks]

theorem Inv.close (h : Inv defaultNewAlignment s) {scope : Guarded}
    (hstack : (s.threads t).stack = .body scope :: rest) (inserted : Bool) :
    Inv defaultNewAlignment
      { (s.close defaultNewAlignment t inserted scope).1.setThread t (s.threads t).depth
          (.leave (s.close defaultNewAlignment t inserted scope).2 :: rest) with
        mutex := if scope.locks then none else s.mutex } := by
  have hst : Stacked s.blocks t (.body scope :: rest) := hstack ▸ h.stacked t
  have hcaller : ∀ scope' : Guarded, (∀ caller, (Frame.body scope).Within caller →
      (Frame.leave scope').Within caller) → ∀ caller ∈ rest.head?,
        ∃ inner, caller = .body inner ∧ (Frame.leave scope').Within inner := by
    intro scope' hwithin caller hcaller
    obtain ⟨inner, rfl, hinner⟩ := hst.2.2.1 caller hcaller
    exact ⟨inner, rfl, hwithin inner hinner⟩
  cases scope with
  | recordAllocation request ptr =>
    obtain ⟨block, hptr, hholder, hnew, hinside⟩ := hst.2.2.2 ptr rfl
    obtain ⟨hothers, hreflects⟩ := And.intro (h.apart_top hst hptr hholder)
      (h.reflects.commit hptr hnew.tracked hinside inserted)
    rw [hnew.request, hnew.thread] at hreflects
    rw [Operators.close, hptr, Option.map_some]
    refine h.unlock hstack ⟨(hothers _).1, trivial, hcaller _ fun _ ↦ id, ?_⟩ (hothers _).2
      hreflects
    intro ptr' hptr'
    obtain rfl := Option.some.inj hptr'
    exact ⟨_, Function.update_self .., hholder, trivial⟩
  | recordDeallocation d =>
    obtain ⟨block, hptr, hholder, -⟩ := hst.2.2.2 d.ptr rfl
    have hothers := h.apart_top hst hptr hholder
    rw [Operators.close, hptr, Option.map_some]
    refine h.unlock hstack ⟨(hothers _).1, trivial, hcaller _ fun _ hwithin ↦ ?_, ?_⟩ (hothers _).2
      (h.reflects.erase hptr d.arrayDelete d.fallbackAlignment)
    · obtain ⟨-, method, hmethod⟩ := hwithin
      cases hmethod
    · intro ptr' hptr'
      obtain rfl := Option.some.inj hptr'
      exact ⟨_, Function.update_self .., hholder, rfl,
        h.reflects.recordDeallocation_snd hptr d.arrayDelete d.fallbackAlignment⟩
  | method method =>
    have hsame : Inv defaultNewAlignment
        ⟨s.detector, if (Guarded.method method).locks then none else s.mutex, s.blocks,
          Function.update s.threads t ⟨(s.threads t).depth, .leave (.method method) :: rest⟩,
          s.released⟩ :=
      h.unlock hstack ⟨hst.1, trivial, hcaller _ fun _ ↦ id, fun _ hptr ↦ by cases hptr⟩
        (fun u _ ↦ h.stacked u) h.reflects
    cases method with
    | reset =>
      exact h.unlock hstack
        ⟨hst.1.reset, trivial, hcaller _ fun _ ↦ id, fun _ hptr ↦ by cases hptr⟩
        (fun u _ ↦ (h.stacked u).reset) h.reflects.reset
    | _ => exact hsame

theorem inv_runFrame (h : Inv defaultNewAlignment s) (hstack : (s.threads t).stack = frame :: rest)
    {address : Option Address} {inserted : Bool}
    (hs : s.runFrame defaultNewAlignment t (s.threads t).depth rest address inserted frame =
      some s') : Inv defaultNewAlignment s' := by
  have hst : Stacked s.blocks t (frame :: rest) := hstack ▸ h.stacked t
  have hdepth : (s.threads t).depth = (frame :: rest).countP Frame.guarded := hstack ▸ h.depth t
  cases frame with
  | allocateRaw request =>
    cases address with
    | none =>
      obtain rfl := Option.some.inj hs
      exact h.setThread hst.1 hdepth (by rw [hstack]; rfl)
    | some ptr =>
      rw [Operators.runFrame, Option.ite_none_left_eq_some, Option.some.injEq, not_or,
        Option.not_isSome_iff_eq_none] at hs
      obtain ⟨⟨hnull, hfresh⟩, rfl⟩ := hs
      have hnone : ∀ block, s.blocks ptr ≠ some block := fun block ↦ by rw [hfresh]; simp
      have hapart := h.apart hst.1 fun block (hptr : s.blocks ptr = some block) ↦
        absurd hptr (hnone block)
      have hmutex := h.mutex_iff hstack rfl
      refine h.move rfl ⟨(hapart _).1, trivial, hst.2.2.1, ?_⟩ (hapart _).2 hdepth hmutex
        (fun u _ ↦ Iff.rfl) (h.reflects.set (fun ptr' _ ↦ rfl) ?_ (fun b hb _ ↦ ?_) fun _ ↦ hnull)
        h.released
      · intro ptr' hptr'
        obtain rfl := Option.some.inj hptr'
        refine ⟨_, Function.update_self .., rfl, ⟨rfl, rfl, rfl⟩, ?_⟩
        rw [hdepth, decide_eq_decide]
        exact hst.countP_pos
      · have hlookup := h.reflects.lookup_eq_none fun block hptr ↦ absurd hptr (hnone block)
        exact congrArg (Option.map Record.unnumbered) hlookup
      · obtain rfl := Option.some.inj hb
        rfl
  | testNew request ptr =>
    obtain rfl := Option.some.inj hs
    have hpos : 0 < (s.threads t).depth ↔ 0 < rest.length := by
      rw [hdepth]
      exact hst.countP_pos
    split
    · exact h.goto hst hstack trivial (fun _ _ _ ↦ trivial) rfl (fun _ _ _ _ ↦ trivial) hdepth rfl
    · rename_i hzero
      have hlength : ¬0 < rest.length := fun hlength ↦ hzero (hpos.mpr hlength)
      refine h.goto hst hstack trivial (fun _ _ hrest ↦ ?_) rfl
        (fun ptr block _ hof ↦ ⟨hof.1, ?_⟩) hdepth rfl
      · exact absurd (List.length_pos_iff.mpr hrest) hlength
      · rw [hof.2, decide_eq_false hlength]
  | testEnabled request ptr =>
    obtain rfl := Option.some.inj hs
    split
    · exact h.goto hst hstack trivial (fun _ hwithin _ ↦ hwithin.elim) rfl (fun _ _ _ hof ↦ hof)
        hdepth rfl
    · exact h.goto hst hstack trivial (fun _ _ _ ↦ trivial) rfl (fun _ _ _ _ ↦ trivial) hdepth rfl
  | returnNew ptr =>
    obtain rfl := Option.some.inj hs
    obtain ⟨block, hptr, hholder, -⟩ := hst.2.2.2 ptr rfl
    have hapart := h.apart_top hst hptr hholder (some (block.hold none))
    rw [hptr, Option.map_some]
    refine h.move rfl hapart.1 hapart.2 hdepth (h.mutex_iff hstack rfl) (fun u _ ↦ Iff.rfl)
      (h.reflects.hold hptr none) h.released
  | testDelete d =>
    obtain rfl := Option.some.inj hs
    have hpos : 0 < (s.threads t).depth ↔ 0 < rest.length := by
      rw [hdepth]
      exact hst.countP_pos
    split
    · rename_i hinside
      refine h.goto hst hstack trivial (fun _ _ _ ↦ trivial) rfl
        (fun ptr block hptr hof ↦ ?_) hdepth rfl
      refine ⟨h.reflects.inside ptr block hptr (hof.1 (hpos.mp hinside)), ?_⟩
      rw [hof.2.1, hof.2.2, if_neg fun hfound ↦ by cases hfound.1]
    · rename_i hzero
      refine h.goto hst hstack trivial (fun _ _ hrest ↦ ?_) rfl (fun _ _ _ _ ↦ trivial) hdepth rfl
      exact absurd (hpos.mpr (List.length_pos_iff.mpr hrest)) hzero
  | freeRaw d =>
    obtain ⟨block, hptr, rfl⟩ := Option.map_eq_some_iff.mp hs
    obtain ⟨block', hptr', hholder, hsettled⟩ := hst.2.2.2 d.ptr rfl
    obtain rfl := Option.some.inj (hptr.symm.trans hptr')
    have hapart := h.apart_top hst hptr hholder none
    refine h.move rfl hapart.1 hapart.2 hdepth (h.mutex_iff hstack rfl) (fun u _ ↦ Iff.rfl)
      (h.reflects.remove hptr hsettled.tracked) fun r hr ↦ ?_
    rcases List.mem_append.mp hr with hold | hnew
    · exact h.released r hold
    · obtain rfl := List.mem_singleton.mp hnew
      exact ⟨rfl, congrArg (family defaultNewAlignment) hsettled.alignment⟩
  | enter scope =>
    obtain rfl := Option.some.inj hs
    have hdepth' : ∀ frame : Frame, frame.guarded = true →
        (s.threads t).depth + 1 = (frame :: rest).countP Frame.guarded := by
      intro frame hguarded
      rw [hdepth, List.countP_cons_of_pos hguarded]
      rfl
    split
    · rename_i hlocks
      exact h.goto hst hstack hlocks (fun _ hwithin _ ↦ hwithin) rfl (fun _ _ _ hof ↦ hof)
        (hdepth' _ rfl) rfl
    · rename_i hlocks
      exact h.goto hst hstack trivial (fun _ hwithin _ ↦ hwithin) rfl (fun _ _ _ hof ↦ hof)
        (hdepth' _ rfl) (eq_false_of_ne_true hlocks)
  | lock scope =>
    rw [Operators.runFrame, Option.ite_none_right_eq_some, Option.some.injEq] at hs
    obtain ⟨hfree, rfl⟩ := hs
    have hlocks : scope.locks = true := hst.2.1
    refine h.move rfl ⟨hst.1, trivial, hst.2.2⟩ (fun u _ ↦ h.stacked u) hdepth ?_ (fun u hu ↦ ?_)
      h.reflects h.released
    · rw [List.any_cons]
      exact iff_of_true rfl (Bool.or_eq_true_iff.mpr (Or.inl hlocks))
    · rw [hfree]
      exact iff_of_false (fun heq ↦ hu (Option.some.inj heq).symm) fun heq ↦ by cases heq
  | body scope =>
    obtain rfl := Option.some.inj hs
    exact h.close hstack inserted
  | leave scope =>
    obtain rfl := Option.some.inj hs
    have hdepth' : (s.threads t).depth - 1 = rest.countP Frame.guarded := by
      rw [hdepth, List.countP_cons_of_pos rfl, Nat.add_sub_cancel]
    cases scope with
    | recordAllocation request ptr =>
      exact h.goto hst hstack trivial (fun _ _ _ ↦ trivial) rfl (fun _ _ _ _ ↦ trivial) hdepth' rfl
    | recordDeallocation d =>
      exact h.goto hst hstack trivial (fun _ _ _ ↦ trivial) rfl (fun _ _ _ hof ↦ hof) hdepth' rfl
    | method method => exact h.setThread hst.1 hdepth' (by rw [hstack]; rfl)

theorem locks_of_calls {scope : Guarded} {method : Method} (h : scope.calls method = true) :
    scope.locks = false := by
  rw [Guarded.calls.eq_def] at h
  split at h
  · rfl
  · rfl
  · rfl
  · cases h

private theorem mayCall_eq_true {allowed : Guarded → Bool} (h : s.mayCall t allowed = true) :
    ∀ caller ∈ (s.threads t).stack.head?, ∃ scope, caller = .body scope ∧ allowed scope = true := by
  intro caller hcaller
  rw [Operators.mayCall] at h
  split at h
  · rename_i hnil
    rw [hnil] at hcaller
    cases hcaller
  · rename_i scope _ hbody
    rw [hbody] at hcaller
    obtain rfl := Option.some.inj hcaller
    exact ⟨scope, rfl, h⟩
  · cases h

theorem inv_step (h : Inv defaultNewAlignment s) {a : Action n}
    (hs : s.step defaultNewAlignment a = some s') : Inv defaultNewAlignment s' := by
  cases a with
  | new t request =>
    rw [Operators.step, Option.ite_none_right_eq_some, Option.some.injEq] at hs
    obtain ⟨hmay, rfl⟩ := hs
    refine h.setThread ⟨h.stacked t, trivial, fun caller hcaller ↦ ?_, fun _ hptr ↦ by cases hptr⟩
      (h.depth t) rfl
    obtain ⟨scope, rfl, -⟩ := mayCall_eq_true hmay caller hcaller
    exact ⟨scope, rfl, trivial⟩
  | delete t ptr arrayDelete alignment =>
    rw [Operators.step] at hs
    split at hs
    · obtain rfl := Option.some.inj hs
      exact h
    · split at hs
      · rename_i block hptr
        rw [Option.ite_none_right_eq_some, Option.some.injEq] at hs
        obtain ⟨⟨hholder, hmay⟩, rfl⟩ := hs
        have hunheld : ∀ block', s.blocks ptr = some block' → block'.holder = none := by
          intro block' hptr'
          obtain rfl := Option.some.inj (hptr.symm.trans hptr')
          exact hholder
        have hapart := h.apart (h.stacked t) fun block' hptr' ↦ Or.inl (hunheld block' hptr')
        refine h.move rfl ⟨(hapart _).1, trivial, fun caller hcaller ↦ ?_, fun ptr' hptr' ↦ ?_⟩
          (hapart _).2 (h.depth t) (h.mutex t) (fun u _ ↦ Iff.rfl) (h.reflects.hold hptr _)
          h.released
        · obtain ⟨scope, rfl, -⟩ := mayCall_eq_true hmay caller hcaller
          exact ⟨scope, rfl, trivial⟩
        · obtain rfl := Option.some.inj hptr'
          refine ⟨_, Function.update_self .., rfl, fun hpos ↦ ?_, rfl, rfl⟩
          cases hstack : (s.threads t).stack with
          | nil =>
            rw [hstack] at hpos
            exact absurd hpos (Nat.lt_irrefl 0)
          | cons caller rest =>
            obtain ⟨-, -, hinside⟩ := mayCall_eq_true hmay caller (by rw [hstack]; rfl)
            exact hinside
      · cases hs
  | call t method =>
    rw [Operators.step, Option.ite_none_right_eq_some, Option.some.injEq] at hs
    obtain ⟨hmay, rfl⟩ := hs
    refine h.setThread ⟨h.stacked t, trivial, fun caller hcaller ↦ ?_, fun _ hptr ↦ by cases hptr⟩
      (h.depth t) rfl
    obtain ⟨scope, rfl, hcalls⟩ := mayCall_eq_true hmay caller hcaller
    exact ⟨scope, rfl, locks_of_calls hcalls, method, rfl⟩
  | setEnabled t enabled =>
    rw [Operators.step, Option.ite_none_right_eq_some, Option.some.injEq] at hs
    obtain ⟨-, rfl⟩ := hs
    exact ⟨h.stacked, h.depth, h.mutex, h.reflects, h.released⟩
  | run t address inserted =>
    rw [Operators.step] at hs
    split at hs
    · cases hs
    · rename_i hstack
      exact inv_runFrame h hstack hs

theorem inv_of_reachable (h : (operatorsMachine defaultNewAlignment n).Reachable s) :
    Inv defaultNewAlignment s :=
  h.invariant inv_init fun hI _ hs ↦ inv_step hI hs

/-- What the operators keep to. -/
structure Sound (defaultNewAlignment : ℕ) (s : Operators n) : Prop where
  /-- The map holds a record for a block iff it is tracked, and the record describes the block. -/
  records : ∀ ptr, (s.detector.liveAllocations.lookup ptr).map Record.unnumbered =
    ((s.blocks ptr).filter Allocated.tracked).map (Allocated.record defaultNewAlignment ptr)
  /-- The memory of the detector itself is not tracked. -/
  inside : ∀ ptr block, s.blocks ptr = some block → block.inside = true → block.tracked = false
  /-- A block that a call has in its hands has not been given back. -/
  held : ∀ t, ∀ frame ∈ (s.threads t).stack, ∀ ptr ∈ frame.pointer, (s.blocks ptr).isSome = true
  /-- A block goes back to where it came from iff it was tracked and has an alignment, or is deleted
  with the right form of `delete`. -/
  released : ∀ r ∈ s.released, r.freedWith = r.obtainedFrom ↔
    r.deletion.found = true ∧ r.request.alignment ≠ 0 ∨
      family defaultNewAlignment r.deletion.fallbackAlignment =
        family defaultNewAlignment r.request.alignment

theorem Release.Right.freedWith_eq_iff {r : Release} (h : r.Right defaultNewAlignment) :
    r.freedWith = r.obtainedFrom ↔ r.deletion.found = true ∧ r.request.alignment ≠ 0 ∨
      family defaultNewAlignment r.deletion.fallbackAlignment =
        family defaultNewAlignment r.request.alignment := by
  rw [h.obtainedFrom, h.freedWith]
  by_cases hfound : r.deletion.found = true ∧ r.request.alignment ≠ 0
  · rw [if_pos hfound]
    exact iff_of_true rfl (Or.inl hfound)
  · rw [if_neg hfound, or_iff_right hfound]

theorem Stacked.isSome {blocks : Address → Option (Allocated n)} (h : Stacked blocks t stack) :
    ∀ frame ∈ stack, ∀ ptr ∈ frame.pointer, (blocks ptr).isSome = true := by
  induction stack with
  | nil => exact fun frame hframe ↦ absurd hframe List.not_mem_nil
  | cons frame rest ih =>
    refine List.forall_mem_cons.mpr ⟨fun ptr hptr ↦ ?_, ih h.1⟩
    obtain ⟨block, hblock, -⟩ := h.2.2.2 ptr hptr
    exact Option.isSome_of_eq_some hblock

/-- **The operators are sound.** For any number of threads and any interleaving of their steps, with
blocks allocated and freed inside the detector as well, insertions that fail, resets, and the
detector enabled and disabled at any time. -/
theorem operators_sound (h : (operatorsMachine defaultNewAlignment n).Reachable s) :
    Sound defaultNewAlignment s := by
  have hI := inv_of_reachable h
  exact ⟨hI.reflects.records, hI.reflects.inside, fun t ↦ (hI.stacked t).isSome,
    fun r hr ↦ (hI.released r hr).freedWith_eq_iff⟩

/-- The last call of a thread goes on, whatever the C library answers, unless it waits for the
mutex. -/
theorem Inv.runFrame_isSome (h : Inv defaultNewAlignment s)
    (hstack : (s.threads t).stack = frame :: rest)
    (hlock : ∀ scope, frame = .lock scope → s.mutex = none) {address : Option Address}
    (haddress : ∀ ptr, address = some ptr → ptr ≠ 0#64 ∧ s.blocks ptr = none) (inserted : Bool) :
    (s.step defaultNewAlignment (.run t address inserted)).isSome = true := by
  have hst : Stacked s.blocks t (frame :: rest) := hstack ▸ h.stacked t
  have hstep : s.step defaultNewAlignment (.run t address inserted) =
      s.runFrame defaultNewAlignment t (s.threads t).depth rest address inserted frame := by
    rw [Operators.step, hstack]
  rw [hstep]
  cases frame with
  | allocateRaw request =>
    cases address with
    | none => rfl
    | some ptr =>
      obtain ⟨hnull, hfresh⟩ := haddress ptr rfl
      rw [Operators.runFrame, if_neg (not_or.mpr ⟨hnull, by rw [hfresh]; exact Bool.false_ne_true⟩)]
      rfl
  | freeRaw d =>
    obtain ⟨block, hptr, -⟩ := hst.2.2.2 d.ptr rfl
    rw [Operators.runFrame, hptr]
    rfl
  | lock scope =>
    rw [Operators.runFrame, if_pos (hlock scope rfl)]
    rfl
  | testNew | testEnabled | returnNew | testDelete | enter | body | leave => rfl

/-- **No call waits for ever.** The thread that has the mutex can go on, also when it allocates or
releases memory while it has the mutex; and if nobody has the mutex, every thread can go on. -/
theorem operators_go_on (h : (operatorsMachine defaultNewAlignment n).Reachable s)
    (ht : (s.threads t).stack ≠ []) {address : Option Address}
    (haddress : ∀ ptr, address = some ptr → ptr ≠ 0#64 ∧ s.blocks ptr = none) (inserted : Bool) :
    (s.step defaultNewAlignment (.run (s.mutex.getD t) address inserted)).isSome = true := by
  have hI := inv_of_reachable h
  cases hmutex : s.mutex with
  | none =>
    obtain ⟨frame, rest, hstack⟩ := List.exists_cons_of_ne_nil ht
    exact hI.runFrame_isSome hstack (fun _ _ ↦ hmutex) haddress inserted
  | some u =>
    have hholds := (hI.mutex u).mp hmutex
    have hst := hI.stacked u
    cases hstack : (s.threads u).stack with
    | nil =>
      rw [hstack] at hholds
      cases hholds
    | cons frame rest =>
      refine hI.runFrame_isSome hstack (fun scope hframe ↦ ?_) haddress inserted
      -- a call that has the mutex and waits for it would be below itself
      subst hframe
      rw [hstack] at hst hholds
      rw [List.any_cons, hst.not_holds fun _ hwithin ↦ hwithin.1] at hholds
      cases hholds

end Inv

/-- Two threads. A block with an alignment of its own is recorded, and a node of the map is
allocated meanwhile; then the block is deleted as if it had none, while the other thread waits for
the mutex. -/
def mismatched (t u : Fin n) : List (Action n) :=
  [.setEnabled t true, .new t ⟨8, none, 0, false, 64⟩, .run t (some 4096#64) true] ++
    List.replicate 4 (.run t none true) ++
    [.new t ⟨32, none, 0, false, 0⟩, .run t (some 8192#64) true] ++
    List.replicate 5 (.run t none true) ++
    [.delete u 4096#64 false 0, .run u none true, .run u none true, .run u none true,
      .call t .liveAllocations, .run t none true, .delete u 8192#64 false 0] ++
    List.replicate 5 (.run u none true)

theorem operators_sound_mismatched : ∃ s : Operators 2,
    s.released =
      [⟨⟨32, none, 0, false, 0⟩, ⟨8192#64, false, 0, 0, false⟩, .malloc, .malloc⟩,
        ⟨⟨8, none, 0, false, 64⟩, ⟨4096#64, false, 0, 64, true⟩, .aligned, .aligned⟩] ∧
      Sound 16 s := by
  obtain ⟨s, hs, hreleased⟩ := Machine.exists_reachable_of_run (M := operatorsMachine 16 2)
    Operators.released (mismatched 0 1) rfl
  exact ⟨s, hreleased, operators_sound hs⟩

/-- The other thread has deleted half of the block, and has the mutex. -/
theorem operators_go_on_mismatched : ∃ s : Operators 2, s.mutex = some 1 ∧
    (s.threads 0).stack = [.lock (.method .liveAllocations)] ∧
      (s.step 16 (.run (s.mutex.getD 0) none true)).isSome = true := by
  obtain ⟨s, hs, hfinal⟩ := Machine.exists_reachable_of_run (M := operatorsMachine 16 2)
    (fun s ↦ (s.mutex, (s.threads 0).stack)) ((mismatched 0 1).take 21)
    (b := (some 1, [.lock (.method .liveAllocations)])) rfl
  obtain ⟨hmutex, hstack⟩ := Prod.mk.inj hfinal
  refine ⟨s, hmutex, hstack, operators_go_on hs (t := 0) ?_ (fun _ hnone ↦ by cases hnone) true⟩
  rw [hstack]
  exact List.cons_ne_nil _ _

end MemoryLeakDetector

end FoundationComponents
