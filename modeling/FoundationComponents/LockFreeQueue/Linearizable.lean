import FoundationComponents.Linearizability.Basic
import FoundationComponents.LockFreeQueue.Invariant

/-!
# The lock-free queue is linearizable

A `tryPush` or `tryPop` that succeeds takes effect when it wins its ticket. The cursors hand out
tickets in order, a `tryPop` wins a ticket only after the `tryPush` of that ticket has published its
element, and a `tryPush` wins one only when the cell is free again, so the wins are the operations
of a bounded first-in first-out queue.

What the abstract queue cannot explain is why an operation fails. A `tryPush` may find the cell of
its ticket still in use although an element has been taken out, and a `tryPop` may find a cell not
yet published although younger elements are. So in the sequential object both may fail at any time,
and then change nothing; when exactly they do is the subject of the failure conditions. `close`
changes nothing either: a `tryPush` that has looked at the flag before may still succeed.
-/

namespace FoundationComponents

namespace LockFreeQueue

open Linearizability (Spec Status Moves Linearizable)

variable {α : Type*} {n : ℕ}

/-! ## The sequential object -/

/-- A queue of at most `capacity` values, oldest first, whose operations may fail. -/
inductive BoundedStep (capacity : ℕ) : List α → Call α → Result α → List α → Prop
  | push {items : List α} {v : α} : items.length < capacity →
      BoundedStep capacity items (.tryPush v) (.pushed true) (items ++ [v])
  | pushFails {items : List α} {v : α} :
      BoundedStep capacity items (.tryPush v) (.pushed false) items
  | pop {items : List α} {v : α} :
      BoundedStep capacity (v :: items) .tryPop (.popped v) items
  | popFails {items : List α} : BoundedStep capacity items .tryPop .nullopt items
  | close {items : List α} : BoundedStep capacity items .close .closed items

def boundedSpec (α : Type*) (capacity : ℕ) : Spec (List α) (Call α) (Result α) where
  init := []
  step := BoundedStep capacity

/-! ## Calls and returns -/

/-- The returns among the events of a step. -/
def returns (t : Fin n) (events : List (Event α)) :
    List (Linearizability.Event (Fin n) (Call α) (Result α)) :=
  events.filterMap fun
    | .returned _ _ result => some (.ret t result)
    | _ => none

/-- What a step shows of the calls. -/
def System.clientEvents (s : System α n) :
    Action α n → List (Linearizability.Event (Fin n) (Call α) (Result α))
  | .call t c => [.call t c]
  | .step t spurious => returns t (threadStep .unbounded s.queue spurious (s.threads t)).2.2

/-! ## What has taken effect

The abstract queue holds the values between the two cursors. A step that wins a ticket moves one of
them, and every other step leaves the queue alone. -/

/-- The value of a ticket, as a `tryPop` returns it. -/
def valueAt (values : List α) (ticket : ℕ) : Result α :=
  match values[ticket]? with
  | some v => .popped v
  | none => .undefined

/-- How far the call of a thread is. A call that has won a ticket has taken effect. -/
def Pc.status (values : List α) : Pc α → Status (Call α) (Result α)
  | .idle => .idle
  | .pushLoadClosed v | .pushCountClosed v | .pushCountFailed v | .pushLoadPos v
  | .pushLoadSequence v _ | .pushCas v _ => .pending (.tryPush v)
  | .pushConstruct _ _ | .pushPublish _ _ | .pushCount _ _ => .effective (.pushed true)
  | .popLoadPos | .popLoadSequence _ | .popCas _ | .popCountFailed => .pending .tryPop
  | .popMove p | .popDestroy p _ | .popRelease p _ | .popCount p _ =>
      .effective (valueAt values p)
  | .closeStore => .pending .close

def System.statuses (s : System α n) (t : Fin n) : Status (Call α) (Result α) :=
  (s.threads t).status (values s.history)

/-- The values whose tickets have been won by a `tryPush` and by no `tryPop`. -/
def System.items (s : System α n) : List α := (values s.history).drop s.queue.dequeuePos

/-- The abstract queue and how far the calls are. -/
def System.view (s : System α n) : List α × (Fin n → Status (Call α) (Result α)) :=
  (s.items, s.statuses)

section Steps

variable {capacity : ℕ} {s s' : System α n} {t : Fin n} {q' : Queue α} {pc pc' : Pc α}
  {event : Event α}

/-- The ticket of a call that has won one has its value, which younger tickets do not change. -/
theorem status_append {q : Queue α} {values : List α} (h : pc.Ok q values) (v : α) :
    pc.status (values ++ [v]) = pc.status values := by
  have hvalue : ∀ {p w}, values[p]? = some w → valueAt (values ++ [v]) p = valueAt values p := by
    intro p w hw
    rw [valueAt, valueAt, List.getElem?_append_left (List.getElem?_eq_some_iff.mp hw).1]
  cases pc with
  | popMove p =>
    obtain ⟨-, -, w, -, hw⟩ := h
    rw [Pc.status, Pc.status, hvalue hw]
  | popDestroy p r | popRelease p r =>
    obtain ⟨-, -, -, w, -, hw⟩ := h
    rw [Pc.status, Pc.status, hvalue hw]
  | popCount p r =>
    obtain ⟨w, -, hw⟩ := h
    rw [Pc.status, Pc.status, hvalue hw]
  | _ => rfl

private theorem values_concat_of_ne (history : List (Fin n × Event α)) (t : Fin n)
    (h : ∀ p v, event ≠ .enqueueWon p v) : values (history ++ [(t, event)]) = values history := by
  rw [values, enqueueWins_append, values]
  cases event with
  | enqueueWon p v => exact absurd rfl (h p v)
  | _ => exact congrArg _ (List.append_nil _)

private theorem values_concat_returned (history : List (Fin n × Event α)) (t : Fin n) (c : Call α)
    (ticket : Option ℕ) (result : Result α) :
    values (history ++ [Event.returned c ticket result].map fun e ↦ (t, e)) = values history :=
  values_concat_of_ne history t fun _ _ heq ↦ by cases heq

private theorem values_concat_enqueueWon (history : List (Fin n × Event α)) (t : Fin n) (p : ℕ)
    (v : α) :
    values (history ++ [(t, .enqueueWon p v)]) = values history ++ [v] := by
  rw [values, enqueueWins_append, List.map_append]
  rfl

theorem view_move (s : System α n) (t : Fin n) {events : List (Event α)}
    (hdequeue : q'.dequeuePos = s.queue.dequeuePos)
    (hvalues : values (s.history ++ events.map fun e ↦ (t, e)) = values s.history) :
    (s.move t (q', pc', events)).view =
      (s.items, Function.update s.statuses t (pc'.status (values s.history))) := by
  refine Prod.ext ?_ (funext fun u ↦ ?_)
  · simp only [System.view, System.items, System.move, hvalues, hdequeue]
  · simp only [System.view, System.statuses, System.move, hvalues]
    exact Function.apply_update (fun _ (pc : Pc α) ↦ pc.status (values s.history)) s.threads t pc' u

/-- The book-keeping follows a step to `next` of the thread `t`. -/
def Followed (capacity : ℕ) (s : System α n) (t : Fin n)
    (next : Queue α × Pc α × List (Event α)) : Prop :=
  Moves (boundedSpec α capacity) s.view (returns t next.2.2) (s.move t next).view

private theorem followed_quiet (hdequeue : q'.dequeuePos = s.queue.dequeuePos)
    (ht : s.threads t = pc) (hsame : pc'.status (values s.history) = pc.status (values s.history)) :
    Followed capacity s t (q', pc', []) := by
  rw [Followed, view_move s t hdequeue (by rw [List.map_nil, List.append_nil]), hsame, ← ht]
  rw [show (s.threads t).status (values s.history) = s.statuses t from rfl,
    Function.update_eq_self]
  exact .refl

theorem followed_cell (hdequeue : q'.dequeuePos = s.queue.dequeuePos) (ht : s.threads t = pc)
    (hevent : event.isQuiet = true) (hreturns : returns t [event] = [])
    (hsame : pc'.status (values s.history) = pc.status (values s.history)) :
    Followed capacity s t (q', pc', [event]) := by
  have hvalues : values (s.history ++ [event].map fun e ↦ (t, e)) = values s.history := by
    refine values_concat_of_ne s.history t fun p v heq ↦ ?_
    rw [heq] at hevent
    cases hevent
  rw [Followed, view_move s t hdequeue hvalues, hsame, ← ht, hreturns]
  rw [show (s.threads t).status (values s.history) = s.statuses t from rfl,
    Function.update_eq_self]
  exact .refl

theorem followed_return {c : Call α} {ticket : Option ℕ} {result : Result α}
    (hdequeue : q'.dequeuePos = s.queue.dequeuePos)
    (ht : s.statuses t = .effective result) :
    Followed capacity s t (q', .idle, [.returned c ticket result]) := by
  rw [Followed, view_move s t hdequeue (values_concat_returned ..)]
  exact Moves.refl.ret ht

theorem followed_fail {c : Call α} {ticket : Option ℕ} {result : Result α}
    (hdequeue : q'.dequeuePos = s.queue.dequeuePos) (ht : s.statuses t = .pending c)
    (hspec : BoundedStep capacity s.items c result s.items) :
    Followed capacity s t (q', .idle, [.returned c ticket result]) := by
  rw [Followed, view_move s t hdequeue (values_concat_returned ..)]
  have heffect : Moves (boundedSpec α capacity) s.view []
      (s.items, Function.update s.statuses t (.effective result)) := Moves.refl.effect ht hspec
  have hret := heffect.ret (t := t) (Function.update_self ..)
  rwa [Function.update_idem] at hret

/-- A ticket won by a `tryPush`: the value is added. -/
theorem followed_enqueueWon (h : Inv capacity s) {v : α} {p : ℕ}
    (hdequeue : q'.dequeuePos = s.queue.dequeuePos) (ht : s.statuses t = .pending (.tryPush v))
    (hroom : s.queue.enqueuePos < s.queue.dequeuePos + capacity)
    (hpc : ∀ values, pc'.status values = .effective (.pushed true)) :
    Followed capacity s t (q', pc', [.enqueueWon p v]) := by
  have hlength : s.items.length = s.queue.enqueuePos - s.queue.dequeuePos := by
    rw [System.items, List.length_drop, h.length_values]
  have hdrop : s.queue.dequeuePos ≤ (values s.history).length := by
    rw [h.length_values]
    exact h.dequeue_le
  have hview : (s.move t (q', pc', [.enqueueWon p v])).view =
      (s.items ++ [v], Function.update s.statuses t (.effective (.pushed true))) := by
    refine Prod.ext ?_ (funext fun u ↦ ?_)
    · simp only [System.view, System.items, System.move, List.map_cons, List.map_nil,
        values_concat_enqueueWon, hdequeue]
      exact List.drop_append_of_le_length hdrop
    · simp only [System.view, System.statuses, System.move, List.map_cons, List.map_nil,
        values_concat_enqueueWon]
      by_cases hut : u = t
      · rw [hut, Function.update_self, Function.update_self, hpc]
      · rw [Function.update_of_ne hut, Function.update_of_ne hut]
        exact status_append (h.ok u) v
  rw [Followed, hview]
  refine Moves.refl.effect ht (BoundedStep.push ?_)
  have := h.dequeue_le
  omega

/-- A ticket won by a `tryPop`: the oldest value is taken out. -/
theorem followed_dequeueWon (h : Inv capacity s)
    (hdequeue : q'.dequeuePos = s.queue.dequeuePos + 1) (ht : s.statuses t = .pending .tryPop)
    (hsome : s.queue.dequeuePos < s.queue.enqueuePos) :
    Followed capacity s t
      (q', .popMove s.queue.dequeuePos, [.dequeueWon s.queue.dequeuePos]) := by
  have hlt : s.queue.dequeuePos < (values s.history).length := by
    rwa [h.length_values]
  have hvalues : values (s.history ++ [(t, .dequeueWon s.queue.dequeuePos)]) =
      values s.history := values_concat_of_ne s.history t fun _ _ heq ↦ by cases heq
  have hview : (s.move t (q', .popMove s.queue.dequeuePos,
      [.dequeueWon s.queue.dequeuePos])).view =
      ((values s.history).drop (s.queue.dequeuePos + 1),
        Function.update s.statuses t
          (.effective (.popped (values s.history)[s.queue.dequeuePos]))) := by
    refine Prod.ext ?_ (funext fun u ↦ ?_)
    · simp only [System.view, System.items, System.move, List.map_cons, List.map_nil, hvalues,
        hdequeue]
    · simp only [System.view, System.statuses, System.move, List.map_cons, List.map_nil, hvalues]
      by_cases hut : u = t
      · rw [hut, Function.update_self, Function.update_self, Pc.status, valueAt,
          List.getElem?_eq_getElem hlt]
      · rw [Function.update_of_ne hut, Function.update_of_ne hut]
        rfl
  rw [Followed, hview, System.view, System.items, List.drop_eq_getElem_cons hlt]
  exact Moves.refl.effect ht BoundedStep.pop

theorem followed_threadStep (h : Inv capacity s) (h' : Inv capacity s') {spurious : Bool}
    (hs' : s' = s.move t (threadStep .unbounded s.queue spurious (s.threads t))) :
    Followed capacity s t (threadStep .unbounded s.queue spurious (s.threads t)) := by
  have hok := h.ok t
  have hstatus : s.statuses t = (s.threads t).status (values s.history) := rfl
  generalize ht : s.threads t = pc at *
  cases pc with
  | idle => exact followed_quiet rfl ht rfl
  | pushLoadClosed v =>
    rw [threadStep]
    split <;> exact followed_quiet rfl ht rfl
  | pushCountClosed v | pushLoadPos v | popLoadPos => exact followed_quiet rfl ht rfl
  | pushCountFailed v => exact followed_fail rfl hstatus .pushFails
  | pushLoadSequence v p | popLoadSequence p =>
    simp only [threadStep]
    split
    · exact followed_quiet rfl ht rfl
    · split <;> exact followed_quiet rfl ht rfl
  | pushCas v p =>
    rw [threadStep] at hs' ⊢
    split
    · rename_i hwon
      rw [if_pos hwon] at hs'
      obtain ⟨rfl, -⟩ := hwon
      refine followed_enqueueWon h rfl hstatus ?_ fun _ ↦ rfl
      have hle := h'.enqueue_le
      rw [hs'] at hle
      exact hle
    · exact followed_quiet rfl ht rfl
  | pushConstruct v p => exact followed_cell rfl ht rfl rfl rfl
  | pushPublish v p => exact followed_quiet rfl ht rfl
  | pushCount v p => exact followed_return rfl hstatus
  | popCas p =>
    rw [threadStep] at hs' ⊢
    split
    · rename_i hwon
      rw [if_pos hwon] at hs'
      obtain ⟨rfl, -⟩ := hwon
      refine followed_dequeueWon h rfl hstatus ?_
      have hle := h'.dequeue_le
      rw [hs'] at hle
      exact hle
    · exact followed_quiet rfl ht rfl
  | popCountFailed => exact followed_fail rfl hstatus .popFails
  | popMove p => exact followed_cell rfl ht rfl rfl rfl
  | popDestroy p r | popRelease p r => exact followed_quiet rfl ht rfl
  | popCount p r =>
    -- the result that was moved out of the cell is the value of the ticket
    obtain ⟨v, rfl, hvalue⟩ := hok
    refine followed_return rfl (hstatus.trans ?_)
    rw [Pc.status, valueAt, hvalue]
    rfl
  | closeStore => exact followed_fail rfl hstatus .close

/-- **The queue is linearizable.** For every capacity of at least two, any number of threads and any
interleaving of their accesses, the calls and returns are those of a queue of at most `capacity`
values, first in first out, whose calls come one after the other, each of them between its call and
its return. The counters do not wrap around here, which is so for fewer than `2 ^ 63` operations. -/
theorem queue_linearizable (hcap : 2 ≤ capacity) {labels : List (Action α n)}
    (hrun : (machine .unbounded α capacity n).run (machine .unbounded α capacity n).init labels =
      some s) :
    Linearizable (boundedSpec α capacity)
      ((machine .unbounded α capacity n).outputs System.clientEvents
        (machine .unbounded α capacity n).init labels) := by
  refine Linearizability.linearizable_of_simulation (R := fun s items statuses ↦
    (items, statuses) = s.view) hrun rfl ?_
  rintro u items statuses a v hu hview huv
  rw [hview]
  refine ⟨v.view.1, v.view.2, ?_, rfl⟩
  have hI := inv_of_reachable hcap hu
  have hI' := inv_step hI hcap huv
  have hstep : u.step .unbounded a = some v := huv
  cases a with
  | call t c =>
    rw [System.step, Option.ite_none_right_eq_some, Option.some.injEq] at hstep
    obtain ⟨hidle, rfl⟩ := hstep
    have hstatus : u.statuses t = .idle := by
      rw [System.statuses, Pc.isIdle_iff.mp hidle]
      rfl
    have hmoves : Moves (boundedSpec α capacity) u.view [.call t c]
      (u.items, Function.update u.statuses t (.pending c)) := Moves.refl.call c hstatus
    have hmoved : (u.move t (u.queue, c.entry, [])).view =
        (u.items, Function.update u.statuses t (c.entry.status (values u.history))) :=
      view_move u t rfl (by rw [List.map_nil, List.append_nil])
    have hentry : (c.entry).status (values u.history) = .pending c := by
      cases c <;> rfl
    rw [hentry] at hmoved
    rw [← hmoved] at hmoves
    exact hmoves
  | step t spurious =>
    rw [System.step, Option.ite_none_left_eq_some, Option.some.injEq] at hstep
    obtain ⟨-, rfl⟩ := hstep
    exact followed_threadStep hI hI' rfl

end Steps

/-- A `tryPush` has won its ticket and not returned when a `tryPop` takes its value and returns. -/
theorem queue_linearizable_overtaken : Linearizable (boundedSpec ℕ 2)
    [.call (0 : Fin 2) (.tryPush 5), .call 1 .tryPop, .ret 1 (.popped 5),
      .ret 0 (.pushed true)] := by
  let M := machine .unbounded ℕ 2 2
  let labels : List (Action ℕ 2) :=
    [.call 0 (.tryPush 5)] ++ List.replicate 6 (.step 0 false) ++ [.call 1 .tryPop] ++
      List.replicate 7 (.step 1 false) ++ [.step 0 false]
  have hrun : (M.run M.init labels).isSome = true := by decide +kernel
  obtain ⟨s, hs⟩ := Option.isSome_iff_exists.mp hrun
  have houtputs : M.outputs System.clientEvents M.init labels =
      [.call 0 (.tryPush 5), .call 1 .tryPop, .ret 1 (.popped 5), .ret 0 (.pushed true)] := by
    decide +kernel
  rw [← houtputs]
  exact queue_linearizable le_rfl hs

end LockFreeQueue

end FoundationComponents
