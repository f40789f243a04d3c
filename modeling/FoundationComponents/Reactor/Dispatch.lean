import FoundationComponents.Machine.Basic
import FoundationComponents.Reactor.Watchers

/-!
# Removal and dispatch

`runOnce` copies the callbacks of all ready descriptors under the mutex and then runs the copies one
after another without it. So a callback of the batch that removes a descriptor whose own callback
comes later in the same batch does not stop that callback: `remove` returns true, and the copy is
run all the same.

A registration is identified by the number of `add` calls before it, so that a descriptor that is
removed and added again has a new one. The machine runs any number of `runOnce` calls. Callbacks do
whatever they like with the table, and so may other threads at any time; `add`, `modify` and
`remove` run under the mutex and are single steps, and so is the copying.

If no callback removes a registration that is still waiting in the batch, a registration removed by
a callback is never dispatched again.
-/

namespace FoundationComponents

namespace Reactor

/-! ## The machine

A copy carries the number of its registration, and so does what is observed of a removal and of an
invocation. Without it a descriptor that is added again could not be told from the old one. -/

/-- A call of a callback or of another thread. -/
inductive Op
  | add (fd : ℤ) (events : UInt32)
  | modify (fd : ℤ) (events : UInt32)
  | remove (fd : ℤ)
  deriving Repr, DecidableEq

/-- What is observed of callbacks: that one is invoked, and that one of them received true from the
`remove` of a registration. -/
inductive Observation
  | invoked (registration : ℕ)
  | removed (registration : ℕ)
  deriving Repr, DecidableEq

/-- The table, the number of `add` calls so far, the copies of the current batch that have not been
run yet, whether a callback is running, and the observations, oldest first. -/
structure System where
  table : Table ℕ
  registered : ℕ
  pending : List (Dispatch ℕ)
  running : Bool
  history : List Observation

/-- `epoll_wait` returns a batch and its callbacks are copied; the next callback starts; it returns,
or throws out of `runOnce`; a callback (`byCallback`) or another thread calls an operation; someone
closes a descriptor. -/
inductive Action
  | runOnce (ready : List (ℤ × UInt32))
  | invoke
  | finish
  | throw
  | call (byCallback : Bool) (op : Op) (fault : Option Errno)
  | close (fd : ℤ)
  deriving Repr, DecidableEq

namespace System

variable (kind : Kind) (s : System)

/-- An operation on the table. A successful `remove` by a callback is recorded with the registration
it removed. -/
def perform (byCallback : Bool) (fault : Option Errno) : Op → System
  | .add fd events =>
      { s with
        table := (s.table.add kind fault fd events (some s.registered)).2
        registered := s.registered + 1 }
  | .modify fd events => { s with table := (s.table.modify kind fault fd events).2 }
  | .remove fd =>
      { s with
        table := (s.table.remove kind fault fd).2
        history := s.history ++
          if byCallback && Table.returnedTrue (s.table.remove kind fault fd).1 then
            (s.table.watchers fd).toList.map fun watcher ↦ Observation.removed watcher.callback
          else [] }

def step : Action → Option System
  | .runOnce ready =>
      if s.running = false ∧ s.pending = [] then
        some { s with table := (s.table.collect ready).1, pending := (s.table.collect ready).2 }
      else none
  | .invoke =>
      match s.running, s.pending with
      | false, dispatch :: rest =>
          some
            { s with
              pending := rest
              running := true
              history := s.history ++ [.invoked dispatch.callback] }
      | _, _ => none
  | .finish => if s.running then some { s with running := false } else none
  | .throw => if s.running then some { s with running := false, pending := [] } else none
  | .call byCallback op fault =>
      if byCallback = true ∧ s.running = false then none
      else some (s.perform kind byCallback fault op)
  | .close fd => some { s with table := s.table.close fd }

end System

/-- A reactor of the given kind with a new table. -/
def machine (kind : Kind) (wakeFd : ℤ) : Machine System Action where
  init := ⟨.fresh ℕ wakeFd, 0, [], false, []⟩
  step s := s.step kind

/-- No registration is invoked after a callback has received true from its removal. -/
def RemovePreventsDispatch (history : List Observation) : Prop :=
  history.Pairwise fun earlier later ↦
    ∀ registration, earlier = .removed registration → later ≠ .invoked registration

/-! ## Runs in which no waiting callback is removed

The invariant relates the copies that wait to the table they were made from. A copy outlives its
watcher only if the watcher is removed while it waits; where no callback does that, what a callback
has removed is neither in the table nor in the batch. -/

/-- A callback that successfully removes a descriptor does not remove a registration that is still
waiting in the batch. -/
def RemovesNoneWaiting (kind : Kind) (s : System) : Action → Prop
  | .call true (.remove fd) fault =>
      Table.returnedTrue (s.table.remove kind fault fd).1 = true → ∀ dispatch ∈ s.pending,
        some dispatch.callback ≠ (s.table.watchers fd).map Watcher.callback
  | _ => True

instance (kind : Kind) (s : System) (a : Action) : Decidable (RemovesNoneWaiting kind s a) :=
  match a with
  | .call true (.remove fd) fault =>
      inferInstanceAs (Decidable (Table.returnedTrue (s.table.remove kind fault fd).1 = true →
        ∀ dispatch ∈ s.pending,
          some dispatch.callback ≠ (s.table.watchers fd).map Watcher.callback))
  | .call true (.add _ _) _ | .call true (.modify _ _) _ | .call false _ _ => .isTrue trivial
  | .runOnce _ | .invoke | .finish | .throw | .close _ => .isTrue trivial

/-- What the history knows about the table and the batch: registrations are numbered once, and a
registration removed by a callback is neither in the table nor waiting. -/
structure Inv (s : System) : Prop where
  table_lt : ∀ {fd watcher}, s.table.watchers fd = some watcher → watcher.callback < s.registered
  table_inj : ∀ {fd fd' watcher watcher'}, s.table.watchers fd = some watcher →
    s.table.watchers fd' = some watcher' → watcher.callback = watcher'.callback → fd = fd'
  pending_lt : ∀ dispatch ∈ s.pending, dispatch.callback < s.registered
  removed_lt : ∀ {r}, .removed r ∈ s.history → r < s.registered
  removed_table : ∀ {r}, .removed r ∈ s.history → ∀ {fd watcher},
    s.table.watchers fd = some watcher → watcher.callback ≠ r
  removed_pending : ∀ {r}, .removed r ∈ s.history → ∀ dispatch ∈ s.pending, dispatch.callback ≠ r
  prevents : RemovePreventsDispatch s.history

section Inv

variable {kind : Kind} {s s' : System}

private theorem callback_of_map_eq {t t' : Table ℕ}
    (h : ∀ fd, (t'.watchers fd).map Watcher.callback = (t.watchers fd).map Watcher.callback)
    {fd : ℤ} {watcher : Watcher ℕ} (hwatcher : t'.watchers fd = some watcher) :
    ∃ old, t.watchers fd = some old ∧ old.callback = watcher.callback := by
  have hmap := h fd
  rw [hwatcher, Option.map_some, eq_comm, Option.map_eq_some_iff] at hmap
  exact hmap

theorem inv_sameCallbacks (h : Inv s) {t : Table ℕ}
    (ht : ∀ fd, (t.watchers fd).map Watcher.callback = (s.table.watchers fd).map Watcher.callback) :
    Inv { s with table := t } where
  table_lt hwatcher := by
    obtain ⟨old, hold, heq⟩ := callback_of_map_eq ht hwatcher
    rw [← heq]
    exact h.table_lt hold
  table_inj hwatcher hwatcher' hsame := by
    obtain ⟨old, hold, heq⟩ := callback_of_map_eq ht hwatcher
    obtain ⟨old', hold', heq'⟩ := callback_of_map_eq ht hwatcher'
    exact h.table_inj hold hold' (by rw [heq, heq', hsame])
  pending_lt := h.pending_lt
  removed_lt := h.removed_lt
  removed_table hr _ _ hwatcher := by
    obtain ⟨old, hold, heq⟩ := callback_of_map_eq ht hwatcher
    rw [← heq]
    exact h.removed_table hr hold
  removed_pending := h.removed_pending
  prevents := h.prevents

theorem inv_runOnce (h : Inv s) (ready : List (ℤ × UInt32)) :
    Inv { s with table := (s.table.collect ready).1, pending := (s.table.collect ready).2 } := by
  obtain ⟨htable, hcopies⟩ := Table.collect_spec s.table ready
  have htable' := inv_sameCallbacks h (t := (s.table.collect ready).1) fun fd ↦ by rw [htable]
  refine ⟨htable'.table_lt, htable'.table_inj, ?_, h.removed_lt, htable'.removed_table, ?_,
    h.prevents⟩
  · intro dispatch hdispatch
    obtain ⟨watcher, hwatcher, heq⟩ := hcopies dispatch hdispatch
    rw [← heq]
    exact h.table_lt hwatcher
  · intro r hr dispatch hdispatch
    obtain ⟨watcher, hwatcher, heq⟩ := hcopies dispatch hdispatch
    rw [← heq]
    exact h.removed_table hr hwatcher

theorem inv_invoke (h : Inv s) {dispatch : Dispatch ℕ} {rest : List (Dispatch ℕ)}
    (hpending : s.pending = dispatch :: rest) :
    Inv { s with
      pending := rest, running := true, history := s.history ++ [.invoked dispatch.callback] } := by
  have hmem : ∀ d ∈ rest, d ∈ s.pending := by
    intro d hd
    rw [hpending]
    exact List.mem_cons_of_mem _ hd
  have hremoved : ∀ {r}, .removed r ∈ s.history ++ [.invoked dispatch.callback] →
      .removed r ∈ s.history := by
    intro r hr
    rcases List.mem_append.mp hr with hr | hr
    · exact hr
    · cases List.mem_singleton.mp hr
  refine ⟨h.table_lt, h.table_inj, fun d hd ↦ h.pending_lt d (hmem d hd),
    fun hr ↦ h.removed_lt (hremoved hr), fun hr ↦ h.removed_table (hremoved hr),
    fun hr d hd ↦ h.removed_pending (hremoved hr) d (hmem d hd), ?_⟩
  refine List.pairwise_append.mpr ⟨h.prevents, List.pairwise_singleton _ _, ?_⟩
  rintro earlier hearlier later hlater r rfl
  have hne := h.removed_pending hearlier dispatch (by rw [hpending]; exact List.mem_cons_self)
  rw [List.mem_singleton.mp hlater]
  intro heq
  exact hne (Observation.invoked.inj heq)

theorem inv_drop (h : Inv s) (running : Bool) {pending : List (Dispatch ℕ)}
    (hsub : ∀ dispatch ∈ pending, dispatch ∈ s.pending) :
    Inv { s with running := running, pending := pending } :=
  ⟨h.table_lt, h.table_inj, fun d hd ↦ h.pending_lt d (hsub d hd), h.removed_lt, h.removed_table,
    fun hr d hd ↦ h.removed_pending hr d (hsub d hd), h.prevents⟩

theorem inv_add (h : Inv s) (fault : Option Errno) (fd : ℤ) (events : UInt32) :
    Inv { s with
      table := (s.table.add kind fault fd events (some s.registered)).2
      registered := s.registered + 1 } := by
  rcases Table.add_cases kind s.table fault fd events (some s.registered) with
    ⟨callback, hcallback, -, -, hwatchers⟩ | ⟨e, herror⟩
  · obtain rfl := Option.some.inj hcallback
    -- a watcher afterwards is an old one, or the new one
    have hcases : ∀ {fd' watcher}, (s.table.add kind fault fd events
        (some s.registered)).2.watchers fd' = some watcher →
        fd' = fd ∧ watcher.callback = s.registered ∨
          s.table.watchers fd' = some watcher ∧ watcher.callback < s.registered := by
      intro fd' watcher hwatcher
      rw [hwatchers] at hwatcher
      by_cases hfd : fd' = fd
      · rw [hfd, Function.update_self, Option.some.injEq] at hwatcher
        exact Or.inl ⟨hfd, by rw [← hwatcher]⟩
      · rw [Function.update_of_ne hfd] at hwatcher
        exact Or.inr ⟨hwatcher, h.table_lt hwatcher⟩
    refine ⟨?_, ?_, fun d hd ↦ Nat.lt_succ_of_lt (h.pending_lt d hd),
      fun hr ↦ Nat.lt_succ_of_lt (h.removed_lt hr), ?_, h.removed_pending, h.prevents⟩
    · intro fd' watcher hwatcher
      rcases hcases hwatcher with ⟨-, heq⟩ | ⟨-, hlt⟩
      · rw [heq]
        exact Nat.lt_succ_self _
      · exact Nat.lt_succ_of_lt hlt
    · intro fd₁ fd₂ watcher₁ watcher₂ hwatcher₁ hwatcher₂ hsame
      rcases hcases hwatcher₁ with ⟨rfl, heq₁⟩ | ⟨hold₁, hlt₁⟩ <;>
        rcases hcases hwatcher₂ with ⟨rfl, heq₂⟩ | ⟨hold₂, hlt₂⟩
      · rfl
      · omega
      · omega
      · exact h.table_inj hold₁ hold₂ hsame
    · intro r hr fd' watcher hwatcher
      rcases hcases hwatcher with ⟨-, heq⟩ | ⟨hold, -⟩
      · rw [heq]
        exact Nat.ne_of_gt (h.removed_lt hr)
      · exact h.removed_table hr hold
  · rw [herror]
    exact ⟨fun hw ↦ Nat.lt_succ_of_lt (h.table_lt hw), h.table_inj,
      fun d hd ↦ Nat.lt_succ_of_lt (h.pending_lt d hd),
      fun hr ↦ Nat.lt_succ_of_lt (h.removed_lt hr),
      h.removed_table, h.removed_pending, h.prevents⟩

theorem inv_remove (h : Inv s) (fault : Option Errno) (fd : ℤ) :
    Inv { s with table := (s.table.remove kind fault fd).2 } := by
  have hold : ∀ {fd' watcher}, (s.table.remove kind fault fd).2.watchers fd' = some watcher →
      s.table.watchers fd' = some watcher := by
    intro fd' watcher hwatcher
    rw [Table.remove_watchers] at hwatcher
    by_cases hfd : fd' = fd
    · rw [hfd, Function.update_self] at hwatcher
      cases hwatcher
    · rwa [Function.update_of_ne hfd] at hwatcher
  exact ⟨fun hw ↦ h.table_lt (hold hw), fun hw hw' ↦ h.table_inj (hold hw) (hold hw'),
    h.pending_lt, h.removed_lt, fun hr _ _ hw ↦ h.removed_table hr (hold hw), h.removed_pending,
    h.prevents⟩

/-- The registration a callback removes was in the table under this descriptor only, and by
assumption is not waiting. -/
theorem inv_removed (h : Inv s) {fault : Option Errno} {fd : ℤ} {watcher : Watcher ℕ}
    (hwatcher : s.table.watchers fd = some watcher)
    (hwaiting : ∀ dispatch ∈ s.pending, dispatch.callback ≠ watcher.callback) :
    Inv { s with
      table := (s.table.remove kind fault fd).2
      history := s.history ++ [.removed watcher.callback] } := by
  have hremove : Inv { s with table := (s.table.remove kind fault fd).2 } := inv_remove h fault fd
  have hcases : ∀ {r}, .removed r ∈ s.history ++ [.removed watcher.callback] →
      .removed r ∈ s.history ∨ r = watcher.callback := by
    intro r hr
    rcases List.mem_append.mp hr with hr | hr
    · exact Or.inl hr
    · exact Or.inr (Observation.removed.inj (List.mem_singleton.mp hr))
  refine ⟨hremove.table_lt, hremove.table_inj, h.pending_lt, ?_, ?_, ?_, ?_⟩
  · intro r hr
    rcases hcases hr with hr | rfl
    · exact h.removed_lt hr
    · exact h.table_lt hwatcher
  · intro r hr fd' other hother
    rcases hcases hr with hr | rfl
    · exact hremove.removed_table hr hother
    · dsimp only at hother
      rw [Table.remove_watchers] at hother
      by_cases hfd : fd' = fd
      · rw [hfd, Function.update_self] at hother
        cases hother
      · rw [Function.update_of_ne hfd] at hother
        exact fun hsame ↦ hfd (h.table_inj hother hwatcher hsame)
  · intro r hr dispatch hdispatch
    rcases hcases hr with hr | rfl
    · exact h.removed_pending hr dispatch hdispatch
    · exact hwaiting dispatch hdispatch
  · refine List.pairwise_append.mpr ⟨h.prevents, List.pairwise_singleton _ _, ?_⟩
    intro earlier _ later hlater r _
    rw [List.mem_singleton.mp hlater]
    exact Observation.noConfusion

theorem inv_perform (h : Inv s) {byCallback : Bool} {op : Op} {fault : Option Errno}
    (hguard : RemovesNoneWaiting kind s (.call byCallback op fault)) :
    Inv (s.perform kind byCallback fault op) := by
  cases op with
  | add fd events => exact inv_add h fault fd events
  | modify fd events =>
    exact inv_sameCallbacks h (Table.modify_watchers kind s.table fault fd events)
  | remove fd =>
    rw [System.perform]
    split
    · rename_i hremoved
      obtain ⟨rfl, htrue⟩ := Bool.and_eq_true_iff.mp hremoved
      obtain ⟨watcher, hwatcher⟩ := Table.exists_of_remove htrue
      rw [hwatcher]
      refine inv_removed h hwatcher fun dispatch hdispatch hsame ↦ ?_
      refine hguard htrue dispatch hdispatch ?_
      rw [hwatcher, hsame]
      rfl
    · rw [List.append_nil]
      exact inv_remove h fault fd

theorem inv_step {a : Action} (h : Inv s) (hguard : RemovesNoneWaiting kind s a)
    (hstep : s.step kind a = some s') : Inv s' := by
  cases a with
  | runOnce ready =>
    simp only [System.step] at hstep
    split at hstep
    · obtain rfl := Option.some.inj hstep
      exact inv_runOnce h ready
    · cases hstep
  | invoke =>
    simp only [System.step] at hstep
    split at hstep
    · rename_i hpending
      obtain rfl := Option.some.inj hstep
      exact inv_invoke h hpending
    · cases hstep
  | finish =>
    simp only [System.step] at hstep
    split at hstep
    · obtain rfl := Option.some.inj hstep
      exact inv_drop h false fun _ hd ↦ hd
    · cases hstep
  | throw =>
    simp only [System.step] at hstep
    split at hstep
    · obtain rfl := Option.some.inj hstep
      exact inv_drop h false fun _ hd ↦ by cases hd
    · cases hstep
  | call byCallback op fault =>
    simp only [System.step] at hstep
    split at hstep
    · cases hstep
    · obtain rfl := Option.some.inj hstep
      exact inv_perform h hguard
  | close fd =>
    obtain rfl := Option.some.inj hstep
    exact inv_sameCallbacks h fun _ ↦ rfl

theorem inv_init (kind : Kind) (wakeFd : ℤ) : Inv (machine kind wakeFd).init where
  table_lt hwatcher := by cases hwatcher
  table_inj hwatcher := by cases hwatcher
  pending_lt _ hdispatch := by cases hdispatch
  removed_lt hr := by cases hr
  removed_table hr := by cases hr
  removed_pending hr := by cases hr
  prevents := List.Pairwise.nil

/-- **Removal prevents dispatch, where it hits no waiting callback.** For both kinds of reactor, in
every run in which no callback removes a registration that is still waiting in the current batch, a
registration that a callback removed is never invoked afterwards. -/
theorem removePreventsDispatch_of_removesNoneWaiting {wakeFd : ℤ}
    (h : (machine kind wakeFd).ReachableWhen (RemovesNoneWaiting kind) s) :
    RemovePreventsDispatch s.history := by
  have hinv : Inv s :=
    Machine.Leads.invariant h (inv_init kind wakeFd) fun hs hC hstep ↦ inv_step hs hC hstep
  exact hinv.prevents

end Inv

/-- The callback of descriptor 5 removes the idle descriptor 6 and adds it again; the next batch
runs the new registration of 6 only. -/
theorem removePreventsDispatch_of_removesNoneWaiting_readded :
    ∃ s, (machine .epollReactor 3).ReachableWhen (RemovesNoneWaiting .epollReactor) s ∧
      s.history = [.invoked 0, .removed 1, .invoked 2] ∧ RemovePreventsDispatch s.history := by
  obtain ⟨s, hs, hhistory⟩ := Machine.exists_reachableWhen_of_run (M := machine .epollReactor 3)
    (C := RemovesNoneWaiting .epollReactor) System.history
    [.call false (.add 5 eventRead) none, .call false (.add 6 eventRead) none,
      .runOnce [(5, EPOLLIN)], .invoke, .call true (.remove 6) none,
      .call true (.add 6 eventWrite) none, .finish, .runOnce [(6, EPOLLOUT)], .invoke]
    (b := [.invoked 0, .removed 1, .invoked 2]) (by decide +kernel)
  exact ⟨s, hs, hhistory, removePreventsDispatch_of_removesNoneWaiting hs⟩

/-- Descriptors 5 and 6 are ready in one batch and the callback of 5 removes 6: the `remove` returns
true and the callback of 6 is run nevertheless. -/
theorem exists_dispatch_after_remove (kind : Kind) :
    ∃ s, (machine kind 3).Reachable s ∧ ¬ RemovePreventsDispatch s.history := by
  obtain ⟨s, hs, hhistory⟩ := Machine.exists_reachable_of_run (M := machine kind 3) System.history
    [.call false (.add 5 eventRead) none, .call false (.add 6 eventRead) none,
      .runOnce [(5, EPOLLIN), (6, EPOLLIN)], .invoke, .call true (.remove 6) none, .finish, .invoke]
    (b := [.invoked 0, .removed 1, .invoked 1]) (by cases kind <;> decide +kernel)
  refine ⟨s, hs, ?_⟩
  rw [hhistory]
  intro hprevents
  have hlast := (List.pairwise_cons.mp (List.pairwise_cons.mp hprevents).2).1
  exact hlast (.invoked 1) List.mem_cons_self 1 rfl rfl

/-- Neither kind of reactor prevents the dispatch of removed registrations in all runs. -/
theorem not_removePreventsDispatch :
    (¬ ∀ s, (machine .epollReactor 3).Reachable s → RemovePreventsDispatch s.history) ∧
      ¬ ∀ s, (machine .eventLoop 3).Reachable s → RemovePreventsDispatch s.history := by
  obtain ⟨s, hs, hviolated⟩ := exists_dispatch_after_remove .epollReactor
  obtain ⟨s', hs', hviolated'⟩ := exists_dispatch_after_remove .eventLoop
  exact ⟨fun h ↦ hviolated (h s hs), fun h ↦ hviolated' (h s' hs')⟩

end Reactor

end FoundationComponents
