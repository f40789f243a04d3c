import FoundationComponents.MultiThreadReactor.Owners

/-!
# Calls that do not overlap

When one call ends before the next one begins, the owner map and the tables of all loops are two
views of one thing: which loop and which watcher a descriptor is registered with. A call changes
this as a whole or not at all. In between its sections the owner of its own descriptor is ahead of
the tables, in an `add` because it has been claimed already and in a `remove` because it has been
erased already, and everything else is as it was.

`epoll_ctl` may fail at any time. An `add` or `modify` then takes back what it did; a `remove` does
not, its descriptor is gone whether it throws or not.
-/

namespace FoundationComponents

namespace MultiThreadReactor

open Reactor

variable {κ : Type*} {m n : ℕ}

/-! ## Registrations

In between its two sections a call has changed one of the two tables ahead of the other. -/

/-- What is registered: for every descriptor its loop and its watcher. -/
abbrev Registrations (κ : Type*) (m : ℕ) := ℤ → Option (Fin m × Watcher κ)

/-- What the table of a loop has for a descriptor. -/
def watcherAt (loop : Fin m) (entry : Option (Fin m × Watcher κ)) : Option (Watcher κ) :=
  entry.bind fun entry ↦ if entry.1 = loop then some entry.2 else none

/-- The owner map and the tables are those of the registrations. -/
structure Represents (f : Registrations κ m) (s : State κ m) : Prop where
  owners : ∀ fd, s.owners fd = (f fd).map Prod.fst
  watchers : ∀ loop fd, (s.loops loop).watchers fd = watcherAt loop (f fd)

/-- The same, but the owner of one descriptor has been changed to `owner` already. -/
def Ahead (f : Registrations κ m) (fd : ℤ) (owner : Option (Fin m)) (s : State κ m) : Prop :=
  ∃ owners, s.owners = Function.update owners fd owner ∧ Represents f { s with owners := owners }

/-- What a call does to the registrations, by its reply. -/
inductive Outcome (f : Registrations κ m) : Call κ → Reply m → Registrations κ m → Prop
  | start {reply} : Outcome f .start reply f
  | stop {reply} : Outcome f .stop reply f
  | added {fd events callback loop} : f fd = none →
      Outcome f (.add fd events (some callback)) (.added loop)
        (Function.update f fd (some (loop, ⟨events, callback⟩)))
  | addThrew {fd events callback e} : Outcome f (.add fd events callback) (.threw e) f
  | modified {fd events loop watcher} : f fd = some (loop, watcher) →
      Outcome f (.modify fd events) .done
        (Function.update f fd (some (loop, { watcher with events := events })))
  | modifyThrew {fd events e} : Outcome f (.modify fd events) (.threw e) f
  | absent {fd} : f fd = none → Outcome f (.remove fd) (.removed false) f
  | removed {fd loop watcher} : f fd = some (loop, watcher) →
      Outcome f (.remove fd) (.removed true) (Function.update f fd none)
  | removeThrew {fd loop watcher e} : f fd = some (loop, watcher) →
      Outcome f (.remove fd) (.threw e) (Function.update f fd none)

section Registrations

variable {f : Registrations κ m} {s s' : State κ m} {fd : ℤ} {loop : Fin m}
  {owner : Option (Fin m)}

private theorem watcherAt_map (loop : Fin m) (watcher : Option (Watcher κ)) :
    watcherAt loop (watcher.map (Prod.mk loop)) = watcher := by
  cases watcher with
  | none => rfl
  | some watcher => exact if_pos rfl

private theorem watcherAt_map_of_ne {loop loop' : Fin m} (h : loop ≠ loop')
    (watcher : Option (Watcher κ)) :
    watcherAt loop' (watcher.map (Prod.mk loop)) = none := by
  cases watcher with
  | none => rfl
  | some watcher => exact if_neg h

theorem Represents.exists_of_owner (h : Represents f s) (howner : s.owners fd = some loop) :
    ∃ watcher, f fd = some (loop, watcher) := by
  rw [h.owners, Option.map_eq_some_iff] at howner
  obtain ⟨⟨_, watcher⟩, hentry, rfl⟩ := howner
  exact ⟨watcher, hentry⟩

theorem Represents.free_of_owner (h : Represents f s) (howner : s.owners fd = none) :
    f fd = none := by
  rwa [h.owners, Option.map_eq_none_iff] at howner

theorem callback_of_checkAdd {callback : Option κ} {callback' : κ}
    (h : s.checkAdd fd callback = .ok callback') : callback = some callback' := by
  simp only [State.checkAdd] at h
  split at h
  · cases h
  split at h
  · cases h
  split at h
  · obtain rfl := Except.ok.inj h
    rfl
  · cases h

theorem Represents.congr (h : Represents f s) (howners : s'.owners = s.owners)
    (hwatchers : ∀ loop, (s'.loops loop).watchers = (s.loops loop).watchers) :
    Represents f s' := by
  refine ⟨fun fd ↦ ?_, fun loop fd ↦ ?_⟩
  · rw [howners, h.owners]
  · rw [hwatchers, h.watchers]

theorem Ahead.congr (h : Ahead f fd owner s) (howners : s'.owners = s.owners)
    (hwatchers : ∀ loop, (s'.loops loop).watchers = (s.loops loop).watchers) :
    Ahead f fd owner s' := by
  obtain ⟨owners, hahead, hf⟩ := h
  exact ⟨owners, howners.trans hahead, hf.congr rfl hwatchers⟩

theorem Represents.ahead (h : Represents f s) (howner : s.owners fd = owner) :
    Ahead f fd owner s :=
  ⟨s.owners, by rw [← howner, Function.update_eq_self], h⟩

theorem Ahead.watchers_eq (h : Ahead f fd owner s) {watcher : Watcher κ}
    (hentry : f fd = some (loop, watcher)) : (s.loops loop).watchers fd = some watcher := by
  obtain ⟨owners, -, hf⟩ := h
  rw [hf.watchers loop fd, hentry]
  exact if_pos rfl

theorem Ahead.eraseOwner (h : Ahead f fd owner s) (hfree : f fd = none) :
    Represents f (s.eraseOwner fd) := by
  obtain ⟨owners, hahead, hf⟩ := h
  have hnone : owners fd = none := by
    have howner := hf.owners fd
    rwa [hfree] at howner
  refine hf.congr ?_ fun _ ↦ rfl
  rw [State.eraseOwner]
  dsimp only
  rw [hahead, Function.update_idem, ← hnone, Function.update_eq_self]

/-- **The tables catch up.** The table of the one loop that the descriptor is or comes to be
registered with is changed to what the owner map says already. -/
theorem Ahead.setLoop (watcher : Option (Watcher κ)) {table : Table κ}
    (h : Ahead f fd (watcher.map fun _ ↦ loop) s) (hloop : ∀ entry ∈ f fd, entry.1 = loop)
    (htable : table.watchers = Function.update (s.loops loop).watchers fd watcher) :
    Represents (Function.update f fd (watcher.map (Prod.mk loop))) (s.setLoop loop table) := by
  obtain ⟨owners, hahead, hf⟩ := h
  refine ⟨fun fd' ↦ ?_, fun loop' fd' ↦ ?_⟩
  · rw [State.setLoop]
    dsimp only
    rw [hahead]
    by_cases hfd : fd' = fd
    · rw [hfd, Function.update_self, Function.update_self, Option.map_map]
      rfl
    · rw [Function.update_of_ne hfd, Function.update_of_ne hfd]
      exact hf.owners fd'
  · have hold := hf.watchers loop' fd'
    rw [loops_setLoop]
    by_cases hloop' : loop' = loop
    · subst hloop'
      rw [Function.update_self, htable]
      by_cases hfd : fd' = fd
      · rw [hfd, Function.update_self, Function.update_self, watcherAt_map]
      · rw [Function.update_of_ne hfd, Function.update_of_ne hfd]
        exact hold
    · rw [Function.update_of_ne hloop']
      by_cases hfd : fd' = fd
      · subst hfd
        rw [Function.update_self, watcherAt_map_of_ne (Ne.symm hloop')]
        refine hold.trans ?_
        cases hentry : f fd' with
        | none => rfl
        | some entry => exact if_neg fun heq ↦ hloop' (heq.symm.trans (hloop entry hentry))
      · rw [Function.update_of_ne hfd]
        exact hold

theorem Represents.oneLoop (h : Represents f s) : OneLoop s := by
  have hwatched : ∀ {fd loop}, s.watched loop fd = true ↔
      ∃ watcher, f fd = some (loop, watcher) := by
    intro fd loop
    rw [State.watched, h.watchers, watcherAt]
    cases f fd with
    | none =>
      refine iff_of_false Bool.false_ne_true ?_
      rintro ⟨_, heq⟩
      cases heq
    | some entry =>
      obtain ⟨loop', watcher⟩ := entry
      rw [Option.bind_some]
      by_cases hloop : loop' = loop
      · subst hloop
        rw [if_pos rfl]
        exact iff_of_true rfl ⟨watcher, rfl⟩
      · rw [if_neg hloop]
        refine iff_of_false Bool.false_ne_true ?_
        rintro ⟨_, heq⟩
        exact hloop (Prod.mk.inj (Option.some.inj heq)).1
  refine ⟨fun fd loop ↦ ?_, fun fd loop loop' hloop hloop' ↦ ?_⟩
  · rw [hwatched, h.owners, Option.map_eq_some_iff]
    constructor
    · rintro ⟨⟨_, watcher⟩, hentry, rfl⟩
      exact ⟨watcher, hentry⟩
    · rintro ⟨watcher, hentry⟩
      exact ⟨_, hentry, rfl⟩
  · obtain ⟨watcher, hentry⟩ := hwatched.mp hloop
    obtain ⟨watcher', hentry'⟩ := hwatched.mp hloop'
    rw [hentry] at hentry'
    exact (Prod.mk.inj (Option.some.inj hentry')).1

end Registrations

/-! ## The sections of a call -/

/-- Where a call `c` that began on the registrations `f` is, with what it has done so far. -/
def Midway (f : Registrations κ m) (c : Call κ) (s : State κ m) : Pc κ m → Prop
  | .idle => False
  | .starting => c = .start ∧ Represents f s
  | .addIndex fd events callback | .addOwner fd events callback _ =>
      c = .add fd events (some callback) ∧ Represents f s
  | .addLoop fd events callback loop =>
      c = .add fd events (some callback) ∧ f fd = none ∧ Ahead f fd (some loop) s
  | .addRollback fd loop _ =>
      (∃ events callback, c = .add fd events callback) ∧ f fd = none ∧ Ahead f fd (some loop) s
  | .modifyLoop fd events loop =>
      c = .modify fd events ∧ (∃ watcher, f fd = some (loop, watcher)) ∧ Represents f s
  | .removeLoop fd loop =>
      c = .remove fd ∧ (∃ watcher, f fd = some (loop, watcher)) ∧ Ahead f fd none s

/-- What a section of the call leaves. -/
def After (f : Registrations κ m) (c : Call κ) (s : State κ m) : Next κ m → Prop
  | .reply reply => ∃ f', Represents f' s ∧ Outcome f c reply f'
  | .continue pc => Midway f c s pc

section Sections

variable {f : Registrations κ m} {s s' : State κ m} {c : Call κ} {next : Next κ m}

theorem Midway.congr {pc : Pc κ m} (h : Midway f c s pc) (howners : s'.owners = s.owners)
    (hwatchers : ∀ loop, (s'.loops loop).watchers = (s.loops loop).watchers) :
    Midway f c s' pc := by
  cases pc with
  | idle => exact h
  | starting | addIndex _ _ _ | addOwner _ _ _ _ => exact ⟨h.1, h.2.congr howners hwatchers⟩
  | addLoop _ _ _ _ | addRollback _ _ _ | modifyLoop _ _ _ | removeLoop _ _ =>
    exact ⟨h.1, h.2.1, h.2.2.congr howners hwatchers⟩

theorem after_begin (h : Represents f s) (hbegin : s.begin c = some (s', next)) :
    After f c s' next := by
  cases c with
  | start =>
    simp only [State.begin] at hbegin
    split at hbegin
    · cases hbegin
    split at hbegin
    · cases hbegin
      exact ⟨f, h, .start⟩
    split at hbegin
    · cases hbegin
      exact ⟨f, h, .start⟩
    · cases hbegin
      exact ⟨rfl, h.congr rfl fun _ ↦ rfl⟩
  | stop =>
    simp only [State.begin] at hbegin
    split at hbegin
    · cases hbegin
    split at hbegin
    · cases hbegin
      exact ⟨f, h.congr rfl fun _ ↦ rfl, .stop⟩
    · cases hbegin
      exact ⟨f, h, .stop⟩
  | add fd events callback =>
    simp only [State.begin] at hbegin
    split at hbegin
    · cases hbegin
      exact ⟨f, h, .addThrew⟩
    · rename_i callback' hcheck
      cases hbegin
      refine ⟨?_, h⟩
      rw [callback_of_checkAdd hcheck]
  | modify fd events =>
    simp only [State.begin] at hbegin
    split at hbegin
    · cases hbegin
      exact ⟨f, h, .modifyThrew⟩
    · rename_i loop howner
      cases hbegin
      exact ⟨rfl, h.exists_of_owner howner, h⟩
  | remove fd =>
    simp only [State.begin] at hbegin
    split at hbegin
    · rename_i hnone
      cases hbegin
      exact ⟨f, h, .absent (h.free_of_owner hnone)⟩
    · rename_i loop howner
      cases hbegin
      exact ⟨rfl, h.exists_of_owner howner, s.owners, rfl, h⟩

/-- The table is put back as it was. -/
theorem watchers_setLoop_self (loop loop' : Fin m) :
    ((s.setLoop loop (s.loops loop)).loops loop').watchers = (s.loops loop').watchers := by
  rw [loops_setLoop, Function.update_eq_self]

theorem after_advance [NeZero m] {fault : Option Errno} {pc : Pc κ m} (h : Midway f c s pc)
    (hadvance : s.advance fault pc = some (s', next)) : After f c s' next := by
  cases pc with
  | idle => cases hadvance
  | starting =>
    obtain ⟨rfl, hf⟩ := h
    simp only [State.advance] at hadvance
    split at hadvance
    all_goals
      cases hadvance
      exact ⟨f, hf.congr rfl fun _ ↦ rfl, .start⟩
  | addIndex fd events callback =>
    cases hadvance
    exact ⟨h.1, h.2.congr rfl fun _ ↦ rfl⟩
  | addOwner fd events callback loop =>
    obtain ⟨rfl, hf⟩ := h
    simp only [State.advance, State.claimOwner] at hadvance
    by_cases howner : (s.owners fd).isSome
    · rw [if_pos howner] at hadvance
      cases hadvance
      exact ⟨f, hf, .addThrew⟩
    · rw [if_neg howner] at hadvance
      cases hadvance
      exact ⟨rfl, hf.free_of_owner (Option.not_isSome_iff_eq_none.mp howner), s.owners, rfl, hf⟩
  | addLoop fd events callback loop =>
    obtain ⟨rfl, hfree, hahead⟩ := h
    simp only [State.advance] at hadvance
    rcases Table.add_cases .eventLoop (s.loops loop) fault fd events (some callback) with
      ⟨_, heq, hok, -, hwatchers⟩ | ⟨e, herror⟩
    · obtain rfl := Option.some.inj heq
      split at hadvance
      · rename_i table hadd
        cases hadvance
        rw [hadd] at hwatchers
        exact ⟨_, Ahead.setLoop (some ⟨events, callback⟩) hahead (by simp [hfree])
          hwatchers, .added hfree⟩
      · rename_i hadd
        rw [hadd] at hok
        cases hok
    · -- the rollback is to come
      rw [herror] at hadvance
      cases hadvance
      exact ⟨⟨events, _, rfl⟩, hfree, hahead.congr rfl (watchers_setLoop_self loop)⟩
  | addRollback fd loop e =>
    obtain ⟨⟨events, callback, rfl⟩, hfree, hahead⟩ := h
    cases hadvance
    exact ⟨f, hahead.eraseOwner hfree, .addThrew⟩
  | modifyLoop fd events loop =>
    obtain ⟨rfl, ⟨watcher, hentry⟩, hf⟩ := h
    have howner : s.owners fd = some loop := by
      rw [hf.owners, hentry]
      rfl
    have hahead := hf.ahead howner
    simp only [State.advance] at hadvance
    rcases Table.modify_cases .eventLoop (s.loops loop) fault fd events with
      ⟨_, hwatcher, hok, hwatchers⟩ | ⟨e, herror⟩
    · obtain rfl := Option.some.inj ((hahead.watchers_eq hentry).symm.trans hwatcher)
      split at hadvance
      · rename_i table hmodify
        cases hadvance
        rw [hmodify] at hwatchers
        exact ⟨_, Ahead.setLoop (some _) hahead (by simp [hentry]) hwatchers,
          .modified hentry⟩
      · rename_i hmodify
        rw [hmodify] at hok
        cases hok
    · rw [herror] at hadvance
      cases hadvance
      exact ⟨f, hf.congr rfl (watchers_setLoop_self loop), .modifyThrew⟩
  | removeLoop fd loop =>
    obtain ⟨rfl, ⟨watcher, hentry⟩, hahead⟩ := h
    have hremoved : Represents (Function.update f fd none)
        (s.setLoop loop ((s.loops loop).remove .eventLoop fault fd).2) :=
      Ahead.setLoop none hahead (by simp [hentry])
        (Table.remove_watchers .eventLoop (s.loops loop) fault fd)
    have hresult := Table.remove_result .eventLoop (hahead.watchers_eq hentry) fault
    simp only [State.advance] at hadvance
    split at hadvance
    · rename_i result table hremove
      cases hadvance
      rw [hremove] at hresult hremoved
      obtain hok | ⟨_, herror⟩ := hresult
      · obtain rfl := Except.ok.inj hok
        exact ⟨_, hremoved, .removed hentry⟩
      · cases herror
    · rename_i e table hremove
      cases hadvance
      rw [hremove] at hremoved
      exact ⟨_, hremoved, .removeThrew hentry⟩

end Sections

/-! ## Runs

No call begins while another is under way. So what the sections of a call are compared with is the
state in which it began, whatever the workers and the kernel do meanwhile. -/

def Pc.isIdle : Pc κ m → Bool
  | .idle => true
  | _ => false

theorem Pc.isIdle_iff {pc : Pc κ m} : pc.isIdle = true ↔ pc = .idle := by
  cases pc <;> simp [Pc.isIdle]

/-- A call begins only when no other one is under way. -/
def NoOverlap (s : System κ m n) : Action κ m n → Prop
  | .call _ _ => ∀ thread, s.threads thread = .idle
  | .advance _ _ | .dispatch _ _ | .close _ => True

/-- No call begins. -/
def NoCall (_ : System κ m n) : Action κ m n → Prop
  | .call _ _ => False
  | .advance _ _ | .dispatch _ _ | .close _ => True

instance (s : System κ m n) (a : Action κ m n) : Decidable (NoOverlap s a) :=
  match a with
  | .call _ _ => decidable_of_iff (∀ thread, (s.threads thread).isIdle = true)
      (forall_congr' fun _ ↦ Pc.isIdle_iff)
  | .advance _ _ | .dispatch _ _ | .close _ => .isTrue trivial

instance (s : System κ m n) (a : Action κ m n) : Decidable (NoCall s a) :=
  match a with
  | .call _ _ => .isFalse id
  | .advance _ _ | .dispatch _ _ | .close _ => .isTrue trivial

/-- The step is not one of a call. -/
def Action.IsOutside : Action κ m n → Prop
  | .call _ _ | .advance _ _ => False
  | .dispatch _ _ | .close _ => True

/-- No call is under way, and the state represents the registrations. -/
structure Resting (f : Registrations κ m) (s : System κ m n) : Prop where
  idle : ∀ thread, s.threads thread = .idle
  represents : Represents f s.state

/-- One call is under way. -/
structure Calling (f : Registrations κ m) (thread : Fin n) (c : Call κ) (s : System κ m n) :
    Prop where
  others : ∀ other, other ≠ thread → s.threads other = .idle
  midway : Midway f c s.state (s.threads thread)

/-- The call has been made in a state with these registrations and replies: it is under way, or it
has replied. -/
def Made (f : Registrations κ m) (replies : List (Fin n × Reply m)) (thread : Fin n) (c : Call κ)
    (s : System κ m n) : Prop :=
  s.replies = replies ∧ Calling f thread c s ∨
    ∃ reply f', s.replies = replies ++ [(thread, reply)] ∧ Outcome f c reply f' ∧ Resting f' s

section Runs

variable {f : Registrations κ m} {s s' u : System κ m n} {a : Action κ m n} {thread : Fin n}
  {c : Call κ} {replies : List (Fin n × Reply m)}

theorem made_finish {state : State κ m} {next : Next κ m} (h : After f c state next)
    (hothers : ∀ other, other ≠ thread → s.threads other = .idle) :
    Made f s.replies thread c (s.finish thread (state, next)) := by
  cases next with
  | reply reply =>
    obtain ⟨f', hf', houtcome⟩ := h
    refine Or.inr ⟨reply, f', rfl, houtcome, fun other ↦ ?_, hf'⟩
    rw [System.finish]
    dsimp only
    by_cases hother : other = thread
    · rw [hother, Function.update_self]
    · rw [Function.update_of_ne hother, hothers other hother]
  | «continue» pc =>
    refine Or.inl ⟨rfl, fun other hother ↦ ?_, ?_⟩
    · rw [System.finish]
      dsimp only
      rw [Function.update_of_ne hother, hothers other hother]
    · rw [System.finish]
      dsimp only
      rw [Function.update_self]
      exact h

/-- Steps outside of calls change neither owners nor watchers. -/
theorem step_outside [NeZero m] (hstep : s.step a = some s') (houtside : a.IsOutside) :
    s'.threads = s.threads ∧ s'.replies = s.replies ∧ s'.state.owners = s.state.owners ∧
      ∀ loop, (s'.state.loops loop).watchers = (s.state.loops loop).watchers := by
  cases a with
  | call thread c => exact absurd houtside id
  | advance thread fault => exact absurd houtside id
  | dispatch loop ready =>
    simp only [System.step] at hstep
    split at hstep
    · obtain rfl := Option.some.inj hstep
      refine ⟨rfl, rfl, rfl, fun loop' ↦ ?_⟩
      dsimp only
      rw [loops_setLoop]
      by_cases hloop : loop' = loop
      · rw [hloop, Function.update_self]
        exact (Table.collect_spec _ ready).1
      · rw [Function.update_of_ne hloop]
    · cases hstep
  | close fd =>
    obtain rfl := Option.some.inj hstep
    exact ⟨rfl, rfl, rfl, fun _ ↦ rfl⟩

theorem Resting.call [NeZero m] (h : Resting f s) (hstep : s.step (.call thread c) = some s') :
    Made f s.replies thread c s' := by
  rw [System.step, h.idle thread] at hstep
  obtain ⟨⟨state, next⟩, hbegin, rfl⟩ := Option.map_eq_some_iff.mp hstep
  exact made_finish (after_begin h.represents hbegin) fun other _ ↦ h.idle other

theorem Resting.step [NeZero m] (h : Resting f s) (hnocall : NoCall s a)
    (hstep : s.step a = some s') : Resting f s' := by
  cases a with
  | call => exact absurd hnocall id
  | advance thread fault =>
    obtain ⟨_, hadvance, -⟩ := Option.map_eq_some_iff.mp hstep
    rw [h.idle thread] at hadvance
    cases hadvance
  | dispatch | close =>
    obtain ⟨hthreads, -, howners, hwatchers⟩ := step_outside hstep trivial
    exact ⟨fun thread ↦ by rw [hthreads, h.idle thread], h.represents.congr howners hwatchers⟩

theorem Made.step [NeZero m] (h : Made f replies thread c s) (hcall : NoCall s a)
    (hstep : s.step a = some s') : Made f replies thread c s' := by
  cases a with
  | call other c' => exact absurd hcall id
  | advance other fault =>
    obtain ⟨⟨state, next⟩, hadvance, rfl⟩ := Option.map_eq_some_iff.mp hstep
    have hidle : s.threads other = .idle →
        Made f replies thread c (s.finish other (state, next)) := by
      intro hidle
      rw [hidle] at hadvance
      cases hadvance
    obtain ⟨rfl, hothers, hmidway⟩ | ⟨reply, f', -, -, hresting⟩ := h
    · by_cases hother : other = thread
      · subst hother
        exact made_finish (after_advance hmidway hadvance) hothers
      · exact hidle (hothers other hother)
    · exact hidle (hresting.idle other)
  | dispatch | close =>
    obtain ⟨hthreads, hreplies, howners, hwatchers⟩ := step_outside hstep trivial
    obtain ⟨rfl, hothers, hmidway⟩ | ⟨reply, f', hreply, houtcome, hresting⟩ := h
    · refine Or.inl ⟨hreplies, fun other hother ↦ ?_, ?_⟩
      · rw [hthreads, hothers other hother]
      · rw [hthreads]
        exact hmidway.congr howners hwatchers
    · exact Or.inr ⟨reply, f', hreplies.trans hreply, houtcome, fun other ↦ by
        rw [hthreads, hresting.idle other], hresting.represents.congr howners hwatchers⟩

/-- A call that has been made has replied if no call is under way. -/
theorem Made.replied (h : Made f replies thread c s) (hrest : ∀ thread, s.threads thread = .idle) :
    ∃ reply f', s.replies = replies ++ [(thread, reply)] ∧ Outcome f c reply f' ∧ Resting f' s := by
  obtain ⟨-, -, hmidway⟩ | hreplied := h
  · rw [hrest thread] at hmidway
    exact absurd hmidway id
  · exact hreplied

theorem resting_or_made [NeZero m] {wakeFd : Fin m → ℤ}
    (h : (machine κ wakeFd n).ReachableWhen NoOverlap s) :
    (∃ f, Resting f s) ∨ ∃ f replies thread c, Made f replies thread c s := by
  refine Machine.Leads.invariant
    (I := fun s ↦ (∃ f, Resting f s) ∨ ∃ f replies thread c, Made f replies thread c s) h
    (Or.inl ⟨fun _ ↦ none, fun _ ↦ rfl, fun _ ↦ rfl, fun _ _ ↦ rfl⟩) ?_
  intro s a s' hs hguard hstep
  by_cases hcall : NoCall s a
  · obtain ⟨f, hresting⟩ | ⟨f, replies, thread, c, hmade⟩ := hs
    · exact Or.inl ⟨f, hresting.step hcall hstep⟩
    · exact Or.inr ⟨f, replies, thread, c, hmade.step hcall hstep⟩
  · cases a with
    | call thread c =>
      obtain ⟨f, hresting⟩ : ∃ f, Resting f s := by
        obtain hresting | ⟨f, replies, other, c', hmade⟩ := hs
        · exact hresting
        · obtain ⟨_, f', -, -, hresting⟩ := hmade.replied hguard
          exact ⟨f', hresting⟩
      exact Or.inr ⟨f, _, thread, c, hresting.call hstep⟩
    | _ => exact absurd trivial hcall

theorem resting_of_reachable [NeZero m] {wakeFd : Fin m → ℤ}
    (h : (machine κ wakeFd n).ReachableWhen NoOverlap s)
    (hrest : ∀ thread, s.threads thread = .idle) : ∃ f, Resting f s := by
  obtain hresting | ⟨f, replies, thread, c, hmade⟩ := resting_or_made h
  · exact hresting
  · obtain ⟨_, f', -, -, hresting⟩ := hmade.replied hrest
    exact ⟨f', hresting⟩

end Runs

/-! ## What a call leaves -/

/-- The owner map and all watcher tables are exactly as before. -/
def SameEntries (s s' : State κ m) : Prop :=
  s'.owners = s.owners ∧ ∀ loop, (s'.loops loop).watchers = (s.loops loop).watchers

/-- An `add` or `modify` that throws changes nothing. A `remove` returns false exactly if the
descriptor has no owner, and then changes nothing; otherwise it is gone afterwards. -/
def Kept (s s' : State κ m) (reply : Reply m) : Call κ → Prop
  | .add _ _ _ | .modify _ _ => (∃ e, reply = .threw e) → SameEntries s s'
  | .remove fd => (reply = .removed false ↔ s.owners fd = none) ∧
      (s.owners fd = none → SameEntries s s') ∧
      (s.owners fd ≠ none →
        s'.owners fd = none ∧ ∀ loop, (s'.loops loop).watchers fd = none)
  | .start | .stop => SameEntries s s'

theorem Represents.sameEntries {f : Registrations κ m} {s s' : State κ m} (h : Represents f s)
    (h' : Represents f s') : SameEntries s s' := by
  refine ⟨funext fun fd ↦ ?_, fun loop ↦ funext fun fd ↦ ?_⟩
  · rw [h.owners, h'.owners]
  · rw [h.watchers, h'.watchers]

theorem Outcome.kept {f f' : Registrations κ m} {s s' : State κ m} {c : Call κ} {reply : Reply m}
    (h : Outcome f c reply f') (hf : Represents f s) (hf' : Represents f' s') :
    Kept s s' reply c := by
  have hgone : ∀ {fd}, f' = Function.update f fd none →
      s'.owners fd = none ∧ ∀ loop, (s'.loops loop).watchers fd = none := by
    rintro fd rfl
    refine ⟨?_, fun loop ↦ ?_⟩
    · rw [hf'.owners, Function.update_self]
      rfl
    · rw [hf'.watchers, Function.update_self]
      rfl
  have hfound : ∀ {fd loop watcher}, f fd = some (loop, watcher) → s.owners fd ≠ none := by
    intro fd loop watcher hentry
    rw [hf.owners, hentry]
    nofun
  cases h with
  | start | stop => exact hf.sameEntries hf'
  | added hfree => exact fun ⟨_, hthrew⟩ ↦ absurd hthrew nofun
  | modified hentry => exact fun ⟨_, hthrew⟩ ↦ absurd hthrew nofun
  | addThrew | modifyThrew => exact fun _ ↦ hf.sameEntries hf'
  | absent hfree =>
    have hnone : s.owners _ = none := (hf.owners _).trans (congrArg _ hfree)
    exact ⟨iff_of_true rfl hnone, fun _ ↦ hf.sameEntries hf', fun hsome ↦ absurd hnone hsome⟩
  | removed hentry | removeThrew hentry =>
    exact ⟨iff_of_false nofun (hfound hentry), fun hnone ↦ absurd hnone (hfound hentry),
      fun _ ↦ hgone rfl⟩

/-- **Calls that do not overlap.** Whatever `epoll_ctl` does, after every call the owner map and the
watcher tables agree and no descriptor is in two tables, and the call has left what it should. -/
theorem sequential_calls [NeZero m] {wakeFd : Fin m → ℤ} {s s' u : System κ m n} {thread : Fin n}
    {c : Call κ} (h : (machine κ wakeFd n).ReachableWhen NoOverlap s)
    (hrest : ∀ thread, s.threads thread = .idle) (hcall : s.step (.call thread c) = some s')
    (hu : (machine κ wakeFd n).Leads NoCall s' u) (hreturned : ∀ thread, u.threads thread = .idle) :
    OneLoop s.state ∧ OneLoop u.state ∧
      ∃ reply, u.replies = s.replies ++ [(thread, reply)] ∧ Kept s.state u.state reply c := by
  obtain ⟨f, hresting⟩ := resting_of_reachable h hrest
  have hmade : Made f s.replies thread c u :=
    hu.invariant (I := Made f s.replies thread c) (hresting.call hcall)
      fun hs hnocall hstep ↦ hs.step hnocall hstep
  obtain ⟨reply, f', hreplies, houtcome, hresting'⟩ := hmade.replied hreturned
  exact ⟨hresting.represents.oneLoop, hresting'.represents.oneLoop, reply, hreplies,
    houtcome.kept hresting.represents hresting'.represents⟩

/-- Descriptor 5 has been added to the first of two loops, and another thread has failed to modify
it. Then that thread removes it, and `epoll_ctl` fails again. -/
theorem sequential_calls_failing : ∃ s u : System Unit 2 2,
    (s.replies = [(0, .done), (0, .added 0), (1, .threw (.systemError "epoll_ctl modify" 12))] ∧
      s.state.owners 5 = some 0) ∧
    OneLoop s.state ∧ OneLoop u.state ∧
      ∃ reply, u.replies = s.replies ++ [(1, reply)] ∧ Kept s.state u.state reply (.remove 5) := by
  let M := machine Unit (fun loop : Fin 2 ↦ 100 + loop.val) 2
  have hrun : ((M.runWhen NoOverlap M.init
      [.call 0 .start, .advance 0 none, .call 0 (.add 5 eventRead (some ())), .advance 0 none,
        .advance 0 none, .advance 0 none, .call 1 (.modify 5 eventWrite),
        .advance 1 (some 12)]).bind fun s ↦ (s.step (.call 1 (.remove 5))).bind fun s' ↦
      (M.runWhen NoCall s' [.advance 1 (some 5)]).map fun u ↦ (s.replies, s.state.owners 5,
        decide (∀ thread, s.threads thread = .idle), decide (∀ thread, u.threads thread = .idle))) =
      some ([(0, .done), (0, .added 0), (1, .threw (.systemError "epoll_ctl modify" 12))], some 0,
        true, true) := by decide +kernel
  obtain ⟨s, hs, hrest⟩ := Option.bind_eq_some_iff.mp hrun
  obtain ⟨s', hcall, hrest⟩ := Option.bind_eq_some_iff.mp hrest
  obtain ⟨u, hu, hfinal⟩ := Option.map_eq_some_iff.mp hrest
  simp only [Prod.mk.injEq] at hfinal
  obtain ⟨hreplies, howner, hidle, hidle'⟩ := hfinal
  exact ⟨s, u, ⟨hreplies, howner⟩, sequential_calls (Machine.leads_of_runWhen hs)
    (of_decide_eq_true hidle) hcall (Machine.leads_of_runWhen hu) (of_decide_eq_true hidle')⟩

end MultiThreadReactor

end FoundationComponents
