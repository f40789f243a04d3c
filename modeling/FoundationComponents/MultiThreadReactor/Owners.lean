import FoundationComponents.Directory.Basic
import FoundationComponents.MultiThreadReactor.Basic

/-!
# One descriptor, one loop

The owner map and the watcher tables of the reactor are a directory and its places: between the
section of `add` on `owners` and the end of its work on the loop, rollback included, a thread is
entering the descriptor; between the two sections of `remove` it is deleting it.

A `remove` may start while an `add` of the same descriptor is under way. It then takes the claim of
the `add` away. If it also overtakes the `add` and finds no watcher yet, the `add` goes on to enter
a watcher that has no owner; and if the `add` fails, its rollback may take away the claim of a third
call. These are the only ways to lose the agreement: in runs in which every second section of
`remove` and every rollback find what they take away, owners and watchers agree in every state in
which no call is under way, whatever `epoll_ctl` does.
-/

namespace FoundationComponents

namespace MultiThreadReactor

open Reactor

variable {κ : Type*} {m n : ℕ}

/-! ## The reactor as a directory

Every section is a move of the directory with at most one descriptor and one loop. `modify` and the
workers of the loops change neither. -/

/-- The descriptor is in the watcher table of the loop. -/
def State.watched (s : State κ m) (loop : Fin m) (fd : ℤ) : Bool :=
  ((s.loops loop).watchers fd).isSome

/-- **One descriptor, one loop**: the owner map and the tables agree, and no descriptor is in two
tables. -/
def OneLoop (s : State κ m) : Prop :=
  (∀ fd loop, s.owners fd = some loop ↔ s.watched loop fd) ∧
    ∀ fd loop loop', s.watched loop fd → s.watched loop' fd → loop = loop'

/-- What a thread still has to do to the tables. -/
def Pc.errand : Pc κ m → Errand ℤ (Fin m)
  | .addLoop fd _ _ loop => .entering fd loop
  | .addRollback fd loop _ => .entering fd loop
  | .removeLoop fd loop => .deleting fd loop
  | _ => .none

/-- Where a thread is after a section. -/
def Next.pc : Next κ m → Pc κ m
  | .reply _ => .idle
  | .continue pc => pc

/-- The directory of a system. -/
def System.directory (s : System κ m n) : Directory (Fin n) ℤ (Fin m) where
  owner := s.state.owners
  holds := s.state.watched
  errand thread := (s.threads thread).errand

/-- The effect of a section on owners, watchers and the errand of the thread that runs it. -/
inductive Effect (s s' : State κ m) : Errand ℤ (Fin m) → Errand ℤ (Fin m) → Prop
  | quiet (e) : s'.owners = s.owners → s'.watched = s.watched → Effect s s' e e
  | claim {fd loop} : s.owners fd = none → s'.owners = Function.update s.owners fd (some loop) →
      s'.watched = s.watched → Effect s s' .none (.entering fd loop)
  | enter {fd loop} : s.watched loop fd = false → s'.owners = s.owners →
      s'.watched = Directory.setHolds s.watched fd loop true → Effect s s' (.entering fd loop) .none
  | withdraw {fd loop} : s.owners fd = some loop → s'.owners = Function.update s.owners fd none →
      s'.watched = s.watched → Effect s s' (.entering fd loop) .none
  | release {fd loop} : s.owners fd = some loop → s'.owners = Function.update s.owners fd none →
      s'.watched = s.watched → Effect s s' .none (.deleting fd loop)
  | delete {fd loop} : s.watched loop fd = true → s'.owners = s.owners →
      s'.watched = Directory.setHolds s.watched fd loop false →
      Effect s s' (.deleting fd loop) .none

/-- A section that takes something away finds it: a `remove` the watcher, a rollback the owner. -/
def Finds (s : State κ m) : Pc κ m → Prop
  | .removeLoop fd loop => s.watched loop fd = true
  | .addRollback fd loop _ => s.owners fd = some loop
  | _ => True

section Sections

variable {s s' : State κ m} {next : Next κ m}

theorem loops_setLoop {loop : Fin m} {table : Table κ} :
    (s.setLoop loop table).loops = Function.update s.loops loop table := rfl

private theorem watched_setLoop_of_eq {loop : Fin m} {table : Table κ}
    (h : ∀ fd, (table.watchers fd).isSome = s.watched loop fd) :
    (s.setLoop loop table).watched = s.watched := by
  funext loop' fd
  by_cases hloop : loop' = loop
  · subst hloop
    rw [← h fd, State.watched, loops_setLoop, Function.update_self]
  · rw [State.watched, loops_setLoop, Function.update_of_ne hloop, State.watched]

private theorem watched_setLoop_of_update {loop : Fin m} {table : Table κ} {fd : ℤ}
    {watcher : Option (Watcher κ)}
    (h : table.watchers = Function.update (s.loops loop).watchers fd watcher) :
    (s.setLoop loop table).watched = Directory.setHolds s.watched fd loop watcher.isSome := by
  funext loop' fd'
  rw [Directory.setHolds, State.watched, loops_setLoop]
  by_cases hloop : loop' = loop
  · subst hloop
    rw [Function.update_self, Function.update_self, h]
    by_cases hfd : fd' = fd
    · rw [hfd, Function.update_self, Function.update_self]
    · rw [Function.update_of_ne hfd, Function.update_of_ne hfd, State.watched]
  · rw [Function.update_of_ne hloop, Function.update_of_ne hloop, State.watched]

/-- The first section of a call has no effect, unless it is that of a `remove` that finds an
owner. -/
theorem effect_begin {call : Call κ} (h : s.begin call = some (s', next)) :
    Effect s s' .none next.pc.errand := by
  cases call with
  | start =>
    simp only [State.begin] at h
    split at h
    · cases h
    split at h
    · cases h
      exact .quiet _ rfl rfl
    split at h
    · cases h
      exact .quiet _ rfl rfl
    · cases h
      exact .quiet _ rfl rfl
  | stop =>
    simp only [State.begin] at h
    split at h
    · cases h
    split at h
    · cases h
      exact .quiet _ rfl rfl
    · cases h
      exact .quiet _ rfl rfl
  | add fd events callback =>
    simp only [State.begin] at h
    split at h
    · cases h
      exact .quiet _ rfl rfl
    · cases h
      exact .quiet _ rfl rfl
  | modify fd events =>
    simp only [State.begin] at h
    split at h
    · cases h
      exact .quiet _ rfl rfl
    · cases h
      exact .quiet _ rfl rfl
  | remove fd =>
    simp only [State.begin] at h
    split at h
    · cases h
      exact .quiet _ rfl rfl
    · rename_i loop howner
      cases h
      exact .release howner rfl rfl

/-- The section of `add` on the loop enters the descriptor, or fails and leaves the table alone. -/
theorem effect_addLoop [NeZero m] {fault : Option Errno} {fd : ℤ} {events : UInt32} {callback : κ}
    {loop : Fin m} (h : s.advance fault (.addLoop fd events callback loop) = some (s', next)) :
    Effect s s' (.entering fd loop) next.pc.errand := by
  simp only [State.advance] at h
  rcases Table.add_cases .eventLoop (s.loops loop) fault fd events (some callback) with
    ⟨_, -, hok, hfree, hwatchers⟩ | ⟨e, herror⟩
  · split at h
    · rename_i table hadd
      cases h
      rw [hadd] at hwatchers
      refine .enter ?_ rfl (watched_setLoop_of_update hwatchers)
      rw [State.watched, hfree, Option.isSome_none]
    · rename_i hadd
      rw [hadd] at hok
      cases hok
  · -- the rollback is to come; until then the thread keeps its errand
    rw [herror] at h
    cases h
    exact .quiet _ rfl (watched_setLoop_of_eq fun _ ↦ rfl)

private theorem advance_modifyLoop [NeZero m] {fault : Option Errno} {fd : ℤ} {events : UInt32}
    {loop : Fin m} (h : s.advance fault (.modifyLoop fd events loop) = some (s', next)) :
    s' = s.setLoop loop ((s.loops loop).modify .eventLoop fault fd events).2 ∧ next.pc = .idle := by
  simp only [State.advance] at h
  split at h
  all_goals
    rename_i hmodify
    cases h
    rw [hmodify]
    exact ⟨rfl, rfl⟩

private theorem advance_removeLoop [NeZero m] {fault : Option Errno} {fd : ℤ} {loop : Fin m}
    (h : s.advance fault (.removeLoop fd loop) = some (s', next)) :
    s' = s.setLoop loop ((s.loops loop).remove .eventLoop fault fd).2 ∧ next.pc = .idle := by
  simp only [State.advance] at h
  split at h
  all_goals
    rename_i hremove
    cases h
    rw [hremove]
    exact ⟨rfl, rfl⟩

theorem effect_advance [NeZero m] {fault : Option Errno} {pc : Pc κ m} (hfinds : Finds s pc)
    (h : s.advance fault pc = some (s', next)) : Effect s s' pc.errand next.pc.errand := by
  cases pc with
  | idle => cases h
  | starting =>
    simp only [State.advance] at h
    split at h
    · cases h
      exact .quiet _ rfl rfl
    · cases h
      exact .quiet _ rfl rfl
  | addIndex fd events callback =>
    cases h
    exact .quiet _ rfl rfl
  | addOwner fd events callback loop =>
    simp only [State.advance, State.claimOwner] at h
    by_cases howner : (s.owners fd).isSome
    · rw [if_pos howner] at h
      cases h
      exact .quiet _ rfl rfl
    · rw [if_neg howner] at h
      cases h
      exact .claim (Option.not_isSome_iff_eq_none.mp howner) rfl rfl
  | addLoop fd events callback loop => exact effect_addLoop h
  | addRollback fd loop e =>
    cases h
    exact .withdraw hfinds rfl rfl
  | modifyLoop fd events loop =>
    obtain ⟨rfl, hidle⟩ := advance_modifyLoop h
    rw [hidle]
    refine .quiet _ rfl (watched_setLoop_of_eq fun fd' ↦ ?_)
    have hmap := congrArg Option.isSome
      (Table.modify_watchers .eventLoop (s.loops loop) fault fd events fd')
    rwa [Option.isSome_map, Option.isSome_map] at hmap
  | removeLoop fd loop =>
    obtain ⟨rfl, hidle⟩ := advance_removeLoop h
    rw [hidle]
    have herased := Table.remove_watchers .eventLoop (s.loops loop) fault fd
    exact .delete hfinds rfl (watched_setLoop_of_update herased)

end Sections

/-! ## Runs in which everything that is taken away is found

A section that finds nothing to take away is one whose thread has been overtaken. Where this does
not happen, the balance of the directory is kept. -/

instance (s : State κ m) (pc : Pc κ m) : Decidable (Finds s pc) :=
  match pc with
  | .removeLoop fd loop => inferInstanceAs (Decidable (s.watched loop fd = true))
  | .addRollback fd loop _ => inferInstanceAs (Decidable (s.owners fd = some loop))
  | .idle | .starting | .addIndex _ _ _ | .addOwner _ _ _ _ | .addLoop _ _ _ _ => .isTrue trivial
  | .modifyLoop _ _ _ => .isTrue trivial

/-- The thread that runs its next section finds what it takes away. -/
def FindsEntries (s : System κ m n) : Action κ m n → Prop
  | .advance thread _ => Finds s.state (s.threads thread)
  | _ => True

instance (s : System κ m n) (a : Action κ m n) : Decidable (FindsEntries s a) :=
  match a with
  | .advance thread _ => inferInstanceAs (Decidable (Finds s.state (s.threads thread)))
  | .call _ _ | .dispatch _ _ | .close _ => .isTrue trivial

/-- `epoll_ctl` and the creation of threads do not fail. -/
def NoFaults (_ : System κ m n) : Action κ m n → Prop
  | .advance _ fault => fault = none
  | _ => True

instance (s : System κ m n) (a : Action κ m n) : Decidable (NoFaults s a) :=
  match a with
  | .advance _ fault => inferInstanceAs (Decidable (fault = none))
  | .call _ _ | .dispatch _ _ | .close _ => .isTrue trivial

section Runs

variable {s s' : System κ m n} {thread : Fin n}

theorem Pc.errand_idle : (Pc.idle : Pc κ m).errand = .none := rfl

theorem directory_finish (state : State κ m) (next : Next κ m) :
    (s.finish thread (state, next)).directory =
      ⟨state.owners, state.watched,
        Function.update s.directory.errand thread next.pc.errand⟩ := by
  have herrand : (fun t ↦ (Function.update s.threads thread next.pc t).errand) =
      Function.update s.directory.errand thread next.pc.errand := by
    funext t
    by_cases ht : t = thread
    · rw [ht, Function.update_self, Function.update_self]
    · rw [Function.update_of_ne ht, Function.update_of_ne ht, System.directory]
  rw [← herrand]
  cases next <;> rfl

theorem move_of_effect {state : State κ m} {next : Next κ m}
    (h : Effect s.state state (s.threads thread).errand next.pc.errand) :
    (s.finish thread (state, next)).directory = s.directory ∨
      s.directory.Move (s.finish thread (state, next)).directory := by
  rw [directory_finish]
  generalize hold : (s.threads thread).errand = old at h
  generalize next.pc.errand = new at h
  cases h with
  | quiet _ howners hwatched =>
    have hsame : Function.update s.directory.errand thread old = s.directory.errand := by
      rw [← hold]
      exact Function.update_eq_self thread s.directory.errand
    rw [hsame, howners, hwatched]
    exact Or.inl rfl
  | claim hfree howners hwatched =>
    rw [howners, hwatched]
    exact Or.inr (.claim _ hold hfree)
  | enter hfree howners hwatched =>
    rw [howners, hwatched]
    exact Or.inr (.enter hold hfree)
  | withdraw howner howners hwatched =>
    rw [howners, hwatched]
    exact Or.inr (.withdraw hold howner)
  | release howner howners hwatched =>
    rw [howners, hwatched]
    exact Or.inr (.release hold howner)
  | delete hwatcher howners hwatched =>
    rw [howners, hwatched]
    exact Or.inr (.delete hold hwatcher)

/-- **The step lemma.** A step that finds what it takes away is a move of the directory, or leaves
it alone. -/
theorem move_of_step [NeZero m] {a : Action κ m n} (hfinds : FindsEntries s a)
    (hstep : s.step a = some s') : s'.directory = s.directory ∨ s.directory.Move s'.directory := by
  cases a with
  | call thread call =>
    simp only [System.step] at hstep
    split at hstep
    · rename_i hidle
      rw [Option.map_eq_some_iff] at hstep
      obtain ⟨⟨state, next⟩, hbegin, rfl⟩ := hstep
      refine move_of_effect ?_
      rw [hidle, Pc.errand_idle]
      exact effect_begin hbegin
    · cases hstep
  | advance thread fault =>
    rw [System.step, Option.map_eq_some_iff] at hstep
    obtain ⟨⟨state, next⟩, hadvance, rfl⟩ := hstep
    exact move_of_effect (effect_advance hfinds hadvance)
  | dispatch loop ready =>
    simp only [System.step] at hstep
    split at hstep
    · obtain rfl := Option.some.inj hstep
      have hwatched : (s.state.setLoop loop ((s.state.loops loop).collect ready).1).watched =
          s.state.watched := by
        refine watched_setLoop_of_eq fun fd ↦ ?_
        rw [(Table.collect_spec _ ready).1, State.watched]
      rw [System.directory, hwatched]
      exact Or.inl rfl
    · cases hstep
  | close fd =>
    obtain rfl := Option.some.inj hstep
    exact Or.inl rfl

/-- **One descriptor, one loop.** In every run, for any number of loops and threads and any failures
of `epoll_ctl`, in which each second section of a `remove` finds the descriptor in the table of its
loop and each rollback finds the owner it has set: whenever no call is under way, the owner map and
the watcher tables agree, and no descriptor is in the tables of two loops. -/
theorem oneLoop_of_findsEntries [NeZero m] {wakeFd : Fin m → ℤ}
    (h : (machine κ wakeFd n).ReachableWhen FindsEntries s)
    (hrest : ∀ thread, s.threads thread = .idle) : OneLoop s.state := by
  have hinit : (machine κ wakeFd n).init.directory.Balanced := by
    refine (Directory.balanced_iff_agrees fun _ ↦ rfl).mpr fun fd loop ↦ ?_
    exact iff_of_false nofun nofun
  have hbalanced : s.directory.Balanced := by
    refine Machine.Leads.invariant (I := fun s ↦ s.directory.Balanced) h hinit
      fun {s a s'} hs hfinds hstep ↦ ?_
    rcases move_of_step hfinds hstep with heq | hmove
    · rwa [heq]
    · exact hs.move hmove
  have hagrees : s.directory.Agrees := by
    refine (Directory.balanced_iff_agrees fun thread ↦ ?_).mp hbalanced
    have hidle := hrest thread
    exact (congrArg Pc.errand hidle).trans Pc.errand_idle
  refine ⟨hagrees, fun fd loop loop' hloop hloop' ↦ ?_⟩
  exact Option.some.inj (((hagrees fd loop).mpr hloop).symm.trans ((hagrees fd loop').mpr hloop'))

end Runs

/-- Two threads on two loops: a `remove` of descriptor 5 starts while its `add` is under way and
ends after it; the descriptor is then added to the next loop. -/
theorem oneLoop_of_findsEntries_overlapping :
    ∃ s : System Unit 2 2,
      (machine Unit (fun loop ↦ 100 + loop.val) 2).ReachableWhen FindsEntries s ∧
      (s.replies = [(0, .done), (0, .added 0), (1, .removed true), (0, .added 1)] ∧
        ∀ thread, s.threads thread = .idle) ∧ OneLoop s.state := by
  obtain ⟨s, hs, hfinal⟩ := Machine.exists_reachableWhen_of_run
    (M := machine Unit (fun loop : Fin 2 ↦ 100 + loop.val) 2) (C := FindsEntries)
    (fun s ↦ (s.replies, decide (∀ thread, s.threads thread = .idle)))
    [.call 0 .start, .advance 0 none,
      .call 0 (.add 5 eventRead (some ())), .advance 0 none, .advance 0 none,
      .call 1 (.remove 5), .advance 0 none, .advance 1 none,
      .call 0 (.add 5 eventRead (some ())), .advance 0 none, .advance 0 none, .advance 0 none]
    (b := ([(0, .done), (0, .added 0), (1, .removed true), (0, .added 1)], true))
    (by decide +kernel)
  obtain ⟨hreplies, hthreads⟩ := Prod.mk.inj hfinal
  have hrest : ∀ thread, s.threads thread = .idle := of_decide_eq_true hthreads
  exact ⟨s, hs, ⟨hreplies, hrest⟩, oneLoop_of_findsEntries hs hrest⟩

/-- One loop, no failures: while thread 0 is between the sections of `add`, thread 1 removes the
descriptor. The `remove` finds no watcher, and the `add` then leaves one without an owner. -/
theorem not_oneLoop :
    ¬ ∀ s : System Unit 1 2, (machine Unit (fun _ ↦ 100) 2).ReachableWhen NoFaults s →
      (∀ thread, s.threads thread = .idle) → OneLoop s.state := by
  intro h
  obtain ⟨s, hs, hfinal⟩ := Machine.exists_reachableWhen_of_run
    (M := machine Unit (fun _ : Fin 1 ↦ 100) 2) (C := NoFaults)
    (fun s ↦ (decide (∀ thread, s.threads thread = .idle), s.state.owners 5, s.state.watched 0 5))
    [.call 0 .start, .advance 0 none,
      .call 0 (.add 5 eventRead (some ())), .advance 0 none, .advance 0 none,
      .call 1 (.remove 5), .advance 1 none, .advance 0 none]
    (b := (true, none, true)) (by decide +kernel)
  simp only [Prod.mk.injEq] at hfinal
  obtain ⟨hthreads, howner, hwatched⟩ := hfinal
  have hrest : ∀ thread, s.threads thread = .idle := of_decide_eq_true hthreads
  have howner' := ((h s hs hrest).1 5 0).mpr hwatched
  rw [howner] at howner'
  cases howner'

end MultiThreadReactor

end FoundationComponents
