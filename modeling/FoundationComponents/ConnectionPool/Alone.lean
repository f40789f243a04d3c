import Mathlib.Data.List.TakeWhile
import FoundationComponents.ConnectionPool.Counters

/-!
# A call that runs alone

The sections of a call that no other thread interferes with follow each other without a gap. What
the call finds outside the pool (what the clock reads, whether a ping is answered, whether the
factory delivers) may still be anything. It is given for each position of the call, and as a
position names the entry in hand, so are the verdicts on the idle entries.

`tryAcquireFor` then works through the idle entries from the front. Each one it cannot use costs a
round of its loop, which takes the entry out of the deque and out of the count. The first usable
one is handed out; when there is none, the slots given up leave room for a new connection.
-/

namespace FoundationComponents

namespace ConnectionPool

/-! ## Sections without interference

The environment may answer differently at every position, but the pool that a section finds is the
one that the section before it has left. -/

/-- The sections that a thread at `pc` performs until it is at `pc'`, with their effects, when no
other thread changes the pool. -/
inductive Alone (config : Config) (isCleaner : Bool) (env : Pc → Env) :
    Pool → Pc → List (Pc × Effect) → Pool → Pc → Prop
  | refl (p : Pool) (pc : Pc) : Alone config isCleaner env p pc [] p pc
  | step {p p' : Pool} {pc pc' : Pc} {e : Effect} {steps : List (Pc × Effect)} :
      threadStep config isCleaner (env pc) p pc = some e →
      Alone config isCleaner env e.pool e.next steps p' pc' →
      Alone config isCleaner env p pc ((pc, e) :: steps) p' pc'

/-- The entries handed to the borrower. -/
def lentIn (steps : List (Pc × Effect)) : List Entry := steps.filterMap fun step ↦ step.2.lent

/-- What the sections make observable. -/
def eventsIn (steps : List (Pc × Effect)) : List Event := steps.flatMap fun step ↦ step.2.events

/-- The factory is called. -/
def Pc.callsFactory : Pc → Bool
  | .acqCreate _ | .warmCreate _ => true
  | _ => false

/-- How often the factory is called. -/
def factoryCalls (steps : List (Pc × Effect)) : ℕ := steps.countP fun step ↦ step.1.callsFactory

/-- Sections that neither hand out a connection nor call the factory. -/
structure GivesNothing (steps : List (Pc × Effect)) : Prop where
  lent : lentIn steps = []
  calls : factoryCalls steps = 0
  made : madeIn (eventsIn steps) = []

namespace GivesNothing

variable {steps : List (Pc × Effect)} (h : GivesNothing steps) (steps' : List (Pc × Effect))

include h

theorem lentIn_append : lentIn (steps ++ steps') = lentIn steps' := by
  rw [lentIn, List.filterMap_append, ← lentIn, ← lentIn, h.lent, List.nil_append]

theorem factoryCalls_append : factoryCalls (steps ++ steps') = factoryCalls steps' := by
  rw [factoryCalls, List.countP_append, ← factoryCalls, ← factoryCalls, h.calls, Nat.zero_add]

theorem madeIn_append : madeIn (eventsIn (steps ++ steps')) = madeIn (eventsIn steps') := by
  rw [eventsIn, List.flatMap_append, ← eventsIn, ← eventsIn, madeIn, List.filterMap_append,
    ← madeIn, ← madeIn, h.made, List.nil_append]

theorem append {steps' : List (Pc × Effect)} (h' : GivesNothing steps') :
    GivesNothing (steps ++ steps') where
  lent := (h.lentIn_append steps').trans h'.lent
  calls := (h.factoryCalls_append steps').trans h'.calls
  made := (h.madeIn_append steps').trans h'.made

end GivesNothing

namespace Alone

variable {config : Config} {b : Bool} {env : Pc → Env} {p p' p'' : Pool} {pc pc' pc'' : Pc}
  {steps steps' : List (Pc × Effect)}

theorem trans (h : Alone config b env p pc steps p' pc')
    (h' : Alone config b env p' pc' steps' p'' pc'') :
    Alone config b env p pc (steps ++ steps') p'' pc'' := by
  induction h with
  | refl _ _ => exact h'
  | step hstep _ ih => exact .step hstep (ih h')

theorem single {e : Effect} (h : threadStep config b (env pc) p pc = some e) :
    Alone config b env p pc [(pc, e)] e.pool e.next :=
  .step h (.refl _ _)

theorem unique (h : Alone config b env p pc steps p' pc')
    (hstop : threadStep config b (env pc') p' pc' = none)
    (h' : Alone config b env p pc steps' p'' pc'')
    (hstop' : threadStep config b (env pc'') p'' pc'' = none) :
    steps = steps' ∧ p' = p'' ∧ pc' = pc'' := by
  induction h generalizing steps' with
  | refl p pc =>
    cases h' with
    | refl _ _ => exact ⟨rfl, rfl, rfl⟩
    | step hstep _ =>
      rw [hstop] at hstep
      cases hstep
  | step hstep _ ih =>
    cases h' with
    | refl _ _ =>
      rw [hstop'] at hstep
      cases hstep
    | step hstep' hrest' =>
      obtain rfl := Option.some.inj (hstep.symm.trans hstep')
      obtain ⟨rfl, rfl, rfl⟩ := ih hstop hrest'
      exact ⟨rfl, rfl, rfl⟩

end Alone

/-! ## Rounds of `tryAcquireFor`

Each round takes the first idle entry and either hands it out or retires it. So the call is settled
by the number of unusable entries before the first usable one. -/

section Acquire

variable {config : Config} {env : Pc → Env} {p : Pool} {deadline : ℤ} {entry : Entry}
  {rest : List Entry}

/-- The loop does not hand the entry out: it has expired, or its ping fails. -/
def unusable (config : Config) (env : Pc → Env) (deadline : ℤ) (entry : Entry) : Bool :=
  shouldRetire config entry (env (.acqExpiry deadline entry)).now ||
    !(env (.acqPing deadline entry)).succeeds

/-- The pool after the first `k` idle entries have been retired. -/
def Pool.retired (p : Pool) (k : ℕ) : Pool :=
  { p with idle := p.idle.drop k, total := p.total - k, destroyed := p.destroyed + k }

theorem alone_retireActive (config : Config) (env : Pc → Env) (entry : Entry) (deadline : ℤ)
    (hactive : 1 ≤ p.active) (htotal : 1 ≤ p.total) :
    ∃ steps, Alone config false env p (.retireClose entry (some deadline)) steps
      { p with active := p.active - 1, total := p.total - 1, destroyed := p.destroyed + 1 }
      (.acqCheck deadline false) ∧ GivesNothing steps := by
  have hcount : threadStep config false (env (.retireCount (some deadline))) p
      (.retireCount (some deadline)) = some (.slotFreed
        { p with active := p.active - 1, total := p.total - 1, destroyed := p.destroyed + 1 }
        (.acqCheck deadline false) []) := by
    rw [threadStep, Pool.subActive_subTotal hactive htotal]
  exact ⟨_, .step rfl (.step hcount (.refl _ _)), rfl, rfl, rfl⟩

/-- **A round** that finds an unusable entry. -/
theorem alone_retire (afterWait : Bool) (hopen : p.shuttingDown = false)
    (htotal : p.idle.length ≤ p.total) (hidle : p.idle = entry :: rest)
    (hunusable : unusable config env deadline entry = true) :
    ∃ steps, Alone config false env p (.acqCheck deadline afterWait) steps (p.retired 1)
      (.acqCheck deadline false) ∧ GivesNothing steps := by
  let taken : Pool := { p with idle := rest, active := p.active + 1 }
  have hcheck : threadStep config false (env (.acqCheck deadline afterWait)) p
      (.acqCheck deadline afterWait) =
      some { pool := taken, next := .acqExpiry deadline entry } := by
    simp [threadStep, hopen, hidle, taken]
  have hretired : p.retired 1 = { taken with
      active := taken.active - 1, total := taken.total - 1, destroyed := taken.destroyed + 1 } := by
    simp [Pool.retired, hidle, taken]
  rw [hidle, List.length_cons] at htotal
  obtain ⟨steps, hretire, hnothing⟩ := alone_retireActive (p := taken) config env entry
    deadline (Nat.le_add_left 1 p.active) (show 1 ≤ p.total by omega)
  rw [← hretired] at hretire
  by_cases hexpired : shouldRetire config entry (env (.acqExpiry deadline entry)).now = true
  · have hexpiry : threadStep config false (env (.acqExpiry deadline entry)) taken
        (.acqExpiry deadline entry) =
          some { pool := taken, next := .retireClose entry (some deadline) } := if_pos hexpired
    exact ⟨_, .step hcheck (.step hexpiry hretire), hnothing.1, hnothing.2, hnothing.3⟩
  · have hping : (env (.acqPing deadline entry)).succeeds = false := by
      simpa [unusable, hexpired] using hunusable
    have hexpiry : threadStep config false (env (.acqExpiry deadline entry)) taken
        (.acqExpiry deadline entry) = some { pool := taken, next := .acqPing deadline entry } :=
      if_neg hexpired
    have hfailed : threadStep config false (env (.acqPing deadline entry)) taken
        (.acqPing deadline entry) =
          some { pool := taken, next := .retireClose entry (some deadline),
                 events := [.pinged entry.connection false] } := by
      simp [threadStep, hping]
    exact ⟨_, .step hcheck (.step hexpiry (.step hfailed hretire)), hnothing.1, hnothing.2,
      hnothing.3⟩

/-- **All rounds** before the first usable entry. -/
theorem alone_retireAll (afterWait : Bool) (hopen : p.shuttingDown = false)
    (htotal : p.idle.length ≤ p.total) (bad : List Entry) (hidle : p.idle = bad ++ rest)
    (hbad : ∀ entry ∈ bad, unusable config env deadline entry = true) :
    ∃ steps afterWait', Alone config false env p (.acqCheck deadline afterWait) steps
      (p.retired bad.length) (.acqCheck deadline afterWait') ∧ GivesNothing steps := by
  induction bad generalizing p afterWait with
  | nil => exact ⟨[], afterWait, .refl _ _, rfl, rfl, rfl⟩
  | cons entry bad ih =>
    obtain ⟨hentry, hrest⟩ := List.forall_mem_cons.mp hbad
    obtain ⟨steps, hround, hnothing⟩ := alone_retire afterWait hopen htotal hidle hentry
    have hidle' : (p.retired 1).idle = bad ++ rest := by rw [Pool.retired, hidle]; rfl
    have htotal' : (p.retired 1).idle.length ≤ (p.retired 1).total := by
      change (p.idle.drop 1).length ≤ p.total - 1
      rw [List.length_drop]
      omega
    obtain ⟨steps', afterWait', hrounds, hnothing'⟩ := ih (p := p.retired 1) false hopen
      htotal' hidle' hrest
    have hretired : (p.retired 1).retired bad.length = p.retired (entry :: bad).length := by
      simp only [Pool.retired, List.drop_drop, List.length_cons, Pool.mk.injEq, true_and, and_true]
      exact ⟨congrArg p.idle.drop (Nat.add_comm _ _), by omega, by omega⟩
    rw [hretired] at hrounds
    exact ⟨steps ++ steps', afterWait', hround.trans hrounds, hnothing.append hnothing'⟩

theorem alone_handOut (afterWait : Bool) (hopen : p.shuttingDown = false)
    (hidle : p.idle = entry :: rest) (husable : unusable config env deadline entry = false) :
    ∃ steps, Alone config false env p (.acqCheck deadline afterWait) steps
      { p with idle := rest, active := p.active + 1, acquired := p.acquired + 1 } .outside ∧
        lentIn steps = [entry] ∧ factoryCalls steps = 0 := by
  let taken : Pool := { p with idle := rest, active := p.active + 1 }
  rw [unusable, Bool.or_eq_false_iff, Bool.not_eq_false'] at husable
  have hcheck : threadStep config false (env (.acqCheck deadline afterWait)) p
      (.acqCheck deadline afterWait) =
      some { pool := taken, next := .acqExpiry deadline entry } := by
    simp [threadStep, hopen, hidle, taken]
  have hexpiry : threadStep config false (env (.acqExpiry deadline entry)) taken
      (.acqExpiry deadline entry) = some { pool := taken, next := .acqPing deadline entry } :=
    if_neg (Bool.eq_false_iff.mp husable.1)
  have hping : threadStep config false (env (.acqPing deadline entry)) taken
      (.acqPing deadline entry) = some { pool := taken, next := .acqFinish deadline entry,
                                         events := [.pinged entry.connection true] } := by
    simp [threadStep, husable.2]
  have hfinish : threadStep config false (env (.acqFinish deadline entry)) taken
      (.acqFinish deadline entry) =
        some { pool := { taken with acquired := taken.acquired + 1 }, next := .outside,
               lent := some entry, events := [.acquired (some entry.connection)] } := by
    simp [threadStep, taken, hopen, home]
  exact ⟨_, .step hcheck (.step hexpiry (.step hping (.single hfinish))), rfl, rfl⟩

theorem alone_create (afterWait : Bool) (hopen : p.shuttingDown = false) (hidle : p.idle = [])
    (hroom : p.total < config.maxSize) (hsucceeds : (env (.acqCreate deadline)).succeeds = true) :
    ∃ steps entry, Alone config false env p (.acqCheck deadline afterWait) steps
        { p with
          total := p.total + 1
          active := p.active + 1
          created := p.created + 1
          acquired := p.acquired + 1 } .outside ∧
      madeIn (eventsIn steps) = [entry.connection] ∧ lentIn steps = [entry] ∧
      factoryCalls steps = 1 := by
  let reserved : Pool := { p with total := p.total + 1, active := p.active + 1 }
  let e := env (.acqCreate deadline)
  have hcheck : threadStep config false (env (.acqCheck deadline afterWait)) p
      (.acqCheck deadline afterWait) = some { pool := reserved, next := .acqCreate deadline } := by
    simp [threadStep, hopen, hidle, hroom, reserved]
  have hcreate : threadStep config false e reserved (.acqCreate deadline) =
      some { pool := reserved, next := .acqCount deadline ⟨e.made, e.now, e.now⟩,
             events := [.made e.made] } := if_pos hsucceeds
  let counted : Pool := { reserved with created := reserved.created + 1 }
  have hfinish : threadStep config false (env (.acqFinish deadline ⟨e.made, e.now, e.now⟩)) counted
      (.acqFinish deadline ⟨e.made, e.now, e.now⟩) =
        some { pool := { counted with acquired := counted.acquired + 1 }, next := .outside,
               lent := some ⟨e.made, e.now, e.now⟩, events := [.acquired (some e.made)] } := by
    simp [threadStep, counted, reserved, hopen, home]
  exact ⟨_, _, .step hcheck (.step hcreate (.step rfl (.single hfinish))), rfl, rfl, rfl⟩

/-- If the factory fails, the reservation is rolled back. -/
theorem alone_createFails (afterWait : Bool) (hopen : p.shuttingDown = false) (hidle : p.idle = [])
    (hroom : p.total < config.maxSize)
    (hfails : (env (.acqCreate deadline)).succeeds = false) :
    ∃ steps, Alone config false env p (.acqCheck deadline afterWait) steps p .outside ∧
      madeIn (eventsIn steps) = [] ∧ lentIn steps = [] ∧ factoryCalls steps = 1 := by
  let reserved : Pool := { p with total := p.total + 1, active := p.active + 1 }
  have hcheck : threadStep config false (env (.acqCheck deadline afterWait)) p
      (.acqCheck deadline afterWait) = some { pool := reserved, next := .acqCreate deadline } := by
    simp [threadStep, hopen, hidle, hroom, reserved]
  have hcreate : threadStep config false (env (.acqCreate deadline)) reserved
      (.acqCreate deadline) = some { pool := reserved, next := .acqRollback } :=
    if_neg (Bool.eq_false_iff.mp hfails)
  have hrollback : threadStep config false (env .acqRollback) reserved .acqRollback =
      some (.slotFreed p .outside [.acquired none]) := by
    rw [threadStep, Pool.subActive_subTotal (Nat.le_add_left 1 p.active)
      (Nat.le_add_left 1 p.total)]
    rfl
  exact ⟨_, .step hcheck (.step hcreate (.single hrollback)), rfl, rfl, rfl⟩

theorem alone_wait (afterWait : Bool) (hopen : p.shuttingDown = false) (hidle : p.idle = [])
    (hfull : p.total = config.maxSize) :
    ∃ steps, Alone config false env p (.acqCheck deadline afterWait) steps
      { p with waiting := p.waiting + 1 } (.acqBlocked deadline) := by
  have hcheck : threadStep config false (env (.acqCheck deadline afterWait)) p
      (.acqCheck deadline afterWait) =
        some { pool := { p with waiting := p.waiting + 1 }, next := .acqBlocked deadline } := by
    simp [threadStep, hopen, hidle, hfull]
  exact ⟨_, .single hcheck⟩

theorem alone_timeout (hopen : p.shuttingDown = false) (hidle : p.idle = [])
    (hfull : p.total = config.maxSize) :
    ∃ steps, Alone config false env { p with waiting := p.waiting + 1 } (.acqWoken deadline true)
        steps { p with timeouts := p.timeouts + 1 } .outside ∧
      lentIn steps = [] ∧ factoryCalls steps = 0 := by
  have hwoken : threadStep config false (env (.acqWoken deadline true))
      { p with waiting := p.waiting + 1 } (.acqWoken deadline true) =
        some { pool := { p with timeouts := p.timeouts + 1 }, next := .outside,
               events := [.acquired none] } := by
    rw [threadStep, Pool.subWaiting_of_pos (Nat.le_add_left 1 p.waiting)]
    simp [Pool.ready, hopen, hidle, hfull, home]
  exact ⟨_, .single hwoken, rfl, rfl⟩

/-- How many idle entries the call finds unusable before the first usable one. -/
def unusableCount (config : Config) (env : Pc → Env) (deadline : ℤ) (p : Pool) : ℕ :=
  (p.idle.takeWhile (unusable config env deadline)).length

/-- The call comes to the round that decides, after a round for each unusable entry. -/
theorem alone_retireUnusable (config : Config) (env : Pc → Env) (deadline : ℤ)
    (hopen : p.shuttingDown = false) (htotal : p.idle.length ≤ p.total) :
    ∃ steps afterWait, Alone config false env p (.acqCheck deadline false) steps
        (p.retired (unusableCount config env deadline p)) (.acqCheck deadline afterWait) ∧
      GivesNothing steps :=
  alone_retireAll false hopen htotal _ List.takeWhile_append_dropWhile.symm
    fun _ hmem ↦ List.mem_takeWhile_imp hmem

theorem drop_unusableCount (config : Config) (env : Pc → Env) (deadline : ℤ) (p : Pool) :
    p.idle.drop (unusableCount config env deadline p) =
      p.idle.dropWhile (unusable config env deadline) := by
  conv_lhs => rw [← List.takeWhile_append_dropWhile (p := unusable config env deadline)
    (l := p.idle)]
  exact List.drop_left

theorem alone_usable (hopen : p.shuttingDown = false) (htotal : p.idle.length ≤ p.total) {k : ℕ}
    (hk : k = unusableCount config env deadline p) (hentry : p.idle.drop k = entry :: rest) :
    ∃ steps, Alone config false env p (.acqCheck deadline false) steps
        { p with
          idle := rest
          total := p.total - k
          active := p.active + 1
          destroyed := p.destroyed + k
          acquired := p.acquired + 1 } .outside ∧
      lentIn steps = [entry] ∧ factoryCalls steps = 0 := by
  subst hk
  obtain ⟨steps, afterWait, hrounds, hnothing⟩ :=
    alone_retireUnusable config env deadline hopen htotal
  have husable : unusable config env deadline entry = false := by
    have hhead := List.head?_dropWhile_not (unusable config env deadline) p.idle
    rw [← drop_unusableCount, hentry] at hhead
    exact hhead
  obtain ⟨steps', hlast, hlent, hcalls⟩ := alone_handOut
    (p := p.retired (unusableCount config env deadline p)) afterWait hopen hentry husable
  refine ⟨steps ++ steps', hrounds.trans hlast, ?_, ?_⟩
  · rw [hnothing.lentIn_append, hlent]
  · rw [hnothing.factoryCalls_append, hcalls]

/-- When all entries are retired there is none left, and there is room if there was any. -/
theorem retired_all (hcap : p.total ≤ config.maxSize) (htotal : p.idle.length ≤ p.total)
    {k : ℕ} (hall : k = p.idle.length) (hroom : 0 < k ∨ p.total < config.maxSize) :
    p.retired k = { p with idle := [], total := p.total - k, destroyed := p.destroyed + k } ∧
      p.total - k < config.maxSize := by
  refine ⟨?_, by omega⟩
  rw [Pool.retired, List.drop_eq_nil_of_le hall.ge]

theorem alone_noneUsable (hopen : p.shuttingDown = false) (hcap : p.total ≤ config.maxSize)
    (htotal : p.idle.length ≤ p.total) {k : ℕ} (hk : k = unusableCount config env deadline p)
    (hall : k = p.idle.length) (hroom : 0 < k ∨ p.total < config.maxSize)
    (hsucceeds : (env (.acqCreate deadline)).succeeds = true) :
    ∃ steps entry, Alone config false env p (.acqCheck deadline false) steps
        { p with
          idle := []
          total := p.total - k + 1
          active := p.active + 1
          created := p.created + 1
          destroyed := p.destroyed + k
          acquired := p.acquired + 1 } .outside ∧
      madeIn (eventsIn steps) = [entry.connection] ∧ lentIn steps = [entry] ∧
      factoryCalls steps = 1 := by
  subst hk
  obtain ⟨steps, afterWait, hrounds, hnothing⟩ :=
    alone_retireUnusable config env deadline hopen htotal
  obtain ⟨hretired, hroom'⟩ := retired_all hcap htotal hall hroom
  rw [hretired] at hrounds
  obtain ⟨steps', entry, hlast, hmade, hlent, hcalls⟩ :=
    alone_create (p := { p with idle := [], total := _, destroyed := _ }) afterWait hopen rfl hroom'
      hsucceeds
  refine ⟨steps ++ steps', entry, hrounds.trans hlast, ?_, ?_, ?_⟩
  · rw [hnothing.madeIn_append, hmade]
  · rw [hnothing.lentIn_append, hlent]
  · rw [hnothing.factoryCalls_append, hcalls]

theorem alone_factoryFails (hopen : p.shuttingDown = false) (hcap : p.total ≤ config.maxSize)
    (htotal : p.idle.length ≤ p.total) {k : ℕ} (hk : k = unusableCount config env deadline p)
    (hall : k = p.idle.length) (hroom : 0 < k ∨ p.total < config.maxSize)
    (hfails : (env (.acqCreate deadline)).succeeds = false) :
    ∃ steps, Alone config false env p (.acqCheck deadline false) steps
        { p with idle := [], total := p.total - k, destroyed := p.destroyed + k } .outside ∧
      lentIn steps = [] ∧ factoryCalls steps = 1 := by
  subst hk
  obtain ⟨steps, afterWait, hrounds, hnothing⟩ :=
    alone_retireUnusable config env deadline hopen htotal
  obtain ⟨hretired, hroom'⟩ := retired_all hcap htotal hall hroom
  rw [hretired] at hrounds
  obtain ⟨steps', hlast, -, hlent, hcalls⟩ :=
    alone_createFails (p := { p with idle := [], total := _, destroyed := _ }) afterWait hopen rfl
      hroom' hfails
  refine ⟨steps ++ steps', hrounds.trans hlast, ?_, ?_⟩
  · rw [hnothing.lentIn_append, hlent]
  · rw [hnothing.factoryCalls_append, hcalls]

/-- The call waits only if it finds no idle entry and no room. -/
theorem full_of_waits (hopen : p.shuttingDown = false) (hcap : p.total ≤ config.maxSize)
    (htotal : p.idle.length ≤ p.total) {steps : List (Pc × Effect)} {p' : Pool} {deadline' : ℤ}
    (hwaits : Alone config false env p (.acqCheck deadline false) steps p'
      (.acqBlocked deadline')) : p.idle = [] ∧ p.total = config.maxSize := by
  by_contra hnot
  -- the call returns otherwise, and there is one way to go
  have hreturns : ∃ steps p', Alone config false env p (.acqCheck deadline false) steps p'
      .outside := by
    cases hafter : p.idle.drop (unusableCount config env deadline p) with
    | cons entry rest =>
      obtain ⟨steps, hreturn, -⟩ := alone_usable hopen htotal rfl hafter
      exact ⟨_, _, hreturn⟩
    | nil =>
      have hle : unusableCount config env deadline p ≤ p.idle.length :=
        (List.takeWhile_sublist _).length_le
      have hall := hle.antisymm (List.drop_eq_nil_iff.mp hafter)
      have hroom : 0 < unusableCount config env deadline p ∨ p.total < config.maxSize := by
        rw [hall]
        by_cases hidle : p.idle = []
        · exact Or.inr (lt_of_le_of_ne hcap fun hfull ↦ hnot ⟨hidle, hfull⟩)
        · exact Or.inl (List.length_pos_iff.mpr hidle)
      cases hfactory : (env (.acqCreate deadline)).succeeds with
      | true =>
        obtain ⟨steps, _, hreturn, -⟩ :=
          alone_noneUsable hopen hcap htotal rfl hall hroom hfactory
        exact ⟨_, _, hreturn⟩
      | false =>
        obtain ⟨steps, hreturn, -⟩ := alone_factoryFails hopen hcap htotal rfl hall hroom hfactory
        exact ⟨_, _, hreturn⟩
  obtain ⟨steps', p'', hreturn⟩ := hreturns
  have hsame := hwaits.unique rfl hreturn rfl
  cases hsame.2.2

/-- **`tryAcquireFor` without interference.** Let `k` idle entries come before the first usable one.
If there is a usable one, it is handed out and those before it are retired. If there is none, and
then there is room, the factory is called once. Only a call that finds no idle entry and no room
waits; if nothing happens until its deadline, it returns without a connection. -/
theorem tryAcquireFor_alone (config : Config) (env : Pc → Env) (p : Pool) (deadline : ℤ)
    (hopen : p.shuttingDown = false) (htotal : p.total = p.idle.length + p.active)
    (hcap : p.total ≤ config.maxSize) :
    let k := unusableCount config env deadline p
    (∀ entry rest, p.idle.drop k = entry :: rest →
      ∃ steps, Alone config false env p (.acqCheck deadline false) steps
          { p with
            idle := rest
            total := p.total - k
            active := p.active + 1
            destroyed := p.destroyed + k
            acquired := p.acquired + 1 } .outside ∧
        lentIn steps = [entry] ∧ factoryCalls steps = 0) ∧
    (k = p.idle.length → 0 < k ∨ p.total < config.maxSize →
      (env (.acqCreate deadline)).succeeds = true →
      ∃ steps entry, Alone config false env p (.acqCheck deadline false) steps
          { p with
            idle := []
            total := p.total - k + 1
            active := p.active + 1
            created := p.created + 1
            destroyed := p.destroyed + k
            acquired := p.acquired + 1 } .outside ∧
        madeIn (eventsIn steps) = [entry.connection] ∧ lentIn steps = [entry] ∧
        factoryCalls steps = 1) ∧
    (k = p.idle.length → 0 < k ∨ p.total < config.maxSize →
      (env (.acqCreate deadline)).succeeds = false →
      ∃ steps, Alone config false env p (.acqCheck deadline false) steps
          { p with idle := [], total := p.total - k, destroyed := p.destroyed + k } .outside ∧
        lentIn steps = [] ∧ factoryCalls steps = 1) ∧
    (∀ steps p' deadline', Alone config false env p (.acqCheck deadline false) steps p'
      (.acqBlocked deadline') → p.idle = [] ∧ p.total = config.maxSize) ∧
    (p.idle = [] → p.total = config.maxSize →
      (∃ steps, Alone config false env p (.acqCheck deadline false) steps
        { p with waiting := p.waiting + 1 } (.acqBlocked deadline)) ∧
      ∃ steps, Alone config false env { p with waiting := p.waiting + 1 } (.acqWoken deadline true)
          steps { p with timeouts := p.timeouts + 1 } .outside ∧
        lentIn steps = [] ∧ factoryCalls steps = 0) := by
  have hidle : p.idle.length ≤ p.total := by omega
  exact ⟨fun _ _ ↦ alone_usable hopen hidle rfl, alone_noneUsable hopen hcap hidle rfl,
    alone_factoryFails hopen hcap hidle rfl, fun _ _ _ ↦ full_of_waits hopen hcap hidle,
    fun hnone hfull ↦ ⟨alone_wait false hopen hnone hfull, alone_timeout hopen hnone hfull⟩⟩

end Acquire

/-- Two idle entries, of which the first has been idle for too long. -/
def oneExpired : Pool where
  idle := [⟨0, 0, 0⟩, ⟨1, 0, 10⟩]
  total := 3
  active := 1
  created := 3

theorem tryAcquireFor_alone_oneExpired :
    ∃ steps, Alone {} false (fun _ ↦ ⟨30 * 10 ^ 9, 3, false, true⟩) oneExpired (.acqCheck 0 false)
        steps { oneExpired with idle := [], total := 2, active := 2, destroyed := 1, acquired := 1 }
        .outside ∧
      lentIn steps = [⟨1, 0, 10⟩] ∧ factoryCalls steps = 0 :=
  (tryAcquireFor_alone {} (fun _ ↦ ⟨30 * 10 ^ 9, 3, false, true⟩) oneExpired 0 rfl rfl
    (by decide)).1 ⟨1, 0, 10⟩ [] (by decide)

end ConnectionPool

end FoundationComponents
