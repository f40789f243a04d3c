import FoundationComponents.ConnectionPool.Alone

/-!
# A round of the cleaner

A round sweeps the deque of idle connections and then fills it up. The two loops look at different
numbers: the sweep stops taking expired entries out when `total` is down to `min_idle`, whatever is
idle of it, and `warmUp` stops when `idle` is up to `min_idle` or `total` up to `max_size`.

When no other thread interferes, the sweep takes out the expired entries from the front as long as
it may, each by an `erase` that leaves the others in their order. The stopping condition of the loop
moves with every entry taken, so the number of entries is fixed at the start: as many as have
expired or as `total` exceeds `min_idle`, whichever is less.
-/

namespace FoundationComponents

namespace ConnectionPool

/-! ## Erasing from the front -/

section Erase

variable {α : Type*} {q : α → Bool} {x : α} {l : List α}

/-- The list without the first `m` elements that satisfy the test. -/
def eraseFirst (q : α → Bool) (m : ℕ) (l : List α) : List α := (fun l ↦ l.eraseP q)^[m] l

private theorem eraseFirst_cons_of_pos (h : q x = true) (m : ℕ) :
    eraseFirst q (m + 1) (x :: l) = eraseFirst q m l := by
  rw [eraseFirst, Function.iterate_succ_apply, List.eraseP_cons_of_pos h, eraseFirst]

theorem eraseFirst_cons_of_neg (h : q x = false) (m : ℕ) :
    eraseFirst q m (x :: l) = x :: eraseFirst q m l := by
  induction m generalizing l with
  | zero => rfl
  | succ m ih =>
    rw [eraseFirst, Function.iterate_succ_apply,
      List.eraseP_cons_of_neg (Bool.eq_false_iff.mp h), ← eraseFirst, ih]
    rfl

private theorem length_eraseFirst {m : ℕ} (h : m ≤ l.countP q) :
    (eraseFirst q m l).length = l.length - m := by
  induction l generalizing m with
  | nil =>
    obtain rfl := Nat.le_zero.mp h
    rfl
  | cons x l ih =>
    cases hx : q x with
    | false =>
      rw [List.countP_cons_of_neg (Bool.eq_false_iff.mp hx)] at h
      have hle := List.countP_le_length (p := q) (l := l)
      rw [eraseFirst_cons_of_neg hx, List.length_cons, List.length_cons, ih h]
      omega
    | true =>
      cases m with
      | zero => rfl
      | succ m =>
        rw [List.countP_cons_of_pos hx] at h
        rw [eraseFirst_cons_of_pos hx, ih (Nat.le_of_succ_le_succ h), List.length_cons,
          Nat.add_sub_add_right]

theorem eraseFirst_sublist (q : α → Bool) (m : ℕ) (l : List α) :
    (eraseFirst q m l).Sublist l := by
  induction m generalizing l with
  | zero => exact List.Sublist.refl l
  | succ m ih => exact (ih (l.eraseP q)).trans List.eraseP_sublist

end Erase

/-! ## The sweep

The loop walks through the deque once and stops taking entries out when `total` is down to
`min_idle`, so what it takes are the first of those that have expired. -/

/-- The verdict of the sweep on an entry. -/
def expiredBy (config : Config) (now : ℤ) (entry : Entry) : Bool := shouldRetire config entry now

/-- The number of entries that a sweep takes out: those that have expired, as long as more than
`min_idle` connections are left. -/
def sweepCount (config : Config) (now : ℤ) (entries : List Entry) (total : ℕ) : ℕ :=
  min (entries.countP (expiredBy config now)) (total - config.minIdle)

/-- The pool and the stale entries that a sweep leaves, when it has `rest` before it. -/
def sweptFrom (config : Config) (now : ℤ) (rest : List Entry) (p : Pool) : Pool × List Entry :=
  let m := sweepCount config now rest p.total
  ({ p with
      idle := p.idle ++ eraseFirst (expiredBy config now) m rest
      total := p.total - m
      destroyed := p.destroyed + m }, (rest.filter (expiredBy config now)).take m)

/-- **The sweep.** The expired entries are taken out from the front. -/
theorem cleanupIdle_eq (config : Config) (now : ℤ) (rest : List Entry) (p : Pool) :
    Pool.cleanupIdle config now rest p = sweptFrom config now rest p := by
  induction rest generalizing p with
  | nil => simp [Pool.cleanupIdle, sweptFrom, sweepCount, eraseFirst]
  | cons entry rest ih =>
    rw [Pool.cleanupIdle]
    split
    · rename_i htaken
      obtain ⟨hexpired, hmore⟩ := htaken
      have hcount : sweepCount config now (entry :: rest) p.total =
          sweepCount config now rest (p.total - 1) + 1 := by
        rw [sweepCount, sweepCount, List.countP_cons_of_pos (p := expiredBy config now) hexpired]
        omega
      rw [Pool.subTotal_of_le (Nat.one_le_of_lt hmore), ih, sweptFrom, sweptFrom, hcount,
        eraseFirst_cons_of_pos (q := expiredBy config now) hexpired,
        List.filter_cons_of_pos (p := expiredBy config now) hexpired, List.take_succ_cons]
      simp only [Prod.mk.injEq, Pool.mk.injEq, true_and, and_true]
      omega
    · rename_i hkept
      rw [ih, sweptFrom, sweptFrom]
      cases hexpired : expiredBy config now entry with
      | false =>
        have hneg : ¬expiredBy config now entry = true := Bool.eq_false_iff.mp hexpired
        have hcount : sweepCount config now (entry :: rest) p.total =
            sweepCount config now rest p.total := by
          rw [sweepCount, sweepCount, List.countP_cons_of_neg hneg]
        rw [hcount, eraseFirst_cons_of_neg hexpired, List.filter_cons_of_neg hneg,
          List.append_assoc, List.singleton_append]
      | true =>
        -- no more than `min_idle` are left
        have hnone : p.total - config.minIdle = 0 :=
          Nat.sub_eq_zero_of_le (Nat.not_lt.mp fun hmore ↦ hkept ⟨hexpired, hmore⟩)
        simp [sweepCount, hnone, eraseFirst]

/-- The pool after a sweep. -/
def Pool.swept (config : Config) (now : ℤ) (p : Pool) : Pool :=
  let m := sweepCount config now p.idle p.total
  { p with
    idle := eraseFirst (expiredBy config now) m p.idle
    total := p.total - m
    destroyed := p.destroyed + m }

/-- The entries that a sweep takes out. -/
def Pool.stale (config : Config) (now : ℤ) (p : Pool) : List Entry :=
  (p.idle.filter (expiredBy config now)).take (sweepCount config now p.idle p.total)

theorem cleanupIdle_idle (config : Config) (now : ℤ) (p : Pool) :
    Pool.cleanupIdle config now p.idle { p with idle := [] } =
      (p.swept config now, p.stale config now) :=
  cleanupIdle_eq config now p.idle { p with idle := [] }

section Round

variable {config : Config} {b : Bool} {env : Pc → Env} {p : Pool}

theorem alone_closeStale (config : Config) (b : Bool) (env : Pc → Env) (p : Pool)
    (stale : List Entry) :
    ∃ steps, Alone config b env p (.cleanerClose stale) steps p (.warmCheck 0) ∧
      closedIn (eventsIn steps) = stale.map Entry.connection := by
  induction stale with
  | nil =>
    have hend : threadStep config b (env (.cleanerClose [])) p (.cleanerClose []) =
        some { pool := p, next := .warmCheck 0 } := rfl
    exact ⟨_, .single hend, rfl⟩
  | cons entry stale ih =>
    obtain ⟨steps, hrest, hclosed⟩ := ih
    refine ⟨_, .step rfl hrest, ?_⟩
    exact congrArg (entry.connection :: ·) hclosed

/-- **`cleanupIdle` without interference.** -/
theorem alone_cleanupIdle (config : Config) (b : Bool) (env : Pc → Env) (p : Pool) {now : ℤ}
    (hnow : (env .cleanerStamp).now = now) :
    ∃ steps, Alone config b env p .cleanerStamp steps (p.swept config now) (.warmCheck 0) ∧
      closedIn (eventsIn steps) = (p.stale config now).map Entry.connection := by
  obtain ⟨steps, hclose, hclosed⟩ :=
    alone_closeStale config b env (p.swept config now) (p.stale config now)
  have hstamp : threadStep config b (env .cleanerStamp) p .cleanerStamp =
      some { pool := p, next := .cleanerSweep now } := by
    rw [threadStep, hnow]
  have hsweep : threadStep config b (env (.cleanerSweep now)) p (.cleanerSweep now) =
      some { pool := p.swept config now, next := .cleanerClose (p.stale config now),
             available := if (p.stale config now).isEmpty then .nobody else .all } := by
    rw [threadStep, cleanupIdle_idle]
  exact ⟨_, .step hstamp (.step hsweep hclose), hclosed⟩

/-! ## Warming

Each round of `warmUp` looks at `idle` and `total` again. Without interference both grow by one, and
the number of connections to make goes down by one. -/

/-- The pool after `warmUp` has made some connections. -/
def Pool.warmedBy (p : Pool) (new : List Entry) : Pool :=
  { p with
    idle := p.idle ++ new
    total := p.total + new.length
    created := p.created + new.length }

/-- How many connections `warmUp` is to make. -/
def warmCount (config : Config) (p : Pool) : ℕ :=
  min (config.minIdle - p.idle.length) (config.maxSize - p.total)

theorem Pool.warmedBy_cons (p : Pool) (entry : Entry) (new : List Entry) :
    (p.warmedBy [entry]).warmedBy new = p.warmedBy (entry :: new) := by
  simp only [warmedBy, List.append_assoc, List.singleton_append, List.length_cons, List.length_nil,
    Pool.mk.injEq, true_and, and_true]
  omega

/-- One connection more leaves one less to make. -/
theorem warmCount_warmedBy (config : Config) (p : Pool) (entry : Entry) :
    warmCount config (p.warmedBy [entry]) = warmCount config p - 1 := by
  simp only [warmCount, Pool.warmedBy, List.length_append, List.length_cons, List.length_nil]
  omega

theorem threadStep_warmCheck (hopen : p.shuttingDown = false) (hcount : 0 < warmCount config p)
    (w : ℕ) : threadStep config b (env (.warmCheck w)) p (.warmCheck w) =
      some { pool := { p with total := p.total + 1 }, next := .warmCreate w } := by
  rw [warmCount, lt_min_iff] at hcount
  have hgo : ¬(p.shuttingDown = true ∨ p.idle.length ≥ config.minIdle ∨
      p.total ≥ config.maxSize) := by
    rw [hopen]
    simp only [Bool.false_eq_true, false_or, not_or]
    omega
  rw [threadStep, if_neg hgo]

theorem alone_warm (hopen : p.shuttingDown = false) (hcount : 0 < warmCount config p) {w : ℕ}
    (hsucceeds : (env (.warmCreate w)).succeeds = true) :
    ∃ steps entry, Alone config b env p (.warmCheck w) steps (p.warmedBy [entry])
      (.warmCheck (w + 1)) := by
  let e := env (.warmCreate w)
  let reserved : Pool := { p with total := p.total + 1 }
  have hcreate : threadStep config b e reserved (.warmCreate w) =
      some { pool := reserved, next := .warmPublish w ⟨e.made, e.now, e.now⟩,
             events := [.made e.made] } := if_pos hsucceeds
  have hpublish : threadStep config b (env (.warmPublish w ⟨e.made, e.now, e.now⟩)) reserved
      (.warmPublish w ⟨e.made, e.now, e.now⟩) =
        some { pool := p.warmedBy [⟨e.made, e.now, e.now⟩], next := .warmCheck (w + 1),
               available := .one } := by
    rw [threadStep, if_neg (Bool.eq_false_iff.mp hopen)]
    rfl
  exact ⟨_, _, .step (threadStep_warmCheck hopen hcount w) (.step hcreate (.single hpublish))⟩

theorem alone_warmMany {j : ℕ} (hopen : p.shuttingDown = false) (hj : j ≤ warmCount config p)
    {w : ℕ} (hsucceeds : ∀ i < j, (env (.warmCreate (w + i))).succeeds = true) :
    ∃ steps new, new.length = j ∧ Alone config b env p (.warmCheck w) steps (p.warmedBy new)
      (.warmCheck (w + j)) := by
  induction j generalizing p w with
  | zero =>
    refine ⟨[], [], rfl, ?_⟩
    rw [Pool.warmedBy, List.append_nil]
    exact .refl _ _
  | succ j ih =>
    obtain ⟨steps, entry, hone⟩ := alone_warm (b := b) hopen (Nat.lt_of_lt_of_le j.succ_pos hj)
      (hsucceeds 0 j.succ_pos)
    have hleft : j ≤ warmCount config (p.warmedBy [entry]) := by
      rw [warmCount_warmedBy]
      omega
    obtain ⟨steps', new, hlength, hrest⟩ := ih (p := p.warmedBy [entry]) hopen hleft
      (w := w + 1) fun i hi ↦ by
        rw [Nat.add_assoc, Nat.add_comm 1 i]
        exact hsucceeds (i + 1) (Nat.succ_lt_succ hi)
    rw [Pool.warmedBy_cons, Nat.add_assoc, Nat.add_comm 1 j] at hrest
    exact ⟨steps ++ steps', entry :: new, congrArg Nat.succ hlength, hone.trans hrest⟩

/-- What `warmUp` returned, if these are its sections. -/
def returned (steps : List (Pc × Effect)) : Option Event := (eventsIn steps).getLast?

theorem alone_warmDone (config : Config) (b : Bool) (env : Pc → Env)
    (hcount : warmCount config p = 0) (w : ℕ) :
    ∃ steps, Alone config b env p (.warmCheck w) steps p (home b) ∧
      eventsIn steps = [.warmedUp w] := by
  have hstop : p.shuttingDown = true ∨ p.idle.length ≥ config.minIdle ∨
      p.total ≥ config.maxSize := by
    rw [warmCount] at hcount
    omega
  have hreturn : threadStep config b (env (.warmCheck w)) p (.warmCheck w) =
      some { pool := p, next := home b, events := [.warmedUp w] } := by
    rw [threadStep, if_pos hstop]
  exact ⟨_, .single hreturn, rfl⟩

theorem alone_warmFails (hopen : p.shuttingDown = false) (hcount : 0 < warmCount config p) {w : ℕ}
    (hfails : (env (.warmCreate w)).succeeds = false) :
    ∃ steps, Alone config b env p (.warmCheck w) steps p (home b) ∧
      eventsIn steps = [.warmedUp w] := by
  let reserved : Pool := { p with total := p.total + 1 }
  have hcreate : threadStep config b (env (.warmCreate w)) reserved (.warmCreate w) =
      some { pool := reserved, next := .warmRollback w } := if_neg (Bool.eq_false_iff.mp hfails)
  have hrollback : threadStep config b (env (.warmRollback w)) reserved (.warmRollback w) =
      some { pool := p, next := home b, available := .one, events := [.warmedUp w] } := by
    rw [threadStep, Pool.subTotal_of_le (Nat.le_add_left 1 p.total)]
    rfl
  exact ⟨_, .step (threadStep_warmCheck hopen hcount w) (.step hcreate (.single hrollback)), rfl⟩

/-- **`warmUp` without interference.** It makes as many connections as it is to, or as the factory
delivers before it fails for the first time, and returns their number. -/
theorem alone_warmUp (config : Config) (b : Bool) (env : Pc → Env) (hopen : p.shuttingDown = false)
    {j : ℕ} (hj : j ≤ warmCount config p)
    (hsucceeds : ∀ i < j, (env (.warmCreate i)).succeeds = true)
    (hend : j = warmCount config p ∨ (env (.warmCreate j)).succeeds = false) :
    ∃ steps new, new.length = j ∧
      Alone config b env p (.warmCheck 0) steps (p.warmedBy new) (home b) ∧
      returned steps = some (.warmedUp j) := by
  obtain ⟨steps, new, hlength, hmade⟩ := alone_warmMany (b := b) (w := 0) hopen hj fun i hi ↦ by
    rw [Nat.zero_add]
    exact hsucceeds i hi
  rw [Nat.zero_add] at hmade
  have hleft : warmCount config (p.warmedBy new) = warmCount config p - j := by
    simp only [warmCount, Pool.warmedBy, List.length_append, hlength]
    omega
  have hlast : ∃ steps', Alone config b env (p.warmedBy new) (.warmCheck j) steps'
      (p.warmedBy new) (home b) ∧ eventsIn steps' = [.warmedUp j] := by
    by_cases hdone : j = warmCount config p
    · rw [← hdone, Nat.sub_self] at hleft
      exact alone_warmDone config b env hleft j
    · have hmore : 0 < warmCount config (p.warmedBy new) := by
        rw [hleft]
        omega
      exact alone_warmFails (p := p.warmedBy new) hopen hmore (hend.resolve_left hdone)
  obtain ⟨steps', hreturn, hevents⟩ := hlast
  refine ⟨steps ++ steps', new, hlength, hmade.trans hreturn, ?_⟩
  rw [returned, eventsIn, List.flatMap_append, ← eventsIn, ← eventsIn, hevents,
    List.getLast?_concat]

/-- Without interference every connection is idle or active before a sweep, and after it. -/
theorem swept_total (config : Config) (now : ℤ) (htotal : p.total = p.idle.length + p.active) :
    (p.swept config now).total = (p.swept config now).idle.length + p.active := by
  have hle : sweepCount config now p.idle p.total ≤ p.idle.countP (expiredBy config now) :=
    min_le_left _ _
  have hcount := List.countP_le_length (p := expiredBy config now) (l := p.idle)
  change p.total - sweepCount config now p.idle p.total = _
  rw [Pool.swept, length_eraseFirst hle]
  omega

/-- **A round of the cleaner.** The sweep takes out the first expired entries: all of them, or as
many as `total` exceeds `min_idle`. The `warmUp` that follows makes as many connections as are
missing and as there is room for, or as the factory delivers. -/
theorem cleanerRound_alone (config : Config) (env : Pc → Env) (p : Pool)
    (hopen : p.shuttingDown = false) (htotal : p.total = p.idle.length + p.active)
    (hcap : p.total ≤ config.maxSize) :
    let swept := p.swept config (env .cleanerStamp).now
    (∃ steps, Alone config true env p .cleanerStamp steps swept (.warmCheck 0) ∧
      closedIn (eventsIn steps) =
        (p.stale config (env .cleanerStamp).now).map Entry.connection) ∧
    ∀ b, ∀ j ≤ warmCount config swept, (∀ i < j, (env (.warmCreate i)).succeeds = true) →
      j = warmCount config swept ∨ (env (.warmCreate j)).succeeds = false →
      ∃ steps new, new.length = j ∧
        Alone config b env swept (.warmCheck 0) steps (swept.warmedBy new) (home b) ∧
        returned steps = some (.warmedUp j) ∧ (swept.warmedBy new).total ≤ config.maxSize ∧
        (j = warmCount config swept →
          min config.minIdle (config.maxSize - p.active) ≤ (swept.warmedBy new).idle.length) := by
  refine ⟨alone_cleanupIdle config true env p rfl, fun b j hj hsome hend ↦ ?_⟩
  obtain ⟨steps, new, hnew, hwarm, hreturned⟩ :=
    alone_warmUp (p := p.swept config _) config b env hopen hj hsome hend
  have hswept := swept_total config (env .cleanerStamp).now htotal
  have hle : (p.swept config (env .cleanerStamp).now).total ≤ p.total := Nat.sub_le _ _
  rw [warmCount] at hj
  refine ⟨steps, new, hnew, hwarm, hreturned, ?_, fun hall ↦ ?_⟩
  · rw [Pool.warmedBy, hnew]
    dsimp only
    omega
  · rw [warmCount] at hall
    rw [Pool.warmedBy, List.length_append, hnew]
    omega

end Round

/-- A deque of three entries, two of which have been idle for too long; one may be taken out. -/
def twoExpired : Pool where
  idle := [⟨0, 0, 0⟩, ⟨1, 0, 10⟩, ⟨2, 0, 0⟩]
  total := 4
  active := 1
  created := 4

theorem cleanerRound_alone_twoExpired :
    ∃ steps, Alone { minIdle := 3 } true (fun _ ↦ ⟨30 * 10 ^ 9, 4, false, true⟩) twoExpired
        .cleanerStamp steps
        { twoExpired with idle := [⟨1, 0, 10⟩, ⟨2, 0, 0⟩], total := 3, destroyed := 1 }
        (.warmCheck 0) ∧
      closedIn (eventsIn steps) = [0] :=
  (cleanerRound_alone { minIdle := 3 } (fun _ ↦ ⟨30 * 10 ^ 9, 4, false, true⟩) twoExpired rfl rfl
    (by decide)).1

end ConnectionPool

end FoundationComponents
