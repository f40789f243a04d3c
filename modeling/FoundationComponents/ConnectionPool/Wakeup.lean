import FoundationComponents.ConnectionPool.Counters

/-!
# No wakeup is lost

A borrower blocks when no connection is idle and no slot is free, and it is woken when one of the
two appears. A notification is not addressed to the opening that caused it: a newcomer may take the
connection first, and a thread that timed out may take it after all. What does hold is a count. As
long as somebody is blocked, the openings do not outnumber the threads that have left the wait and
have not looked again.

Every section that makes an opening notifies one thread, so the count is kept; a thread that looks
again either takes an opening or finds none; and a section that notifies everybody leaves nobody
blocked. A thread that waits in `shutdown` for the active connections is covered in the same way.
-/

namespace FoundationComponents

namespace ConnectionPool

/-! ## Openings and answers

A thread that has left the wait has yet to look, whether it was notified, timed out or woke up for
no reason. Each of them answers for one opening. -/

/-- What a borrower can get: the idle connections and the free slots. -/
def Pool.openings (config : Config) (p : Pool) : ℕ := p.idle.length + (config.maxSize - p.total)

/-- Has left the blocked state of `available.wait_until` and has not executed the acquire check
again. -/
def Pc.isAnswering : Pc → Bool
  | .acqWoken _ _ => true
  | .acqCheck _ afterWait => afterWait
  | _ => false

/-- Blocked in `shutdown_done.wait`, not notified. -/
def Pc.isShutdownBlocked : Pc → Bool
  | .shutdownBlocked => true
  | _ => false

/-- How many blocked threads start to answer. -/
def Notify.answers : Notify → ℕ
  | .one => 1
  | _ => 0

/-! ## One section

A section makes at most one opening for each notification. The exception is `shutdown`, which
notifies everybody. -/

section Offered

variable {config : Config} {b : Bool} {env : Env} {p : Pool} {pc : Pc} {e : Effect}

/-- How a step trades openings against answers. -/
structure Offered (config : Config) (p : Pool) (pc : Pc) (e : Effect) : Prop where
  /-- a pool that is shutting down stays so -/
  shuttingDown : e.pool.shuttingDown = false → p.shuttingDown = false
  /-- nothing is open, or everybody is woken, or there are as many more answers as openings -/
  openings : e.pool.shuttingDown = false →
    e.pool.openings config = 0 ∨ e.available = .all ∨
      e.next.isBlocked = false ∧
        e.pool.openings config + pc.isAnswering.toNat ≤
          p.openings config + e.next.isAnswering.toNat + e.available.answers
  /-- the last active connection is announced -/
  active : e.pool.active = 0 → e.shutdownDone = true ∨ p.active = 0
  blocks : e.next.isShutdownBlocked = true → 0 < e.pool.active

private theorem isBlocked_home (b : Bool) : (home b).isBlocked = false := by
  cases b <;> rfl

private theorem isShutdownBlocked_home (b : Bool) : (home b).isShutdownBlocked = false := by
  cases b <;> rfl

private theorem offered_quiet (hpc : pc.isAnswering = false) (hblocked : e.next.isBlocked = false)
    (hdone : e.next.isShutdownBlocked = false)
    (hopenings : e.pool.openings config ≤ p.openings config) (hactive : p.active ≤ e.pool.active)
    (hclosed : e.pool.shuttingDown = false → p.shuttingDown = false) :
    Offered config p pc e := by
  refine ⟨hclosed, fun _ ↦ Or.inr (Or.inr ⟨hblocked, ?_⟩), fun hzero ↦ Or.inr ?_, fun hnext ↦ ?_⟩
  · rw [hpc]
    exact hopenings.trans (by omega)
  · omega
  · rw [hdone] at hnext
    cases hnext

theorem offered_one (hpc : pc.isAnswering = false) (hblocked : e.next.isBlocked = false)
    (hdone : e.next.isShutdownBlocked = false) (hone : e.available = .one)
    (hopenings : e.pool.openings config ≤ p.openings config + 1)
    (hactive : e.pool.active = 0 → e.shutdownDone = true ∨ p.active = 0)
    (hclosed : e.pool.shuttingDown = false → p.shuttingDown = false) :
    Offered config p pc e := by
  refine ⟨hclosed, fun _ ↦ Or.inr (Or.inr ⟨hblocked, ?_⟩), hactive, fun hnext ↦ ?_⟩
  · rw [hpc, hone]
    exact hopenings.trans (by simp [Notify.answers])
  · rw [hdone] at hnext
    cases hnext

private theorem openings_slotFreed (p : Pool) :
    Pool.openings config { p with active := p.active - 1, total := p.total - 1 } ≤
      p.openings config + 1 := by
  simp only [Pool.openings]
  omega

/-- **The openings and the answers of one section.** -/
theorem threadStep_offered (hc : Covers config p pc)
    (h : threadStep config b env p pc = some e) : Offered config p pc e := by
  obtain ⟨hactive, htotal, hwaiting, hcap⟩ := hc
  have hblocked := isBlocked_home b
  have hdone := isShutdownBlocked_home b
  cases pc with
  | outside | acqBlocked _ | cleanerBlocked _ | cleanerDone | shutdownBlocked => cases h
  | acqCheck deadline afterWait =>
    -- an answer ends here: it takes an opening, or there is none
    simp only [threadStep] at h
    split at h
    · rename_i hclosed
      obtain rfl := Option.some.inj h
      refine ⟨id, fun hopen ↦ ?_, Or.inr, fun hnext ↦ Bool.noConfusion (hdone.symm.trans hnext)⟩
      exact Bool.noConfusion (hclosed.symm.trans hopen)
    split at h
    · rename_i entry rest hidle
      obtain rfl := Option.some.inj h
      refine ⟨id, fun _ ↦ Or.inr (Or.inr ⟨rfl, ?_⟩), fun hzero ↦ absurd hzero (Nat.succ_ne_zero _),
        Bool.noConfusion⟩
      have hle := Bool.toNat_le afterWait
      simp only [Pc.isAnswering, Pool.openings, hidle, List.length_cons, Bool.toNat_false]
      omega
    · rename_i hidle
      split at h <;> obtain rfl := Option.some.inj h
      · refine ⟨id, fun _ ↦ Or.inr (Or.inr ⟨rfl, ?_⟩),
          fun hzero ↦ absurd hzero (Nat.succ_ne_zero _), Bool.noConfusion⟩
        have hle := Bool.toNat_le afterWait
        simp only [Pc.isAnswering, Pool.openings, Bool.toNat_false]
        omega
      · refine ⟨id, fun _ ↦ Or.inl ?_, Or.inr, Bool.noConfusion⟩
        simp only [Pool.openings, hidle, List.length_nil]
        omega
  | acqWoken deadline timedOut =>
    simp only [threadStep] at h
    split at h
    · obtain rfl := Option.some.inj h
      exact ⟨id, fun _ ↦ Or.inr (Or.inr ⟨rfl, Nat.le_refl _⟩), Or.inr, Bool.noConfusion⟩
    -- the predicate of the wait is false: nothing is open
    · rename_i hready
      have hnone : p.openings config = 0 := by
        rw [Pool.ready, Bool.or_eq_true, Bool.or_eq_true, not_or, not_or] at hready
        obtain ⟨⟨-, hidle⟩, hfull⟩ := hready
        rw [decide_eq_true_iff] at hfull
        rw [Bool.not_eq_true', Bool.not_eq_false, List.isEmpty_iff] at hidle
        rw [Pool.openings, hidle, List.length_nil]
        omega
      split at h <;> obtain rfl := Option.some.inj h
      · exact ⟨id, fun _ ↦ Or.inl hnone, Or.inr,
          fun hnext ↦ Bool.noConfusion (hdone.symm.trans hnext)⟩
      · exact ⟨id, fun _ ↦ Or.inl hnone, Or.inr, Bool.noConfusion⟩
  | acqRollback =>
    have hone : 1 ≤ p.active := hactive
    have htotal : p.idle.length + p.active ≤ p.total := htotal
    obtain rfl := Option.some.inj h
    rw [Effect.slotFreed, Pool.subActive_subTotal hone (by omega)]
    exact offered_one rfl hblocked hdone rfl (openings_slotFreed p)
      (fun hzero ↦ Or.inl (decide_eq_true hzero)) id
  | retireCount resume =>
    have hone : 1 ≤ p.active := hactive
    have htotal : p.idle.length + p.active ≤ p.total := htotal
    simp only [threadStep, Pool.subActive_subTotal hone (show 1 ≤ p.total by omega)] at h
    split at h <;> obtain rfl := Option.some.inj h
    · exact offered_one rfl rfl rfl rfl (openings_slotFreed p)
        (fun hzero ↦ Or.inl (decide_eq_true hzero)) id
    · exact offered_one rfl hblocked hdone rfl (openings_slotFreed p)
        (fun hzero ↦ Or.inl (decide_eq_true hzero)) id
  | releaseReturn entry reachedLifetime =>
    have hone : 1 ≤ p.active := hactive
    have htotal : p.idle.length + p.active ≤ p.total := htotal
    simp only [threadStep] at h
    split at h
    · rw [Pool.subActive_subTotal hone (by omega)] at h
      obtain rfl := Option.some.inj h
      exact offered_one rfl rfl rfl rfl (openings_slotFreed p)
        (fun hzero ↦ Or.inl (decide_eq_true hzero)) id
    · rw [Pool.subActive_of_pos hone] at h
      obtain rfl := Option.some.inj h
      refine offered_one rfl hblocked hdone rfl ?_ (fun hzero ↦ Or.inl (decide_eq_true hzero)) id
      simp only [Effect.slotFreed, Pool.openings, List.length_append, List.length_singleton]
      omega
  | warmRollback warmed =>
    have htotal : p.idle.length + p.active + 1 ≤ p.total := htotal
    obtain rfl := Option.some.inj h
    rw [Pool.subTotal_of_le (show 1 ≤ p.total by omega)]
    refine offered_one rfl hblocked hdone rfl ?_ Or.inr id
    simp only [Pool.openings]
    omega
  | warmPublish warmed entry =>
    have htotal : p.idle.length + p.active + 1 ≤ p.total := htotal
    simp only [threadStep, Pool.subTotal_of_le (show 1 ≤ p.total by omega)] at h
    split at h
    · rename_i hclosed
      obtain rfl := Option.some.inj h
      exact ⟨id, fun hopen ↦ Bool.noConfusion (hclosed.symm.trans hopen), Or.inr, Bool.noConfusion⟩
    · obtain rfl := Option.some.inj h
      refine offered_one rfl rfl rfl rfl ?_ Or.inr id
      simp only [Pool.openings, List.length_append, List.length_singleton]
      omega
  | warmCheck warmed =>
    simp only [threadStep] at h
    split at h <;> obtain rfl := Option.some.inj h
    · exact offered_quiet rfl hblocked hdone (Nat.le_refl _) (Nat.le_refl _) id
    · refine offered_quiet rfl rfl rfl ?_ (Nat.le_refl _) id
      simp only [Pool.openings]
      omega
  | cleanerSweep now =>
    -- what is swept was idle: its slots become free, and everybody is woken
    have htotal : p.idle.length + p.active ≤ p.total := htotal
    obtain rfl := Option.some.inj h
    obtain ⟨hpool, hperm, hlen⟩ := Pool.cleanupIdle_spec config now { p with idle := [] }
      (show p.idle.length ≤ p.total by omega)
    have hlength := hperm.length_eq
    rw [List.nil_append, List.length_append] at hlength
    refine offered_quiet rfl rfl rfl ?_ ?_ ?_
    · dsimp only
      rw [hpool, Pool.openings, Pool.openings]
      dsimp only
      omega
    · dsimp only
      rw [hpool]
    · dsimp only
      rw [hpool]
      exact id
  | shutdownSet =>
    obtain rfl := Option.some.inj h
    exact ⟨Bool.noConfusion, fun _ ↦ Or.inr (Or.inl rfl), Or.inr, Bool.noConfusion⟩
  | shutdownCheck =>
    have htotal : p.idle.length + p.active ≤ p.total := htotal
    simp only [threadStep, Pool.subTotal_of_le (show p.idle.length ≤ p.total by omega)] at h
    split at h
    · obtain rfl := Option.some.inj h
      refine offered_quiet rfl rfl rfl ?_ (Nat.le_refl _) id
      simp only [Pool.openings, List.length_nil]
      omega
    · rename_i hpos
      obtain rfl := Option.some.inj h
      refine ⟨id, fun _ ↦ Or.inr (Or.inr ⟨rfl, Nat.le_refl _⟩), Or.inr,
        fun _ ↦ Nat.pos_of_ne_zero hpos⟩
  | acqCreate _ | acqExpiry _ _ | warmCreate _ | cleanerWait =>
    simp only [threadStep] at h
    split at h <;> obtain rfl := Option.some.inj h <;>
      exact offered_quiet rfl rfl rfl (Nat.le_refl _) (Nat.le_refl _) id
  | acqPing deadline entry =>
    obtain rfl := Option.some.inj h
    refine offered_quiet rfl ?_ ?_ (Nat.le_refl _) (Nat.le_refl _) id <;>
      dsimp only <;> split <;> rfl
  | acqFinish deadline entry =>
    simp only [threadStep] at h
    split at h <;> obtain rfl := Option.some.inj h
    · exact offered_quiet rfl rfl rfl (Nat.le_refl _) (Nat.le_refl _) id
    · exact offered_quiet rfl hblocked hdone (Nat.le_refl _) (Nat.le_refl _) id
  | cleanerWoken deadline timedOut =>
    simp only [threadStep] at h
    split at h
    · obtain rfl := Option.some.inj h
      exact offered_quiet rfl rfl rfl (Nat.le_refl _) (Nat.le_refl _) id
    split at h <;> obtain rfl := Option.some.inj h <;>
      exact offered_quiet rfl rfl rfl (Nat.le_refl _) (Nat.le_refl _) id
  | cleanerClose stale =>
    cases stale <;> obtain rfl := Option.some.inj h <;>
      exact offered_quiet rfl rfl rfl (Nat.le_refl _) (Nat.le_refl _) id
  | shutdownJoin =>
    simp only [threadStep] at h
    split at h
    · obtain rfl := Option.some.inj h
      exact offered_quiet rfl rfl rfl (Nat.le_refl _) (Nat.le_refl _) id
    · cases h
  | shutdownClose idleToClose =>
    cases idleToClose <;> obtain rfl := Option.some.inj h
    · exact offered_quiet rfl hblocked hdone (Nat.le_refl _) (Nat.le_refl _) id
    · exact offered_quiet rfl rfl rfl (Nat.le_refl _) (Nat.le_refl _) id
  | releaseClose _ =>
    obtain rfl := Option.some.inj h
    exact offered_quiet rfl hblocked hdone (Nat.le_refl _) (Nat.le_refl _) id
  | acqCount _ _ | retireClose _ _ | releaseStamp _ | warmClose _ _ | cleanerStamp =>
    obtain rfl := Option.some.inj h
    exact offered_quiet rfl rfl rfl (Nat.le_refl _) (Nat.le_refl _) id

end Offered

/-! ## Notifications -/

section Notifications

variable {n : ℕ} {threads threads' : Thread n → Pc}

private theorem isBlocked_wakeAvailable (pc : Pc) : pc.wakeAvailable.isBlocked = false := by
  cases pc <;> rfl

/-- If somebody is still blocked after a notification, it has made as many threads answer as it
notifies. -/
theorem notified {how : Notify} {waiter : Option (Thread n)}
    (h : notifyAvailable threads how waiter = some threads') {t : Thread n}
    (hblocked : (threads' t).isBlocked = true) :
    (threads t).isBlocked = true ∧ how ≠ .all ∧
      count Pc.isAnswering threads' = count Pc.isAnswering threads + how.answers := by
  cases how <;> cases waiter <;> simp only [notifyAvailable] at h
  case nobody.none =>
    obtain rfl := Option.some.inj h
    exact ⟨hblocked, Notify.noConfusion, rfl⟩
  case all.none =>
    obtain rfl := Option.some.inj h
    rw [isBlocked_wakeAvailable] at hblocked
    cases hblocked
  case one.none =>
    split at h
    · rename_i hnobody
      obtain rfl := Option.some.inj h
      rw [hnobody t] at hblocked
      cases hblocked
    · cases h
  case one.some i =>
    split at h
    · rename_i hi
      obtain rfl := Option.some.inj h
      have hne : t ≠ i := by
        rintro rfl
        rw [Function.update_self, isBlocked_wakeAvailable] at hblocked
        cases hblocked
      rw [Function.update_of_ne hne] at hblocked
      refine ⟨hblocked, Notify.noConfusion, ?_⟩
      -- the chosen thread answers from now on
      have htrade := tally_update (fun pc : Pc ↦ pc.isAnswering.toNat) threads i
        (threads i).wakeAvailable
      cases hpc : threads i with
      | acqBlocked deadline =>
        rw [hpc] at htrade
        exact htrade
      | _ =>
        rw [hpc] at hi
        cases hi
    · cases h
  all_goals cases h

private theorem isAnswering_notifyOthers (threads : Thread n → Pc) (b b' : Bool) (t : Thread n) :
    (notifyOthers threads b b' t).isAnswering = (threads t).isAnswering := by
  cases b <;> cases b' <;> simp only [notifyOthers, if_true, Bool.false_eq_true, if_false] <;>
    cases threads t <;> rfl

private theorem isBlocked_notifyOthers (threads : Thread n → Pc) (b b' : Bool) (t : Thread n) :
    (notifyOthers threads b b' t).isBlocked = (threads t).isBlocked := by
  cases b <;> cases b' <;> simp only [notifyOthers, if_true, Bool.false_eq_true, if_false] <;>
    cases threads t <;> rfl

private theorem isShutdownBlocked_notifyOthers {b b' : Bool} {t : Thread n}
    (h : (notifyOthers threads b b' t).isShutdownBlocked = true) :
    b = false ∧ (threads t).isShutdownBlocked = true := by
  revert h
  cases b <;> cases b' <;> simp only [notifyOthers, if_true, Bool.false_eq_true, if_false] <;>
    cases threads t <;> simp [Pc.isShutdownBlocked, Pc.wakeShutdownDone, Pc.wakeCleaner]

private theorem isShutdownBlocked_notifyAvailable {how : Notify} {waiter : Option (Thread n)}
    (h : notifyAvailable threads how waiter = some threads') (t : Thread n) :
    (threads' t).isShutdownBlocked = (threads t).isShutdownBlocked := by
  have hwake : ∀ pc : Pc, pc.wakeAvailable.isShutdownBlocked = pc.isShutdownBlocked := by
    intro pc
    cases pc <;> rfl
  cases how <;> cases waiter <;> simp only [notifyAvailable] at h
  case nobody.none =>
    obtain rfl := Option.some.inj h
    rfl
  case all.none =>
    obtain rfl := Option.some.inj h
    exact hwake _
  case one.none =>
    split at h
    · obtain rfl := Option.some.inj h
      rfl
    · cases h
  case one.some i =>
    split at h
    · obtain rfl := Option.some.inj h
      exact apply_update_eq _ threads (hwake _) t
    · cases h
  all_goals cases h

end Notifications

/-! ## Every reachable state

Only a section can make an opening or end an answer. The other moves unblock threads or leave them
as they are. -/

section Covered

variable {n : ℕ} {config : Config}

/-- Everybody who is blocked is covered: a borrower by the threads that answer, a thread in
`shutdown` by a connection that is still active. -/
structure Covered (config : Config) (s : System n) : Prop where
  borrower : s.pool.shuttingDown = false → ∀ t, (s.threads t).isBlocked = true →
    s.pool.openings config ≤ count Pc.isAnswering s.threads
  shutdown : ∀ t, (s.threads t).isShutdownBlocked = true → 0 < s.pool.active

/-- A thread performs its next section or call. -/
theorem covered_commit {s : System n} (h : Covered config s) (hbalanced : Balanced config s)
    {t : Thread n} {succeeds : Bool} {e : Effect} {waiter : Option (Thread n)}
    {threads : Thread n → Pc}
    (he : threadStep config t.isNone (s.env succeeds) s.pool (s.threads t) = some e)
    (hnotify : notifyAvailable (Function.update s.threads t e.next) e.available waiter
      = some threads) :
    Covered config (s.commit t e threads) := by
  have hoffered := threadStep_offered (hbalanced.covers t) he
  refine ⟨fun hopen i hi ↦ ?_, fun i hi ↦ ?_⟩
  · rw [System.commit, isBlocked_notifyOthers] at hi
    obtain ⟨hstill, hall, hcount⟩ := notified hnotify hi
    have hanswers : count Pc.isAnswering (s.commit t e threads).threads
        = count Pc.isAnswering threads :=
      tally_congr _ _ fun j ↦ congrArg Bool.toNat (isAnswering_notifyOthers threads _ _ j)
    have htrade := tally_update (fun pc : Pc ↦ pc.isAnswering.toNat) s.threads t e.next
    rw [hanswers, hcount]
    rcases hoffered.openings hopen with hzero | hwoken | ⟨hnext, hle⟩
    · exact hzero.le.trans (Nat.zero_le _)
    · exact absurd hwoken hall
    · -- somebody else was blocked before the step
      have hne : i ≠ t := by
        rintro rfl
        rw [Function.update_self, hnext] at hstill
        cases hstill
      rw [Function.update_of_ne hne] at hstill
      have hbefore := h.borrower (hoffered.shuttingDown hopen) i hstill
      change e.pool.openings config ≤ _
      simp only [count] at hbefore ⊢
      omega
  · rw [System.commit] at hi
    obtain ⟨hsilent, hthread⟩ := isShutdownBlocked_notifyOthers hi
    rw [isShutdownBlocked_notifyAvailable hnotify] at hthread
    apply Nat.pos_of_ne_zero
    intro hzero
    by_cases hit : i = t
    · subst hit
      rw [Function.update_self] at hthread
      exact (hoffered.blocks hthread).ne' hzero
    · rw [Function.update_of_ne hit] at hthread
      rcases hoffered.active hzero with hdone | hnone
      · exact Bool.noConfusion (hdone.symm.trans hsilent)
      · exact (h.shutdown i hthread).ne' hnone

/-- A move that does not block the thread and does not end its answer. -/
structure Eases (pc pc' : Pc) : Prop where
  blocked : pc'.isBlocked = true → pc.isBlocked = true
  shutdownBlocked : pc'.isShutdownBlocked = true → pc.isShutdownBlocked = true
  answering : pc.isAnswering = true → pc'.isAnswering = true

theorem eases_spurious (pc : Pc) : Eases pc pc.spurious := by
  refine ⟨?_, ?_, ?_⟩ <;> cases pc <;> first | exact id | exact Bool.noConfusion

private theorem eases_expire (now : ℤ) (pc : Pc) : Eases pc (pc.expire now) := by
  cases pc with
  | acqBlocked deadline =>
    rw [Pc.expire]
    split
    · exact ⟨Bool.noConfusion, Bool.noConfusion, Bool.noConfusion⟩
    · exact ⟨id, id, id⟩
  | cleanerBlocked deadline =>
    rw [Pc.expire]
    split <;> exact ⟨Bool.noConfusion, Bool.noConfusion, Bool.noConfusion⟩
  | _ => exact ⟨id, id, id⟩

theorem covered_goto {s : System n} (h : Covered config s) {t : Thread n} {pc : Pc}
    (heases : Eases (s.threads t) pc) : Covered config (s.goto t pc) := by
  obtain ⟨hblocked, hdone, hanswers⟩ := heases
  have hold : ∀ (f : Pc → Bool), (f pc = true → f (s.threads t) = true) → ∀ i,
      f ((s.goto t pc).threads i) = true → f (s.threads i) = true := by
    intro f hf i hi
    change f (Function.update s.threads t pc i) = true at hi
    by_cases hit : i = t
    · subst hit
      rw [Function.update_self] at hi
      exact hf hi
    · rwa [Function.update_of_ne hit] at hi
  refine ⟨fun hopen i hi ↦ ?_, fun i hi ↦ ?_⟩
  · have hbefore := h.borrower hopen i (hold _ hblocked i hi)
    have htrade := tally_update (fun pc : Pc ↦ pc.isAnswering.toNat) s.threads t pc
    have hle : (s.threads t).isAnswering.toNat ≤ pc.isAnswering.toNat := by
      by_cases hanswering : (s.threads t).isAnswering = true
      · rw [hanswering, hanswers hanswering]
      · rw [Bool.not_eq_true] at hanswering
        rw [hanswering]
        exact Nat.zero_le _
    change s.pool.openings config ≤ tally _ (Function.update s.threads t pc)
    simp only [count] at hbefore
    omega
  · exact h.shutdown i (hold _ hdone i hi)

theorem covered_step {s s' : System n} {a : Action n} (h : Covered config s)
    (hbalanced : Balanced config s) (hstep : s.step config a = some s') : Covered config s' := by
  cases stepped_of_step hstep with
  | start _ t pc houtside hpc =>
    apply covered_goto h
    rw [houtside]
    rcases hpc with ⟨_, rfl⟩ | rfl | rfl <;>
      exact ⟨Bool.noConfusion, Bool.noConfusion, Bool.noConfusion⟩
  | release t k entry houtside hentry =>
    apply covered_goto (s := { s with handles := s.handles.eraseIdx k }) ⟨h.borrower, h.shutdown⟩
    change Eases (s.threads (some t)) _
    rw [houtside]
    exact ⟨Bool.noConfusion, Bool.noConfusion, Bool.noConfusion⟩
  | thread t succeeds waiter e threads he hnotify => exact covered_commit h hbalanced he hnotify
  | wake _ t pc hpc =>
    apply covered_goto h
    rcases hpc with rfl | rfl
    · exact eases_spurious _
    · exact eases_expire _ _
  | tick nanoseconds => exact ⟨h.borrower, h.shutdown⟩

theorem covered_init (config : Config) (now : ℤ) (n : ℕ) :
    Covered config (machine config now n).init := by
  refine ⟨fun _ t ht ↦ ?_, fun t ht ↦ ?_⟩
  · exact Bool.noConfusion ((isBlocked_home t.isNone).symm.trans ht)
  · exact Bool.noConfusion ((isShutdownBlocked_home t.isNone).symm.trans ht)

/-- **No wakeup is lost.** In every reachable state: while the pool is not shutting down and some
thread is blocked in `available.wait_until`, the idle connections and the free slots together are at
most as many as the threads that have left the wait and have not executed the acquire check again;
and while some thread is blocked in `shutdown_done.wait`, a connection is active. -/
theorem no_lost_wakeup {now : ℤ} {s : System n} (h : (machine config now n).Reachable s) :
    (s.pool.shuttingDown = false → (∃ t, (s.threads t).isBlocked = true) →
      s.pool.idle.length + (config.maxSize - s.pool.total) ≤ count Pc.isAnswering s.threads) ∧
    ((∃ t, (s.threads t).isShutdownBlocked = true) → 0 < s.pool.active) := by
  have hboth : Balanced config s ∧ Covered config s := by
    refine Machine.Leads.invariant (I := fun s ↦ Balanced config s ∧ Covered config s) h
      ⟨balanced_init config now n, covered_init config now n⟩ ?_
    intro s a t hs _ hstep
    exact ⟨balanced_step hs.1 hstep, covered_step hs.2 hs.1 hstep⟩
  refine ⟨?_, ?_⟩
  · rintro hopen ⟨t, ht⟩
    exact hboth.2.borrower hopen t ht
  · rintro ⟨t, ht⟩
    exact hboth.2.shutdown t ht

end Covered

/-- Room for one connection and three borrowers, two of which are blocked when the first one returns
its connection and one of them is notified. -/
def oneOpening : List (Action 3) :=
  [.tryAcquireFor 0 1000, .step (some 0) true none, .step (some 0) true none,
    .step (some 0) true none, .step (some 0) true none, .tryAcquireFor 1 1000,
    .step (some 1) true none, .tryAcquireFor 2 1000, .step (some 2) true none, .release 0 0,
    .step (some 0) true none, .step (some 0) true (some (some 1))]

theorem no_lost_wakeup_oneOpening :
    ∃ s, (machine { maxSize := 1 } 0 3).Reachable s ∧ s.pool.idle.length = 1 ∧
      (s.threads (some 2)).isBlocked = true ∧ 1 ≤ count Pc.isAnswering s.threads := by
  obtain ⟨s, hs, hf⟩ := Machine.exists_reachable_of_run (M := machine { maxSize := 1 } 0 3)
    (fun s ↦ (s.pool.idle.length, (s.threads (some 2)).isBlocked, s.pool.shuttingDown))
    oneOpening (b := (1, true, false)) (by decide +kernel)
  simp only [Prod.mk.injEq] at hf
  obtain ⟨hidle, hblocked, hopen⟩ := hf
  have hcovered := (no_lost_wakeup hs).1 hopen ⟨some 2, hblocked⟩
  rw [hidle] at hcovered
  exact ⟨s, hs, hidle, hblocked, (Nat.le_add_right _ _).trans hcovered⟩

end ConnectionPool

end FoundationComponents
