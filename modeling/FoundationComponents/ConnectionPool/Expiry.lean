import FoundationComponents.ConnectionPool.CleanerRound
import FoundationComponents.Wrapping.Basic

/-!
# When a connection is too old

A limit is compared in 64-bit nanoseconds. A limit whose nanoseconds fit is compared exactly. One
that is longer wraps, and then no matter what comes out some elapsed time reaches it, although none
that the clock can measure reaches the limit itself.

For the pool this means that the limits it is given are kept exactly if both fit. Otherwise a
connection that is within both limits may be retired, unless one of them is zero, which nothing is
within, or the wrapped idle limit comes out no shorter than the lifetime.
-/

namespace FoundationComponents

namespace ConnectionPool

/-! ## Limits

Where the difference of two times can be represented, only the conversion of the limit may wrap. A
limit that wraps comes out below some difference that the clock can measure. -/

section Limits

variable {start now limit x : ℤ}

private theorem wrap_eq (h : -2 ^ 63 ≤ x) (h' : x < 2 ^ 63) : wrap x = x :=
  (Wrapping.fits_64_iff.mpr ⟨h, h'⟩).bmod_eq

private theorem toNanos_lt (milliseconds : ℤ) : toNanos milliseconds < 2 ^ 63 :=
  (Wrapping.fits_64_iff.mp (Wrapping.fits_bmod (by norm_num) _)).2

private theorem toNanos_eq (h : 0 ≤ limit) (h' : limit * 10 ^ 6 < 2 ^ 63) :
    toNanos limit = limit * 10 ^ 6 :=
  wrap_eq (by omega) h'

private theorem isExpired_iff (hlimit : 0 ≤ limit) (h : -2 ^ 63 ≤ now - start)
    (h' : now - start < 2 ^ 63) :
    isExpired start now limit = true ↔ toNanos limit ≤ now - start := by
  rw [isExpired, Bool.and_eq_true, decide_eq_true_eq, decide_eq_true_eq, wrap_eq h h']
  exact and_iff_right hlimit

/-- The comparison with the limit is right for all times whose difference can be represented. -/
def ExactLimit (limit : ℤ) : Prop :=
  ∀ start now, -2 ^ 63 ≤ start → start ≤ now → now < 2 ^ 63 → now - start < 2 ^ 63 →
    (isExpired start now limit = true ↔ limit * 10 ^ 6 ≤ now - start)

theorem exactLimit_iff (hlimit : 0 ≤ limit) : ExactLimit limit ↔ limit * 10 ^ 6 < 2 ^ 63 := by
  constructor
  · intro hexact
    by_contra hlong
    have hmax := hexact 0 (2 ^ 63 - 1) (by norm_num) (by norm_num) (by norm_num) (by norm_num)
    have hlt := toNanos_lt limit
    rw [isExpired_iff hlimit (by norm_num) (by norm_num)] at hmax
    have hreached := hmax.mp (by omega)
    omega
  · intro hfits start now _ hle _ hdiff
    rw [isExpired_iff hlimit (by omega) hdiff, toNanos_eq hlimit hfits]

end Limits

/-! ## Stamps

Every entry has been stamped with readings of the clock between the start of the pool and now, so
the differences that the pool takes are those of times in this order. -/

/-- The entry was made and last used between the start of the pool and the present. -/
structure Entry.Dated (start clock : ℤ) (entry : Entry) : Prop where
  start_le : start ≤ entry.createdAt
  createdAt_le : entry.createdAt ≤ entry.lastUsedAt
  le_clock : entry.lastUsedAt ≤ clock

/-- The entries in the hands of a thread. -/
def Pc.entries : Pc → List Entry
  | .acqCount _ entry | .acqExpiry _ entry | .acqPing _ entry | .acqFinish _ entry
  | .retireClose entry _ | .releaseStamp entry | .releaseReturn entry _ | .releaseClose entry
  | .warmPublish _ entry | .warmClose _ entry => [entry]
  | .cleanerClose entries | .shutdownClose entries => entries
  | _ => []

/-- The position keeps readings of the clock. -/
def Pc.Stamped (config : Config) (start clock : ℤ) : Pc → Prop
  | .cleanerSweep now => start ≤ now ∧ now ≤ clock
  | .releaseReturn entry reachedLifetime =>
      reachedLifetime = isExpired entry.createdAt entry.lastUsedAt config.maxLifetime
  | _ => True

/-- What a thread keeps is dated. -/
def Pc.Dated (config : Config) (start clock : ℤ) (pc : Pc) : Prop :=
  (∀ entry ∈ pc.entries, entry.Dated start clock) ∧ pc.Stamped config start clock

theorem Entry.Dated.mono {start clock clock' : ℤ} {entry : Entry} (h : entry.Dated start clock)
    (hle : clock ≤ clock') : entry.Dated start clock' :=
  ⟨h.start_le, h.createdAt_le, h.le_clock.trans hle⟩

theorem Pc.Dated.mono {config : Config} {start clock clock' : ℤ} {pc : Pc}
    (h : pc.Dated config start clock) (hle : clock ≤ clock') : pc.Dated config start clock' := by
  refine ⟨fun entry hmem ↦ (h.1 entry hmem).mono hle, ?_⟩
  have hstamped := h.2
  cases pc with
  | cleanerSweep now => exact ⟨hstamped.1, hstamped.2.trans hle⟩
  | _ => exact hstamped

theorem dated_of_empty {config : Config} {start clock : ℤ} {pc : Pc} (h : pc.entries = [])
    (hstamped : pc.Stamped config start clock) : pc.Dated config start clock :=
  ⟨fun _ hmem ↦ absurd (h ▸ hmem) List.not_mem_nil, hstamped⟩

private theorem dated_home (config : Config) (start clock : ℤ) (b : Bool) :
    (home b).Dated config start clock := by
  cases b <;> exact dated_of_empty rfl trivial

section Step

variable {config : Config} {b : Bool} {env : Env} {p : Pool} {pc : Pc} {e : Effect} {start : ℤ}

/-- All that a section leaves behind is dated. -/
structure DatedBy (config : Config) (start clock : ℤ) (e : Effect) : Prop where
  idle : ∀ entry ∈ e.pool.idle, entry.Dated start clock
  lent : ∀ entry ∈ e.lent, entry.Dated start clock
  next : e.next.Dated config start clock

private theorem dated_quiet {clock : ℤ} (hidle : ∀ entry ∈ p.idle, entry.Dated start clock)
    (hsub : e.pool.idle ⊆ p.idle) (hlent : e.lent = none)
    (hnext : e.next.Dated config start clock) : DatedBy config start clock e := by
  refine ⟨fun entry hmem ↦ hidle entry (hsub hmem), ?_, hnext⟩
  rw [hlent]
  exact nofun

/-- **The dates after one step.** -/
theorem threadStep_dated (hstart : start ≤ env.now)
    (hidle : ∀ entry ∈ p.idle, entry.Dated start env.now) (hpc : pc.Dated config start env.now)
    (h : threadStep config b env p pc = some e) : DatedBy config start env.now e := by
  have hhome := dated_home config start env.now b
  have hnew : Entry.Dated start env.now ⟨env.made, env.now, env.now⟩ := ⟨hstart, le_rfl, le_rfl⟩
  obtain ⟨hentries, hstamped⟩ := hpc
  have hsame : p.idle ⊆ p.idle := List.Subset.refl _
  cases pc with
  | outside | acqBlocked _ | cleanerBlocked _ | cleanerDone | shutdownBlocked => cases h
  | acqCheck deadline afterWait =>
    simp only [threadStep] at h
    split at h
    · obtain rfl := Option.some.inj h
      exact dated_quiet hidle hsame rfl hhome
    split at h
    · rename_i entry rest heq
      obtain rfl := Option.some.inj h
      have hsub : rest ⊆ p.idle := heq ▸ List.subset_cons_self entry rest
      have hentry : entry ∈ p.idle := heq ▸ List.mem_cons_self
      exact dated_quiet hidle hsub rfl ⟨List.forall_mem_singleton.mpr (hidle entry hentry), trivial⟩
    · split at h <;> obtain rfl := Option.some.inj h <;>
        exact dated_quiet hidle hsame rfl (dated_of_empty rfl trivial)
  | acqWoken deadline timedOut =>
    simp only [threadStep] at h
    split at h
    · obtain rfl := Option.some.inj h
      exact dated_quiet hidle hsame rfl (dated_of_empty rfl trivial)
    split at h <;> obtain rfl := Option.some.inj h
    · exact dated_quiet hidle hsame rfl hhome
    · exact dated_quiet hidle hsame rfl (dated_of_empty rfl trivial)
  | acqCreate deadline | warmCreate warmed =>
    simp only [threadStep] at h
    split at h <;> obtain rfl := Option.some.inj h
    · exact dated_quiet hidle hsame rfl ⟨List.forall_mem_singleton.mpr hnew, trivial⟩
    · exact dated_quiet hidle hsame rfl (dated_of_empty rfl trivial)
  | acqExpiry deadline entry =>
    simp only [threadStep] at h
    split at h <;> obtain rfl := Option.some.inj h <;>
      exact dated_quiet hidle hsame rfl ⟨hentries, trivial⟩
  | acqPing deadline entry =>
    obtain rfl := Option.some.inj h
    refine dated_quiet hidle hsame rfl ?_
    dsimp only
    split <;> exact ⟨hentries, trivial⟩
  | acqFinish deadline entry =>
    simp only [threadStep] at h
    split at h <;> obtain rfl := Option.some.inj h
    · exact dated_quiet hidle hsame rfl ⟨hentries, trivial⟩
    · refine ⟨hidle, fun lent hlent ↦ ?_, hhome⟩
      obtain rfl := Option.some.inj hlent
      exact List.forall_mem_singleton.mp hentries
  | retireCount resume =>
    simp only [threadStep] at h
    split at h <;> obtain rfl := Option.some.inj h
    · exact dated_quiet hidle hsame rfl (dated_of_empty rfl trivial)
    · exact dated_quiet hidle hsame rfl hhome
  | releaseStamp entry =>
    obtain rfl := Option.some.inj h
    have hentry := List.forall_mem_singleton.mp hentries
    have hstamp : Entry.Dated start env.now { entry with lastUsedAt := env.now } :=
      ⟨hentry.start_le, hentry.createdAt_le.trans hentry.le_clock, le_rfl⟩
    exact dated_quiet hidle hsame rfl ⟨List.forall_mem_singleton.mpr hstamp, rfl⟩
  | releaseReturn entry reachedLifetime =>
    simp only [threadStep] at h
    split at h <;> obtain rfl := Option.some.inj h
    · exact dated_quiet hidle hsame rfl ⟨hentries, trivial⟩
    · exact ⟨List.forall_mem_append.mpr ⟨hidle, hentries⟩,
        fun _ h ↦ absurd h (Option.not_mem_none _), hhome⟩
  | warmCheck warmed =>
    simp only [threadStep] at h
    split at h <;> obtain rfl := Option.some.inj h
    · exact dated_quiet hidle hsame rfl hhome
    · exact dated_quiet hidle hsame rfl (dated_of_empty rfl trivial)
  | warmPublish warmed entry =>
    simp only [threadStep] at h
    split at h <;> obtain rfl := Option.some.inj h
    · exact dated_quiet hidle hsame rfl ⟨hentries, trivial⟩
    · exact ⟨List.forall_mem_append.mpr ⟨hidle, hentries⟩,
        fun _ h ↦ absurd h (Option.not_mem_none _), dated_of_empty rfl trivial⟩
  | cleanerWait =>
    simp only [threadStep] at h
    split at h <;> obtain rfl := Option.some.inj h <;>
      exact dated_quiet hidle hsame rfl (dated_of_empty rfl trivial)
  | cleanerWoken deadline timedOut =>
    simp only [threadStep] at h
    split at h
    · obtain rfl := Option.some.inj h
      exact dated_quiet hidle hsame rfl (dated_of_empty rfl trivial)
    split at h <;> obtain rfl := Option.some.inj h <;>
      exact dated_quiet hidle hsame rfl (dated_of_empty rfl trivial)
  | cleanerStamp =>
    obtain rfl := Option.some.inj h
    exact dated_quiet hidle hsame rfl (dated_of_empty rfl ⟨hstart, le_rfl⟩)
  | cleanerSweep now =>
    obtain rfl := Option.some.inj h
    rw [cleanupIdle_idle]
    refine dated_quiet hidle (eraseFirst_sublist _ _ _).subset rfl ⟨fun entry hmem ↦ ?_, trivial⟩
    exact hidle entry (List.mem_filter.mp (List.mem_of_mem_take hmem)).1
  | cleanerClose stale =>
    cases stale <;> obtain rfl := Option.some.inj h
    · exact dated_quiet hidle hsame rfl (dated_of_empty rfl trivial)
    · exact dated_quiet hidle hsame rfl ⟨(List.forall_mem_cons.mp hentries).2, trivial⟩
  | shutdownJoin =>
    simp only [threadStep] at h
    split at h
    · obtain rfl := Option.some.inj h
      exact dated_quiet hidle hsame rfl (dated_of_empty rfl trivial)
    · cases h
  | shutdownCheck =>
    simp only [threadStep] at h
    split at h <;> obtain rfl := Option.some.inj h
    · exact dated_quiet hidle (List.nil_subset _) rfl ⟨hidle, trivial⟩
    · exact dated_quiet hidle hsame rfl (dated_of_empty rfl trivial)
  | shutdownClose idleToClose =>
    cases idleToClose <;> obtain rfl := Option.some.inj h
    · exact dated_quiet hidle hsame rfl hhome
    · exact dated_quiet hidle hsame rfl ⟨(List.forall_mem_cons.mp hentries).2, trivial⟩
  | acqRollback | releaseClose _ | warmRollback _ =>
    obtain rfl := Option.some.inj h
    exact dated_quiet hidle hsame rfl hhome
  | acqCount _ _ =>
    obtain rfl := Option.some.inj h
    exact dated_quiet hidle hsame rfl ⟨hentries, trivial⟩
  | retireClose _ _ | warmClose _ _ | shutdownSet =>
    obtain rfl := Option.some.inj h
    exact dated_quiet hidle hsame rfl (dated_of_empty rfl trivial)

end Step

/-! ## Every reachable state -/

section Reachable

variable {n : ℕ} {config : Config} {start : ℤ} {s s' : System n} {a : Action n}

/-- Every entry of the pool is dated. -/
structure System.Dated (config : Config) (start : ℤ) (s : System n) : Prop where
  start_le : start ≤ s.clock
  idle : ∀ entry ∈ s.pool.idle, entry.Dated start s.clock
  handles : ∀ entry ∈ s.handles, entry.Dated start s.clock
  threads : ∀ t, (s.threads t).Dated config start s.clock

private theorem wakeInvariant_dated (config : Config) (start clock : ℤ) :
    WakeInvariant (Pc.Dated config start clock) where
  available pc := by cases pc <;> rfl
  shutdownDone pc := by cases pc <;> rfl
  cleaner pc := by cases pc <;> rfl
  expire now pc := by
    cases pc <;> first | rfl | (rw [Pc.expire]; split <;> rfl)

private theorem dated_update {threads : Thread n → Pc} {clock : ℤ}
    (h : ∀ t, (threads t).Dated config start clock) (t : Thread n) {pc : Pc}
    (hpc : pc.Dated config start clock) (i : Thread n) :
    (Function.update threads t pc i).Dated config start clock :=
  (Function.forall_update_iff threads fun _ pc ↦ pc.Dated config start clock).mpr
    ⟨hpc, fun u _ ↦ h u⟩ i

theorem dated_step (h : s.Dated config start) (hstep : s.step config a = some s') :
    s'.Dated config start := by
  cases stepped_of_step hstep with
  | start _ t pc houtside hpc =>
    refine ⟨h.start_le, h.idle, h.handles, dated_update h.threads _ ?_⟩
    rcases hpc with ⟨_, rfl⟩ | rfl | rfl <;> exact dated_of_empty rfl trivial
  | release t k entry houtside hentry =>
    have hdated := h.handles entry (List.mem_of_getElem? hentry)
    exact ⟨h.start_le, h.idle, fun x hx ↦ h.handles x (List.mem_of_mem_eraseIdx hx),
      dated_update h.threads _ ⟨List.forall_mem_singleton.mpr hdated, trivial⟩⟩
  | thread t succeeds waiter e threads he hnotify =>
    have hafter : DatedBy config start s.clock e :=
      threadStep_dated h.start_le h.idle (h.threads t) he
    refine ⟨h.start_le, hafter.idle, ?_, fun i ↦ ?_⟩
    · refine List.forall_mem_append.mpr ⟨h.handles, fun entry hmem ↦ ?_⟩
      exact hafter.lent entry (Option.mem_toList.mp hmem)
    · have hwake := wakeInvariant_dated config start s.clock
      rw [System.commit, hwake.notifyOthers, hwake.notifyAvailable hnotify]
      exact dated_update h.threads t hafter.next i
  | wake _ t pc hpc =>
    have hwake := wakeInvariant_dated config start s.clock
    refine ⟨h.start_le, h.idle, h.handles, dated_update h.threads t ?_⟩
    rcases hpc with rfl | rfl
    · rw [hwake.spurious]
      exact h.threads t
    · rw [hwake.expire]
      exact h.threads t
  | tick nanoseconds =>
    have hle : s.clock ≤ s.clock + nanoseconds := by omega
    exact ⟨h.start_le.trans hle, fun entry hmem ↦ (h.idle entry hmem).mono hle,
      fun entry hmem ↦ (h.handles entry hmem).mono hle, fun t ↦ (h.threads t).mono hle⟩

theorem dated_of_reachable (h : (machine config start n).Reachable s) :
    s.Dated config start := by
  refine Machine.Leads.invariant h ?_ fun hs _ hstep ↦ dated_step hs hstep
  exact ⟨le_rfl, nofun, nofun, fun t ↦ dated_home config start start t.isNone⟩

end Reachable

/-! ## Retirement

A section that retires an entry has looked at its ping, at the flag or at the clock. Where both
limits are exact, the clock is right. -/

/-- The entries that a thread has retired and not closed yet. -/
def Pc.retiring : Pc → List Entry
  | .retireClose entry _ | .releaseClose entry => [entry]
  | .cleanerClose stale => stale
  | _ => []

/-- The time is within the limit, which is not negative. -/
def Within (limit elapsed : ℤ) : Prop := 0 ≤ limit ∧ elapsed < limit * 10 ^ 6

section Retire

variable {config : Config} {b : Bool} {env : Env} {p : Pool} {pc : Pc} {e : Effect} {start : ℤ}
  {entry : Entry}

private theorem retiring_home (b : Bool) : (home b).retiring = [] := by
  cases b <;> rfl

/-- **Why an entry is retired**: its ping has failed, the pool is shutting down, or some reading of
the clock was past one of its limits. -/
theorem why_retired (hidle : ∀ entry ∈ p.idle, entry.Dated start env.now)
    (hpc : pc.Dated config start env.now) (hstart : start ≤ env.now)
    (h : threadStep config b env p pc = some e) (hbefore : pc.retiring = [])
    (hafter : entry ∈ e.next.retiring) :
    (∃ deadline, pc = .acqPing deadline entry ∧ env.succeeds = false) ∨ p.shuttingDown = true ∨
      entry.Dated start env.now ∧ ∃ now, start ≤ now ∧ now ≤ env.now ∧
        shouldRetire config entry now = true := by
  have hhome : entry ∉ (home b).retiring := by
    rw [retiring_home]
    exact List.not_mem_nil
  obtain ⟨hentries, hstamped⟩ := hpc
  cases pc with
  | acqExpiry deadline held =>
    simp only [threadStep] at h
    split at h <;> obtain rfl := Option.some.inj h
    · rename_i hretire
      obtain rfl := List.mem_singleton.mp hafter
      exact Or.inr (Or.inr ⟨hentries entry hafter, env.now, hstart, le_rfl, hretire⟩)
    · exact absurd hafter List.not_mem_nil
  | acqPing deadline held =>
    obtain rfl := Option.some.inj h
    dsimp only at hafter
    split at hafter
    · exact absurd hafter List.not_mem_nil
    · rename_i hfails
      obtain rfl := List.mem_singleton.mp hafter
      exact Or.inl ⟨deadline, rfl, Bool.eq_false_iff.mpr hfails⟩
  | acqFinish deadline held =>
    simp only [threadStep] at h
    split at h <;> obtain rfl := Option.some.inj h
    · rename_i hshut
      exact Or.inr (Or.inl hshut)
    · exact absurd hafter hhome
  | releaseReturn held reachedLifetime =>
    simp only [threadStep] at h
    split at h <;> obtain rfl := Option.some.inj h
    · rename_i hretire
      obtain rfl := List.mem_singleton.mp hafter
      have hdated := hentries entry hafter
      refine Or.inr ((Bool.or_eq_true _ _ ▸ hretire).imp id fun hreached ↦ ?_)
      refine ⟨hdated, entry.lastUsedAt, hdated.start_le.trans hdated.createdAt_le, hdated.le_clock,
        ?_⟩
      rw [shouldRetire, ← (hstamped : reachedLifetime = _), hreached, Bool.true_or]
    · exact absurd hafter hhome
  | cleanerSweep now =>
    obtain rfl := Option.some.inj h
    rw [cleanupIdle_idle] at hafter
    obtain ⟨hmem, hexpired⟩ := List.mem_filter.mp (List.mem_of_mem_take hafter)
    exact Or.inr (Or.inr ⟨hidle entry hmem, now, hstamped.1, hstamped.2, hexpired⟩)
  | cleanerClose stale =>
    obtain rfl : stale = [] := hbefore
    obtain rfl := Option.some.inj h
    exact absurd hafter List.not_mem_nil
  | retireClose _ _ | releaseClose _ => cases hbefore
  | outside | acqBlocked _ | cleanerBlocked _ | cleanerDone | shutdownBlocked => cases h
  | acqCheck deadline afterWait =>
    simp only [threadStep] at h
    split at h
    · obtain rfl := Option.some.inj h
      exact absurd hafter hhome
    split at h
    · obtain rfl := Option.some.inj h
      exact absurd hafter List.not_mem_nil
    · split at h <;> obtain rfl := Option.some.inj h <;> exact absurd hafter List.not_mem_nil
  | acqWoken deadline timedOut =>
    simp only [threadStep] at h
    split at h
    · obtain rfl := Option.some.inj h
      exact absurd hafter List.not_mem_nil
    split at h <;> obtain rfl := Option.some.inj h
    · exact absurd hafter hhome
    · exact absurd hafter List.not_mem_nil
  | acqCreate _ | warmCreate _ | warmPublish _ _ | cleanerWait =>
    simp only [threadStep] at h
    split at h <;> obtain rfl := Option.some.inj h <;> exact absurd hafter List.not_mem_nil
  | retireCount resume =>
    simp only [threadStep] at h
    split at h <;> obtain rfl := Option.some.inj h
    · exact absurd hafter List.not_mem_nil
    · exact absurd hafter hhome
  | warmCheck warmed =>
    simp only [threadStep] at h
    split at h <;> obtain rfl := Option.some.inj h
    · exact absurd hafter hhome
    · exact absurd hafter List.not_mem_nil
  | cleanerWoken deadline timedOut =>
    simp only [threadStep] at h
    split at h
    · obtain rfl := Option.some.inj h
      exact absurd hafter List.not_mem_nil
    split at h <;> obtain rfl := Option.some.inj h <;> exact absurd hafter List.not_mem_nil
  | shutdownJoin =>
    simp only [threadStep] at h
    split at h
    · obtain rfl := Option.some.inj h
      exact absurd hafter List.not_mem_nil
    · cases h
  | shutdownCheck =>
    simp only [threadStep] at h
    split at h <;> obtain rfl := Option.some.inj h <;> exact absurd hafter List.not_mem_nil
  | shutdownClose idleToClose =>
    cases idleToClose <;> obtain rfl := Option.some.inj h
    · exact absurd hafter hhome
    · exact absurd hafter List.not_mem_nil
  | acqRollback | warmRollback _ =>
    obtain rfl := Option.some.inj h
    exact absurd hafter hhome
  | acqCount _ _ | releaseStamp _ | warmClose _ _ | cleanerStamp | shutdownSet =>
    obtain rfl := Option.some.inj h
    exact absurd hafter List.not_mem_nil

end Retire

/-- No connection that is within both limits is retired, unless its ping fails or the pool is shut
down. -/
def KeepsWithin (config : Config) : Prop :=
  ∀ {n : ℕ} {start : ℤ} {s s' : System n} {t succeeds waiter entry}, 0 ≤ start →
    (machine config start n).Reachable s → s.clock < 2 ^ 63 →
    s.step config (.step t succeeds waiter) = some s' → (s.threads t).retiring = [] →
    entry ∈ (s'.threads t).retiring → Within config.maxLifetime (s.clock - entry.createdAt) →
    Within config.idleTimeout (s.clock - entry.lastUsedAt) →
    s.pool.shuttingDown = true ∨ ∃ deadline, s.threads t = .acqPing deadline entry ∧
      succeeds = false

private theorem wakeInvariant_retiring : WakeInvariant Pc.retiring where
  available pc := by cases pc <;> rfl
  shutdownDone pc := by cases pc <;> rfl
  cleaner pc := by cases pc <;> rfl
  expire now pc := by
    cases pc <;> first | rfl | (rw [Pc.expire]; split <;> rfl)

section Keeps

variable {config : Config} {start clock now : ℤ} {entry : Entry}

private theorem not_shouldRetire (hstart : 0 ≤ start) (hclock : clock < 2 ^ 63)
    (hdated : entry.Dated start clock) (hle : start ≤ now) (hnow : now ≤ clock)
    (hage : Within config.maxLifetime (clock - entry.createdAt))
    (hidle : Within config.idleTimeout (clock - entry.lastUsedAt))
    (hlifetime : config.maxLifetime * 10 ^ 6 < 2 ^ 63)
    (htimeout : config.idleTimeout * 10 ^ 6 < 2 ^ 63 ∨
      config.maxLifetime * 10 ^ 6 ≤ toNanos config.idleTimeout) :
    shouldRetire config entry now = false := by
  obtain ⟨hcreated, hused, hpresent⟩ := hdated
  obtain ⟨hage₀, hage⟩ := hage
  obtain ⟨hidle₀, hidle⟩ := hidle
  rw [shouldRetire, Bool.or_eq_false_iff, Bool.eq_false_iff, Bool.eq_false_iff, Ne, Ne,
    isExpired_iff hage₀ (by omega) (by omega), isExpired_iff hidle₀ (by omega) (by omega),
    toNanos_eq hage₀ hlifetime]
  refine ⟨by omega, ?_⟩
  rcases htimeout with hfits | hlong
  · rw [toNanos_eq hidle₀ hfits]
    omega
  · omega

theorem keepsWithin_of (h : config.maxLifetime ≤ 0 ∨ config.idleTimeout ≤ 0 ∨
    config.maxLifetime * 10 ^ 6 < 2 ^ 63 ∧ (config.idleTimeout * 10 ^ 6 < 2 ^ 63 ∨
      config.maxLifetime * 10 ^ 6 ≤ toNanos config.idleTimeout)) : KeepsWithin config := by
  intro n start s s' t succeeds waiter entry hstart hs hclock hstep hbefore hafter hage hidle
  have hdated := dated_of_reachable hs
  obtain ⟨e, he, hmap⟩ := Option.bind_eq_some_iff.mp hstep
  obtain ⟨threads, hnotify, rfl⟩ := Option.map_eq_some_iff.mp hmap
  rw [System.commit, wakeInvariant_retiring.notifyOthers,
    wakeInvariant_retiring.notifyAvailable hnotify, Function.update_self] at hafter
  obtain hfailed | hshut | ⟨hentry, now, hle, hnow, hretire⟩ :=
    why_retired hdated.idle (hdated.threads t) hdated.start_le he hbefore hafter
  · exact Or.inr hfailed
  · exact Or.inl hshut
  · have hcreated := hentry.createdAt_le
    have hused : entry.lastUsedAt ≤ s.clock := hentry.le_clock
    have hage' := hage.2
    have hidle' := hidle.2
    obtain hzero | hzero | ⟨hlifetime, htimeout⟩ := h
    · omega
    · omega
    · have hkept := not_shouldRetire hstart hclock hentry hle hnow hage hidle hlifetime htimeout
      exact absurd hretire (Bool.eq_false_iff.mp hkept)

end Keeps

/-! ## Runs that retire too early

For a limit that wraps there is a run of one user thread in which a connection is retired within its
limits: it is borrowed, and returned at a time of our choice. -/

section Early

variable {config : Config} {s : System 1} {pc : Pc} {e : Effect}

/-- The one user thread is at `pc`, and the cleaner has not started a round. -/
structure OneUser (s : System 1) (pc : Pc) : Prop where
  user : s.threads (some 0) = pc
  cleaner : s.threads none = .cleanerWait

/-- No wakeup moves a thread from the position. -/
def Pc.Settled (pc : Pc) : Prop :=
  pc.isBlocked = false ∧ pc.wakeAvailable = pc ∧ pc.wakeShutdownDone = pc ∧ pc.wakeCleaner = pc

theorem OneUser.exists_step (h : OneUser s pc) (hs : (machine config 0 1).Reachable s)
    (succeeds : Bool) (he : threadStep config false (s.env succeeds) s.pool pc = some e)
    (hsettled : e.next.Settled) :
    ∃ s', s.step config (.step (some 0) succeeds none) = some s' ∧
      (machine config 0 1).Reachable s' ∧ OneUser s' e.next ∧ s'.pool = e.pool ∧
      s'.clock = s.clock ∧ s'.handles = s.handles ++ e.lent.toList ∧
      s'.made = s.made + (madeIn e.events).length := by
  obtain ⟨hblocked, havailable, hdone, hcleaner⟩ := hsettled
  let threads := Function.update s.threads (some 0) e.next
  have huser : threads (some 0) = e.next := Function.update_self _ _ _
  have hother : threads none = .cleanerWait := by
    rw [← h.cleaner]
    exact Function.update_of_ne (show (none : Thread 1) ≠ some 0 from nofun) _ _
  -- nobody waits, so a notification wakes nobody
  have hquiet : ∀ t, (threads t).isBlocked = false ∧ (threads t).wakeAvailable = threads t := by
    intro t
    cases t with
    | none =>
      rw [hother]
      exact ⟨rfl, rfl⟩
    | some i =>
      obtain rfl : i = 0 := Subsingleton.elim i 0
      rw [huser]
      exact ⟨hblocked, havailable⟩
  have hnotify : notifyAvailable threads e.available none = some threads := by
    cases e.available with
    | nobody => rfl
    | one => exact if_pos fun t ↦ (hquiet t).1
    | all => exact congrArg some (funext fun t ↦ (hquiet t).2)
  have hstep : s.step config (.step (some 0) succeeds none) =
      some (s.commit (some 0) e threads) := by
    rw [System.step, h.user]
    change (threadStep config false (s.env succeeds) s.pool pc).bind _ = _
    rw [he, Option.bind_some, hnotify]
    rfl
  refine ⟨s.commit (some 0) e threads, hstep,
    Machine.Leads.step (a := .step (some 0) succeeds none) hs trivial hstep, ⟨?_, ?_⟩, rfl, rfl,
    rfl, rfl⟩
  · simp only [System.commit, notifyOthers, huser]
    split <;> split <;> simp only [hdone, hcleaner]
  · simp only [System.commit, notifyOthers, hother]
    split <;> split <;> rfl

private theorem exists_lent (hroom : 0 < config.maxSize) :
    ∃ s : System 1, (machine config 0 1).Reachable s ∧ OneUser s .outside ∧ s.clock = 0 ∧
      s.handles = [⟨0, 0, 0⟩] ∧
      s.pool = { total := 1, active := 1, created := 1, acquired := 1 } := by
  let init := (machine config 0 1).init
  let deadline := wrap (0 + toNanos 0)
  let s₀ := init.goto (some 0) (.acqCheck deadline false)
  have hs₀ : (machine config 0 1).Reachable s₀ :=
    Machine.Leads.refl.step (a := .tryAcquireFor 0 0) trivial rfl
  have halone₀ : OneUser s₀ (.acqCheck deadline false) := ⟨rfl, rfl⟩
  have hreserve : threadStep config false (s₀.env true) s₀.pool (.acqCheck deadline false) =
      some { pool := { total := 1, active := 1 }, next := .acqCreate deadline } := if_pos hroom
  obtain ⟨s₁, -, hs₁, halone₁, hpool₁, hclock₁, hhandles₁, hmade₁⟩ :=
    halone₀.exists_step hs₀ true hreserve ⟨rfl, rfl, rfl, rfl⟩
  have hcreate : threadStep config false (s₁.env true) s₁.pool (.acqCreate deadline) =
      some { pool := s₁.pool, next := .acqCount deadline ⟨0, 0, 0⟩, events := [.made 0] } := by
    rw [threadStep, System.env, hmade₁, hclock₁]
    rfl
  obtain ⟨s₂, -, hs₂, halone₂, hpool₂, hclock₂, hhandles₂, -⟩ :=
    halone₁.exists_step hs₁ true hcreate ⟨rfl, rfl, rfl, rfl⟩
  obtain ⟨s₃, -, hs₃, halone₃, hpool₃, hclock₃, hhandles₃, -⟩ :=
    halone₂.exists_step hs₂ true rfl ⟨rfl, rfl, rfl, rfl⟩
  have hpool : s₃.pool = { total := 1, active := 1, created := 1 } := by
    rw [hpool₃, hpool₂, hpool₁]
  have hfinish : threadStep config false (s₃.env true) s₃.pool (.acqFinish deadline ⟨0, 0, 0⟩) =
      some { pool := { total := 1, active := 1, created := 1, acquired := 1 }, next := .outside,
             lent := some ⟨0, 0, 0⟩, events := [.acquired (some 0)] } := by
    rw [hpool]
    rfl
  obtain ⟨s₄, -, hs₄, halone₄, hpool₄, hclock₄, hhandles₄, -⟩ :=
    halone₃.exists_step hs₃ true hfinish ⟨rfl, rfl, rfl, rfl⟩
  refine ⟨s₄, hs₄, halone₄, ?_, ?_, hpool₄⟩
  · rw [hclock₄, hclock₃, hclock₂, hclock₁]
    rfl
  · rw [hhandles₄, hhandles₃, hhandles₂, hhandles₁]
    rfl

private theorem exists_releasing (hroom : 0 < config.maxSize) (elapsed : ℕ) :
    ∃ s : System 1, (machine config 0 1).Reachable s ∧
      OneUser s (.releaseReturn ⟨0, 0, elapsed⟩ (isExpired 0 elapsed config.maxLifetime)) ∧
      s.clock = elapsed ∧ s.pool = { total := 1, active := 1, created := 1, acquired := 1 } := by
  obtain ⟨s, hs, halone, hclock, hhandles, hpool⟩ := exists_lent hroom
  let s₁ : System 1 := { s with clock := s.clock + elapsed }
  have hs₁ : (machine config 0 1).Reachable s₁ := hs.step (a := .tick elapsed) trivial rfl
  let s₂ := { s₁ with handles := s₁.handles.eraseIdx 0 }.goto (some 0) (.releaseStamp ⟨0, 0, 0⟩)
  have hstep : s₁.step config (.release 0 0) = some s₂ := by
    have hhandle : s₁.handles[0]? = some ⟨0, 0, 0⟩ := by
      rw [show s₁.handles = [⟨0, 0, 0⟩] from hhandles]
      rfl
    rw [System.step, hhandle, Option.bind_some, System.start,
      show s₁.threads (some 0) = .outside from halone.user]
    rfl
  have hs₂ : (machine config 0 1).Reachable s₂ := hs₁.step (a := .release 0 0) trivial hstep
  have halone₂ : OneUser s₂ (.releaseStamp ⟨0, 0, 0⟩) := ⟨rfl, halone.cleaner⟩
  obtain ⟨s₃, -, hs₃, halone₃, hpool₃, hclock₃, -, -⟩ :=
    halone₂.exists_step hs₂ true rfl ⟨rfl, rfl, rfl, rfl⟩
  have hnow : s₂.clock = elapsed := by
    change s.clock + elapsed = elapsed
    rw [hclock, zero_add]
  refine ⟨s₃, hs₃, ?_, hclock₃.trans hnow, hpool₃.trans hpool⟩
  rw [← hnow]
  exact halone₃

/-- A lifetime that wraps is over by the time the clock comes to its end, whatever it is. -/
theorem not_keepsWithin_lifetime (hroom : 0 < config.maxSize)
    (hlong : 2 ^ 63 ≤ config.maxLifetime * 10 ^ 6) (hidle : 0 < config.idleTimeout) :
    ¬KeepsWithin config := by
  intro hkeeps
  obtain ⟨s, hs, halone, hclock, hpool⟩ := exists_releasing hroom (2 ^ 63 - 1)
  have hclock : s.clock = 2 ^ 63 - 1 := hclock.trans (by norm_num)
  have hexpired : isExpired 0 (2 ^ 63 - 1 : ℕ) config.maxLifetime = true := by
    have hlt := toNanos_lt config.maxLifetime
    rw [isExpired_iff (by omega) (by norm_num) (by norm_num)]
    norm_num
    omega
  rw [hexpired] at halone
  have hretire : threadStep config false (s.env true) s.pool
      (.releaseReturn ⟨0, 0, (2 ^ 63 - 1 : ℕ)⟩ true) = some (.slotFreed
        { s.pool.subActive.subTotal 1 with destroyed := s.pool.destroyed + 1 }
        (.releaseClose ⟨0, 0, (2 ^ 63 - 1 : ℕ)⟩) []) :=
    if_pos (Bool.or_true _)
  obtain ⟨s', hstep, -, halone', -⟩ := halone.exists_step hs true hretire ⟨rfl, rfl, rfl, rfl⟩
  have hkept := hkeeps le_rfl hs (by rw [hclock]; norm_num) hstep (by rw [halone.user]; rfl)
    (by rw [halone'.user]; exact List.mem_singleton_self _)
    ⟨by omega, by rw [hclock]; dsimp only; omega⟩
    ⟨hidle.le, by rw [hclock]; norm_num; omega⟩
  rw [hpool, halone.user] at hkept
  obtain hshut | ⟨_, hping, -⟩ := hkept
  · cases hshut
  · cases hping

/-- An idle limit that wraps to something shorter than the lifetime is over before its time. -/
theorem not_keepsWithin_idle (hroom : 0 < config.maxSize) (hlifetime : 0 < config.maxLifetime)
    (hfits : config.maxLifetime * 10 ^ 6 < 2 ^ 63) (hlong : 2 ^ 63 ≤ config.idleTimeout * 10 ^ 6)
    (hshort : toNanos config.idleTimeout < config.maxLifetime * 10 ^ 6) : ¬KeepsWithin config := by
  intro hkeeps
  obtain ⟨s, hs, halone, hclock, hpool⟩ := exists_releasing hroom 0
  have hfresh : isExpired 0 (0 : ℕ) config.maxLifetime = false := by
    rw [Bool.eq_false_iff, Ne, isExpired_iff hlifetime.le (by norm_num) (by norm_num),
      toNanos_eq hlifetime.le hfits]
    norm_num
    omega
  rw [hfresh] at halone
  -- the connection goes back into the deque
  have hback : threadStep config false (s.env true) s.pool
      (.releaseReturn ⟨0, 0, (0 : ℕ)⟩ false) = some (.slotFreed
        { idle := [⟨0, 0, 0⟩], total := 1, created := 1, acquired := 1 } .outside [.released]) := by
    rw [hpool]
    rfl
  obtain ⟨s₁, -, hs₁, halone₁, hpool₁, hclock₁, -⟩ :=
    halone.exists_step hs true hback ⟨rfl, rfl, rfl, rfl⟩
  -- and is taken out when the wrapped limit has gone by
  obtain ⟨elapsed, helapsed⟩ : ∃ elapsed : ℕ, (elapsed : ℤ) = max (toNanos config.idleTimeout) 0 :=
    ⟨_, Int.toNat_eq_max _⟩
  let s₂ : System 1 := { s₁ with clock := s₁.clock + elapsed }
  have hs₂ : (machine config 0 1).Reachable s₂ := hs₁.step (a := .tick elapsed) trivial rfl
  let deadline := wrap (s₂.clock + toNanos 0)
  let s₃ := s₂.goto (some 0) (.acqCheck deadline false)
  have hstart : s₂.step config (.tryAcquireFor 0 0) = some s₃ := by
    rw [System.step, System.start, show s₂.threads (some 0) = .outside from halone₁.user]
    rfl
  have hs₃ : (machine config 0 1).Reachable s₃ := hs₂.step (a := .tryAcquireFor 0 0) trivial hstart
  have halone₃ : OneUser s₃ (.acqCheck deadline false) := ⟨rfl, halone₁.cleaner⟩
  have htake : threadStep config false (s₃.env true) s₃.pool (.acqCheck deadline false) =
      some { pool := { total := 1, active := 1, created := 1, acquired := 1 },
             next := .acqExpiry deadline ⟨0, 0, 0⟩ } := by
    rw [show s₃.pool = _ from hpool₁]
    rfl
  obtain ⟨s₄, -, hs₄, halone₄, hpool₄, hclock₄, -⟩ :=
    halone₃.exists_step hs₃ true htake ⟨rfl, rfl, rfl, rfl⟩
  have hnow : s₄.clock = elapsed := by
    rw [hclock₄]
    change s₁.clock + elapsed = elapsed
    rw [hclock₁, hclock, Nat.cast_zero, zero_add]
  have hexpired : isExpired 0 s₄.clock config.idleTimeout = true := by
    rw [isExpired_iff (by omega) (by omega) (by omega)]
    omega
  have hretire : threadStep config false (s₄.env true) s₄.pool (.acqExpiry deadline ⟨0, 0, 0⟩) =
      some { pool := s₄.pool, next := .retireClose ⟨0, 0, 0⟩ (some deadline) } := by
    refine if_pos ?_
    rw [shouldRetire, show (s₄.env true).now = s₄.clock from rfl, hexpired, Bool.or_true]
  obtain ⟨s₅, hstep, -, halone₅, -⟩ := halone₄.exists_step hs₄ true hretire ⟨rfl, rfl, rfl, rfl⟩
  have hkept := hkeeps le_rfl hs₄ (by omega) hstep (by rw [halone₄.user]; rfl)
    (by rw [halone₅.user]; exact List.mem_singleton_self _)
    ⟨hlifetime.le, by dsimp only; omega⟩ ⟨by omega, by dsimp only; omega⟩
  rw [hpool₄, halone₄.user] at hkept
  obtain hshut | ⟨_, hping, -⟩ := hkept
  · cases hshut
  · cases hping

end Early

/-- **Expiry.** A limit is kept exactly if its nanoseconds can be represented, and a pool keeps
connections within both its limits exactly if both can be, apart from limits that nothing is within
and from idle limits that wrap to no less than the lifetime. -/
theorem expiry_exact_iff {limit : ℤ} {config : Config} (hlimit : 0 ≤ limit)
    (haccepted : config.Accepted) : (ExactLimit limit ↔ limit * 10 ^ 6 < 2 ^ 63) ∧
      (KeepsWithin config ↔ config.maxLifetime ≤ 0 ∨ config.idleTimeout ≤ 0 ∨
        config.maxLifetime * 10 ^ 6 < 2 ^ 63 ∧ (config.idleTimeout * 10 ^ 6 < 2 ^ 63 ∨
          config.maxLifetime * 10 ^ 6 ≤ toNanos config.idleTimeout)) := by
  refine ⟨exactLimit_iff hlimit, fun hkeeps ↦ ?_, keepsWithin_of⟩
  have hroom := haccepted.maxSize_pos
  by_contra hwraps
  obtain ⟨hlifetime, hidle, hlong⟩ := (by simpa only [not_or, not_le] using hwraps :
    0 < config.maxLifetime ∧ 0 < config.idleTimeout ∧ _)
  by_cases hfits : config.maxLifetime * 10 ^ 6 < 2 ^ 63
  · obtain ⟨hidleLong, hshort⟩ := not_or.mp fun htimeout ↦ hlong ⟨hfits, htimeout⟩
    exact not_keepsWithin_idle hroom hlifetime hfits (not_lt.mp hidleLong) (not_le.mp hshort) hkeeps
  · exact not_keepsWithin_lifetime hroom (not_lt.mp hfits) hidle hkeeps

/-- A limit of five minutes is kept exactly, and so are the limits a pool has by default. -/
theorem expiry_exact_default : ExactLimit 300000 ∧ KeepsWithin {} := by
  have haccepted : Config.Accepted {} := ⟨by decide, by decide, by decide⟩
  have hlimit : (0 : ℤ) ≤ 300000 := by norm_num
  obtain ⟨hexact, hkeeps⟩ := expiry_exact_iff hlimit haccepted
  exact ⟨hexact.mpr (by norm_num),
    hkeeps.mpr (Or.inr (Or.inr ⟨by norm_num, Or.inl (by norm_num)⟩))⟩

/-- The longest limit there is, which stands for no limit at all, has expired as soon as it is set,
and a pool that is given it as its lifetime does not keep its connections. -/
theorem expiry_wraps_max : ¬ExactLimit (2 ^ 63 - 1) ∧ isExpired 0 0 (2 ^ 63 - 1) = true ∧
    ¬KeepsWithin { maxLifetime := 2 ^ 63 - 1 } :=
  ⟨fun h ↦ absurd ((exactLimit_iff (by norm_num)).mp h) (by norm_num), by decide,
    not_keepsWithin_lifetime (by decide) (by norm_num) (by norm_num)⟩

end ConnectionPool

end FoundationComponents
