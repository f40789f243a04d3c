import FoundationComponents.RingBuffer.Refinement
import FoundationComponents.RingBuffer.Wakeup

/-!
# The statistics are exact

The six counters are written in the shared bodies and in the early returns of the waiting
operations. `Counting` lists everything one body can do to them, together with what it returns and
what it does to the number of elements; the balance of the books is then a case analysis, and so is
each statement about a single operation.

The elements that `clear` discards are on no counter. They are what the run puts out when each
`clear` is made to put out the elements it destroys.
-/

namespace FoundationComponents

namespace RingBuffer

variable {α : Type*} {capacity : ℕ} {fullPolicy : FullPolicy}

/-! ## What one body counts

`Counting` has one constructor for each way in which a body can end, with the counters that it
increments there. -/

def Call.isPush (c : Call α) : Bool := c.value?.isSome

def Call.isPop : Call α → Bool
  | .tryPop | .waitPop | .waitPopFor _ => true
  | _ => false

/-- Everything a body can do to the statistics. A push that is rejected finds the buffer closed, or
finds it full under `reject`; in the latter case it did not wait without a limit. -/
inductive Counting (r : Ring α) (c : Call α) (e : Effect α) : Prop
  | rejectedClosed (hcall : c.isPush = true) (hclosed : r.closed = true)
      (hout : e.outcome = .pushed false) (hsize : e.ring.size = r.size)
      (hstats : e.ring.stats = { r.stats with
        failedPushes := r.stats.failedPushes + 1, closedPushes := r.stats.closedPushes + 1 })
  | rejectedFull (hcall : c.isPush = true) (hopen : r.closed = false)
      (hpolicy : r.fullPolicy = .reject) (hwait : ∀ value, c ≠ .waitPush value)
      (hout : e.outcome = .pushed false) (hsize : e.ring.size = r.size)
      (hstats : e.ring.stats = { r.stats with failedPushes := r.stats.failedPushes + 1 })
  | overwrote (hcall : c.isPush = true) (hpolicy : r.fullPolicy = .overwriteOldest)
      (hout : e.outcome = .pushed true) (hsize : e.ring.size = r.size)
      (hstats : e.ring.stats = { r.stats with
        pushes := r.stats.pushes + 1, overwrites := r.stats.overwrites + 1 })
  | stored (hcall : c.isPush = true) (hout : e.outcome = .pushed true)
      (hsize : e.ring.size = r.size + 1)
      (hstats : e.ring.stats = { r.stats with pushes := r.stats.pushes + 1 })
  | empty (hcall : c.isPop = true) (hout : e.outcome = .nullopt) (hsize : e.ring.size = r.size)
      (hstats : e.ring.stats = { r.stats with failedPops := r.stats.failedPops + 1 })
  | popped (hcall : c.isPop = true) (hout : ∃ value, e.outcome = .popped value)
      (hsize : e.ring.size + 1 = r.size)
      (hstats : e.ring.stats = { r.stats with pops := r.stats.pops + 1 })
  | closed (hcall : c = .close) (hsize : e.ring.size = r.size) (hstats : e.ring.stats = r.stats)
  | cleared (hcall : c = .clear) (hsize : e.ring.size = 0) (hremoved : e.removed.length = r.size)
      (hstats : e.ring.stats = r.stats)

private theorem destroyAt_stats (r : Ring α) (index : ℕ) : (r.destroyAt index).stats = r.stats := by
  rw [Ring.destroyAt]
  split <;> rfl

private theorem dropHead_stats (r : Ring α) : r.dropHead.stats = r.stats := destroyAt_stats r _

private theorem clearLoop_stats (fuel : ℕ) (r : Ring α) :
    (Ring.clearLoop fuel r).1.stats = r.stats := by
  induction fuel generalizing r with
  | zero => rfl
  | succ fuel ih =>
    rw [Ring.clearLoop]
    split
    · exact (ih r.dropHead).trans (dropHead_stats r)
    · rfl

section Body

variable {r : Ring α} {f : Fifo α} {c : Call α}

/-- A push that gets to `pushLocked`. One that waited without a limit finds no full buffer there,
unless it was closed. -/
theorem counting_pushLocked (hcap : 1 ≤ capacity) (h : Represents capacity fullPolicy r f)
    (hcall : c.isPush = true) (henabled : r.enabled c = true) (value : α) :
    Counting r c (r.pushLocked value) := by
  rw [Ring.pushLocked]
  split
  · rename_i hclosed
    exact .rejectedClosed hcall hclosed rfl rfl rfl
  rename_i hopen
  rw [Bool.not_eq_true] at hopen
  split
  · rename_i hfull
    split
    · rename_i hpolicy
      refine .rejectedFull hcall hopen hpolicy ?_ rfl rfl rfl
      rintro value rfl
      rw [Ring.enabled, hpolicy, hopen, hfull, decide_eq_false (Nat.lt_irrefl _)] at henabled
      cases henabled
    · rename_i hpolicy
      have hpos : 0 < r.size := by
        rw [hfull, h.capacity_eq]
        exact hcap
      exact .overwrote hcall hpolicy rfl (Nat.sub_add_cancel hpos) rfl
  · exact .stored hcall rfl rfl rfl

theorem counting_pop (h : Represents capacity fullPolicy r f) (hcall : c.isPop = true) :
    Counting r c (if r.size = 0 then r.failPop else r.popLocked) := by
  obtain ⟨items, closed⟩ := f
  have hsize : r.size = items.length := h.size_eq
  cases items with
  | nil =>
    have hzero : r.size = 0 := hsize
    rw [if_pos hzero]
    exact .empty hcall rfl rfl rfl
  | cons value rest =>
    have hpos : 0 < r.size := Nat.lt_of_lt_of_eq (Nat.succ_pos _) hsize.symm
    rw [if_neg (Nat.ne_of_gt hpos)]
    refine .popped hcall ⟨value, ?_⟩ (Nat.sub_add_cancel hpos) rfl
    rw [Ring.popLocked, h.cell_head]
    rfl

theorem counting_clear (h : Represents capacity fullPolicy r f) : Counting r .clear r.clear := by
  refine .cleared rfl (size_clearLoop r.size (Nat.le_refl _)).1 ?_ (clearLoop_stats r.size r)
  rw [(matches_clear h).removed_eq, h.size_eq]

/-- **What a body counts**, whichever operation it belongs to. -/
theorem counting_exec (hcap : 1 ≤ capacity) (h : Represents capacity fullPolicy r f)
    (henabled : r.enabled c = true) : Counting r c (r.exec c) := by
  cases c with
  | tryPush value | waitPush value => exact counting_pushLocked hcap h rfl henabled value
  | waitPushFor value timedOut =>
    rw [Ring.exec]
    split
    · exact counting_pushLocked hcap h rfl henabled value
    · -- the time is up, and there is still no slot to write
      rename_i hwait
      obtain ⟨hopen, hslot⟩ := Bool.or_eq_false_iff.mp (Bool.eq_false_iff.mpr hwait)
      have hpolicy := of_decide_eq_false (Bool.or_eq_false_iff.mp hslot).2
      refine .rejectedFull rfl hopen ?_ (fun value hcall ↦ by cases hcall) rfl rfl rfl
      cases hp : r.fullPolicy with
      | reject => rfl
      | overwriteOldest => exact absurd hp hpolicy
  | tryPop | waitPop => exact counting_pop h rfl
  | waitPopFor timedOut =>
    rw [exec_waitPopFor]
    exact counting_pop h rfl
  | close => exact .closed rfl rfl rfl
  | clear => exact counting_clear h

end Body

/-! ## The books

The elements that `clear` discards are the one thing the counters do not know of. -/

/-- The elements that a body discards without counting them. -/
def Effect.discarded (e : Effect α) : Call α → List α
  | .clear => e.removed
  | _ => []

def System.discards (s : System α) (c : Call α) : List α := (s.ring.exec c).discarded c

/-- What the statistics say of a buffer from which `discarded` elements have been cleared. -/
structure Exact (fullPolicy : FullPolicy) (r : Ring α) (discarded : ℕ) : Prop where
  balance : r.stats.pushes = r.stats.pops + r.stats.overwrites + discarded + r.size
  closedPushes_le : r.stats.closedPushes ≤ r.stats.failedPushes
  overwrites_eq : fullPolicy = .reject → r.stats.overwrites = 0

/-- What the statistics say of one operation: it is counted once, as what it returns, and a push
fails for a reason. -/
structure CountedOnce (fullPolicy : FullPolicy) (r : Ring α) (c : Call α) (e : Effect α) :
    Prop where
  push : c.isPush = true → ∃ accepted, e.outcome = .pushed accepted ∧
    e.ring.stats.pushes = r.stats.pushes + accepted.toNat ∧
    e.ring.stats.failedPushes = r.stats.failedPushes + (!accepted).toNat
  pop : c.isPop = true → ∃ succeeded, (e.outcome = .nullopt ↔ succeeded = false) ∧
    e.ring.stats.pops = r.stats.pops + succeeded.toNat ∧
    e.ring.stats.failedPops = r.stats.failedPops + (!succeeded).toNat
  other_push : c.isPush = false →
    e.ring.stats.pushes = r.stats.pushes ∧ e.ring.stats.failedPushes = r.stats.failedPushes
  other_pop : c.isPop = false →
    e.ring.stats.pops = r.stats.pops ∧ e.ring.stats.failedPops = r.stats.failedPops
  waitPush_fails : fullPolicy = .reject → (∃ value, c = .waitPush value) →
    e.outcome = .pushed false → r.closed = true
  overwriting_accepts : fullPolicy = .overwriteOldest → c.isPush = true → r.closed = false →
    e.outcome = .pushed true

theorem Call.isPop_of_isPush {c : Call α} (h : c.isPush = true) : c.isPop = false := by
  cases c with
  | tryPush _ | waitPush _ | waitPushFor _ _ | close | clear => rfl
  | tryPop | waitPop | waitPopFor _ => cases h

theorem Call.isPush_of_isPop {c : Call α} (h : c.isPop = true) : c.isPush = false := by
  rw [← Bool.not_eq_true]
  exact fun hpush ↦ absurd h (by rw [isPop_of_isPush hpush]; exact Bool.false_ne_true)

section Books

variable {r : Ring α} {c : Call α} {e : Effect α}

private theorem discarded_eq_nil (hcall : c.isPush = true ∨ c.isPop = true) :
    e.discarded c = [] := by
  cases c with
  | tryPush _ | waitPush _ | waitPushFor _ _ | tryPop | waitPop | waitPopFor _ | close => rfl
  | clear => exact absurd hcall (by simp [Call.isPush, Call.isPop, Call.value?])

theorem balance_of_counting {discarded : ℕ} (hcounting : Counting r c e)
    (h : r.stats.pushes = r.stats.pops + r.stats.overwrites + discarded + r.size) :
    e.ring.stats.pushes = e.ring.stats.pops + e.ring.stats.overwrites +
      (discarded + (e.discarded c).length) + e.ring.size := by
  cases hcounting with
  | rejectedClosed hcall _ _ hsize hstats | rejectedFull hcall _ _ _ _ hsize hstats
  | overwrote hcall _ _ hsize hstats | stored hcall _ hsize hstats =>
    rw [discarded_eq_nil (Or.inl hcall), hstats, hsize, List.length_nil]
    dsimp only
    omega
  | empty hcall _ hsize hstats | popped hcall _ hsize hstats =>
    rw [discarded_eq_nil (Or.inr hcall), hstats, List.length_nil]
    dsimp only
    omega
  | closed hcall hsize hstats =>
    rw [hcall, hstats, hsize]
    exact h
  | cleared hcall hsize hremoved hstats =>
    rw [hcall, hstats, hsize, Effect.discarded, hremoved]
    omega

/-- A push that the closed buffer rejects is a failed push. -/
theorem closedPushes_le_of_counting (hcounting : Counting r c e)
    (h : r.stats.closedPushes ≤ r.stats.failedPushes) :
    e.ring.stats.closedPushes ≤ e.ring.stats.failedPushes := by
  cases hcounting with
  | rejectedClosed _ _ _ _ hstats =>
    rw [hstats]
    exact Nat.succ_le_succ h
  | rejectedFull _ _ _ _ _ _ hstats =>
    rw [hstats]
    exact Nat.le_succ_of_le h
  | overwrote _ _ _ _ hstats | stored _ _ _ hstats | empty _ _ _ hstats | popped _ _ _ hstats
  | closed _ _ hstats | cleared _ _ _ hstats =>
    rw [hstats]
    exact h

/-- Only a buffer that overwrites counts overwrites. -/
theorem overwrites_of_counting (hcounting : Counting r c e) (hpolicy : r.fullPolicy = .reject) :
    e.ring.stats.overwrites = r.stats.overwrites := by
  cases hcounting with
  | overwrote _ hoverwriting _ _ _ =>
    rw [hpolicy] at hoverwriting
    cases hoverwriting
  | rejectedClosed _ _ _ _ hstats | rejectedFull _ _ _ _ _ _ hstats | stored _ _ _ hstats
  | empty _ _ _ hstats | popped _ _ _ hstats | closed _ _ hstats | cleared _ _ _ hstats =>
    rw [hstats]

theorem exact_of_counting {discarded : ℕ} (hcounting : Counting r c e)
    (hpolicy : r.fullPolicy = fullPolicy) (h : Exact fullPolicy r discarded) :
    Exact fullPolicy e.ring (discarded + (e.discarded c).length) where
  balance := balance_of_counting hcounting h.balance
  closedPushes_le := closedPushes_le_of_counting hcounting h.closedPushes_le
  overwrites_eq hreject :=
    (overwrites_of_counting hcounting (hpolicy.trans hreject)).trans (h.overwrites_eq hreject)

theorem push_of_counting (hcounting : Counting r c e) (hcall : c.isPush = true) :
    ∃ accepted, e.outcome = .pushed accepted ∧
      e.ring.stats.pushes = r.stats.pushes + accepted.toNat ∧
      e.ring.stats.failedPushes = r.stats.failedPushes + (!accepted).toNat := by
  cases hcounting with
  | rejectedClosed _ _ hout _ hstats | rejectedFull _ _ _ _ hout _ hstats =>
    refine ⟨false, hout, ?_⟩
    rw [hstats]
    exact ⟨rfl, rfl⟩
  | overwrote _ _ hout _ hstats | stored _ hout _ hstats =>
    refine ⟨true, hout, ?_⟩
    rw [hstats]
    exact ⟨rfl, rfl⟩
  | empty hpop _ _ _ | popped hpop _ _ _ =>
    rw [Call.isPush_of_isPop hpop] at hcall
    cases hcall
  | closed hother _ _ | cleared hother _ _ _ =>
    rw [hother] at hcall
    cases hcall

theorem pop_of_counting (hcounting : Counting r c e) (hcall : c.isPop = true) :
    ∃ succeeded, (e.outcome = .nullopt ↔ succeeded = false) ∧
      e.ring.stats.pops = r.stats.pops + succeeded.toNat ∧
      e.ring.stats.failedPops = r.stats.failedPops + (!succeeded).toNat := by
  cases hcounting with
  | empty _ hout _ hstats =>
    refine ⟨false, iff_of_true hout rfl, ?_⟩
    rw [hstats]
    exact ⟨rfl, rfl⟩
  | popped _ hout _ hstats =>
    obtain ⟨value, hout⟩ := hout
    refine ⟨true, iff_of_false ?_ Bool.false_ne_true.symm, ?_⟩
    · rw [hout]
      exact fun heq ↦ by cases heq
    · rw [hstats]
      exact ⟨rfl, rfl⟩
  | rejectedClosed hpush _ _ _ _ | rejectedFull hpush _ _ _ _ _ _ | overwrote hpush _ _ _ _
  | stored hpush _ _ _ =>
    rw [Call.isPop_of_isPush hpush] at hcall
    cases hcall
  | closed hother _ _ | cleared hother _ _ _ =>
    rw [hother] at hcall
    cases hcall

theorem frame_of_counting (hcounting : Counting r c e) :
    (c.isPush = false → e.ring.stats.pushes = r.stats.pushes ∧
      e.ring.stats.failedPushes = r.stats.failedPushes) ∧
    (c.isPop = false → e.ring.stats.pops = r.stats.pops ∧
      e.ring.stats.failedPops = r.stats.failedPops) := by
  cases hcounting with
  | rejectedClosed hpush _ _ _ hstats | rejectedFull hpush _ _ _ _ _ hstats
  | overwrote hpush _ _ _ hstats | stored hpush _ _ hstats =>
    rw [hpush, hstats]
    exact ⟨fun hcall ↦ Bool.noConfusion hcall, fun _ ↦ ⟨rfl, rfl⟩⟩
  | empty hpop _ _ hstats | popped hpop _ _ hstats =>
    rw [hpop, hstats]
    exact ⟨fun _ ↦ ⟨rfl, rfl⟩, fun hcall ↦ Bool.noConfusion hcall⟩
  | closed _ _ hstats | cleared _ _ _ hstats =>
    rw [hstats]
    exact ⟨fun _ ↦ ⟨rfl, rfl⟩, fun _ ↦ ⟨rfl, rfl⟩⟩

/-- A push is rejected for one of two reasons. -/
theorem closed_or_of_rejected (hcounting : Counting r c e) (hcall : c.isPush = true)
    (hout : e.outcome = .pushed false) :
    r.closed = true ∨ r.fullPolicy = .reject ∧ ∀ value, c ≠ .waitPush value := by
  cases hcounting with
  | rejectedClosed _ hclosed _ _ _ => exact Or.inl hclosed
  | rejectedFull _ _ hpolicy hwait _ _ _ => exact Or.inr ⟨hpolicy, hwait⟩
  | overwrote _ _ hout' _ _ | stored _ hout' _ _ =>
    rw [hout'] at hout
    cases hout
  | empty hpop _ _ _ | popped hpop _ _ _ =>
    rw [Call.isPush_of_isPop hpop] at hcall
    cases hcall
  | closed hother _ _ | cleared hother _ _ _ =>
    rw [hother] at hcall
    cases hcall

theorem countedOnce_of_counting (hcounting : Counting r c e) (hpolicy : r.fullPolicy = fullPolicy) :
    CountedOnce fullPolicy r c e where
  push := push_of_counting hcounting
  pop := pop_of_counting hcounting
  other_push := (frame_of_counting hcounting).1
  other_pop := (frame_of_counting hcounting).2
  waitPush_fails := by
    rintro - ⟨value, rfl⟩ hout
    exact (closed_or_of_rejected hcounting rfl hout).resolve_right fun h ↦ h.2 value rfl
  overwriting_accepts := by
    intro hoverwriting hcall hopen
    obtain ⟨accepted, hout, -⟩ := push_of_counting hcounting hcall
    cases accepted with
    | true => exact hout
    | false =>
      obtain hclosed | ⟨hreject, -⟩ := closed_or_of_rejected hcounting hcall hout
      · rw [hopen] at hclosed
        cases hclosed
      · rw [hpolicy, hoverwriting] at hreject
        cases hreject

end Books

/-! ## Sequences of operations -/

section Run

theorem exec_of_step (hcap : 1 ≤ capacity) {s s' : System α} {c : Call α}
    (h : (machine α capacity fullPolicy).Reachable s) (hstep : s.step c = some s') :
    Counting s.ring c (s.ring.exec c) ∧ s.ring.fullPolicy = fullPolicy ∧
      s'.ring = (s.ring.exec c).ring := by
  obtain ⟨t, -, hsim⟩ := exists_simulates_of_reachable hcap h
  rw [System.step] at hstep
  split at hstep
  · rename_i henabled
    obtain rfl := Option.some.inj hstep
    exact ⟨counting_exec hcap hsim.represents henabled, hsim.represents.fullPolicy_eq, rfl⟩
  · cases hstep

theorem exact_fresh : Exact fullPolicy (fresh α capacity fullPolicy) 0 :=
  ⟨rfl, Nat.le_refl _, fun _ ↦ rfl⟩

/-- **The statistics are exact.** After every sequence of operations on a buffer that the
constructor accepts, the accepted elements are those popped, overwritten, discarded and left; and
each operation of the sequence was counted once, as what it returned, with a reason if it is a push
that failed. For the counters of the source the sequence has fewer than `2 ^ 64` calls. -/
theorem statistics_exact (hcap : 1 ≤ capacity) {calls : List (Call α)} {s : System α}
    (h : (machine α capacity fullPolicy).run (machine α capacity fullPolicy).init calls = some s) :
    Exact fullPolicy s.ring ((machine α capacity fullPolicy).outputs System.discards
      (machine α capacity fullPolicy).init calls).length ∧
    ∀ before c after, calls = before ++ c :: after →
      ∃ u, (machine α capacity fullPolicy).run (machine α capacity fullPolicy).init before
          = some u ∧
        CountedOnce fullPolicy u.ring c (u.ring.exec c) := by
  refine Machine.run_invariant (J := fun calls s ↦ Exact fullPolicy s.ring
    ((machine α capacity fullPolicy).outputs System.discards
      (machine α capacity fullPolicy).init calls).length ∧
    ∀ before c after, calls = before ++ c :: after →
      ∃ u, (machine α capacity fullPolicy).run (machine α capacity fullPolicy).init before
          = some u ∧
        CountedOnce fullPolicy u.ring c (u.ring.exec c)) h ?_ ?_
  · refine ⟨exact_fresh, fun before c after hnil ↦ ?_⟩
    exact absurd hnil.symm (List.append_ne_nil_of_right_ne_nil _ (List.cons_ne_nil _ _))
  · intro calls u c v hu hJ hstep
    obtain ⟨hexact, hcounted⟩ := hJ
    obtain ⟨hcounting, hpolicy, hring⟩ := exec_of_step hcap (Machine.reachable_of_run hu) hstep
    refine ⟨?_, Machine.forall_position_concat hcounted ⟨u, hu, ?_⟩⟩
    · rw [Machine.outputs_concat _ hu, List.length_append, hring]
      exact exact_of_counting hcounting hpolicy hexact
    · exact countedOnce_of_counting hcounting hpolicy

end Run

/-- Two cells that overwrite: the third push drops the first value, one value is popped and the last
one cleared. -/
def overwriteAndClear : List (Call ℕ) :=
  [.tryPush 1, .waitPush 2, .waitPushFor 3 false, .tryPop, .clear, .tryPop, .close, .tryPush 4]

theorem statistics_exact_overwriteAndClear :
    ∃ s, (machine ℕ 2 .overwriteOldest).run (machine ℕ 2 .overwriteOldest).init overwriteAndClear
        = some s ∧
      s.ring.stats = ⟨3, 1, 1, 1, 1, 1⟩ ∧ Exact .overwriteOldest s.ring 1 := by
  obtain ⟨s, hs, hstats⟩ := Option.map_eq_some_iff.mp
    (show ((machine ℕ 2 .overwriteOldest).run (machine ℕ 2 .overwriteOldest).init
      overwriteAndClear).map (fun s ↦ s.ring.stats) = some ⟨3, 1, 1, 1, 1, 1⟩ by decide +kernel)
  have hdiscarded : ((machine ℕ 2 .overwriteOldest).outputs System.discards
      (machine ℕ 2 .overwriteOldest).init overwriteAndClear).length = 1 := by decide +kernel
  exact ⟨s, hs, hstats, hdiscarded ▸ (statistics_exact (by decide) hs).1⟩

end RingBuffer

end FoundationComponents
