import FoundationComponents.Machine.Tally
import FoundationComponents.RingBuffer.Monitor

/-!
# No wakeup is lost

A push notifies one consumer and a pop one producer, after the mutex has been released, so a
notification may come late, and the item it announces may be gone by then. The invariant counts: as
long as somebody is blocked on a condition variable, what a waiter could get (elements, or free
slots) is at most the number of `notify_one` still to be sent and of woken threads that have not
looked yet. The operations that change more than one place at a time, `close` and `clear`, send a
`notify_all` instead; until it is sent it covers everybody.

Whoever takes an element without having waited lowers both sides or only the left one, a thread
whose time is up counts as woken, and a section that blocks has just found nothing to get.
-/

namespace FoundationComponents

namespace RingBuffer

variable {α : Type*} {n : ℕ}

/-! ## What there is to get

A woken thread answers by looking, and a thread with notifications to send answers once for each
`notify_one`. A `notify_all` is not counted, as it covers everybody. -/

/-- How many threads waiting on the condition variable could go on. -/
def Ring.room (r : Ring α) : Condition → ℕ
  | .notEmpty => r.size
  | .notFull => r.capacity - r.size

/-- The notifications a thread still has to send. -/
def Pc.pending : Pc α → List Notification
  | .notifying next rest => next :: rest
  | _ => []

/-- The thread is woken and waits on the condition variable. -/
def Pc.isWoken (k : Condition) : Pc α → Bool
  | .woken call => decide (call.waitsOn = some k)
  | _ => false

/-- What the thread will do for those blocked on the condition variable: look for itself, and notify
others one by one. -/
def Pc.answers (k : Condition) (pc : Pc α) : ℕ :=
  (pc.isWoken k).toNat + pc.pending.count ⟨k, false⟩

/-! ## One body

A wait that ends without having timed out has found a place, which the body then uses. So a body
that makes a place makes one more than it needs to answer for. -/

section Body

variable {r : Ring α}

/-- What a body leaves to get, weighed against what it is about to notify: it will notify everybody,
or nothing is left, or there is at most one place more for each notification, less the one that was
found by the wait. -/
def Settles (k : Condition) (r : Ring α) (call : Call α) (e : Effect α) : Prop :=
  ⟨k, true⟩ ∈ call.notifications e.outcome ∨ e.ring.closed = false ∧
    (e.ring.room k = 0 ∨ e.ring.room k + (decide (call.waitsOn = some k)).toNat ≤
      r.room k + (call.notifications e.outcome).count ⟨k, false⟩)

private theorem destroyAt_closed (r : Ring α) (index : ℕ) :
    (r.destroyAt index).closed = r.closed := by
  rw [Ring.destroyAt]
  split <;> rfl

private theorem destroyAt_capacity (r : Ring α) (index : ℕ) :
    (r.destroyAt index).capacity = r.capacity := by
  rw [Ring.destroyAt]
  split <;> rfl

private theorem dropHead_closed (r : Ring α) : r.dropHead.closed = r.closed := destroyAt_closed r _

private theorem dropHead_capacity (r : Ring α) :
    r.dropHead.capacity = r.capacity := destroyAt_capacity r _

/-- `pushLocked` on an open buffer adds an element and is accepted, or finds the buffer full. -/
theorem pushLocked_spec (hopen : r.closed = false) (value : α) :
    (r.pushLocked value).ring.closed = false ∧
      ((r.pushLocked value).outcome = .pushed true ∧
          (r.pushLocked value).ring.size ≤ r.size + 1 ∧
          ((r.pushLocked value).ring.room .notFull = 0 ∨
            (r.pushLocked value).ring.room .notFull + 1 ≤ r.room .notFull) ∨
        (r.pushLocked value).outcome = .pushed false ∧
          (r.pushLocked value).ring.size = r.size ∧
          (r.pushLocked value).ring.room .notFull = 0) := by
  rw [Ring.pushLocked, if_neg (by rw [hopen]; exact Bool.false_ne_true)]
  split
  · rename_i hfull
    split
    · refine ⟨hopen, Or.inr ⟨rfl, rfl, ?_⟩⟩
      simp only [Ring.failPush, Ring.room]
      omega
    · refine ⟨(dropHead_closed r).trans hopen, Or.inl ⟨rfl, ?_, Or.inl ?_⟩⟩
      · simp only [Ring.store, Ring.dropHead]
        omega
      · have hcapacity := dropHead_capacity r
        simp only [Ring.store, Ring.room, Ring.constructAt, hcapacity]
        simp only [Ring.dropHead]
        omega
  · rename_i hroom
    refine ⟨hopen, Or.inl ⟨rfl, Nat.le_refl _, ?_⟩⟩
    simp only [Ring.store, Ring.room, Ring.constructAt]
    omega

theorem popLocked_spec (hpos : r.size ≠ 0) :
    r.popLocked.ring.closed = r.closed ∧ r.popLocked.ring.size + 1 = r.size ∧
      r.popLocked.ring.room .notFull ≤ r.room .notFull + 1 ∧ r.popLocked.outcome ≠ .nullopt := by
  refine ⟨dropHead_closed r, ?_, ?_, ?_⟩
  · exact Nat.sub_add_cancel (Nat.pos_of_ne_zero hpos)
  · have hcapacity := dropHead_capacity r
    simp only [Ring.popLocked, Ring.room, hcapacity]
    simp only [Ring.dropHead]
    omega
  · rw [Ring.popLocked]
    dsimp only
    split <;> exact nofun

theorem size_clearLoop (fuel : ℕ) (h : r.size ≤ fuel) :
    (Ring.clearLoop fuel r).1.size = 0 ∧ (Ring.clearLoop fuel r).1.closed = r.closed := by
  induction fuel generalizing r with
  | zero => exact ⟨Nat.le_zero.mp h, rfl⟩
  | succ fuel ih =>
    rw [Ring.clearLoop]
    split
    · obtain ⟨hsize, hclosed⟩ :=
        ih (r := r.dropHead) (by rw [Ring.dropHead]; exact Nat.sub_le_of_le_add h)
      exact ⟨hsize, hclosed.trans (dropHead_closed r)⟩
    · rename_i hempty
      exact ⟨Nat.eq_zero_of_not_pos hempty, rfl⟩

private theorem waitsOn_ne {call : Call α} {k k' : Condition}
    (h : call.waitsOn = none ∨ call.waitsOn = some k) (hk : k ≠ k') : call.waitsOn ≠ some k' := by
  rcases h with h | h
  · rw [h]
    exact nofun
  · rw [h]
    exact fun heq ↦ hk (Option.some.inj heq)

theorem settles_push {value : α} {call : Call α} (hopen : r.closed = false)
    (hcall : ∀ outcome, call.notifications outcome =
      if outcome.isAccepted then [⟨.notEmpty, false⟩] else [])
    (hwaits : call.waitsOn = none ∨ call.waitsOn = some .notFull) (k : Condition) :
    Settles k r call (r.pushLocked value) := by
  have hne : call.waitsOn ≠ some .notEmpty := waitsOn_ne hwaits nofun
  obtain ⟨hstill, ⟨hout, hsize, hroom⟩ | ⟨hout, hsize, hroom⟩⟩ := pushLocked_spec hopen value
  · refine Or.inr ⟨hstill, ?_⟩
    rw [hcall, hout]
    cases k with
    | notEmpty =>
      rw [decide_eq_false hne]
      exact Or.inr hsize
    | notFull =>
      have hle := Bool.toNat_le (decide (call.waitsOn = some .notFull))
      refine hroom.imp_right fun hlt ↦ ?_
      omega
  · refine Or.inr ⟨hstill, ?_⟩
    rw [hcall, hout]
    cases k with
    | notEmpty =>
      rw [decide_eq_false hne]
      exact Or.inr hsize.le
    | notFull => exact Or.inl hroom

theorem settles_pop {call : Call α} (hopen : r.closed = false)
    (hcall : ∀ outcome, outcome ≠ .nullopt → call.notifications outcome = [⟨.notFull, false⟩])
    (hwaits : call.waitsOn = none ∨ call.waitsOn = some .notEmpty) (hpos : r.size ≠ 0)
    (k : Condition) :
    Settles k r call r.popLocked := by
  have hne : call.waitsOn ≠ some .notFull := waitsOn_ne hwaits nofun
  obtain ⟨hstill, hsize, hroom, hout⟩ := popLocked_spec hpos
  refine Or.inr ⟨hstill.trans hopen, Or.inr ?_⟩
  rw [hcall _ hout]
  cases k with
  | notEmpty =>
    have hle := Bool.toNat_le (decide (call.waitsOn = some .notEmpty))
    simp only [Ring.room]
    omega
  | notFull =>
    rw [decide_eq_false hne]
    exact hroom

theorem notifications_pop {call : Call α} {outcome : Outcome α} (hout : outcome ≠ .nullopt)
    (hcall : call = .tryPop ∨ call = .waitPop ∨ ∃ timedOut, call = .waitPopFor timedOut) :
    call.notifications outcome = [⟨.notFull, false⟩] := by
  cases outcome with
  | nullopt => exact absurd rfl hout
  | _ => rcases hcall with rfl | rfl | ⟨_, rfl⟩ <;> rfl

theorem settles_failPop {call : Call α} (hopen : r.closed = false) (hempty : r.size = 0)
    (hwaits : call.waitsOn = none ∨ call.waitsOn = some .notEmpty) (k : Condition) :
    Settles k r call r.failPop := by
  have hne : call.waitsOn ≠ some .notFull := waitsOn_ne hwaits nofun
  refine Or.inr ⟨hopen, ?_⟩
  cases k with
  | notEmpty => exact Or.inl hempty
  | notFull =>
    rw [decide_eq_false hne]
    exact Or.inr (Nat.le_add_right _ _)

theorem exec_settles (hopen : r.closed = false) (call : Call α) (k : Condition) :
    Settles k r call (r.exec call) := by
  cases call with
  | tryPush value => exact settles_push hopen (fun _ ↦ rfl) (Or.inl rfl) k
  | waitPush value => exact settles_push hopen (fun _ ↦ rfl) (Or.inr rfl) k
  | waitPushFor value timedOut =>
    rw [Ring.exec]
    split
    · exact settles_push hopen (fun _ ↦ rfl) (Or.inr rfl) k
    · rename_i hfull
      refine Or.inr ⟨hopen, ?_⟩
      cases k with
      | notEmpty => exact Or.inr (Nat.le_refl _)
      | notFull =>
        rw [hopen, Bool.false_or, Ring.hasWritableSlotLocked, Bool.or_eq_true, not_or,
          decide_eq_true_iff] at hfull
        refine Or.inl ?_
        simp only [Ring.failPush, Ring.room]
        omega
  | tryPop =>
    rw [Ring.exec]
    split
    · rename_i hempty
      exact settles_failPop hopen hempty (Or.inl rfl) k
    · rename_i hpos
      exact settles_pop hopen (fun _ hne ↦ notifications_pop hne (Or.inl rfl)) (Or.inl rfl) hpos k
  | waitPop =>
    rw [Ring.exec]
    split
    · rename_i hempty
      exact settles_failPop hopen hempty (Or.inr rfl) k
    · rename_i hpos
      exact settles_pop hopen (fun _ hne ↦ notifications_pop hne (Or.inr (Or.inl rfl))) (Or.inr rfl)
        hpos k
  | waitPopFor timedOut =>
    rw [Ring.exec]
    split
    · rename_i hempty
      refine settles_failPop hopen ?_ (Or.inr rfl) k
      rcases hempty with hfalse | hempty
      · rw [hopen, Bool.false_or, decide_eq_false_iff_not] at hfalse
        omega
      · exact hempty
    · rename_i hpos
      rw [not_or] at hpos
      exact settles_pop hopen (fun _ hne ↦ notifications_pop hne (Or.inr (Or.inr ⟨_, rfl⟩)))
        (Or.inr rfl) hpos.2 k
  | close =>
    refine Or.inl ?_
    cases k with
    | notEmpty => exact List.mem_cons_self
    | notFull => exact List.mem_cons_of_mem _ List.mem_cons_self
  | clear =>
    cases k with
    | notEmpty =>
      obtain ⟨hsize, hclosed⟩ := size_clearLoop r.size (Nat.le_refl _)
      exact Or.inr ⟨hclosed.trans hopen, Or.inl hsize⟩
    | notFull => exact Or.inl List.mem_cons_self

/-- A section that blocks has found the buffer open, and nothing to get. -/
theorem enabled_eq_false {call : Call α} (h : r.enabled call = false) :
    r.closed = false ∧ ∃ k, call.waitsOn = some k ∧ r.room k = 0 := by
  cases call with
  | tryPush value | tryPop | close | clear => cases h
  | waitPush value =>
    simp only [Ring.enabled, Bool.or_eq_false_iff, decide_eq_false_iff_not] at h
    exact ⟨h.1.2, .notFull, rfl, by rw [Ring.room]; omega⟩
  | waitPushFor value timedOut =>
    simp only [Ring.enabled, Ring.hasWritableSlotLocked, Bool.or_eq_false_iff,
      decide_eq_false_iff_not] at h
    exact ⟨h.1.1, .notFull, rfl, by rw [Ring.room]; omega⟩
  | waitPop =>
    simp only [Ring.enabled, Bool.or_eq_false_iff, decide_eq_false_iff_not] at h
    exact ⟨h.1, .notEmpty, rfl, by rw [Ring.room]; omega⟩
  | waitPopFor timedOut =>
    simp only [Ring.enabled, Bool.or_eq_false_iff, decide_eq_false_iff_not] at h
    exact ⟨h.1.1, .notEmpty, rfl, by rw [Ring.room]; omega⟩

end Body

/-! ## Every reachable state

A step moves one thread and wakes at most one other. The sections that run a body are where places
appear; elsewhere nobody may lose an answer, and nobody may block. -/

section Covered

variable {capacity : ℕ} {fullPolicy : FullPolicy} {k : Condition}

/-- Whoever is blocked on the condition variable is covered: by a `notify_all` that is still to be
sent, or, while the buffer is open, by as many answers as there are places. -/
def Covered (k : Condition) (s : Monitor α n) : Prop :=
  (∃ t, (s.threads t).isBlockedOn k = true) →
    (∃ t, ⟨k, true⟩ ∈ (s.threads t).pending) ∨
      s.buffer.ring.closed = false ∧
        s.buffer.ring.room k ≤ tally (fun pc ↦ pc.answers k) s.threads

private theorem pending_returning (notifications : List Notification) :
    (Pc.returning notifications : Pc α).pending = notifications := by
  cases notifications <;> rfl

private theorem isBlockedOn_returning (notifications : List Notification) :
    (Pc.returning notifications : Pc α).isBlockedOn k = false := by
  cases notifications <;> rfl

private theorem answers_returning (notifications : List Notification) :
    (Pc.returning notifications : Pc α).answers k = notifications.count ⟨k, false⟩ := by
  have hwoken : (Pc.returning notifications : Pc α).isWoken k = false := by
    cases notifications <;> rfl
  rw [Pc.answers, hwoken, pending_returning, Bool.toNat_false, Nat.zero_add]

private theorem exists_pending_update {threads : Fin n → Pc α} {t : Fin n} {pc : Pc α}
    (h : ∃ i, ⟨k, true⟩ ∈ (threads i).pending)
    (hpc : ⟨k, true⟩ ∈ (threads t).pending → ⟨k, true⟩ ∈ pc.pending) :
    ∃ i, ⟨k, true⟩ ∈ (Function.update threads t pc i).pending := by
  obtain ⟨i, hi⟩ := h
  refine ⟨i, ?_⟩
  by_cases hit : i = t
  · subst hit
    rw [Function.update_self]
    exact hpc hi
  · rwa [Function.update_of_ne hit]

private theorem exists_blocked_of_update {threads : Fin n → Pc α} {t : Fin n} {pc : Pc α}
    (h : ∃ i, (Function.update threads t pc i).isBlockedOn k = true)
    (hpc : pc.isBlockedOn k = false) : ∃ i, (threads i).isBlockedOn k = true := by
  obtain ⟨i, hi⟩ := h
  refine ⟨i, ?_⟩
  by_cases hit : i = t
  · subst hit
    rw [Function.update_self, hpc] at hi
    cases hi
  · rwa [Function.update_of_ne hit] at hi

theorem before_section {pc : Pc α} {call : Call α} (h : pc = .entering call ∨ pc = .woken call) :
    pc.pending = [] ∧ pc.answers k ≤ (decide (call.waitsOn = some k)).toNat := by
  rcases h with rfl | rfl
  · exact ⟨rfl, Nat.zero_le _⟩
  · exact ⟨rfl, Nat.le_refl _⟩

theorem covered_body {s : Monitor α n} (h : Covered k s) {t : Fin n} {call : Call α}
    {buffer : System α} (ht : s.threads t = .entering call ∨ s.threads t = .woken call)
    (hbody : s.buffer.step call = some buffer) :
    Covered k
      { buffer := buffer
        threads := Function.update s.threads t
          (.returning (call.notifications (s.buffer.ring.exec call).outcome)) } := by
  intro hblocked
  obtain ⟨hpending, hanswers⟩ := before_section (k := k) ht
  have hring : buffer.ring = (s.buffer.ring.exec call).ring := by
    rw [System.step] at hbody
    split at hbody
    · rw [← Option.some.inj hbody]
    · cases hbody
  rcases h (exists_blocked_of_update hblocked (isBlockedOn_returning _)) with hall | ⟨hopen, hroom⟩
  · refine Or.inl (exists_pending_update hall fun hmem ↦ ?_)
    rw [hpending] at hmem
    cases hmem
  · rcases exec_settles hopen call k with hall | ⟨hstill, htrade⟩
    · -- `close` and `clear` are going to notify all
      refine Or.inl ⟨t, ?_⟩
      dsimp only
      rw [Function.update_self, pending_returning]
      exact hall
    · refine Or.inr ⟨by rw [hring]; exact hstill, ?_⟩
      have htally := tally_update (fun pc : Pc α ↦ pc.answers k) s.threads t
        (.returning (call.notifications (s.buffer.ring.exec call).outcome))
      rw [answers_returning] at htally
      rw [hring]
      rcases htrade with hzero | hle
      · rw [hzero]
        exact Nat.zero_le _
      · dsimp only
        omega

theorem covered_block {s : Monitor α n} (h : Covered k s) {t : Fin n} {call : Call α}
    (ht : s.threads t = .entering call ∨ s.threads t = .woken call)
    (hfalse : s.buffer.ring.enabled call = false) : Covered k (s.goto t (.blocked call)) := by
  intro hblocked
  obtain ⟨hopen, k', hwaits, hroom⟩ := enabled_eq_false hfalse
  by_cases hk : k' = k
  · -- it blocks because there is nothing to get
    subst hk
    exact Or.inr ⟨hopen, hroom.le.trans (Nat.zero_le _)⟩
  · obtain ⟨hpending, hanswers⟩ := before_section (k := k) ht
    have hnot : call.waitsOn ≠ some k := waitsOn_ne (Or.inr hwaits) hk
    have hold := exists_blocked_of_update hblocked (decide_eq_false hnot)
    rcases h hold with hall | ⟨-, hle⟩
    · refine Or.inl (exists_pending_update hall fun hmem ↦ ?_)
      rw [hpending] at hmem
      cases hmem
    · refine Or.inr ⟨hopen, ?_⟩
      rw [decide_eq_false hnot] at hanswers
      have htally := tally_update (fun pc : Pc α ↦ pc.answers k) s.threads t (.blocked call)
      have hzero : (s.threads t).answers k = 0 := Nat.le_zero.mp hanswers
      rw [hzero] at htally
      exact hle.trans htally.ge

/-- A thread moves without the mutex: it sends nothing less and answers no less, and does not
block. -/
theorem covered_goto {s : Monitor α n} (h : Covered k s) {t : Fin n} {pc : Pc α}
    (hblocked : pc.isBlockedOn k = false) (hpending : (s.threads t).pending = [])
    (hanswers : (s.threads t).answers k = 0) : Covered k (s.goto t pc) := by
  intro hsome
  rcases h (exists_blocked_of_update hsome hblocked) with hall | ⟨hopen, hle⟩
  · refine Or.inl (exists_pending_update hall fun hmem ↦ ?_)
    rw [hpending] at hmem
    cases hmem
  · refine Or.inr ⟨hopen, hle.trans ?_⟩
    have htally := tally_update (fun pc : Pc α ↦ pc.answers k) s.threads t pc
    rw [hanswers] at htally
    exact Nat.le_of_add_right_le htally.ge

/-! ### Notifications -/

private theorem pending_wake (k' : Condition) (pc : Pc α) : (pc.wake k').pending = pc.pending := by
  cases pc with
  | blocked call =>
    rw [Pc.wake]
    split <;> rfl
  | _ => rfl

private theorem isBlockedOn_of_wake {k' : Condition} {pc : Pc α}
    (h : (pc.wake k').isBlockedOn k = true) :
    pc.isBlockedOn k = true ∧ k' ≠ k := by
  cases pc with
  | blocked call =>
    rw [Pc.wake] at h
    split at h
    · cases h
    · rename_i hother
      refine ⟨h, ?_⟩
      rintro rfl
      exact hother (of_decide_eq_true h)
  | _ => cases h

private theorem answers_wake_self {pc : Pc α} (h : pc.isBlockedOn k = true) :
    pc.answers k = 0 ∧ (pc.wake k).answers k = 1 := by
  cases pc with
  | blocked call =>
    have hwaits : call.waitsOn = some k := of_decide_eq_true h
    refine ⟨rfl, ?_⟩
    rw [Pc.wake, if_pos hwaits, Pc.answers, Pc.isWoken, decide_eq_true hwaits]
    rfl
  | _ => cases h

private theorem answers_le_wake (k' : Condition) (pc : Pc α) :
    pc.answers k ≤ (pc.wake k').answers k := by
  cases pc with
  | blocked call => exact Nat.zero_le _
  | _ => exact Nat.le_refl _

/-- What a notification does for those who stay blocked: it was not meant for all of them, and if it
was a `notify_one` it has given them one more answer. -/
theorem notified_spec {threads threads' : Fin n → Pc α} {next : Notification}
    {target : Option (Fin n)} (h : Monitor.notified threads next target = some threads')
    (hblocked : ∃ t, (threads' t).isBlockedOn k = true) :
    (∀ t, (threads' t).pending = (threads t).pending) ∧
      (∃ t, (threads t).isBlockedOn k = true) ∧ next ≠ ⟨k, true⟩ ∧
      tally (fun pc ↦ pc.answers k) threads + (if next = ⟨k, false⟩ then 1 else 0) ≤
        tally (fun pc ↦ pc.answers k) threads' := by
  obtain ⟨i, hi⟩ := hblocked
  cases target with
  | none =>
    simp only [Monitor.notified] at h
    split at h
    · rename_i hall
      obtain rfl := Option.some.inj h
      obtain ⟨hold, hne⟩ := isBlockedOn_of_wake hi
      have hother : ∀ b, next ≠ ⟨k, b⟩ := by
        rintro b rfl
        exact hne rfl
      rw [if_neg (hother false)]
      refine ⟨fun _ ↦ pending_wake _ _, ⟨i, hold⟩, hother true, ?_⟩
      exact tally_le_tally (fun pc : Pc α ↦ pc.answers k) fun t ↦ answers_le_wake _ (threads t)
    split at h
    · rename_i hone hnobody
      obtain rfl := Option.some.inj h
      have hother : ∀ b, next ≠ ⟨k, b⟩ := by
        rintro b rfl
        rw [hnobody i] at hi
        cases hi
      rw [if_neg (hother false)]
      exact ⟨fun _ ↦ rfl, ⟨i, hi⟩, hother true, Nat.le_refl _⟩
    · cases h
  | some j =>
    simp only [Monitor.notified] at h
    split at h
    · rename_i hone
      obtain ⟨hall, hj⟩ := hone
      obtain rfl := Option.some.inj h
      have hpending : ∀ t, (Function.update threads j ((threads j).wake next.condition) t).pending
          = (threads t).pending :=
        fun t ↦ apply_update_eq Pc.pending threads (pending_wake _ _) t
      have hold : ∃ t, (threads t).isBlockedOn k = true := by
        refine ⟨i, ?_⟩
        by_cases hij : i = j
        · subst hij
          rw [Function.update_self] at hi
          exact (isBlockedOn_of_wake hi).1
        · rwa [Function.update_of_ne hij] at hi
      have htally := tally_update (fun pc : Pc α ↦ pc.answers k) threads j
        ((threads j).wake next.condition)
      refine ⟨hpending, hold, ?_, ?_⟩
      · rintro rfl
        cases hall
      · split
        · rename_i hnext
          subst hnext
          obtain ⟨hzero, hone⟩ := answers_wake_self hj
          rw [hzero, hone] at htally
          exact htally.ge
        · have hle := answers_le_wake (k := k) next.condition (threads j)
          omega
    · cases h

private theorem covered_notify {s : Monitor α n} (h : Covered k s) {t : Fin n} {next : Notification}
    {rest : List Notification} {target : Option (Fin n)} {threads : Fin n → Pc α}
    (ht : s.threads t = .notifying next rest)
    (hnotified : Monitor.notified (Function.update s.threads t (.returning rest)) next target
      = some threads) : Covered k { s with threads := threads } := by
  intro hblocked
  obtain ⟨hpending, hold, hnext, hle⟩ := notified_spec hnotified hblocked
  rcases h (exists_blocked_of_update hold (isBlockedOn_returning _)) with hall | ⟨hopen, hroom⟩
  · have hrest : ⟨k, true⟩ ∈ (s.threads t).pending →
        ⟨k, true⟩ ∈ (Pc.returning rest : Pc α).pending := by
      intro hmem
      rw [ht, Pc.pending, List.mem_cons] at hmem
      rw [pending_returning]
      exact hmem.resolve_left (Ne.symm hnext)
    obtain ⟨i, hi⟩ := exists_pending_update hall hrest
    refine Or.inl ⟨i, ?_⟩
    dsimp only
    rwa [hpending]
  · refine Or.inr ⟨hopen, hroom.trans (le_trans ?_ hle)⟩
    have htally := tally_update (fun pc : Pc α ↦ pc.answers k) s.threads t (.returning rest)
    have hbefore : (s.threads t).answers k =
        rest.count ⟨k, false⟩ + if next = ⟨k, false⟩ then 1 else 0 := by
      rw [ht]
      simp only [Pc.answers, Pc.isWoken, Bool.toNat_false, Nat.zero_add, Pc.pending,
        List.count_cons, beq_iff_eq]
    rw [answers_returning, hbefore] at htally
    omega

theorem covered_step {s s' : Monitor α n} {a : Action α n} (h : Covered k s)
    (hstep : s.step a = some s') : Covered k s' := by
  cases stepped_of_step hstep with
  | call t call ht =>
    apply covered_goto h rfl
    · rw [ht]
      rfl
    · rw [ht]
      rfl
  | body t call buffer ht hbody => exact covered_body h ht hbody
  | block t call ht hfalse => exact covered_block h ht hfalse
  | leave t call call' ht _ =>
    apply covered_goto h rfl
    · rw [ht]
      rfl
    · rw [ht]
      rfl
  | notify t next rest target threads ht hnotified => exact covered_notify h ht hnotified

theorem covered_of_reachable {s : Monitor α n}
    (h : (monitorMachine α capacity fullPolicy n).Reachable s) (k : Condition) : Covered k s := by
  refine Machine.Leads.invariant (I := Covered k) h ?_ fun hs _ hstep ↦ covered_step hs hstep
  rintro ⟨t, ht⟩
  cases ht

/-! ## Nobody is stuck

In a quiet state there are no answers left, so whoever is blocked has nothing to get. -/

/-- No thread has a notification to send, and no woken thread has still to look. -/
def Quiet (s : Monitor α n) : Prop :=
  ∀ t, (s.threads t).pending = [] ∧ ∀ k, (s.threads t).isWoken k = false

/-- A consumer is blocked though there is an element or the buffer is closed, or a producer is
blocked though there is a free slot or the buffer is closed. -/
def Stuck (s : Monitor α n) : Prop :=
  (∃ t, (s.threads t).isBlockedOn .notEmpty = true) ∧
      (s.buffer.ring.size > 0 ∨ s.buffer.ring.closed = true) ∨
    (∃ t, (s.threads t).isBlockedOn .notFull = true) ∧
      (s.buffer.ring.size < s.buffer.ring.capacity ∨ s.buffer.ring.closed = true)

theorem Covered.room_eq_zero {s : Monitor α n} (h : Covered k s) (hquiet : Quiet s)
    (hblocked : ∃ t, (s.threads t).isBlockedOn k = true) :
    s.buffer.ring.closed = false ∧ s.buffer.ring.room k = 0 := by
  have hanswers : tally (fun pc ↦ pc.answers k) s.threads = 0 := by
    refine tally_eq_zero _ _ fun t ↦ ?_
    rw [Pc.answers, (hquiet t).1, (hquiet t).2 k]
    rfl
  rcases h hblocked with ⟨t, ht⟩ | ⟨hopen, hroom⟩
  · rw [(hquiet t).1] at ht
    cases ht
  · rw [hanswers] at hroom
    exact ⟨hopen, Nat.le_zero.mp hroom⟩

/-- **No wakeup is lost.** For every capacity, both policies and any number of threads, no reachable
state is quiet and stuck. -/
theorem not_stuck_of_quiet {s : Monitor α n}
    (h : (monitorMachine α capacity fullPolicy n).Reachable s) (hquiet : Quiet s) : ¬Stuck s := by
  rintro (⟨hblocked, hstuck⟩ | ⟨hblocked, hstuck⟩)
  · obtain ⟨hopen, hroom⟩ := (covered_of_reachable h .notEmpty).room_eq_zero hquiet hblocked
    rcases hstuck with hpos | hclosed
    · exact hpos.ne' hroom
    · exact absurd (hopen.symm.trans hclosed) nofun
  · obtain ⟨hopen, hroom⟩ := (covered_of_reachable h .notFull).room_eq_zero hquiet hblocked
    rcases hstuck with hlt | hclosed
    · exact Nat.sub_ne_zero_of_lt hlt hroom
    · exact absurd (hopen.symm.trans hclosed) nofun

end Covered

/-- One cell, and a consumer that blocks before the first push and is notified after it. -/
def pushAfterBlock (t u : Fin n) : List (Action ℕ n) :=
  [.call t .waitPop, .enter t, .call u (.tryPush 7), .enter u, .notify u (some t), .enter t,
    .notify t none, .call t .waitPop, .enter t]

theorem not_stuck_of_quiet_pushAfterBlock :
    ∃ s, (monitorMachine ℕ 1 .reject 2).Reachable s ∧ s.buffer.removed = [7] ∧
      (s.threads 0).isBlockedOn .notEmpty = true ∧ ¬Stuck s := by
  obtain ⟨s, hs, hf⟩ := Machine.exists_reachable_of_run (M := monitorMachine ℕ 1 .reject 2)
    (fun s ↦ (s.buffer.removed, (s.threads 0).isBlockedOn .notEmpty,
      decide (∀ t, (s.threads t).pending = [] ∧ (s.threads t).isWoken .notEmpty = false ∧
        (s.threads t).isWoken .notFull = false))) (pushAfterBlock 0 1)
    (b := ([7], true, true)) (by decide +kernel)
  simp only [Prod.mk.injEq] at hf
  obtain ⟨hremoved, hblocked, hquiet⟩ := hf
  refine ⟨s, hs, hremoved, hblocked, not_stuck_of_quiet hs fun t ↦ ?_⟩
  obtain ⟨hpending, hnotEmpty, hnotFull⟩ := of_decide_eq_true hquiet t
  refine ⟨hpending, fun k ↦ ?_⟩
  cases k with
  | notEmpty => exact hnotEmpty
  | notFull => exact hnotFull

end RingBuffer

end FoundationComponents
