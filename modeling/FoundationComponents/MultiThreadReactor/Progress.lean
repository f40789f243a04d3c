import FoundationComponents.Machine.Tally
import FoundationComponents.MultiThreadReactor.Lifecycle

/-!
# Starting and stopping end, or deadlock in one way

The lifecycle of a reactor is a chain of phases: new, starting, running, stopping, stopped; a start
that fails goes from starting to stopped. The mutex is held in starting and stopping, and what it
guards can be read off the position of its holder.

Every position is worth a bounded number of steps. When no step is left, either all calls have
returned and the reactor is new, running with every worker in its loop, or stopped with no worker
left; or the holder of the mutex joins a worker whose callback waits for the mutex. There is no
other way to get stuck.
-/

namespace FoundationComponents

namespace MultiThreadReactor

namespace Lifecycle

variable {n m : ℕ} {s s' : State n m}

/-! ## The phases

What the mutex guards is in one of a few phases, and its holder is at a position that belongs to the
phase. The other threads are outside, or wait for the mutex. -/

/-- The thread creates the workers, or cleans up after that has failed. -/
def Pc.inStart : Pc m → Bool
  | .creating _ | .failing _ | .failJoining _ => true
  | _ => false

/-- What the mutex guards while its holder is at a position, and while it is free. -/
def Phase (isRunning stoppedAfterStart : Bool) (threads : List (Fin m)) (stopping : Fin m → Bool) :
    Pc m → Prop
  | .creating rest =>
      isRunning = true ∧ stoppedAfterStart = false ∧ threads ++ rest = List.finRange m ∧
        ∀ i, stopping i = false
  | .failing rest =>
      isRunning = true ∧ stoppedAfterStart = false ∧ threads.length ≤ m ∧
        ∀ i, i ∈ rest ∨ stopping i = true
  | .failJoining rest =>
      isRunning = true ∧ stoppedAfterStart = false ∧ rest ⊆ threads ∧ ∀ i, stopping i = true
  | .stopping rest =>
      isRunning = false ∧ stoppedAfterStart = true ∧ threads.length ≤ m ∧
        ∀ i, i ∈ rest ∨ stopping i = true
  | .joining rest =>
      isRunning = false ∧ stoppedAfterStart = true ∧ rest ⊆ threads ∧ ∀ i, stopping i = true
  | .idle | .startLocking | .stopLocking =>
      isRunning = false ∧ stoppedAfterStart = false ∧ threads = [] ∧ (∀ i, stopping i = false) ∨
      isRunning = true ∧ stoppedAfterStart = false ∧ threads = List.finRange m ∧
        (∀ i, stopping i = false) ∨
      isRunning = false ∧ stoppedAfterStart = true ∧ threads = [] ∧ ∀ i, stopping i = true

/-- What holds between the steps. -/
structure Inv (s : State n m) : Prop where
  holder_iff : ∀ t, s.holder = some t ↔ (s.pcs t).holds = true
  free : s.holder = none → Phase s.isRunning s.stoppedAfterStart s.threads s.stopping .idle
  held : ∀ t, (s.pcs t).holds = true →
    Phase s.isRunning s.stoppedAfterStart s.threads s.stopping (s.pcs t)
  created : ∀ w ∈ s.threads, s.workers w ≠ .absent
  listed : s.stoppedAfterStart = false → ∀ w, s.workers w ≠ .absent → w ∈ s.threads
  exited : ∀ w, s.workers w = .exited → s.stopping w = true
  calls : ∀ w, s.pcs (.worker w) ≠ .idle → s.workers w = .callback
  starts : ∀ w, (s.pcs (.worker w)).inStart = false

theorem inv_init : Inv (machine n m).init where
  holder_iff _ := ⟨nofun, nofun⟩
  free _ := Or.inl ⟨rfl, rfl, rfl, fun _ ↦ rfl⟩
  held _ := nofun
  created _ := nofun
  listed _ _ habsent := absurd rfl habsent
  exited _ := nofun
  calls _ hbusy := absurd rfl hbusy
  starts _ := rfl

/-- The thread, worker or flag that was updated, and the others. -/
theorem update_cases {ι β : Type*} [DecidableEq ι] (f : ι → β) (i : ι) (b : β) (j : ι) :
    j = i ∧ Function.update f i b j = b ∨ j ≠ i ∧ Function.update f i b j = f j := by
  by_cases hji : j = i
  · subst hji
    exact Or.inl ⟨rfl, Function.update_self ..⟩
  · exact Or.inr ⟨hji, Function.update_of_ne hji ..⟩

theorem ne_idle_of_holds {pc : Pc m} (h : pc.holds = true) : pc ≠ .idle := by
  rintro rfl
  cases h

theorem Inv.outside (h : Inv s) (t : Thread n m) {pc : Pc m} (hpc : pc.holds = false)
    (hbefore : (s.pcs t).holds = false)
    (hcalls : ∀ w, t = .worker w → pc ≠ .idle → s.workers w = .callback) :
    Inv (s.setPc t pc) := by
  have hholds : ∀ u, ((s.setPc t pc).pcs u).holds = (s.pcs u).holds := by
    intro u
    obtain ⟨rfl, heq⟩ | ⟨-, heq⟩ := update_cases s.pcs t pc u
    · exact (congrArg Pc.holds heq).trans (hpc.trans hbefore.symm)
    · exact congrArg Pc.holds heq
  refine ⟨fun u ↦ ?_, h.free, fun u hu ↦ ?_, h.created, h.listed, h.exited, fun w hbusy ↦ ?_,
    fun w ↦ ?_⟩
  · rw [hholds]
    exact h.holder_iff u
  · rw [hholds] at hu
    obtain ⟨rfl, -⟩ | ⟨-, heq⟩ := update_cases s.pcs t pc u
    · rw [hbefore] at hu
      cases hu
    · rw [State.setPc]
      dsimp only
      rw [heq]
      exact h.held u hu
  · rw [State.setPc] at hbusy
    dsimp only at hbusy
    obtain ⟨hw, heq⟩ | ⟨-, heq⟩ := update_cases s.pcs t pc (.worker w)
    · rw [heq] at hbusy
      exact hcalls w hw.symm hbusy
    · rw [heq] at hbusy
      exact h.calls w hbusy
  · rw [State.setPc]
    dsimp only
    obtain ⟨-, heq⟩ | ⟨-, heq⟩ := update_cases s.pcs t pc (.worker w)
    · rw [heq]
      cases pc with
      | idle | startLocking | stopLocking => rfl
      | _ => cases hpc
    · rw [heq]
      exact h.starts w

/-- Nobody else is at a position under the mutex. -/
def Alone (s : State n m) (t : Thread n m) : Prop := ∀ u, u ≠ t → (s.pcs u).holds = false

theorem Inv.alone_of_holds (h : Inv s) {t : Thread n m} (ht : (s.pcs t).holds = true) :
    Alone s t := by
  intro u hne
  refine Bool.eq_false_iff.mpr fun hu ↦ hne ?_
  exact Option.some.inj (((h.holder_iff u).mpr hu).symm.trans ((h.holder_iff t).mpr ht))

theorem Inv.not_holds_of_free (h : Inv s) (hfree : s.holder = none) (t : Thread n m) :
    (s.pcs t).holds = false := by
  refine Bool.eq_false_iff.mpr fun ht ↦ ?_
  have hheld := (h.holder_iff t).mpr ht
  rw [hfree] at hheld
  cases hheld

theorem Inv.alone_of_free (h : Inv s) (hfree : s.holder = none) (t : Thread n m) : Alone s t :=
  fun u _ ↦ h.not_holds_of_free hfree u

theorem Inv.guarded (h : Inv s) {u : State n m} {t : Thread n m} {pc : Pc m} (halone : Alone s t)
    (hpcs : u.pcs = Function.update s.pcs t pc)
    (hholder : u.holder = if pc.holds then some t else none)
    (hphase : Phase u.isRunning u.stoppedAfterStart u.threads u.stopping pc)
    (hcreated : ∀ w ∈ u.threads, u.workers w ≠ .absent)
    (hlisted : u.stoppedAfterStart = false → ∀ w, u.workers w ≠ .absent → w ∈ u.threads)
    (hexited : ∀ w, u.workers w = .exited → u.stopping w = true)
    (hcalls : ∀ w, u.pcs (.worker w) ≠ .idle → u.workers w = .callback)
    (hstarts : ∀ w, t = .worker w → pc.inStart = false) : Inv u := by
  refine ⟨fun v ↦ ?_, fun hfree ↦ ?_, fun v hv ↦ ?_, hcreated, hlisted, hexited, hcalls, fun w ↦ ?_⟩
  · rw [hpcs, hholder]
    obtain ⟨rfl, heq⟩ | ⟨hne, heq⟩ := update_cases s.pcs t pc v
    · rw [heq]
      cases pc.holds <;> simp
    · rw [heq, halone v hne]
      cases pc.holds <;> simp [Ne.symm hne]
  · rw [hholder] at hfree
    cases pc with
    | idle | startLocking | stopLocking => exact hphase
    | _ => cases hfree
  · rw [hpcs] at hv ⊢
    obtain ⟨rfl, heq⟩ | ⟨hne, heq⟩ := update_cases s.pcs t pc v
    · rw [heq]
      exact hphase
    · rw [heq, halone v hne] at hv
      cases hv
  · rw [hpcs]
    obtain ⟨hw, heq⟩ | ⟨-, heq⟩ := update_cases s.pcs t pc (.worker w)
    · rw [heq]
      exact hstarts w hw.symm
    · rw [heq]
      exact h.starts w

theorem Inv.calls_update (h : Inv s) {t : Thread n m} {pc : Pc m} (hbusy : s.pcs t ≠ .idle)
    (w : Fin m) (hw : Function.update s.pcs t pc (.worker w) ≠ .idle) :
    s.workers w = .callback := by
  refine h.calls w ?_
  obtain ⟨rfl, -⟩ | ⟨-, heq⟩ := update_cases s.pcs t pc (.worker w)
  · exact hbusy
  · rw [heq] at hw
    exact hw

theorem Inv.go (h : Inv s) {t : Thread n m} {pc : Pc m} {stopping : Fin m → Bool}
    (hbefore : (s.pcs t).holds = true) (hpc : pc.holds = true)
    (hphase : Phase s.isRunning s.stoppedAfterStart s.threads stopping pc)
    (hflags : ∀ i, s.stopping i = true → stopping i = true)
    (hstart : pc.inStart = (s.pcs t).inStart) :
    Inv ({ s with stopping := stopping }.setPc t pc) := by
  refine h.guarded (h.alone_of_holds hbefore) rfl ?_ hphase h.created h.listed
    (fun w hw ↦ hflags w (h.exited w hw)) (h.calls_update (ne_idle_of_holds hbefore))
    (fun w hw ↦ ?_)
  · rw [if_pos hpc]
    exact (h.holder_iff t).mpr hbefore
  · rw [hstart, hw]
    exact h.starts w

theorem Inv.goOn (h : Inv s) {t : Thread n m} {pc : Pc m} (hbefore : (s.pcs t).holds = true)
    (hpc : pc.holds = true)
    (hphase : Phase s.isRunning s.stoppedAfterStart s.threads s.stopping pc)
    (hstart : pc.inStart = (s.pcs t).inStart) : Inv (s.setPc t pc) := by
  have hgo : Inv ({ s with stopping := s.stopping }.setPc t pc) :=
    h.go hbefore hpc hphase (fun _ ↦ id) hstart
  exact hgo

private theorem stopping_update {stopping : Fin m → Bool} {i : Fin m} {rest : List (Fin m)}
    (h : ∀ j, j ∈ i :: rest ∨ stopping j = true) (j : Fin m) :
    j ∈ rest ∨ Function.update stopping i true j = true := by
  obtain ⟨-, heq⟩ | ⟨hji, heq⟩ := update_cases stopping i true j
  · exact Or.inr heq
  · rw [heq]
    exact (h j).imp_left fun hmem ↦ (List.mem_cons.mp hmem).resolve_left hji

private theorem stopping_of_nil {stopping : Fin m → Bool} (h : ∀ j, j ∈ [] ∨ stopping j = true)
    (j : Fin m) : stopping j = true := (h j).resolve_left List.not_mem_nil

private theorem stopping_mono {stopping : Fin m → Bool} (i j : Fin m) (h : stopping j = true) :
    Function.update stopping i true j = true := by
  obtain ⟨-, heq⟩ | ⟨-, heq⟩ := update_cases stopping i true j
  · exact heq
  · rwa [heq]

theorem Inv.create (h : Inv s) {t : Thread n m} {w : Fin m} {rest : List (Fin m)}
    (hpc : s.pcs t = .creating (w :: rest)) :
    Inv { (s.setWorker w .looping).setPc t (.creating rest) with threads := s.threads ++ [w] } := by
  have hbefore : (s.pcs t).holds = true := by rw [hpc]; rfl
  have hphase := h.held t hbefore
  rw [hpc] at hphase
  obtain ⟨hrunning, hopen, hthreads, hflags⟩ := hphase
  have hnew : s.workers w = .absent := by
    by_contra hne
    have hnodup := List.nodup_finRange m
    rw [← hthreads] at hnodup
    exact List.disjoint_of_nodup_append hnodup (h.listed hopen w hne) List.mem_cons_self
  refine h.guarded (h.alone_of_holds hbefore) rfl ((h.holder_iff t).mpr hbefore) ?_
    (fun v hv ↦ ?_) (fun _ v hv ↦ ?_) (fun v hv ↦ ?_) (fun v hv ↦ ?_) fun v hv ↦ ?_
  · exact ⟨hrunning, hopen, by rw [← hthreads, List.append_assoc]; rfl, hflags⟩
  · change Function.update s.workers w .looping v ≠ .absent
    obtain ⟨-, heq⟩ | ⟨hvw, heq⟩ := update_cases s.workers w .looping v
    · rw [heq]
      simp
    · rw [heq]
      exact h.created v ((List.mem_append.mp hv).resolve_right fun hmem ↦
        hvw (List.mem_singleton.mp hmem))
  · change v ∈ s.threads ++ [w]
    change Function.update s.workers w .looping v ≠ .absent at hv
    obtain ⟨rfl, -⟩ | ⟨-, heq⟩ := update_cases s.workers w .looping v
    · exact List.mem_append_right _ List.mem_cons_self
    · rw [heq] at hv
      exact List.mem_append_left _ (h.listed hopen v hv)
  · change Function.update s.workers w .looping v = .exited at hv
    obtain ⟨-, heq⟩ | ⟨-, heq⟩ := update_cases s.workers w .looping v
    · rw [heq] at hv
      cases hv
    · rw [heq] at hv
      exact h.exited v hv
  · change Function.update s.workers w .looping v = .callback
    have hupdated : Function.update s.pcs t (.creating rest) (.worker v) ≠ .idle := hv
    have hcallback := h.calls_update (ne_idle_of_holds hbefore) v hupdated
    rw [Function.update_of_ne, hcallback]
    rintro rfl
    rw [hnew] at hcallback
    cases hcallback
  · have hstart := h.starts v
    rw [← hv, hpc] at hstart
    cases hstart

theorem Inv.unlock (h : Inv s) {t : Thread n m} {isRunning stoppedAfterStart : Bool}
    {threads : List (Fin m)} (hbefore : (s.pcs t).holds = true)
    (hphase : Phase isRunning stoppedAfterStart threads s.stopping .idle)
    (hthreads : threads ⊆ s.threads)
    (hlisted : stoppedAfterStart = false → s.stoppedAfterStart = false ∧ threads = s.threads) :
    Inv { s.unlock t with
      isRunning := isRunning, stoppedAfterStart := stoppedAfterStart, threads := threads } := by
  refine h.guarded (h.alone_of_holds hbefore) rfl rfl hphase (fun w hw ↦ h.created w (hthreads hw))
    (fun hopen w hw ↦ ?_) h.exited (h.calls_update (ne_idle_of_holds hbefore)) fun _ _ ↦ rfl
  obtain ⟨hbefore, heq⟩ := hlisted hopen
  change w ∈ threads
  rw [heq]
  exact h.listed hbefore w hw

theorem Inv.advance (h : Inv s) {t : Thread n m} {created : Bool}
    (hstep : s.advance t created = some s') : Inv s' := by
  have hheld := h.held t
  simp only [State.advance] at hstep
  split at hstep
  case h_1 w rest hpc =>
    split at hstep
    · obtain rfl := Option.some.inj hstep
      exact h.create hpc
    · obtain rfl := Option.some.inj hstep
      rw [hpc] at hheld
      obtain ⟨hrunning, hopen, hthreads, hflags⟩ := hheld rfl
      have hlength : s.threads.length ≤ m := by
        have hsum := congrArg List.length hthreads
        rw [List.length_append, List.length_finRange] at hsum
        omega
      exact h.goOn (by rw [hpc]; rfl) rfl
        ⟨hrunning, hopen, hlength, fun i ↦ Or.inl (List.mem_finRange i)⟩
        (by rw [hpc]; rfl)
  case h_2 hpc =>
    obtain rfl := Option.some.inj hstep
    rw [hpc] at hheld
    obtain ⟨hrunning, hopen, hthreads, hflags⟩ := hheld rfl
    rw [List.append_nil] at hthreads
    exact h.unlock (by rw [hpc]; rfl) (Or.inr (Or.inl ⟨hrunning, hopen, hthreads, hflags⟩))
      (List.Subset.refl _) fun _ ↦ ⟨hopen, rfl⟩
  case h_3 i rest hpc =>
    obtain rfl := Option.some.inj hstep
    rw [hpc] at hheld
    obtain ⟨hrunning, hopen, hlength, hflags⟩ := hheld rfl
    exact h.go (by rw [hpc]; rfl) rfl ⟨hrunning, hopen, hlength, stopping_update hflags⟩
      (stopping_mono i) (by rw [hpc]; rfl)
  case h_4 hpc =>
    obtain rfl := Option.some.inj hstep
    rw [hpc] at hheld
    obtain ⟨hrunning, hopen, hlength, hflags⟩ := hheld rfl
    exact h.goOn (by rw [hpc]; rfl) rfl
      ⟨hrunning, hopen, List.Subset.refl _, stopping_of_nil hflags⟩ (by rw [hpc]; rfl)
  case h_5 w rest hpc =>
    split at hstep
    · obtain rfl := Option.some.inj hstep
      rw [hpc] at hheld
      obtain ⟨hrunning, hopen, hsub, hflags⟩ := hheld rfl
      exact h.goOn (by rw [hpc]; rfl) rfl
        ⟨hrunning, hopen, (List.cons_subset.mp hsub).2, hflags⟩ (by rw [hpc]; rfl)
    · cases hstep
  case h_6 hpc =>
    obtain rfl := Option.some.inj hstep
    rw [hpc] at hheld
    obtain ⟨-, -, -, hflags⟩ := hheld rfl
    exact h.unlock (by rw [hpc]; rfl) (Or.inr (Or.inr ⟨rfl, rfl, rfl, hflags⟩))
      (List.nil_subset _) fun hopen ↦ by cases hopen
  case h_7 i rest hpc =>
    obtain rfl := Option.some.inj hstep
    rw [hpc] at hheld
    obtain ⟨hrunning, hstopped, hlength, hflags⟩ := hheld rfl
    exact h.go (by rw [hpc]; rfl) rfl ⟨hrunning, hstopped, hlength, stopping_update hflags⟩
      (stopping_mono i) (by rw [hpc]; rfl)
  case h_8 hpc =>
    obtain rfl := Option.some.inj hstep
    rw [hpc] at hheld
    obtain ⟨hrunning, hstopped, hlength, hflags⟩ := hheld rfl
    exact h.goOn (by rw [hpc]; rfl) rfl
      ⟨hrunning, hstopped, List.Subset.refl _, stopping_of_nil hflags⟩
      (by rw [hpc]; rfl)
  case h_9 w rest hpc =>
    split at hstep
    · obtain rfl := Option.some.inj hstep
      rw [hpc] at hheld
      obtain ⟨hrunning, hstopped, hsub, hflags⟩ := hheld rfl
      exact h.goOn (by rw [hpc]; rfl) rfl
        ⟨hrunning, hstopped, (List.cons_subset.mp hsub).2, hflags⟩ (by rw [hpc]; rfl)
    · cases hstep
  case h_10 hpc =>
    obtain rfl := Option.some.inj hstep
    rw [hpc] at hheld
    obtain ⟨hrunning, hstopped, -, hflags⟩ := hheld rfl
    exact h.unlock (by rw [hpc]; rfl) (Or.inr (Or.inr ⟨hrunning, hstopped, rfl, hflags⟩))
      (List.nil_subset _) fun hopen ↦ absurd (hopen.symm.trans hstopped) Bool.false_ne_true
  case h_11 => cases hstep

theorem Inv.lock (h : Inv s) {t : Thread n m} (hstep : s.lock t = some s') : Inv s' := by
  simp only [State.lock] at hstep
  split at hstep
  · rename_i hfree hpc
    have hbusy : s.pcs t ≠ .idle := by rw [hpc]; simp
    split at hstep
    · obtain rfl := Option.some.inj hstep
      exact h.outside t rfl (by rw [hpc]; rfl) fun _ _ hidle ↦ absurd rfl hidle
    · rename_i hnew
      obtain rfl := Option.some.inj hstep
      rw [not_or, Bool.not_eq_true, Bool.not_eq_true] at hnew
      obtain ⟨hrunning, hopen⟩ := hnew
      have hfresh : s.threads = [] ∧ ∀ i, s.stopping i = false := by
        obtain ⟨-, -, hfresh⟩ | ⟨hrunning', -⟩ | ⟨-, hstopped, -⟩ := h.free hfree
        · exact hfresh
        · exact absurd (hrunning.symm.trans hrunning') Bool.false_ne_true
        · exact absurd (hopen.symm.trans hstopped) Bool.false_ne_true
      refine h.guarded (h.alone_of_free hfree t) rfl rfl ⟨rfl, hopen, ?_, hfresh.2⟩ h.created
        h.listed h.exited (h.calls_update hbusy) fun w hw ↦ ?_
      · change s.threads ++ List.finRange m = List.finRange m
        rw [hfresh.1, List.nil_append]
      · -- a reactor that has not been started has no workers
        have hcallback := h.calls w (by rw [← hw]; exact hbusy)
        have hmem := h.listed hopen w (by rw [hcallback]; simp)
        rw [hfresh.1] at hmem
        cases hmem
  · rename_i hfree hpc
    have hbusy : s.pcs t ≠ .idle := by rw [hpc]; simp
    split at hstep
    · rename_i hrunning
      obtain rfl := Option.some.inj hstep
      have hthreads : s.threads.length ≤ m := by
        obtain ⟨hrunning', -⟩ | ⟨-, -, hthreads, -⟩ | ⟨hrunning', -⟩ := h.free hfree
        · exact absurd (hrunning'.symm.trans hrunning) Bool.false_ne_true
        · rw [hthreads, List.length_finRange]
        · exact absurd (hrunning'.symm.trans hrunning) Bool.false_ne_true
      exact h.guarded (h.alone_of_free hfree t) rfl rfl
        ⟨rfl, rfl, hthreads, fun i ↦ Or.inl (List.mem_finRange i)⟩ h.created (by simp) h.exited
        (h.calls_update hbusy) fun _ _ ↦ rfl
    · obtain rfl := Option.some.inj hstep
      exact h.outside t rfl (by rw [hpc]; rfl) fun _ _ hidle ↦ absurd rfl hidle
  · cases hstep

theorem Inv.idle_of_looping (h : Inv s) {w : Fin m} (hlooping : s.workers w = .looping) :
    s.pcs (.worker w) = .idle := by
  by_contra hbusy
  rw [h.calls w hbusy] at hlooping
  cases hlooping

theorem Inv.setWorker (h : Inv s) {w : Fin m} {worker : Worker} (hidle : s.pcs (.worker w) = .idle)
    (hbefore : s.workers w ≠ .absent) (hworker : worker ≠ .absent)
    (hexited : worker = .exited → s.stopping w = true) : Inv (s.setWorker w worker) := by
  have hmoves : ∀ v, v = w ∧ (s.setWorker w worker).workers v = worker ∨
      v ≠ w ∧ (s.setWorker w worker).workers v = s.workers v :=
    update_cases s.workers w worker
  refine ⟨h.holder_iff, h.free, h.held, fun v hv ↦ ?_, fun hopen v hv ↦ ?_, fun v hv ↦ ?_,
    fun v hv ↦ ?_, h.starts⟩
  · obtain ⟨-, heq⟩ | ⟨-, heq⟩ := hmoves v
    · rw [heq]
      exact hworker
    · rw [heq]
      exact h.created v hv
  · obtain ⟨rfl, -⟩ | ⟨-, heq⟩ := hmoves v
    · exact h.listed hopen v hbefore
    · rw [heq] at hv
      exact h.listed hopen v hv
  · obtain ⟨rfl, heq⟩ | ⟨-, heq⟩ := hmoves v
    · rw [heq] at hv
      exact hexited hv
    · rw [heq] at hv
      exact h.exited v hv
  · obtain ⟨rfl, -⟩ | ⟨-, heq⟩ := hmoves v
    · exact absurd hidle hv
    · rw [heq]
      exact h.calls v hv

theorem callback_of_mayCall {t : Thread n m} (h : s.mayCall t = true) {w : Fin m}
    (hw : t = .worker w) : s.workers w = .callback := by
  subst hw
  simp only [State.mayCall, Bool.and_eq_true, beq_iff_eq] at h
  exact h.2

theorem Inv.step (h : Inv s) {a : Action n m} (hstep : s.step a = some s') : Inv s' := by
  cases a with
  | start t | stop t =>
    rw [State.step, Option.ite_none_right_eq_some, Option.some.injEq] at hstep
    obtain ⟨hmay, rfl⟩ := hstep
    exact h.outside t rfl (by rw [idle_of_mayCall hmay]; rfl) fun w hw _ ↦
      callback_of_mayCall hmay hw
  | lock t => exact h.lock hstep
  | advance t created => exact h.advance hstep
  | callback w =>
    rw [State.step, Option.ite_none_right_eq_some, Option.some.injEq] at hstep
    obtain ⟨hlooping, rfl⟩ := hstep
    exact h.setWorker (h.idle_of_looping hlooping) (by rw [hlooping]; simp) (by simp) (by simp)
  | finish w =>
    rw [State.step, Option.ite_none_right_eq_some, Option.some.injEq] at hstep
    obtain ⟨⟨hcallback, hidle⟩, rfl⟩ := hstep
    exact h.setWorker hidle (by rw [hcallback]; simp) (by simp) (by simp)
  | exit w =>
    rw [State.step, Option.ite_none_right_eq_some, Option.some.injEq] at hstep
    obtain ⟨⟨hlooping, hflag⟩, rfl⟩ := hstep
    exact h.setWorker (h.idle_of_looping hlooping) (by rw [hlooping]; simp) (by simp) fun _ ↦ hflag

theorem inv_of_reachable (h : (machine n m).Reachable s) : Inv s :=
  Machine.Leads.invariant h inv_init fun hs _ hstep ↦ hs.step hstep

/-! ## The potential

A call is worth its sections and those of the workers that it creates or stops. -/

/-- A step that goes on with what has been begun. -/
def Action.continues : Action n m → Bool
  | .start _ | .stop _ | .callback _ => false
  | _ => true

/-- How many steps a thread makes at most, its workers included. -/
def Pc.cost : Pc m → ℕ
  | .idle => 0
  | .startLocking => 5 * m + 5
  | .stopLocking => 2 * m + 4
  | .creating rest => 3 * rest.length + 2 * m + 4
  | .failing rest | .stopping rest => rest.length + m + 3
  | .failJoining rest | .joining rest => rest.length + 1

def Worker.cost : Worker → ℕ
  | .absent | .exited => 0
  | .looping => 1
  | .callback => 2

/-- Both kinds of threads. -/
def Thread.toSum : Thread n m ≃ Fin n ⊕ Fin m where
  toFun
    | .outside i => .inl i
    | .worker w => .inr w
  invFun
    | .inl i => .outside i
    | .inr w => .worker w
  left_inv t := by cases t <;> rfl
  right_inv x := by cases x <;> rfl

instance : Fintype (Thread n m) := Fintype.ofEquiv _ Thread.toSum.symm

/-- How many steps are left at most until a state of rest. -/
def State.potential (s : State n m) : ℕ := tally Pc.cost s.pcs + tally Worker.cost s.workers

private theorem potential_setPc (s : State n m) (t : Thread n m) (pc : Pc m) :
    (s.setPc t pc).potential + (s.pcs t).cost = s.potential + pc.cost := by
  have htrade := tally_update Pc.cost s.pcs t pc
  change tally Pc.cost (Function.update s.pcs t pc) + tally Worker.cost s.workers + (s.pcs t).cost =
    tally Pc.cost s.pcs + tally Worker.cost s.workers + pc.cost
  omega

theorem potential_setWorker (s : State n m) (w : Fin m) (worker : Worker) :
    (s.setWorker w worker).potential + (s.workers w).cost = s.potential + worker.cost := by
  have htrade := tally_update Worker.cost s.workers w worker
  change tally Pc.cost s.pcs + tally Worker.cost (Function.update s.workers w worker) +
      (s.workers w).cost =
    tally Pc.cost s.pcs + tally Worker.cost s.workers + worker.cost
  omega

private theorem potential_lt_setPc {t : Thread n m} {pc : Pc m} (h : pc.cost < (s.pcs t).cost) :
    (s.setPc t pc).potential < s.potential := by
  have hset := potential_setPc s t pc
  omega

private theorem potential_lt_of_lock {t : Thread n m} (hstep : s.lock t = some s') :
    s'.potential < s.potential := by
  simp only [State.lock] at hstep
  split at hstep
  · rename_i hfree hpc
    split at hstep
    · obtain rfl := Option.some.inj hstep
      exact potential_lt_setPc (by rw [hpc]; exact Nat.succ_pos _)
    · obtain rfl := Option.some.inj hstep
      have hless : (s.setPc t (.creating (List.finRange m))).potential < s.potential :=
        potential_lt_setPc (by
          rw [hpc, Pc.cost, Pc.cost, List.length_finRange]
          omega)
      exact hless
  · rename_i hfree hpc
    split at hstep
    · obtain rfl := Option.some.inj hstep
      have hless : (s.setPc t (.stopping (List.finRange m))).potential < s.potential :=
        potential_lt_setPc (by
          rw [hpc, Pc.cost, Pc.cost, List.length_finRange]
          omega)
      exact hless
    · obtain rfl := Option.some.inj hstep
      exact potential_lt_setPc (by rw [hpc]; exact Nat.succ_pos _)
  · cases hstep

private theorem potential_lt_of_advance (h : Inv s) {t : Thread n m} {created : Bool}
    (hstep : s.advance t created = some s') : s'.potential < s.potential := by
  have hheld := h.held t
  simp only [State.advance] at hstep
  split at hstep
  case h_1 w rest hpc =>
    split at hstep
    · obtain rfl := Option.some.inj hstep
      have hworker := potential_setWorker s w .looping
      have hset := potential_setPc (s.setWorker w .looping) t (.creating rest)
      change _ + (s.pcs t).cost = _ at hset
      rw [hpc] at hset
      simp only [Pc.cost, Worker.cost, List.length_cons] at hset hworker
      have hless : ((s.setWorker w .looping).setPc t (.creating rest)).potential <
        s.potential := by omega
      exact hless
    · obtain rfl := Option.some.inj hstep
      refine potential_lt_setPc ?_
      rw [hpc, Pc.cost, Pc.cost, List.length_finRange, List.length_cons]
      omega
  case h_2 hpc | h_6 hpc | h_10 hpc =>
    obtain rfl := Option.some.inj hstep
    have hless : (s.setPc t .idle).potential < s.potential :=
      potential_lt_setPc (by rw [hpc]; exact Nat.succ_pos _)
    exact hless
  case h_3 i rest hpc | h_7 i rest hpc =>
    obtain rfl := Option.some.inj hstep
    refine potential_lt_setPc (s := s.stopLoop i) ?_
    rw [State.stopLoop]
    dsimp only
    rw [hpc, Pc.cost, Pc.cost, List.length_cons]
    omega
  case h_4 hpc | h_8 hpc =>
    obtain rfl := Option.some.inj hstep
    rw [hpc] at hheld
    obtain ⟨-, -, hlength, -⟩ := hheld rfl
    refine potential_lt_setPc ?_
    rw [hpc, Pc.cost, Pc.cost, List.length_nil]
    omega
  case h_5 w rest hpc | h_9 w rest hpc =>
    split at hstep
    · obtain rfl := Option.some.inj hstep
      refine potential_lt_setPc ?_
      rw [hpc, Pc.cost, Pc.cost, List.length_cons]
      exact Nat.lt_succ_self _
    · cases hstep
  case h_11 => cases hstep

theorem potential_lt_of_step (h : Inv s) {a : Action n m} (ha : a.continues = true)
    (hstep : s.step a = some s') : s'.potential < s.potential := by
  cases a with
  | start | stop | callback => cases ha
  | lock t => exact potential_lt_of_lock hstep
  | advance t created => exact potential_lt_of_advance h hstep
  | finish w =>
    rw [State.step, Option.ite_none_right_eq_some, Option.some.injEq] at hstep
    obtain ⟨⟨hcallback, -⟩, rfl⟩ := hstep
    have hset := potential_setWorker s w .looping
    rw [hcallback] at hset
    simp only [Worker.cost] at hset
    omega
  | exit w =>
    rw [State.step, Option.ite_none_right_eq_some, Option.some.injEq] at hstep
    obtain ⟨⟨hlooping, -⟩, rfl⟩ := hstep
    have hset := potential_setWorker s w .exited
    rw [hlooping] at hset
    simp only [Worker.cost] at hset
    omega

/-! ## At rest

A thread that does not go on waits for the mutex or joins a worker. Following the waits leads to the
holder and from there to a callback, or there is no holder. -/

/-- Nothing is left to do. All calls have returned, and the reactor is new, running with every
worker in its loop, or stopped with no worker left. -/
structure Quiet (s : State n m) : Prop where
  holder : s.holder = none
  calls : ∀ t, s.pcs t = .idle
  phase : s.isRunning = false ∧ s.stoppedAfterStart = false ∧ s.threads = [] ∧
      (∀ w, s.workers w = .absent) ∨
    s.isRunning = true ∧ s.stoppedAfterStart = false ∧ s.threads = List.finRange m ∧
      (∀ w, s.workers w = .looping) ∨
    s.isRunning = false ∧ s.stoppedAfterStart = true ∧ s.threads = [] ∧
      ∀ w, s.workers w = .absent ∨ s.workers w = .exited

/-- The holder of the mutex joins another worker, whose callback waits for the mutex. -/
def Entangled (s : State n m) : Prop :=
  ∃ t w rest, s.holder = some t ∧
    (s.pcs t = .joining (w :: rest) ∨ s.pcs t = .failJoining (w :: rest)) ∧ t ≠ .worker w ∧
      s.workers w = .callback ∧
        (s.pcs (.worker w) = .startLocking ∨ s.pcs (.worker w) = .stopLocking)

/-- A worker that does not go on has exited, or is in its loop, which is not to stop, or is in a
callback that is in a call. -/
theorem worker_of_atRest (hrest : (machine n m).AtRest (fun a ↦ a.continues = true) s) {w : Fin m}
    (hpresent : s.workers w ≠ .absent) :
    s.workers w = .exited ∨ s.workers w = .looping ∧ s.stopping w = false ∨
      s.workers w = .callback ∧ s.pcs (.worker w) ≠ .idle := by
  have hexit := hrest (.exit w) rfl
  have hfinish := hrest (.finish w) rfl
  change s.step (.exit w) = none at hexit
  change s.step (.finish w) = none at hfinish
  cases hworker : s.workers w with
  | absent => exact absurd hworker hpresent
  | exited => exact Or.inl rfl
  | looping =>
    refine Or.inr (Or.inl ⟨rfl, Bool.eq_false_iff.mpr fun hflag ↦ ?_⟩)
    rw [State.step, if_pos ⟨hworker, hflag⟩] at hexit
    cases hexit
  | callback =>
    refine Or.inr (Or.inr ⟨rfl, fun hidle ↦ ?_⟩)
    rw [State.step, if_pos ⟨hworker, hidle⟩] at hfinish
    cases hfinish

/-- A worker that is joined and has not exited waits for the mutex. -/
theorem Inv.waits (h : Inv s) (hrest : (machine n m).AtRest (fun a ↦ a.continues = true) s)
    {t : Thread n m} {w : Fin m} (hholder : s.holder = some t) (hne : t ≠ .worker w)
    (hflag : s.stopping w = true) (hmem : w ∈ s.threads) (hexited : s.workers w ≠ .exited) :
    s.workers w = .callback ∧ (s.pcs (.worker w) = .startLocking ∨
      s.pcs (.worker w) = .stopLocking) := by
  obtain hexited' | ⟨-, hopen⟩ | ⟨hcallback, hbusy⟩ := worker_of_atRest hrest (h.created w hmem)
  · exact absurd hexited' hexited
  · rw [hflag] at hopen
    cases hopen
  · refine ⟨hcallback, ?_⟩
    have hfree : (s.pcs (.worker w)).holds = false :=
      h.alone_of_holds ((h.holder_iff t).mp hholder) _ hne.symm
    generalize s.pcs (.worker w) = pc at hbusy hfree
    cases pc with
    | idle => exact absurd rfl hbusy
    | startLocking => exact Or.inl rfl
    | stopLocking => exact Or.inr rfl
    | _ => cases hfree

theorem Inv.entangled (h : Inv s) (hrest : (machine n m).AtRest (fun a ↦ a.continues = true) s)
    {t : Thread n m} (hholder : s.holder = some t) : Entangled s := by
  have hstuck := hrest (.advance t true) rfl
  change s.advance t true = none at hstuck
  have hholds := (h.holder_iff t).mp hholder
  have hphase := h.held t hholds
  cases hpc : s.pcs t with
  | idle | startLocking | stopLocking =>
    rw [hpc] at hholds
    cases hholds
  | creating rest | failing rest | stopping rest =>
    cases rest <;> rw [State.advance, hpc] at hstuck <;> cases hstuck
  | failJoining rest =>
    cases rest with
    | nil =>
      rw [State.advance, hpc] at hstuck
      cases hstuck
    | cons w rest =>
      rw [hpc] at hphase
      obtain ⟨-, -, hsub, hflags⟩ := hphase
      have hne : t ≠ .worker w := by
        rintro rfl
        have hstart := h.starts w
        rw [hpc] at hstart
        cases hstart
      have hexited : s.workers w ≠ .exited := by
        intro hexited
        rw [State.advance, hpc] at hstuck
        dsimp only at hstuck
        rw [if_pos hexited] at hstuck
        cases hstuck
      exact ⟨t, w, rest, hholder, Or.inr hpc, hne,
        h.waits hrest hholder hne (hflags w) (hsub List.mem_cons_self) hexited⟩
  | joining rest =>
    cases rest with
    | nil =>
      rw [State.advance, hpc] at hstuck
      cases hstuck
    | cons w rest =>
      rw [hpc] at hphase
      obtain ⟨-, -, hsub, hflags⟩ := hphase
      have hblocked : ¬(t = .worker w ∨ s.workers w = .exited) := by
        intro hgo
        rw [State.advance, hpc] at hstuck
        dsimp only at hstuck
        rw [if_pos hgo] at hstuck
        cases hstuck
      obtain ⟨hne, hexited⟩ := not_or.mp hblocked
      exact ⟨t, w, rest, hholder, Or.inl hpc, hne,
        h.waits hrest hholder hne (hflags w) (hsub List.mem_cons_self) hexited⟩

theorem Inv.quiet (h : Inv s) (hrest : (machine n m).AtRest (fun a ↦ a.continues = true) s)
    (hfree : s.holder = none) : Quiet s := by
  have hcalls : ∀ t, s.pcs t = .idle := by
    intro t
    have hstuck := hrest (.lock t) rfl
    change s.lock t = none at hstuck
    have hholds := h.not_holds_of_free hfree t
    cases hpc : s.pcs t with
    | idle => rfl
    | startLocking | stopLocking =>
      simp only [State.lock, hfree, hpc] at hstuck
      split at hstuck <;> cases hstuck
    | _ =>
      rw [hpc] at hholds
      cases hholds
  refine ⟨hfree, hcalls, ?_⟩
  obtain ⟨hrunning, hopen, hthreads, -⟩ | ⟨hrunning, hopen, hthreads, hflags⟩ |
    ⟨hrunning, hstopped, hthreads, hflags⟩ := h.free hfree
  · refine Or.inl ⟨hrunning, hopen, hthreads, fun w ↦ ?_⟩
    by_contra hpresent
    have hmem := h.listed hopen w hpresent
    rw [hthreads] at hmem
    cases hmem
  · refine Or.inr (Or.inl ⟨hrunning, hopen, hthreads, fun w ↦ ?_⟩)
    have hmem : w ∈ s.threads := by
      rw [hthreads]
      exact List.mem_finRange w
    obtain hexited | ⟨hlooping, -⟩ | ⟨-, hbusy⟩ := worker_of_atRest hrest (h.created w hmem)
    · have hflag := h.exited w hexited
      rw [hflags w] at hflag
      cases hflag
    · exact hlooping
    · exact absurd (hcalls _) hbusy
  · refine Or.inr (Or.inr ⟨hrunning, hstopped, hthreads, fun w ↦ ?_⟩)
    by_cases hpresent : s.workers w = .absent
    · exact Or.inl hpresent
    · refine Or.inr ?_
      obtain hexited | ⟨-, hopen⟩ | ⟨-, hbusy⟩ := worker_of_atRest hrest hpresent
      · exact hexited
      · rw [hflags w] at hopen
        cases hopen
      · exact absurd (hcalls _) hbusy

/-- **Starting and stopping end, or deadlock in one way.** Whatever has been called before, from
outside and from callbacks: if no new call and no new callback begins, only so many steps are left.
When none is, either all calls have returned and the reactor is new, running or stopped as a whole;
or the holder of the mutex joins a worker whose callback waits for the mutex. -/
theorem lifecycle_settles (h : (machine n m).Reachable s) :
    (machine n m).Settles (fun a ↦ a.continues = true) s s.potential fun t ↦
      Quiet t ∨ Entangled t := by
  refine Machine.settles_of_potential (J := Inv) (inv_of_reachable h)
    (fun hs ha hstep ↦ ⟨hs.step hstep, potential_lt_of_step hs ha hstep⟩) fun {t} ht hrest ↦ ?_
  cases hholder : t.holder with
  | none => exact Or.inl (ht.quiet hrest hholder)
  | some u => exact Or.inr (ht.entangled hrest hholder)

/-- The second worker cannot be created, while the callback of the first one wants to stop the
reactor. -/
theorem lifecycle_settles_failing : ∃ s t : State 1 2,
    s.pcs (.outside 0) = .failing [0, 1] ∧ s.pcs (.worker 0) = .stopLocking ∧
    (∃ labels, labels.length ≤ s.potential ∧ (machine 1 2).run s labels = some t) ∧
    (Quiet t ∨ Entangled t) := by
  obtain ⟨s, hs, hfinal⟩ := Machine.exists_reachable_of_run (M := machine 1 2)
    (fun s ↦ (s.pcs (.outside 0), s.pcs (.worker 0)))
    [.start (.outside 0), .lock (.outside 0), .advance (.outside 0) true, .callback 0,
      .stop (.worker 0), .advance (.outside 0) false]
    (b := (.failing [0, 1], .stopLocking)) (by decide +kernel)
  obtain ⟨hfailing, hlocking⟩ := Prod.mk.inj hfinal
  have hsettles := lifecycle_settles hs
  obtain ⟨labels, t, hcontinues, hrun, -, hend⟩ := hsettles.exists_run
  exact ⟨s, t, hfailing, hlocking, ⟨labels, (hsettles labels t hcontinues hrun).1, hrun⟩, hend⟩

end Lifecycle

end MultiThreadReactor

end FoundationComponents
