import FoundationComponents.Machine.Tally

/-!
# Directories

A *directory* maps keys to places, and every place holds a set of keys. The two are changed one
after the other, by any number of threads: a registration first claims the key in the directory and
then enters it at the place, or withdraws the claim; a removal first releases the key in the
directory and then deletes it at the place. Between the two halves the thread has an *errand*.

Threads do not wait for each other's errands, so a removal may release a key that is still being
entered. What is kept is a balance: at every place, the key it holds and the registrations on their
way to it are as many as the claim in the directory and the removals on their way. The balance is
kept as long as everything that is taken away is there: the claim that is withdrawn, the key that is
deleted. It says that the directory and the places agree when no thread has an errand.
-/

namespace FoundationComponents

/-- What a thread still has to do. -/
inductive Errand (κ ι : Type*)
  | none
  /-- The key is claimed for the place, but has not been entered there. -/
  | entering (key : κ) (place : ι)
  /-- The key is released, but has not been deleted at the place. -/
  | deleting (key : κ) (place : ι)
  deriving Repr, DecidableEq

/-- The directory, the keys held at every place, and the errands of the threads. -/
structure Directory (τ κ ι : Type*) where
  owner : κ → Option ι
  holds : ι → κ → Bool
  errand : τ → Errand κ ι

namespace Directory

variable {τ κ ι : Type*}

/-- The directory and the places agree. -/
def Agrees (d : Directory τ κ ι) : Prop := ∀ key place, d.owner key = some place ↔ d.holds place key

variable [DecidableEq κ] [DecidableEq ι]

/-- The key is entered at, or deleted from, the place. -/
def setHolds (holds : ι → κ → Bool) (key : κ) (place : ι) (value : Bool) : ι → κ → Bool :=
  Function.update holds place (Function.update (holds place) key value)

theorem setHolds_self (holds : ι → κ → Bool) (key : κ) (place : ι) (value : Bool) :
    setHolds holds key place value place key = value := by
  rw [setHolds, Function.update_self, Function.update_self]

theorem setHolds_of_ne (holds : ι → κ → Bool) {key key' : κ} {place place' : ι} (value : Bool)
    (h : ¬ (key' = key ∧ place' = place)) :
    setHolds holds key place value place' key' = holds place' key' := by
  rw [setHolds]
  by_cases hplace : place' = place
  · subst hplace
    rw [Function.update_self, Function.update_of_ne fun hkey ↦ h ⟨hkey, rfl⟩]
  · rw [Function.update_of_ne hplace]

variable [DecidableEq τ]

/-- What one thread can do in one step. -/
inductive Move (d : Directory τ κ ι) : Directory τ κ ι → Prop
  | claim {t key} (place) : d.errand t = .none → d.owner key = none → Move d
      { d with
        owner := Function.update d.owner key (some place)
        errand := Function.update d.errand t (.entering key place) }
  | enter {t key place} : d.errand t = .entering key place → d.holds place key = false → Move d
      { d with
        holds := setHolds d.holds key place true
        errand := Function.update d.errand t .none }
  | withdraw {t key place} : d.errand t = .entering key place → d.owner key = some place → Move d
      { d with
        owner := Function.update d.owner key none
        errand := Function.update d.errand t .none }
  | release {t key place} : d.errand t = .none → d.owner key = some place → Move d
      { d with
        owner := Function.update d.owner key none
        errand := Function.update d.errand t (.deleting key place) }
  | delete {t key place} : d.errand t = .deleting key place → d.holds place key = true → Move d
      { d with
        holds := setHolds d.holds key place false
        errand := Function.update d.errand t .none }

variable [Fintype τ]

omit [DecidableEq τ] in
/-- The number of threads with an errand. -/
def errands (d : Directory τ κ ι) (e : Errand κ ι) : ℕ := count (fun e' ↦ decide (e' = e)) d.errand

omit [DecidableEq τ] in
/-- **The balance**: what is held and what is on its way in are as many as the claims and what is on
its way out. -/
def Balanced (d : Directory τ κ ι) : Prop :=
  ∀ key place, (d.holds place key).toNat + d.errands (.entering key place) =
    (decide (d.owner key = some place)).toNat + d.errands (.deleting key place)

section Moves

variable {d d' : Directory τ κ ι} {t : τ} {key : κ} {place : ι}

theorem errands_of_update {x : Errand κ ι} (h : d'.errand = Function.update d.errand t x)
    (e : Errand κ ι) : d'.errands e + (decide (d.errand t = e)).toNat =
      d.errands e + (decide (x = e)).toNat := by
  rw [errands, h]
  exact tally_update (fun e' ↦ (decide (e' = e)).toNat) d.errand t x

omit [DecidableEq τ] [DecidableEq ι] [Fintype τ] in
theorem owner_of_ne {owner : κ → Option ι} {new : Option ι} {key' : κ} {place' : ι}
    (hold : ∀ p, owner key = some p → p = place) (hnew : ∀ p, new = some p → p = place)
    (h : ¬ (key' = key ∧ place' = place)) :
    Function.update owner key new key' = some place' ↔ owner key' = some place' := by
  by_cases hkey : key' = key
  · subst hkey
    rw [Function.update_self]
    exact iff_of_false (fun heq ↦ h ⟨rfl, hnew _ heq⟩) fun heq ↦ h ⟨rfl, hold _ heq⟩
  · rw [Function.update_of_ne hkey]

omit [DecidableEq κ] [DecidableEq ι] [DecidableEq τ] [Fintype τ] in
/-- An errand of one key at one place is no errand of another. -/
theorem errand_ne_elsewhere {e : Errand κ ι} {key' : κ} {place' : ι}
    (he : e = .none ∨ e = .entering key place ∨ e = .deleting key place)
    (h : ¬ (key' = key ∧ place' = place)) :
    e ≠ .entering key' place' ∧ e ≠ .deleting key' place' := by
  rcases he with rfl | rfl | rfl
  · exact ⟨nofun, nofun⟩
  · refine ⟨fun heq ↦ ?_, nofun⟩
    obtain ⟨rfl, rfl⟩ := Errand.entering.inj heq
    exact h ⟨rfl, rfl⟩
  · refine ⟨nofun, fun heq ↦ ?_⟩
    obtain ⟨rfl, rfl⟩ := Errand.deleting.inj heq
    exact h ⟨rfl, rfl⟩

/-- A thread trades one item of the balance of a key at a place for another, on the same side or
together with one on the other side. -/
theorem Balanced.trade (h : Balanced d) {x : Errand κ ι}
    (herrand : d'.errand = Function.update d.errand t x)
    (hholds : ∀ {key' place'}, ¬ (key' = key ∧ place' = place) →
      d'.holds place' key' = d.holds place' key')
    (howner : ∀ {key' place'}, ¬ (key' = key ∧ place' = place) →
      (d'.owner key' = some place' ↔ d.owner key' = some place'))
    (hold : d.errand t = .none ∨ d.errand t = .entering key place ∨
      d.errand t = .deleting key place)
    (hnew : x = .none ∨ x = .entering key place ∨ x = .deleting key place)
    (htrade : (d'.holds place key).toNat + (decide (x = .entering key place)).toNat +
        (decide (d.owner key = some place)).toNat +
        (decide (d.errand t = .deleting key place)).toNat =
      (d.holds place key).toNat + (decide (d.errand t = .entering key place)).toNat +
        (decide (d'.owner key = some place)).toNat + (decide (x = .deleting key place)).toNat) :
    Balanced d' := by
  intro key' place'
  have hin := errands_of_update herrand (.entering key' place')
  have hout := errands_of_update herrand (.deleting key' place')
  have hbalance := h key' place'
  by_cases hself : key' = key ∧ place' = place
  · obtain ⟨rfl, rfl⟩ := hself
    omega
  · obtain ⟨holdIn, holdOut⟩ := errand_ne_elsewhere hold hself
    obtain ⟨hnewIn, hnewOut⟩ := errand_ne_elsewhere hnew hself
    rw [decide_eq_false holdIn, decide_eq_false hnewIn] at hin
    rw [decide_eq_false holdOut, decide_eq_false hnewOut] at hout
    rw [hholds hself, decide_eq_decide.mpr (howner hself), Nat.add_right_cancel hin,
      Nat.add_right_cancel hout]
    exact hbalance

/-- **Moves keep the balance.** -/
theorem Balanced.move (h : Balanced d) (hmove : d.Move d') : Balanced d' := by
  cases hmove with
  | claim place ht howner =>
    refine h.trade rfl (fun _ ↦ rfl) (owner_of_ne ?_ ?_) (Or.inl ht) (Or.inr (Or.inl rfl)) ?_
    · simp [howner]
    · simp
    · simp [ht, howner]
  | enter ht hholds =>
    refine h.trade rfl (setHolds_of_ne d.holds true) (fun _ ↦ Iff.rfl) (Or.inr (Or.inl ht))
      (Or.inl rfl) ?_
    simp [ht, hholds, setHolds_self]
  | withdraw ht howner =>
    refine h.trade rfl (fun _ ↦ rfl) (owner_of_ne ?_ ?_) (Or.inr (Or.inl ht)) (Or.inl rfl) ?_
    · simp [howner]
    · simp
    · simp [ht, howner]
  | release ht howner =>
    refine h.trade rfl (fun _ ↦ rfl) (owner_of_ne ?_ ?_) (Or.inl ht) (Or.inr (Or.inr rfl)) ?_
    · simp [howner]
    · simp
    · simp [ht, howner]
  | delete ht hholds =>
    refine h.trade rfl (setHolds_of_ne d.holds false) (fun _ ↦ Iff.rfl) (Or.inr (Or.inr ht))
      (Or.inl rfl) ?_
    simp [ht, hholds, setHolds_self, Nat.add_comm]

end Moves

omit [DecidableEq τ] in
theorem errands_at_rest {d : Directory τ κ ι} (hrest : ∀ t, d.errand t = .none) {e : Errand κ ι}
    (he : e ≠ .none) : d.errands e = 0 := by
  refine tally_eq_zero _ _ fun t ↦ ?_
  rw [hrest t]
  exact congrArg Bool.toNat (decide_eq_false he.symm)

omit [DecidableEq τ] in
/-- **Agreement at rest.** Where no thread has an errand, the balance says that the directory and
the places agree. -/
theorem balanced_iff_agrees {d : Directory τ κ ι} (hrest : ∀ t, d.errand t = .none) :
    Balanced d ↔ d.Agrees := by
  refine forall_congr' fun key ↦ forall_congr' fun place ↦ ?_
  have hin : d.errands (.entering key place) = 0 := errands_at_rest hrest nofun
  have hout : d.errands (.deleting key place) = 0 := errands_at_rest hrest nofun
  rw [hin, hout, Nat.add_zero, Nat.add_zero]
  by_cases howner : d.owner key = some place <;> cases d.holds place key <;> simp [howner]

end Directory

end FoundationComponents
