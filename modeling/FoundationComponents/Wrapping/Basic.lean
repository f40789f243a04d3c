import Mathlib.Algebra.Order.Group.Int
import Mathlib.Data.Int.GCD
import Mathlib.Tactic.LinearCombination
import Mathlib.Tactic.NormNum
import Mathlib.Tactic.Ring

/-!
# Signed words

Arithmetic on a signed machine word with `m` values is arithmetic on the integers followed by
`Int.bmod`, which takes a result to the one congruent integer that the word holds. A result that
fits is left as it is.

Adding a fixed step to a word again and again goes round. Whether such a walk ever comes past the
point it starts from depends on the greatest common divisor of the step and `m` only: the points
that it visits are those at multiples of it.
-/

namespace FoundationComponents

namespace Wrapping

/-- The integers that a signed word with `m` values holds. -/
def Fits (m : ℕ) (x : ℤ) : Prop := -(m / 2 : ℤ) ≤ x ∧ x < (m + 1) / 2

variable {m : ℕ} {x p : ℤ}

theorem fits_bmod (hm : 0 < m) (x : ℤ) : Fits m (x.bmod m) := ⟨Int.le_bmod hm, Int.bmod_lt hm⟩

theorem Fits.bmod_eq (h : Fits m x) : x.bmod m = x := Int.bmod_eq_of_le h.1 h.2

theorem fits_64_iff {x : ℤ} : Fits (2 ^ 64) x ↔ -2 ^ 63 ≤ x ∧ x < 2 ^ 63 := by
  rw [Fits]
  norm_num

/-! ## Walks

A step may be wrapped before it is added, so a walk of words is one of integers, wrapped at its end.
On the integers the points are where the multiples of the step lead, modulo `m`. -/

/-- One step of a walk. -/
def stride (m : ℕ) (p x : ℤ) : ℤ := (x + p).bmod m

theorem stride_bmod (m : ℕ) (p x : ℤ) : (x + p.bmod m).bmod m = stride m p x := Int.add_bmod_bmod

theorem iterate_stride (h : Fits m x) (k : ℕ) : (stride m p)^[k] x = (x + k * p).bmod m := by
  induction k with
  | zero => rw [Function.iterate_zero_apply, Nat.cast_zero, zero_mul, add_zero, h.bmod_eq]
  | succ k ih =>
    rw [Function.iterate_succ_apply', ih, stride, Int.bmod_add_bmod, Nat.cast_succ, add_mul,
      one_mul, add_assoc]

/-- **Walks.** A walk comes past the point it starts from if and only if the next multiple of the
greatest common divisor still fits. -/
theorem exists_lt_iterate_iff (hm : 0 < m) (h : Fits m x) :
    (∃ k, x < (stride m p)^[k] x) ↔ x + Int.gcd p m < (m + 1) / 2 := by
  have hpos : (0 : ℤ) < Int.gcd p m :=
    Int.natCast_pos.mpr (Int.gcd_pos_of_ne_zero_right p (Int.natCast_ne_zero.mpr hm.ne'))
  constructor
  · rintro ⟨k, hk⟩
    rw [iterate_stride h] at hk
    have hlt := (fits_bmod hm (x + k * p)).2
    -- the distance is a multiple of the divisor
    have hdvd : (Int.gcd p m : ℤ) ∣ (x + k * p).bmod m - x := by
      rw [Int.bmod_eq_self_sub_bdiv_mul, sub_right_comm, add_sub_cancel_left]
      exact Int.dvd_sub (Dvd.dvd.mul_left (Int.gcd_dvd_left ..) _)
        (Dvd.dvd.mul_left (Int.gcd_dvd_right ..) _)
    have hle := Int.le_of_dvd (by omega) hdvd
    omega
  · intro hfits
    obtain ⟨k, hk⟩ : ∃ k : ℕ, (k : ℤ) = p.gcdA m % m :=
      ⟨(p.gcdA m % m).toNat, Int.toNat_of_nonneg (Int.emod_nonneg _ (by omega))⟩
    refine ⟨k, ?_⟩
    -- Bézout: after `k` steps the walk is at the next multiple
    have hbezout : x + k * p = x + Int.gcd p m + (-(p.gcdB m) - p * (p.gcdA m / m)) * m := by
      have hab := Int.gcd_eq_gcd_ab p m
      have hmod := Int.emod_add_mul_ediv (p.gcdA m) m
      rw [hk, hab]
      linear_combination p * hmod
    have hnext : Fits m (x + Int.gcd p m) := ⟨by have := h.1; omega, hfits⟩
    rw [iterate_stride h, hbezout, Int.add_mul_bmod_self_right, hnext.bmod_eq]
    omega

end Wrapping

end FoundationComponents
