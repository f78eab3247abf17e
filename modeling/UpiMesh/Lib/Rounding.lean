import Mathlib.Algebra.Order.Round
import Mathlib.Data.Int.Log
import Mathlib.Tactic.Linarith
import Mathlib.Tactic.Positivity
import Mathlib.Tactic.Ring
import Mathlib.Tactic.FieldSimp

/-!
# Rounding with a relative error

A rounding of an ordered field is any function whose relative error is bounded by a unit `u`; rounding
to `p` significant bits is one. Dividing and multiplying again composes two of them, and an integer is
recovered from the result as long as the error stays below one half.
-/

namespace Rounding

variable {K : Type*} [Field K] [LinearOrder K] [IsStrictOrderedRing K]

/-- Every value is rounded with a relative error of at most `u`. -/
def Rounds (u : K) (fl : K → K) : Prop := ∀ x, |fl x - x| ≤ u * |x|

/-- The error of a rounded quotient, multiplied back. -/
theorem Rounds.div_mul {u : K} {fl : K → K} (h : Rounds u fl) (hu : 0 ≤ u) {c : K} (hc : c ≠ 0)
    (x : K) : |fl (fl (x / c) * c) - x| ≤ (2 * u + u ^ 2) * |x| := by
  have hquotient : |fl (x / c) * c - x| ≤ u * |x| := by
    have hscaled : fl (x / c) * c - x = (fl (x / c) - x / c) * c := by
      field_simp
    calc |fl (x / c) * c - x| = |fl (x / c) - x / c| * |c| := by rw [hscaled, abs_mul]
      _ ≤ u * |x / c| * |c| := mul_le_mul_of_nonneg_right (h (x / c)) (abs_nonneg c)
      _ = u * |x| := by rw [mul_assoc, ← abs_mul, div_mul_cancel₀ x hc]
  have hproduct : |fl (fl (x / c) * c) - fl (x / c) * c| ≤ u * |fl (x / c) * c| := h _
  have hsize : |fl (x / c) * c| ≤ |x| + u * |x| := by
    have htriangle := abs_add_le (fl (x / c) * c - x) x
    rw [sub_add_cancel] at htriangle
    linarith
  have hscale : u * |fl (x / c) * c| ≤ u * (|x| + u * |x|) := mul_le_mul_of_nonneg_left hsize hu
  have htotal := abs_add_le (fl (fl (x / c) * c) - fl (x / c) * c) (fl (x / c) * c - x)
  rw [sub_add_sub_cancel] at htotal
  calc |fl (fl (x / c) * c) - x| ≤ u * (|x| + u * |x|) + u * |x| := by linarith
    _ = (2 * u + u ^ 2) * |x| := by ring

section Nearest

variable [FloorRing K]

/-- The nearest integer, with ties away from zero. -/
def roundHalfAway (x : K) : ℤ := if 0 ≤ x then ⌊x + 1 / 2⌋ else ⌈x - 1 / 2⌉

theorem roundHalfAway_of_near {x : K} {n : ℤ} (h : |x - n| < 1 / 2) : roundHalfAway x = n := by
  obtain ⟨hlo, hhi⟩ := abs_lt.mp h
  unfold roundHalfAway
  split_ifs
  · rw [Int.floor_eq_iff]
    constructor <;> linarith
  · rw [Int.ceil_eq_iff]
    constructor <;> linarith

/-- Rounding to `p` significant bits, with no bound on the exponent. -/
def toBits (p : ℕ) (x : K) : K :=
  let ulp : K := 2 ^ (Int.log 2 |x| + 1 - p)
  round (x / ulp) * ulp

theorem rounds_toBits (p : ℕ) : Rounds (2 ^ (-p : ℤ)) (toBits p : K → K) := by
  intro x
  by_cases hx : x = 0
  · simp [toBits, hx]
  have hulp : (0 : K) < 2 ^ (Int.log 2 |x| + 1 - p) := zpow_pos two_pos _
  have hlow : (2 : K) ^ Int.log 2 |x| ≤ |x| := by
    exact_mod_cast Int.zpow_log_le_self (b := 2) one_lt_two (abs_pos.mpr hx)
  have hhalf : 1 / 2 * (2 : K) ^ (Int.log 2 |x| + 1 - p) = 2 ^ (-p : ℤ) * 2 ^ Int.log 2 |x| := by
    have hsplit : Int.log 2 |x| + 1 - p = 1 + (-p + Int.log 2 |x|) := by ring
    rw [hsplit, zpow_add₀ two_ne_zero, zpow_one, zpow_add₀ two_ne_zero]
    ring
  have hscaled : toBits p x - x = (round (x / 2 ^ (Int.log 2 |x| + 1 - p)) -
      x / 2 ^ (Int.log 2 |x| + 1 - p)) * 2 ^ (Int.log 2 |x| + 1 - p) := by
    rw [sub_mul, div_mul_cancel₀ x hulp.ne']
    rfl
  have hround : |(round (x / 2 ^ (Int.log 2 |x| + 1 - p)) : K) -
      x / 2 ^ (Int.log 2 |x| + 1 - p)| ≤ 1 / 2 := by
    rw [abs_sub_comm]
    exact abs_sub_round _
  calc |toBits p x - x|
      = |(round (x / 2 ^ (Int.log 2 |x| + 1 - p)) : K) - x / 2 ^ (Int.log 2 |x| + 1 - p)| *
          2 ^ (Int.log 2 |x| + 1 - p) := by rw [hscaled, abs_mul, abs_of_pos hulp]
    _ ≤ 1 / 2 * 2 ^ (Int.log 2 |x| + 1 - p) := mul_le_mul_of_nonneg_right hround hulp.le
    _ = 2 ^ (-p : ℤ) * 2 ^ Int.log 2 |x| := hhalf
    _ ≤ 2 ^ (-p : ℤ) * |x| := mul_le_mul_of_nonneg_left hlow (zpow_pos two_pos _).le

end Nearest

end Rounding
