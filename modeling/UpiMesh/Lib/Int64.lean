import Mathlib.Data.Int.Basic
import Mathlib.Tactic.NormNum

/-!
# Signed 64-bit arithmetic on integers

Values are integers; `add` and `sub` wrap around as two's complement machine arithmetic does, and
agree with exact arithmetic whenever the exact result fits.
-/

namespace Int64Arith

/-- The value fits a signed 64-bit integer. -/
def Fits (x : ℤ) : Prop := -2 ^ 63 ≤ x ∧ x < 2 ^ 63

instance (x : ℤ) : Decidable (Fits x) := inferInstanceAs (Decidable (_ ∧ _))

def wrap (x : ℤ) : ℤ := Int.bmod x (2 ^ 64)

def add (x y : ℤ) : ℤ := wrap (x + y)

def sub (x y : ℤ) : ℤ := wrap (x - y)

theorem fits_wrap (x : ℤ) : Fits (wrap x) := by
  have hlo := Int.le_bmod (x := x) (m := 2 ^ 64) (by norm_num)
  have hhi := Int.bmod_lt (x := x) (m := 2 ^ 64) (by norm_num)
  unfold Fits wrap
  constructor <;> omega

theorem wrap_of_fits {x : ℤ} (h : Fits x) : wrap x = x := by
  obtain ⟨hlo, hhi⟩ := h
  unfold wrap
  apply Int.bmod_eq_of_le <;> omega

theorem add_of_fits {x y : ℤ} (h : Fits (x + y)) : add x y = x + y := wrap_of_fits h

theorem sub_of_fits {x y : ℤ} (h : Fits (x - y)) : sub x y = x - y := wrap_of_fits h

/-- A wrapped value differs from the exact one by a multiple of the modulus. -/
theorem wrap_emod (x : ℤ) : wrap x % 2 ^ 64 = x % 2 ^ 64 := by
  unfold wrap
  exact_mod_cast Int.bmod_emod

/-- Subtracting a covered positive amount stays exact. -/
theorem sub_of_covered {x y : ℤ} (hx : Fits x) (hpos : 0 < y) (hle : y ≤ x) :
    sub x y = x - y := by
  apply sub_of_fits
  obtain ⟨hlo, hhi⟩ := hx
  constructor <;> omega

/-- Adding a nonzero value below the modulus never gives the same value back. -/
theorem add_ne_self {x y : ℤ} (hpos : 0 < y) (hlt : y < 2 ^ 64) : add x y ≠ x := by
  intro h
  have hmod := wrap_emod (x + y)
  unfold add at h
  rw [h] at hmod
  omega

end Int64Arith
