import Lmbench.Machine
import Mathlib.Algebra.Order.Field.Basic
import Mathlib.Tactic.Linarith
import Mathlib.Tactic.Positivity
import Mathlib.Tactic.FieldSimp

/-!
# Re-tuning an iteration count

`BENCH_INNER` and `benchmp_interval` adjust the number of iterations with the
same two tests and the same rescaling: a reading outside 0.99 to 1.2 times
`enough` is off target, and a reading above 150 microseconds is long enough to
rescale the count by `1.1 * enough / result`.

## Main results

* `rescaled_toNat_eq_iff` - when rescaling leaves the count as it was
* `lt_rescaled_toNat` - after a reading short of the target the count grows
-/

namespace Lmbench

/-- `result < 0.99 * enough || result > 1.2 * enough`. -/
def OffTarget (enough : ℤ) (result : ℚ) : Prop :=
  result < 99 / 100 * enough ∨ 6 / 5 * enough < result

instance (enough : ℤ) (result : ℚ) : Decidable (OffTarget enough result) :=
  inferInstanceAs (Decidable (_ ∨ _))

/-- `tmp + 1`, where `tmp = iterations / result` and then `tmp *= 1.1 * enough`. -/
def rescaled (enough : ℤ) (iterations : ℕ) (result : ℚ) : ℚ :=
  iterations / result * (11 / 10 * enough) + 1

section Rescaled

variable {enough : ℤ} {n : ℕ} {result : ℚ}

theorem rescaled_eq (positive : 0 < result) :
    rescaled enough n result = (n * (11 / 10 * enough) + result) / result := by
  unfold rescaled
  field_simp

theorem one_le_rescaled (nonneg : 0 ≤ enough) (positive : 0 < result) :
    1 ≤ rescaled enough n result := by
  have target : (0 : ℚ) ≤ enough := by exact_mod_cast nonneg
  have : 0 ≤ n / result * (11 / 10 * enough) := by positivity
  unfold rescaled
  linarith

theorem floor_eq_toNat_iff {x : ℚ} (one_le : 1 ≤ x) : ⌊x⌋.toNat = n ↔ (n : ℚ) ≤ x ∧ x < n + 1 := by
  have floor_pos : 1 ≤ ⌊x⌋ := Int.le_floor.mpr (by exact_mod_cast one_le)
  rw [show ⌊x⌋.toNat = n ↔ ⌊x⌋ = (n : ℤ) by omega, Int.floor_eq_iff]
  simp

/-- Rescaling gives the same count back exactly when the reading exceeds
`1.1 * enough` by less than one iteration's share. -/
theorem rescaled_toNat_eq_iff (nonneg : 0 ≤ enough) (positive : 0 < result) (ran : 1 ≤ n) :
    ⌊rescaled enough n result⌋.toNat = n ↔
      (n - 1) * result ≤ 11 / 10 * enough * n ∧ 11 / 10 * enough < result := by
  have count : (0 : ℚ) < n := by exact_mod_cast ran
  rw [floor_eq_toNat_iff (one_le_rescaled nonneg positive), rescaled_eq positive,
    le_div_iff₀ positive, div_lt_iff₀ positive]
  have upper : n * (11 / 10 * enough) + result < (n + 1) * result ↔
      11 / 10 * (enough : ℚ) < result := by
    rw [add_one_mul, add_lt_add_iff_right, mul_lt_mul_iff_right₀ count]
  rw [upper]
  refine and_congr_left fun _ => ?_
  constructor <;> intro h <;> linarith

/-- A reading short of the target makes the rescaled count larger. -/
theorem lt_rescaled_toNat (positive : 0 < result) (ran : 1 ≤ n)
    (short : result < 99 / 100 * enough) : n < ⌊rescaled enough n result⌋.toNat := by
  have count : (0 : ℚ) < n := by exact_mod_cast ran
  have target : (0 : ℚ) < enough := by linarith
  have grown : (n + 1 : ℚ) ≤ rescaled enough n result := by
    rw [rescaled_eq positive, le_div_iff₀ positive]
    have wider : result ≤ 11 / 10 * enough := by linarith
    nlinarith [mul_le_mul_of_nonneg_left wider count.le]
  have floor_grown : (n + 1 : ℤ) ≤ ⌊rescaled enough n result⌋ :=
    Int.le_floor.mpr (by exact_mod_cast grown)
  omega

/-- A reading beyond the target never makes the rescaled count larger. -/
theorem rescaled_lt_add_one (positive : 0 < result) (ran : 1 ≤ n)
    (long : 6 / 5 * enough < result) (nonneg : 0 ≤ enough) :
    rescaled enough n result < n + 1 := by
  have count : (0 : ℚ) < n := by exact_mod_cast ran
  have target : (0 : ℚ) ≤ enough := by exact_mod_cast nonneg
  rw [rescaled_eq positive, div_lt_iff₀ positive, add_one_mul, add_lt_add_iff_right,
    mul_lt_mul_iff_right₀ count]
  linarith

end Rescaled

end Lmbench
