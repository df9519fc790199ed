import Mathlib.Algebra.BigOperators.Field
import Mathlib.Algebra.Order.BigOperators.Ring.Finset
import Mathlib.Algebra.Order.Field.Basic
import Mathlib.Tactic.Linarith
import Mathlib.Tactic.Ring

/-!
# Weighted least squares for a line

The line that fits weighted points best is given by two linear equations: the
weighted residuals sum to zero, and so do their products with the abscissas. Any
other line costs as much more as it differs from this one at the points. Centring
the abscissas at their weighted mean solves the equations.

## Main results

* `IsFit.cost_eq` - what another line costs more
* `IsFit.unique` - the minimum is at one line only
* `isFit_centred` - the line computed from centred abscissas
-/

namespace Lmbench.Lib

variable {ι K : Type*} [Field K]

/-- The weighted squares of the distances of the points to the line `a + b * x`. -/
def lineCost (s : Finset ι) (w x y : ι → K) (a b : K) : K :=
  ∑ i ∈ s, w i * (y i - (a + b * x i)) ^ 2

/-- The normal equations. -/
structure IsFit (s : Finset ι) (w x y : ι → K) (a b : K) : Prop where
  balance : ∑ i ∈ s, w i * (y i - (a + b * x i)) = 0
  moment : ∑ i ∈ s, w i * (y i - (a + b * x i)) * x i = 0

section Fit

variable {s : Finset ι} {w x y : ι → K} {a b a' b' : K}

/-- **Another line costs its distance more.** -/
theorem IsFit.cost_eq (fit : IsFit s w x y a b) (a' b' : K) :
    lineCost s w x y a' b' =
      lineCost s w x y a b + ∑ i ∈ s, w i * ((a' - a) + (b' - b) * x i) ^ 2 := by
  -- the square of a difference, of which the mixed term vanishes
  have mixed : ∑ i ∈ s, w i * (y i - (a + b * x i)) * ((a' - a) + (b' - b) * x i) = 0 := by
    calc ∑ i ∈ s, w i * (y i - (a + b * x i)) * ((a' - a) + (b' - b) * x i)
        = ∑ i ∈ s, ((a' - a) * (w i * (y i - (a + b * x i))) +
            (b' - b) * (w i * (y i - (a + b * x i)) * x i)) :=
          Finset.sum_congr rfl fun i _ => by ring
      _ = (a' - a) * ∑ i ∈ s, w i * (y i - (a + b * x i)) +
            (b' - b) * ∑ i ∈ s, w i * (y i - (a + b * x i)) * x i := by
          rw [Finset.sum_add_distrib, ← Finset.mul_sum, ← Finset.mul_sum]
      _ = 0 := by rw [fit.balance, fit.moment, mul_zero, mul_zero, add_zero]
  calc lineCost s w x y a' b'
      = ∑ i ∈ s, (w i * (y i - (a + b * x i)) ^ 2 + w i * ((a' - a) + (b' - b) * x i) ^ 2 -
          2 * (w i * (y i - (a + b * x i)) * ((a' - a) + (b' - b) * x i))) :=
        Finset.sum_congr rfl fun i _ => by ring
    _ = lineCost s w x y a b + ∑ i ∈ s, w i * ((a' - a) + (b' - b) * x i) ^ 2 := by
        rw [Finset.sum_sub_distrib, Finset.sum_add_distrib, ← Finset.mul_sum, mixed, mul_zero,
          sub_zero]
        rfl

end Fit

section Centred

variable (s : Finset ι) (w x y : ι → K)

/-- The weighted mean of the abscissas. -/
def meanAt : K := (∑ i ∈ s, w i * x i) / ∑ i ∈ s, w i

/-- The weighted squares of the distances to the mean. -/
def spread : K := ∑ i ∈ s, w i * (x i - meanAt s w x) ^ 2

/-- The slope, from centred abscissas. -/
def slopeAt : K := (∑ i ∈ s, w i * (x i - meanAt s w x) * y i) / spread s w x

/-- The ordinate at zero. -/
def interceptAt : K :=
  (∑ i ∈ s, w i * y i - slopeAt s w x y * ∑ i ∈ s, w i * x i) / ∑ i ∈ s, w i

variable {s w x y} (total : ∑ i ∈ s, w i ≠ 0)
include total

theorem meanAt_mul : meanAt s w x * ∑ i ∈ s, w i = ∑ i ∈ s, w i * x i :=
  div_mul_cancel₀ _ total

/-- Centred abscissas sum to zero. -/
theorem sum_centred : ∑ i ∈ s, w i * (x i - meanAt s w x) = 0 := by
  calc ∑ i ∈ s, w i * (x i - meanAt s w x)
      = ∑ i ∈ s, (w i * x i - meanAt s w x * w i) := Finset.sum_congr rfl fun i _ => by ring
    _ = ∑ i ∈ s, w i * x i - meanAt s w x * ∑ i ∈ s, w i := by
        rw [Finset.sum_sub_distrib, ← Finset.mul_sum]
    _ = 0 := by rw [meanAt_mul total, sub_self]

/-- **Centring solves the equations.** -/
theorem isFit_centred (spreadOut : spread s w x ≠ 0) :
    IsFit s w x y (interceptAt s w x y) (slopeAt s w x y) := by
  have intercept : interceptAt s w x y * ∑ i ∈ s, w i =
      ∑ i ∈ s, w i * y i - slopeAt s w x y * ∑ i ∈ s, w i * x i := div_mul_cancel₀ _ total
  have slope : slopeAt s w x y * spread s w x = ∑ i ∈ s, w i * (x i - meanAt s w x) * y i :=
    div_mul_cancel₀ _ spreadOut
  have balance : ∑ i ∈ s, w i * (y i - (interceptAt s w x y + slopeAt s w x y * x i)) = 0 := by
    calc ∑ i ∈ s, w i * (y i - (interceptAt s w x y + slopeAt s w x y * x i))
        = ∑ i ∈ s, (w i * y i - interceptAt s w x y * w i - slopeAt s w x y * (w i * x i)) :=
          Finset.sum_congr rfl fun i _ => by ring
      _ = ∑ i ∈ s, w i * y i - interceptAt s w x y * ∑ i ∈ s, w i -
            slopeAt s w x y * ∑ i ∈ s, w i * x i := by
          rw [Finset.sum_sub_distrib, Finset.sum_sub_distrib, ← Finset.mul_sum, ← Finset.mul_sum]
      _ = 0 := by rw [intercept]; ring
  -- the moment about the mean
  have centred : ∑ i ∈ s, w i * (y i - (interceptAt s w x y + slopeAt s w x y * x i)) *
      (x i - meanAt s w x) = 0 := by
    calc ∑ i ∈ s, w i * (y i - (interceptAt s w x y + slopeAt s w x y * x i)) *
          (x i - meanAt s w x)
        = ∑ i ∈ s, (w i * (x i - meanAt s w x) * y i -
            (interceptAt s w x y + slopeAt s w x y * meanAt s w x) *
              (w i * (x i - meanAt s w x)) -
            slopeAt s w x y * (w i * (x i - meanAt s w x) ^ 2)) :=
          Finset.sum_congr rfl fun i _ => by ring
      _ = ∑ i ∈ s, w i * (x i - meanAt s w x) * y i -
            (interceptAt s w x y + slopeAt s w x y * meanAt s w x) *
              ∑ i ∈ s, w i * (x i - meanAt s w x) - slopeAt s w x y * spread s w x := by
          rw [Finset.sum_sub_distrib, Finset.sum_sub_distrib, ← Finset.mul_sum, ← Finset.mul_sum,
            spread]
      _ = 0 := by rw [slope, sum_centred total]; ring
  refine ⟨balance, ?_⟩
  calc ∑ i ∈ s, w i * (y i - (interceptAt s w x y + slopeAt s w x y * x i)) * x i
      = ∑ i ∈ s, (w i * (y i - (interceptAt s w x y + slopeAt s w x y * x i)) *
          (x i - meanAt s w x) +
          meanAt s w x * (w i * (y i - (interceptAt s w x y + slopeAt s w x y * x i)))) :=
        Finset.sum_congr rfl fun i _ => by ring
    _ = 0 := by rw [Finset.sum_add_distrib, ← Finset.mul_sum, centred, balance]; ring

end Centred

/-! ### Ordered fields -/

section Order

variable [LinearOrder K] [IsStrictOrderedRing K] {s : Finset ι} {w x y : ι → K} {a b a' b' : K}

theorem lineCost_nonneg (weights : ∀ i ∈ s, 0 < w i) : 0 ≤ lineCost s w x y a b :=
  Finset.sum_nonneg fun i hi => mul_nonneg (weights i hi).le (sq_nonneg _)

/-- A line that costs nothing goes through all points. -/
theorem on_line_of_lineCost_eq_zero (weights : ∀ i ∈ s, 0 < w i)
    (free : lineCost s w x y a b = 0) {i : ι} (hi : i ∈ s) : y i = a + b * x i := by
  have terms := (Finset.sum_eq_zero_iff_of_nonneg fun i hi =>
    mul_nonneg (weights i hi).le (sq_nonneg (y i - (a + b * x i)))).mp free i hi
  have residual := (mul_eq_zero.mp terms).resolve_left (weights i hi).ne'
  exact sub_eq_zero.mp (sq_eq_zero_iff.mp residual)

theorem IsFit.le (fit : IsFit s w x y a b) (weights : ∀ i ∈ s, 0 < w i) :
    lineCost s w x y a b ≤ lineCost s w x y a' b' := by
  rw [fit.cost_eq a' b']
  exact le_add_of_nonneg_right
    (Finset.sum_nonneg fun i hi => mul_nonneg (weights i hi).le (sq_nonneg _))

/-- **One line only.** Lines that cost the same meet at all points, and two different
abscissas make them one. -/
theorem IsFit.unique (fit : IsFit s w x y a b) (weights : ∀ i ∈ s, 0 < w i)
    (different : ∃ i ∈ s, ∃ j ∈ s, x i ≠ x j)
    (cheap : lineCost s w x y a' b' ≤ lineCost s w x y a b) : a' = a ∧ b' = b := by
  rw [fit.cost_eq a' b'] at cheap
  have nonneg : ∀ i ∈ s, 0 ≤ w i * ((a' - a) + (b' - b) * x i) ^ 2 := fun i hi =>
    mul_nonneg (weights i hi).le (sq_nonneg _)
  have nothing : ∑ i ∈ s, w i * ((a' - a) + (b' - b) * x i) ^ 2 = 0 :=
    le_antisymm (by linarith) (Finset.sum_nonneg nonneg)
  have meet : ∀ i ∈ s, (a' - a) + (b' - b) * x i = 0 := fun i hi => by
    have term := (Finset.sum_eq_zero_iff_of_nonneg nonneg).mp nothing i hi
    exact sq_eq_zero_iff.mp ((mul_eq_zero.mp term).resolve_left (weights i hi).ne')
  obtain ⟨i, hi, j, hj, apart⟩ := different
  have slopes : (b' - b) * (x i - x j) = 0 := by
    calc (b' - b) * (x i - x j)
        = ((a' - a) + (b' - b) * x i) - ((a' - a) + (b' - b) * x j) := by ring
      _ = 0 := by rw [meet i hi, meet j hj, sub_zero]
  have slope : b' - b = 0 := (mul_eq_zero.mp slopes).resolve_right (sub_ne_zero.mpr apart)
  have intercept := meet i hi
  rw [slope, zero_mul, add_zero] at intercept
  exact ⟨sub_eq_zero.mp intercept, sub_eq_zero.mp slope⟩

theorem total_pos (weights : ∀ i ∈ s, 0 < w i) (some : s.Nonempty) : 0 < ∑ i ∈ s, w i :=
  Finset.sum_pos weights some

/-- Abscissas that are not all equal are spread out. -/
theorem spread_pos (weights : ∀ i ∈ s, 0 < w i) (different : ∃ i ∈ s, ∃ j ∈ s, x i ≠ x j) :
    0 < spread s w x := by
  have nonneg : ∀ i ∈ s, 0 ≤ w i * (x i - meanAt s w x) ^ 2 := fun i hi =>
    mul_nonneg (weights i hi).le (sq_nonneg _)
  refine lt_of_le_of_ne (Finset.sum_nonneg nonneg) fun zero => ?_
  have mean : ∀ i ∈ s, x i = meanAt s w x := fun i hi => by
    have term := (Finset.sum_eq_zero_iff_of_nonneg nonneg).mp zero.symm i hi
    have square := (mul_eq_zero.mp term).resolve_left (weights i hi).ne'
    exact sub_eq_zero.mp (sq_eq_zero_iff.mp square)
  obtain ⟨i, hi, j, hj, apart⟩ := different
  exact apart ((mean i hi).trans (mean j hj).symm)

end Order

end Lmbench.Lib
