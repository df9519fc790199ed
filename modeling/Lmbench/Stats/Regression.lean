import Lmbench.Lib.LeastSquares
import Lmbench.Lib.Loops
import Mathlib.Data.Option.Basic
import Mathlib.Data.Rat.BigOperators
import Mathlib.Data.Real.Basic
import Mathlib.Tactic.FieldSimp

/-!
# `regression`

`regression` of `lib_stats.c` fits a line to points with standard deviations, in
three loops: the weighted sums, the slope from centred abscissas, the cost. All
divisions are checked here, so a result says that none was by zero. The error
estimates `sig_a` and `sig_b` are left out.

## Main results

* `regression_eq` - what the loops compute
* `regression_minimiser` - the result is the one line of least cost
-/

namespace Lmbench

open Lib

section Model

variable {K : Type*} [Field K] [DecidableEq K]

/-- A division; there is none by zero. -/
def quotient (p q : K) : Option K := if q = 0 then none else some (p / q)

/-- `S`, `Sx` and `Sy`. -/
structure Sums (K : Type*) where
  S : K
  Sx : K
  Sy : K

/-- `Stt` and the `*b` of the second loop. -/
structure Centred (K : Type*) where
  Stt : K
  b : K

/-- `*a`, `*b` and `*chi2`. -/
structure Fitted (K : Type*) where
  a : K
  b : K
  chi2 : K
deriving DecidableEq, Repr

variable (x y : ℕ → K) (sig : Option (ℕ → K))

/-- `sig ? sig[i] : 1.0`. -/
def sigAt (i : ℕ) : K :=
  match sig with
  | some sig => sig i
  | none => 1

/-- `sig ? sig[i] * sig[i] : 1.0`. -/
def sigSquaredAt (i : ℕ) : K :=
  match sig with
  | some sig => sig i * sig i
  | none => 1

/-- The body of the loop over `S`, `Sx` and `Sy`. -/
def addSums (sums : Sums K) (i : ℕ) : Option (Sums K) := do
  let weight ← quotient 1 (sigSquaredAt sig i)
  return ⟨sums.S + weight, sums.Sx + weight * x i, sums.Sy + weight * y i⟩

/-- The body of the loop over `Stt` and `*b`. -/
def addCentred (Sx_S : K) (c : Centred K) (i : ℕ) : Option (Centred K) := do
  let t_i ← quotient (x i - Sx_S) (sigAt sig i)
  let term ← quotient (t_i * y i) (sigAt sig i)
  return ⟨c.Stt + t_i * t_i, c.b + term⟩

/-- The body of the loop over `*chi2`. -/
def addMerit (a b chi2 : K) (i : ℕ) : Option K := do
  let merit ← quotient (y i - (a + b * x i)) (sigAt sig i)
  return chi2 + merit * merit

/-- `regression(x, y, sig, n, ...)`. -/
def regression (n : ℕ) : Option (Fitted K) := do
  let sums ← (List.range n).foldlM (addSums x y sig) ⟨0, 0, 0⟩
  let Sx_S ← quotient sums.Sx sums.S
  let c ← (List.range n).foldlM (addCentred x y sig Sx_S) ⟨0, 0⟩
  let b ← quotient c.b c.Stt
  let a ← quotient (sums.Sy - b * sums.Sx) sums.S
  let chi2 ← (List.range n).foldlM (addMerit x y sig a b) 0
  return ⟨a, b, chi2⟩

end Model

section Loops

variable {K : Type*} [Field K] {x y : ℕ → K} {sig : Option (ℕ → K)} {n : ℕ}

/-- The weight of a point. -/
def weightAt (sig : Option (ℕ → K)) (i : ℕ) : K := (sigAt sig i ^ 2)⁻¹

/-- The sums before pass `m`. -/
def sumsUpTo (x y : ℕ → K) (sig : Option (ℕ → K)) (m : ℕ) : Sums K where
  S := ∑ i ∈ Finset.range m, weightAt sig i
  Sx := ∑ i ∈ Finset.range m, weightAt sig i * x i
  Sy := ∑ i ∈ Finset.range m, weightAt sig i * y i

/-- The centred sums before pass `m`. -/
def centredUpTo (x y : ℕ → K) (sig : Option (ℕ → K)) (mean : K) (m : ℕ) : Centred K where
  Stt := ∑ i ∈ Finset.range m, weightAt sig i * (x i - mean) ^ 2
  b := ∑ i ∈ Finset.range m, weightAt sig i * (x i - mean) * y i

theorem sigSquaredAt_eq (i : ℕ) : sigSquaredAt sig i = sigAt sig i ^ 2 := by
  cases sig with
  | none => exact (one_pow 2).symm
  | some sig => exact (sq (sig i)).symm

variable [DecidableEq K]

theorem quotient_of_ne {p q : K} (nonzero : q ≠ 0) : quotient p q = some (p / q) := if_neg nonzero

variable (nonzero : ∀ i < n, sigAt sig i ≠ 0)
include nonzero

/-- The first loop computes the weighted sums. -/
theorem foldlM_addSums :
    (List.range n).foldlM (addSums x y sig) ⟨0, 0, 0⟩ = some (sumsUpTo x y sig n) := by
  refine foldlM_range_some (sumsUpTo x y sig) fun i hi => ?_
  have square : sigAt sig i ^ 2 ≠ 0 := pow_ne_zero 2 (nonzero i hi)
  simp only [addSums, sigSquaredAt_eq, quotient_of_ne square, one_div, sumsUpTo,
    Finset.sum_range_succ]
  rfl

/-- The second loop centres the abscissas. -/
theorem foldlM_addCentred (mean : K) : (List.range n).foldlM (addCentred x y sig mean) ⟨0, 0⟩ =
    some (centredUpTo x y sig mean n) := by
  refine foldlM_range_some (centredUpTo x y sig mean) fun i hi => ?_
  have here := nonzero i hi
  -- the weight is split between the two factors
  have square : (x i - mean) / sigAt sig i * ((x i - mean) / sigAt sig i) =
      weightAt sig i * (x i - mean) ^ 2 := by
    rw [weightAt]
    field_simp
  have product : (x i - mean) / sigAt sig i * y i / sigAt sig i =
      weightAt sig i * (x i - mean) * y i := by
    rw [weightAt]
    field_simp
  simp only [addCentred, quotient_of_ne here, centredUpTo, Finset.sum_range_succ, ← square,
    ← product]
  rfl

/-- The third loop computes the cost. -/
theorem foldlM_addMerit (a b : K) : (List.range n).foldlM (addMerit x y sig a b) 0 =
    some (lineCost (Finset.range n) (weightAt sig) x y a b) := by
  refine foldlM_range_some
    (fun m => lineCost (Finset.range m) (weightAt sig) x y a b) fun i hi => ?_
  have here := nonzero i hi
  have square : (y i - (a + b * x i)) / sigAt sig i * ((y i - (a + b * x i)) / sigAt sig i) =
      weightAt sig i * (y i - (a + b * x i)) ^ 2 := by
    rw [weightAt]
    field_simp
  simp only [addMerit, quotient_of_ne here, lineCost, Finset.sum_range_succ, ← square]
  rfl

omit nonzero in
/-- Entries behind the points are not read. -/
theorem regression_congr {x' y' : ℕ → K} (abscissas : ∀ i < n, x i = x' i)
    (ordinates : ∀ i < n, y i = y' i) : regression x y none n = regression x' y' none n := by
  have first : ∀ i < n, ∀ sums, addSums x y none sums i = addSums x' y' none sums i := by
    intro i hi sums
    rw [addSums, addSums, abscissas i hi, ordinates i hi]
  have second : ∀ mean, ∀ i < n, ∀ c,
      addCentred x y none mean c i = addCentred x' y' none mean c i := by
    intro mean i hi c
    rw [addCentred, addCentred, abscissas i hi, ordinates i hi]
  have third : ∀ a b, ∀ i < n, ∀ chi2,
      addMerit x y none a b chi2 i = addMerit x' y' none a b chi2 i := by
    intro a b i hi chi2
    rw [addMerit, addMerit, abscissas i hi, ordinates i hi]
  simp only [regression, foldlM_range_congr first, foldlM_range_congr (second _),
    foldlM_range_congr (third _ _)]

/-- **What the loops compute.** -/
theorem regression_eq (total : ∑ i ∈ Finset.range n, weightAt sig i ≠ 0)
    (spreadOut : spread (Finset.range n) (weightAt sig) x ≠ 0) :
    regression x y sig n =
      some ⟨interceptAt (Finset.range n) (weightAt sig) x y,
        slopeAt (Finset.range n) (weightAt sig) x y,
        lineCost (Finset.range n) (weightAt sig) x y
          (interceptAt (Finset.range n) (weightAt sig) x y)
          (slopeAt (Finset.range n) (weightAt sig) x y)⟩ := by
  have mean : quotient (sumsUpTo x y sig n).Sx (sumsUpTo x y sig n).S =
      some (meanAt (Finset.range n) (weightAt sig) x) := quotient_of_ne total
  have slope : quotient (centredUpTo x y sig (meanAt (Finset.range n) (weightAt sig) x) n).b
      (centredUpTo x y sig (meanAt (Finset.range n) (weightAt sig) x) n).Stt =
        some (slopeAt (Finset.range n) (weightAt sig) x y) := quotient_of_ne spreadOut
  have intercept : quotient ((sumsUpTo x y sig n).Sy -
      slopeAt (Finset.range n) (weightAt sig) x y * (sumsUpTo x y sig n).Sx)
        (sumsUpTo x y sig n).S =
          some (interceptAt (Finset.range n) (weightAt sig) x y) := quotient_of_ne total
  simp only [regression, foldlM_addSums nonzero, foldlM_addCentred nonzero,
    foldlM_addMerit nonzero, Option.bind_eq_bind, Option.bind_some, mean, slope, intercept]
  rfl

end Loops

/-! ### The line of least cost -/

section Ordered

variable {K : Type*} [Field K] [LinearOrder K] [IsStrictOrderedRing K] {x y : ℕ → K}
  {sig : Option (ℕ → K)} {n : ℕ}

/-- Deviations make weights. -/
theorem weightAt_pos {i : ℕ} (nonzero : sigAt sig i ≠ 0) : 0 < weightAt sig i :=
  inv_pos.mpr (sq_pos_of_ne_zero nonzero)

/-- The line that is computed for points not all above one another. -/
structure Regressed (x y : ℕ → K) (sig : Option (ℕ → K)) (n : ℕ) (a b : K) : Prop where
  computed : regression x y sig n =
    some ⟨a, b, lineCost (Finset.range n) (weightAt sig) x y a b⟩
  fit : IsFit (Finset.range n) (weightAt sig) x y a b
  weights : ∀ i ∈ Finset.range n, 0 < weightAt sig i
  slope : b = slopeAt (Finset.range n) (weightAt sig) x y
  spreadOut : 0 < spread (Finset.range n) (weightAt sig) x

theorem exists_regressed (nonzero : ∀ i < n, sigAt sig i ≠ 0)
    (different : ∃ i ∈ Finset.range n, ∃ j ∈ Finset.range n, x i ≠ x j) :
    ∃ a b, Regressed x y sig n a b := by
  have weights : ∀ i ∈ Finset.range n, 0 < weightAt sig i := fun i hi =>
    weightAt_pos (nonzero i (Finset.mem_range.mp hi))
  have some : (Finset.range n).Nonempty := different.imp fun i h => h.1
  have total := (total_pos weights some).ne'
  have spreadOut := spread_pos weights different
  exact ⟨_, _, regression_eq nonzero total spreadOut.ne', isFit_centred total spreadOut.ne',
    weights, rfl, spreadOut⟩

end Ordered

section Minimiser

variable (x y : ℕ → ℚ) (sig : Option (ℕ → ℚ)) (n : ℕ)

/-- The sum that a line is to make small, for rational data and any real line. -/
noncomputable def squaredError (a b : ℝ) : ℝ :=
  ∑ i ∈ Finset.range n, (((y i : ℝ) - a - b * x i) / sigAt sig i) ^ 2

theorem squaredError_eq (a b : ℝ) : squaredError x y sig n a b =
    lineCost (Finset.range n) (fun i => ((weightAt sig i : ℚ) : ℝ)) (fun i => (x i : ℝ))
      (fun i => (y i : ℝ)) a b := by
  refine Finset.sum_congr rfl fun i _ => ?_
  change _ = ((weightAt sig i : ℚ) : ℝ) * ((y i : ℝ) - (a + b * x i)) ^ 2
  rw [weightAt, Rat.cast_inv, Rat.cast_pow, div_pow, div_eq_inv_mul, sub_sub]

/-- On a rational line it is the cost. -/
theorem squaredError_cast (a b : ℚ) : squaredError x y sig n a b =
    ((lineCost (Finset.range n) (weightAt sig) x y a b : ℚ) : ℝ) := by
  rw [squaredError_eq]
  simp only [lineCost]
  push_cast
  rfl

variable {x y sig n}

/-- A fit of the data is a fit in the reals. -/
theorem cast_isFit {a b : ℚ} (fit : IsFit (Finset.range n) (weightAt sig) x y a b) :
    IsFit (Finset.range n) (fun i => ((weightAt sig i : ℚ) : ℝ)) (fun i => (x i : ℝ))
      (fun i => (y i : ℝ)) a b where
  balance := by exact_mod_cast congrArg (fun q : ℚ => (q : ℝ)) fit.balance
  moment := by exact_mod_cast congrArg (fun q : ℚ => (q : ℝ)) fit.moment

theorem sigAt_ne_zero (deviations : ∀ s, sig = some s → ∀ i < n, s i ≠ 0) (i : ℕ) (hi : i < n) :
    sigAt sig i ≠ 0 := by
  cases sig with
  | none => exact one_ne_zero
  | some s => exact deviations s rfl i hi

end Minimiser

/-- **The weighted least-squares line.** For points not all above one another, of which
there are then two, and deviations that are not zero, there is a result; its line is the one
real line that makes the squared error least, and `chi2` is that least value. -/
theorem regression_minimiser (x y : ℕ → ℚ) (sig : Option (ℕ → ℚ)) (n : ℕ)
    (deviations : ∀ s, sig = some s → ∀ i < n, s i ≠ 0)
    (different : ∃ i < n, ∃ j < n, x i ≠ x j) :
    ∃ a b chi2 : ℚ, regression x y sig n = some ⟨a, b, chi2⟩ ∧
      squaredError x y sig n a b = chi2 ∧
      ∀ a' b' : ℝ, (chi2 : ℝ) ≤ squaredError x y sig n a' b' ∧
        (squaredError x y sig n a' b' = chi2 → a' = a ∧ b' = b) := by
  obtain ⟨i, hi, j, hj, apart⟩ := different
  obtain ⟨a, b, line⟩ := exists_regressed (y := y) (sigAt_ne_zero deviations)
    ⟨i, Finset.mem_range.mpr hi, j, Finset.mem_range.mpr hj, apart⟩
  have fit := cast_isFit line.fit
  have least := squaredError_cast x y sig n a b
  have weights : ∀ i ∈ Finset.range n, (0 : ℝ) < (weightAt sig i : ℚ) := fun i hi =>
    Rat.cast_pos.mpr (line.weights i hi)
  refine ⟨a, b, _, line.computed, least, fun a' b' => ⟨?_, fun same => ?_⟩⟩
  · rw [← least, squaredError_eq, squaredError_eq]
    exact fit.le weights
  · refine fit.unique weights ⟨i, Finset.mem_range.mpr hi, j, Finset.mem_range.mpr hj, ?_⟩ ?_
    · exact fun meet => apart (Rat.cast_injective meet)
    · rw [← squaredError_eq, ← squaredError_eq, same, least]

/-- Four points with different deviations. -/
theorem regression_minimiser_four :
    ∃ a b chi2 : ℚ,
      regression (fun i => (i : ℚ)) (fun i => 2 * i * i + 1) (some fun i => (i : ℚ) + 1) 4 =
        some ⟨a, b, chi2⟩ ∧
      squaredError (fun i => (i : ℚ)) (fun i => 2 * i * i + 1) (some fun i => (i : ℚ) + 1) 4 a b =
        chi2 ∧
      ∀ a' b' : ℝ,
        (chi2 : ℝ) ≤ squaredError (fun i => (i : ℚ)) (fun i => 2 * i * i + 1)
          (some fun i => (i : ℚ) + 1) 4 a' b' ∧
        (squaredError (fun i => (i : ℚ)) (fun i => 2 * i * i + 1)
          (some fun i => (i : ℚ) + 1) 4 a' b' = chi2 → a' = a ∧ b' = b) := by
  refine regression_minimiser _ _ _ 4 ?_ ⟨0, by decide, 1, by decide, by norm_num⟩
  intro s given i _
  obtain rfl := Option.some.inj given
  positivity

end Lmbench
