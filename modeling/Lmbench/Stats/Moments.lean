import Mathlib.Algebra.BigOperators.Group.List.Basic
import Mathlib.Algebra.Group.Int.Defs
import Mathlib.Algebra.Group.Nat.Defs
import Mathlib.Algebra.Order.BigOperators.Group.List
import Mathlib.Algebra.Order.Field.Rat
import Mathlib.Algebra.Order.Ring.Abs
import Mathlib.Tactic.Linarith

/-!
# Moments of arrays of `int` and of `uint64`

Both moments are one text with two types of elements. The difference from the mean is taken in
the type of the elements, before it becomes a `double`, so that a value below the mean is far
above it among the `uint64`s.

## Main results

* `moment_eq` - a moment as a sum of powers
* `agree_iff` - for which arrays the two moments are the same
-/

namespace Lmbench.Stats

/-- The result of an operation as an `int`. -/
def int (x : ℤ) : ℤ := x.bmod (2 ^ 32)

/-- The result of an operation as a `uint64`. -/
def uint64 (x : ℤ) : ℤ := x % 2 ^ 64

section Model

variable (wrap : ℤ → ℤ) (sqrt : ℚ → ℚ) (values : List ℤ)

/-- `int_mean` and `uint64_mean`. -/
def mean : ℤ := (values.foldl (fun sum v => wrap (sum + v)) 0).tdiv values.length

/-- `int_variance` and `uint64_variance`. -/
def variance : ℚ :=
  values.foldl (fun sum v => sum + (wrap (wrap (v - mean wrap values) *
    wrap (v - mean wrap values)) : ℚ)) 0 / (values.length - 1 : ℚ)

/-- `int_moment` and `uint64_moment`. -/
def moment (moment : ℕ) : ℚ :=
  values.foldl (fun sum v =>
    let diff : ℚ := wrap (v - mean wrap values)
    sum + (fun m => m * diff)^[moment - 1] diff) 0 / values.length

/-- `int_stderr` and `uint64_stderr`. -/
def stderr : ℚ := sqrt (variance wrap values)

/-- `int_skew` and `uint64_skew`. -/
def skew : ℚ :=
  let sigma := stderr wrap sqrt values
  moment wrap values 3 / (sigma * sigma * sigma)

/-- `int_kurtosis` and `uint64_kurtosis`. -/
def kurtosis : ℚ :=
  moment wrap values 4 / (variance wrap values * variance wrap values) - 3

end Model

/-- `int_moment(m, values, size)`. -/
def intMoment (m : ℕ) (values : List ℤ) : ℚ := moment int values m

/-- `uint64_moment(m, values, size)`. -/
def uint64Moment (m : ℕ) (values : List ℤ) : ℚ := moment uint64 values m

/-- `uint64_skew(values, size)`. -/
def uint64Skew (sqrt : ℚ → ℚ) (values : List ℤ) : ℚ := skew uint64 sqrt values

/-- `uint64_kurtosis(values, size)`. -/
def uint64Kurtosis (values : List ℤ) : ℚ := kurtosis uint64 values

variable {wrap : ℤ → ℤ} {values : List ℤ} {m : ℕ}

/-- The elements lie together: in total they exceed the smallest by less than their number. -/
def Close (values : List ℤ) : Prop := ∀ v ∈ values, values.sum < values.length * (v + 1)

instance : Decidable (Close values) := by unfold Close; infer_instance

/-! ### Both types -/

theorem int_of_fits {x : ℤ} (above : -2 ^ 31 ≤ x) (below : x < 2 ^ 31) : int x = x :=
  Int.bmod_eq_of_le (by omega) (by omega)

theorem uint64_of_fits {x : ℤ} (above : 0 ≤ x) (below : x < 2 ^ 64) : uint64 x = x :=
  Int.emod_eq_of_lt above below

/-- A negative difference, as a `uint64`. -/
theorem uint64_of_neg {x : ℤ} (above : -2 ^ 64 ≤ x) (below : x < 0) : uint64 x = x + 2 ^ 64 := by
  rw [uint64, ← Int.add_emod_right]
  exact Int.emod_eq_of_lt (by omega) (by omega)

/-- A sum that fits is not changed by the type. -/
theorem foldl_sum {start : ℤ} (keeps : ∀ x, 0 ≤ x → x < 2 ^ 31 → wrap x = x)
    (nonneg : ∀ v ∈ values, 0 ≤ v) (positive : 0 ≤ start) (fits : start + values.sum < 2 ^ 31) :
    values.foldl (fun sum v => wrap (sum + v)) start = start + values.sum := by
  induction values generalizing start with
  | nil => simp
  | cons v rest ih =>
    have here := nonneg v List.mem_cons_self
    have later : ∀ w ∈ rest, 0 ≤ w := fun w hw => nonneg w (List.mem_cons_of_mem v hw)
    have total := List.sum_nonneg later
    rw [List.sum_cons] at fits ⊢
    rw [List.foldl_cons, keeps (start + v) (by omega) (by omega),
      ih later (by omega) (by omega)]
    omega

/-- The mean is the quotient, rounded down. -/
theorem mean_eq (keeps : ∀ x, 0 ≤ x → x < 2 ^ 31 → wrap x = x) (nonneg : ∀ v ∈ values, 0 ≤ v)
    (fits : values.sum < 2 ^ 31) : mean wrap values = values.sum / values.length := by
  rw [mean, foldl_sum keeps nonneg (le_refl 0) (by omega), Int.zero_add,
    Int.tdiv_eq_ediv_of_nonneg (List.sum_nonneg nonneg)]

/-- A moment is the mean of the powers of the differences. -/
theorem moment_eq (positive : 1 ≤ m) : moment wrap values m =
    (values.map fun v => (wrap (v - mean wrap values) : ℚ) ^ m).sum / values.length := by
  have power (d : ℚ) : (fun m => m * d)^[m - 1] d = d ^ m := by
    rw [mul_right_iterate_apply, ← pow_succ', Nat.sub_add_cancel positive]
  have loop (l : List ℤ) (start : ℚ) :
      l.foldl (fun sum v => sum + (wrap (v - mean wrap values) : ℚ) ^ m) start =
        start + (l.map fun v => (wrap (v - mean wrap values) : ℚ) ^ m).sum := by
    induction l generalizing start with
    | nil => simp
    | cons v rest ih => rw [List.foldl_cons, ih, List.map_cons, List.sum_cons, add_assoc]
  rw [moment]
  simp only [power]
  rw [loop, zero_add]

/-! ### The comparison -/

/-- Sums that are compared term by term are the same if all terms are. -/
theorem sum_map_eq_iff {f g : ℤ → ℚ} {l : List ℤ} (le : ∀ v ∈ l, f v ≤ g v) :
    (l.map g).sum = (l.map f).sum ↔ ∀ v ∈ l, g v = f v := by
  induction l with
  | nil => simp
  | cons v rest ih =>
    have here := le v List.mem_cons_self
    have later : ∀ w ∈ rest, f w ≤ g w := fun w hw => le w (List.mem_cons_of_mem v hw)
    have sums : (rest.map f).sum ≤ (rest.map g).sum := List.sum_le_sum later
    rw [List.map_cons, List.map_cons, List.sum_cons, List.sum_cons, List.forall_mem_cons,
      ← ih later]
    constructor
    · intro same
      constructor <;> linarith
    · rintro ⟨first, others⟩
      rw [first, others]

/-- A difference that wraps around has a larger power. -/
theorem pow_lt_uint64 {d : ℤ} (above : -2 ^ 31 < d) (below : d < 0) (positive : 1 ≤ m) :
    (d : ℚ) ^ m < (uint64 d : ℚ) ^ m := by
  have larger : |d| < uint64 d := by
    rw [uint64_of_neg (by omega) below, abs_of_neg below]
    omega
  have power : |d| ^ m < uint64 d ^ m := pow_lt_pow_left₀ larger (abs_nonneg d) (by omega)
  exact_mod_cast lt_of_le_of_lt ((le_abs_self _).trans_eq (abs_pow d m)) power

theorem int_keeps (x : ℤ) (nonneg : 0 ≤ x) (fits : x < 2 ^ 31) : int x = x :=
  int_of_fits (by omega) fits

theorem uint64_keeps (x : ℤ) (nonneg : 0 ≤ x) (fits : x < 2 ^ 31) : uint64 x = x :=
  uint64_of_fits nonneg (by omega)

section Compared

variable (nonempty : values ≠ []) (range : ∀ v ∈ values, 0 ≤ v ∧ v < 2 ^ 31)
  (fits : values.sum < 2 ^ 31)
include nonempty range fits

/-- The mean of an array of non-negative elements is not negative, and fits. -/
theorem quotient_fits :
    0 ≤ values.sum / values.length ∧ values.sum / (values.length : ℤ) < 2 ^ 31 := by
  have size : 0 < values.length := List.length_pos_of_ne_nil nonempty
  have total : 0 ≤ values.sum := List.sum_nonneg fun v hv => (range v hv).1
  exact ⟨Int.ediv_nonneg total (by omega),
    Int.lt_of_le_of_lt (Int.ediv_le_self _ total) fits⟩

/-- The two moments agree exactly if no element is below the mean. -/
theorem moments_eq_iff (positive : 1 ≤ m) :
    uint64Moment m values = intMoment m values ↔ Close values := by
  have size : 0 < values.length := List.length_pos_of_ne_nil nonempty
  have nonneg : ∀ v ∈ values, 0 ≤ v := fun v hv => (range v hv).1
  obtain ⟨low, high⟩ := quotient_fits nonempty range fits
  rw [uint64Moment, intMoment, moment_eq positive, moment_eq positive,
    mean_eq uint64_keeps nonneg fits, mean_eq int_keeps nonneg fits,
    div_left_inj' (by exact_mod_cast size.ne'), sum_map_eq_iff]
  · unfold Close
    refine forall₂_congr fun v hv => ?_
    obtain ⟨above, below⟩ := range v hv
    have quotient : values.sum / values.length < v + 1 ↔ values.sum < values.length * (v + 1) := by
      rw [Int.ediv_lt_iff_lt_mul (by omega), Int.mul_comm]
    rw [← quotient, int_of_fits (by omega) (by omega)]
    constructor
    · intro same
      by_contra before
      exact (pow_lt_uint64 (by omega) (by omega) positive).ne same.symm
    · intro after
      rw [uint64_of_fits (by omega) (by omega)]
  · intro v hv
    obtain ⟨above, below⟩ := range v hv
    rw [int_of_fits (by omega) (by omega)]
    rcases Int.lt_or_le (v - values.sum / values.length) 0 with before | after
    · exact (pow_lt_uint64 (by omega) before positive).le
    · rw [uint64_of_fits after (by omega)]

end Compared

/-- The moments are the same for just those arrays, and so are the third moment in the skew and the
fourth one in the kurtosis. -/
theorem agree_iff (values : List ℤ) (nonempty : values ≠ [])
    (range : ∀ v ∈ values, 0 ≤ v ∧ v < 2 ^ 31) (fits : values.sum < 2 ^ 31) :
    (∀ m ≥ 1, uint64Moment m values = intMoment m values ↔ Close values) ∧
    (∀ sqrt, stderr uint64 sqrt values ≠ 0 →
      (uint64Skew sqrt values = intMoment 3 values / stderr uint64 sqrt values ^ 3 ↔
        Close values)) ∧
    (variance uint64 values ≠ 0 →
      (uint64Kurtosis values = intMoment 4 values / variance uint64 values ^ 2 - 3 ↔
        Close values)) := by
  refine ⟨fun m positive => moments_eq_iff nonempty range fits positive, fun sqrt sigma => ?_,
    fun spread => ?_⟩
  · have cube : ∀ x : ℚ, x * x * x = x ^ 3 := fun x => by rw [pow_three']
    rw [uint64Skew, skew, cube, div_left_inj' (pow_ne_zero 3 sigma)]
    exact moments_eq_iff nonempty range fits (by decide)
  · rw [uint64Kurtosis, kurtosis, ← sq, sub_left_inj, div_left_inj' (pow_ne_zero 2 spread)]
    exact moments_eq_iff nonempty range fits (by decide)

/-- One and two lie together. -/
theorem agree_oneTwo : uint64Moment 3 [1, 2] = intMoment 3 [1, 2] ∧
    uint64Kurtosis [1, 2] = intMoment 4 [1, 2] / variance uint64 [1, 2] ^ 2 - 3 :=
  have close : Close [1, 2] := by decide
  have compared := agree_iff [1, 2] (by decide) (by decide) (by decide)
  ⟨(compared.1 3 (by decide)).mpr close, (compared.2.2 (by decide +kernel)).mpr close⟩

/-- Nought and two do not: one below the mean is `2 ^ 64 - 1`. -/
theorem not_agree_noughtTwo : intMoment 1 [0, 2] = 0 ∧ uint64Moment 1 [0, 2] = 2 ^ 63 := by
  decide +kernel

end Lmbench.Stats
