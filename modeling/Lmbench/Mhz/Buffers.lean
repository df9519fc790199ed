import Lmbench.Lib.Allocation
import Lmbench.Mhz.Gcd
import Mathlib.Tactic.Linarith

/-!
# The buffers of `gcd`

`gcd` and `cross_values` each ask for `size * size` entries. The points are half of
that and a bit more, with the differences of all pairs, and the caller adds one to
them. Here the stores go into the blocks that are allocated, a store outside has no
result, and a conversion to `int` that does not fit gives anything.

## Main results

* `length_crossValues` - the points are a triangular number
* `gcd_buffers_iff` - when no store is outside; no divisor is zero
* `gcdIn_eq` - in memory the result is that of `gcd`
-/

namespace Lmbench.Mhz

open Lib

section Model

/-- `(int)q`: C defines it where the truncation is an `int`. -/
structure IntCast where
  convert : ℚ → ℤ
  truncates : ∀ q, -2 ^ 31 - 1 < q → q < 2 ^ 31 → convert q = truncate q

/-- `malloc(size * size * sizeof(double))` for an `int size`, of memory that holds `fresh`. The
product of the `int`s may overflow, and that with the eight bytes of a `double` wraps. -/
def mallocSquare (dm : DataModel) (size : ℕ) (fresh : ℕ → ℚ) : Option (List ℚ) :=
  if size * size ≤ intMax then
    some ((List.range (size * size * 8 % dm.sizeSpan / 8)).map fresh)
  else none

/-- The body of the outer loop of `cross_values`. -/
def crossPass (values : List ℚ) (cvalues : Filling ℚ) (i : ℕ) : Option (Filling ℚ) := do
  let cvalues ← cvalues.push (values.getD i 0)
  (List.range' (i + 1) (values.length - (i + 1))).foldlM
    (fun cvalues j => cvalues.push |values.getD i 0 - values.getD j 0|) cvalues

variable (dm : DataModel)

/-- `cross_values(values, size, &cvalues, &csize)`, in the block that it allocates. -/
def crossValuesIn (values : List ℚ) (fresh : ℕ → ℚ) : Option (Filling ℚ) := do
  let cvalues ← mallocSquare dm values.length fresh
  (List.range values.length).foldlM (crossPass values) ⟨cvalues, 0⟩

/-- `y` and `n`: the points and the origin. -/
def pointsIn (values : List ℚ) (fresh : ℕ → ℚ) : Option (Filling ℚ) := do
  let y ← crossValuesIn dm values fresh
  y.push 0

variable (cast : IntCast)

/-- The body of the loop that guesses: `x[i] = m`. -/
def storeGuess (y : Filling ℚ) (count : ℕ) (min : ℚ) (x : List ℚ) (i : ℕ) :
    Option (List ℚ) := do
  let v ← y.slots[i]?
  let ratio ← quotient (count * v) min
  put x i (cast.convert (ratio + 1 / 2))

/-- The body of the loop over `count`, with what is in `x`. -/
def tryCountIn (y : Filling ℚ) (min : ℚ) (s : Best × List ℚ) (count : ℕ) :
    Option (Best × List ℚ) := do
  let x ← (List.range y.n).foldlM (storeGuess cast y count min) s.2
  let fit ← regression (fun i => x.getD i 0) (fun i => y.slots.getD i 0) none y.n
  return (if count = 1 ∨ (count : ℚ) * count * fit.chi2 < s.1.minChi2 then ⟨fit.b, fit.chi2⟩
    else s.1, x)

/-- `gcd(values, size)`, in the blocks that it allocates. -/
def gcdIn (values : List ℚ) (freshX freshY : ℕ → ℚ) : Option ℚ := do
  let x ← mallocSquare dm values.length freshX
  let min := doubleMin values
  let y ← pointsIn dm values freshY
  let s ← (List.range (maxCount - 1)).foldlM
    (fun s i => tryCountIn cast y min s (i + 1)) (⟨min, 0⟩, x)
  return s.1.result

end Model

/-! ### The points -/

section Points

variable {values : List ℚ}

/-- What one pass of the outer loop adds. -/
def crossRow (values : List ℚ) (i : ℕ) : List ℚ :=
  values.getD i 0 :: (List.range' (i + 1) (values.length - (i + 1))).map fun j =>
    |values.getD i 0 - values.getD j 0|

theorem crossRow_cons (v : ℚ) (i : ℕ) : crossRow (v :: values) (i + 1) = crossRow values i := by
  have shift : List.range' (i + 1 + 1) (values.length + 1 - (i + 1 + 1)) =
      (List.range' (i + 1) (values.length - (i + 1))).map (· + 1) := by
    rw [← List.range'_succ_left, Nat.add_sub_add_right]
  rw [crossRow, List.length_cons, shift, List.map_map]
  rfl

/-- The rows are the points. -/
theorem crossValues_eq (values : List ℚ) :
    crossValues values = (List.range values.length).flatMap (crossRow values) := by
  induction values with
  | nil => rfl
  | cons v rest ih =>
    have first : crossRow (v :: rest) 0 = v :: rest.map fun w => |v - w| := by
      refine congrArg (v :: ·) (List.ext_getElem (by simp) fun i hi hi' => ?_)
      have inside : i < rest.length := by simpa using hi'
      rw [List.getElem_map, List.getElem_map, List.getElem_range', Nat.one_mul, Nat.zero_add,
        Nat.add_comm 1 i, List.getD_cons_succ, List.getD_eq_getElem _ _ inside]
      rfl
    rw [crossValues, ih, List.length_cons, List.range_succ_eq_map, List.flatMap_cons, first,
      List.flatMap_map]
    simp only [Nat.succ_eq_add_one, crossRow_cons]

/-- **A triangular number** of points. -/
theorem length_crossValues (values : List ℚ) :
    2 * (crossValues values).length = values.length * (values.length + 1) := by
  induction values with
  | nil => rfl
  | cons v rest ih =>
    rw [crossValues, List.length_append, List.length_cons, List.length_map, List.length_cons,
      Nat.mul_add, ih]
    ring

/-- With the origin they fit into a square. -/
theorem length_points_le (two : 2 ≤ values.length) :
    (points values).length ≤ values.length * values.length := by
  have cross := length_crossValues values
  have square : 2 * values.length ≤ values.length * values.length :=
    Nat.mul_le_mul_right _ two
  rw [Nat.mul_succ] at cross
  rw [points, List.length_append, List.length_singleton]
  omega

/-- One pass pushes its row. -/
theorem crossPass_eq (cvalues : Filling ℚ) (i : ℕ) :
    crossPass values cvalues i = (crossRow values i).foldlM Filling.push cvalues := by
  rw [crossRow, List.foldlM_cons, crossPass]
  simp only [List.foldlM_map]

variable {dm : DataModel} {fresh : ℕ → ℚ} {block : List ℚ}

/-- The points are pushed one after the other. -/
theorem pointsIn_foldlM (allocated : mallocSquare dm values.length fresh = some block) :
    pointsIn dm values fresh =
      (points values).foldlM Filling.push (Filling.holding [] block) := by
  have rows : crossValuesIn dm values fresh =
      (crossValues values).foldlM Filling.push (Filling.holding [] block) := by
    rw [crossValues_eq, foldlM_flatMap, crossValuesIn, allocated, Option.bind_eq_bind,
      Option.bind_some]
    congr 1
    funext cvalues i
    exact crossPass_eq cvalues i
  calc pointsIn dm values fresh
      = ((crossValues values).foldlM Filling.push (Filling.holding [] block)).bind
          fun y => y.push 0 := by rw [pointsIn, rows, Option.bind_eq_bind]
    _ = (points values).foldlM Filling.push (Filling.holding [] block) := by
      rw [points, List.foldlM_append]
      exact congrArg _ (funext fun y => (bind_pure (y.push 0)).symm)

/-- **The points are stored in their block.** -/
theorem pointsIn_eq (allocated : mallocSquare dm values.length fresh = some block)
    (room : (points values).length ≤ block.length) :
    pointsIn dm values fresh =
      some (Filling.holding (points values) (block.drop (points values).length)) :=
  (pointsIn_foldlM allocated).trans (Filling.foldlM_push (points values) room)

/-- **Otherwise a store is outside.** -/
theorem pointsIn_of_short (allocated : mallocSquare dm values.length fresh = some block)
    (short : block.length < (points values).length) : pointsIn dm values fresh = none :=
  (pointsIn_foldlM allocated).trans (Filling.foldlM_push_of_short (points values) short)

/-- The square that is asked for is what there is. -/
theorem mallocSquare_of_fits {size : ℕ} (fresh : ℕ → ℚ) (int : size * size ≤ intMax)
    (inside : size * size * 8 < dm.sizeSpan) :
    ∃ block, mallocSquare dm size fresh = some block ∧ block.length = size * size := by
  refine ⟨_, if_pos int, ?_⟩
  rw [List.length_map, List.length_range, Nat.mod_eq_of_lt inside, Nat.mul_div_cancel _ (by decide)]

/-- **A block that is cut short is too short for the points.** -/
theorem lt_sizeSpan_of_room (int : values.length * values.length ≤ intMax)
    (room : (points values).length ≤ values.length * values.length * 8 % dm.sizeSpan / 8) :
    values.length * values.length * 8 < dm.sizeSpan := by
  have cross := length_crossValues values
  have point : (points values).length = (crossValues values).length + 1 := by
    rw [points, List.length_append, List.length_singleton]
  rw [Nat.mul_succ] at cross
  generalize values.length * values.length = square at *
  have most : square ≤ 2147483647 := int
  rcases dm.sizeSpan_eq_or_le with narrow | wide
  · rw [narrow] at room ⊢
    omega
  · omega

end Points

/-! ### The guesses -/

section Guesses

variable {cast : IntCast} {values : List ℚ} {count : ℕ}

/-- The multiple that the `i`-th point is converted to. -/
def convertedAt (cast : IntCast) (values : List ℚ) (count i : ℕ) : ℚ :=
  cast.convert (count * pointAt values i / doubleMin values + 1 / 2)

/-- What is in `x` after the loop that guesses. -/
def guesses (cast : IntCast) (values : List ℚ) (count : ℕ) : List ℚ :=
  (List.range (points values).length).map (convertedAt cast values count)

@[simp] theorem length_guesses : (guesses cast values count).length = (points values).length := by
  rw [guesses, List.length_map, List.length_range]

/-- The loop leaves the size of its block. -/
theorem length_guesses_append {x : List ℚ} (room : (points values).length ≤ x.length) :
    (guesses cast values count ++ x.drop (points values).length).length = x.length := by
  rw [List.length_append, List.length_drop, length_guesses, Nat.add_sub_cancel' room]

theorem getElem?_holding {rest : List ℚ} {i : ℕ} (inside : i < (points values).length) :
    (Filling.holding (points values) rest).slots[i]? = some (pointAt values i) := by
  change (points values ++ rest)[i]? = _
  rw [List.getElem?_append_left inside, List.getElem?_eq_getElem inside, pointAt,
    List.getD_eq_getElem _ _ inside]

/-- **The guesses are stored in their block.** -/
theorem foldlM_storeGuess (nonzero : doubleMin values ≠ 0) {rest x : List ℚ}
    (room : (points values).length ≤ x.length) :
    (List.range (points values).length).foldlM (storeGuess cast
        (Filling.holding (points values) rest) count (doubleMin values)) x =
      some (guesses cast values count ++ x.drop (points values).length) := by
  -- a pass reads a point and stores at its counter
  refine (foldlM_range_congr (fun i hi x => ?_) x).trans
    (foldlM_put (convertedAt cast values count) room)
  rw [storeGuess, getElem?_holding hi, Option.bind_eq_bind, Option.bind_some,
    quotient_of_ne nonzero]
  rfl

theorem getD_guesses (rest : List ℚ) {i : ℕ} (inside : i < (points values).length) :
    (guesses cast values count ++ rest).getD i 0 = convertedAt cast values count i := by
  have front : i < (guesses cast values count).length := by
    rw [length_guesses]
    exact inside
  rw [List.getD_append _ _ _ _ front, List.getD_eq_getElem _ _ front]
  simp [guesses]

theorem getD_holding (rest : List ℚ) {i : ℕ} (inside : i < (points values).length) :
    (Filling.holding (points values) rest).slots.getD i 0 = pointAt values i :=
  List.getD_append _ _ _ _ inside

variable (positive : ∀ v ∈ values, 0 < v) (some : values ≠ []) (counted : 1 ≤ count)
  (few : count < maxCount)
include positive some counted few

/-- The guesses for the least value and for the origin differ, and both fit in an `int`. -/
theorem converted_differ :
    ∃ i ∈ Finset.range (points values).length, ∃ j ∈ Finset.range (points values).length,
      convertedAt cast values count i ≠ convertedAt cast values count j := by
  obtain ⟨i, hi, least⟩ := exists_pointAt
    (List.mem_append_left [0] (mem_crossValues_of_mem (doubleMin_mem some)))
  have zero : (0 : ℚ) ∈ points values := List.mem_append_right _ List.mem_cons_self
  obtain ⟨j, hj, origin⟩ := exists_pointAt zero
  have nonneg : (0 : ℚ) ≤ count := Nat.cast_nonneg count
  have small : (count : ℚ) < 6 := Nat.cast_lt.mpr few
  -- at the least value the quotient is the count, so both conversions are of small numbers
  have whole : cast.convert (count * doubleMin values / doubleMin values + 1 / 2) = count := by
    rw [mul_div_cancel_right₀ _ (doubleMin_pos positive some).ne',
      cast.truncates _ (by linarith) (by linarith), truncate_half]
  have none : cast.convert (count * 0 / doubleMin values + 1 / 2) = 0 := by
    have half := truncate_half 0
    rw [Nat.cast_zero, zero_add] at half
    rw [mul_zero, zero_div, zero_add, cast.truncates _ (by norm_num) (by norm_num), half,
      Nat.cast_zero]
  refine ⟨i, hi, j, hj, ?_⟩
  rw [convertedAt, convertedAt, least, origin, whole, none]
  push_cast
  exact Nat.cast_ne_zero.mpr (by omega)

omit counted few in
/-- What one guess does, for the line that fits what it converts. -/
theorem tryCountIn_eq (best : Best) {rest x : List ℚ} (room : (points values).length ≤ x.length)
    {a b : ℚ} (line : Regressed (convertedAt cast values count) (pointAt values) none
      (points values).length a b) :
    tryCountIn cast (Filling.holding (points values) rest) (doubleMin values) (best, x) count =
      Option.some (if count = 1 ∨ (count : ℚ) * count * lineCost
          (Finset.range (points values).length) (weightAt none) (convertedAt cast values count)
            (pointAt values) a b < best.minChi2
        then ⟨b, lineCost (Finset.range (points values).length) (weightAt none)
          (convertedAt cast values count) (pointAt values) a b⟩ else best,
        guesses cast values count ++ x.drop (points values).length) := by
  have stored : (List.range (points values).length).foldlM (storeGuess cast
      (Filling.holding (points values) rest) count (doubleMin values)) x =
        Option.some (guesses cast values count ++ x.drop (points values).length) :=
    foldlM_storeGuess (doubleMin_pos positive some).ne' room
  -- `regression` reads no more than the points, so what is behind them in `x` and `y` is free
  have fitted := (regression_congr
    (fun i hi => getD_guesses (x.drop (points values).length) hi)
    fun i hi => getD_holding rest hi).trans line.computed
  change ((List.range (points values).length).foldlM (storeGuess cast
    (Filling.holding (points values) rest) count (doubleMin values)) x).bind _ = _
  rw [stored]
  change (regression (fun i => (guesses cast values count ++ x.drop _).getD i 0)
    (fun i => (Filling.holding (points values) rest).slots.getD i 0) none
      (points values).length).bind _ = _
  rw [fitted]
  rfl

end Guesses

/-! ### The divisors -/

/-- What the loops of `regression` sum up for points of weight one, where neither of its divisors
is zero. -/
structure NonzeroDivisors (x y : ℕ → ℚ) (n : ℕ) (sums : Sums ℚ) (c : Centred ℚ) : Prop where
  summed : (List.range n).foldlM (addSums x y none) ⟨0, 0, 0⟩ = some sums
  S : sums.S ≠ 0
  centred : (List.range n).foldlM (addCentred x y none (sums.Sx / sums.S)) ⟨0, 0⟩ = some c
  Stt : c.Stt ≠ 0

/-- There are some, for points not all above one another. -/
theorem exists_nonzeroDivisors {x y : ℕ → ℚ} {n : ℕ}
    (different : ∃ i ∈ Finset.range n, ∃ j ∈ Finset.range n, x i ≠ x j) :
    ∃ sums c, NonzeroDivisors x y n sums c := by
  have one : ∀ i < n, sigAt (none : Option (ℕ → ℚ)) i ≠ 0 := fun _ _ => one_ne_zero
  have weights : ∀ i ∈ Finset.range n, 0 < weightAt (none : Option (ℕ → ℚ)) i := fun i hi =>
    weightAt_pos (one i (Finset.mem_range.mp hi))
  have some : (Finset.range n).Nonempty := different.imp fun i h => h.1
  exact ⟨sumsUpTo x y none n, centredUpTo x y none (meanAt (Finset.range n) (weightAt none) x) n,
    foldlM_addSums one, (total_pos weights some).ne', foldlM_addCentred one _,
    (spread_pos weights different).ne'⟩

/-! ### The loop over the guesses -/

section Loop

variable {dm : DataModel} {cast : IntCast} {values rest xBlock : List ℚ} {freshX freshY : ℕ → ℚ}

variable (positive : ∀ v ∈ values, 0 < v) (some : values ≠ [])
include positive some

/-- Each guess has a line. -/
theorem exists_line {i : ℕ} (below : i < maxCount - 1) :
    ∃ a b, Regressed (convertedAt cast values (i + 1)) (pointAt values) none
      (points values).length a b :=
  exists_regressed (fun _ _ => one_ne_zero)
    (converted_differ positive some (Nat.succ_pos i) (Nat.add_lt_of_lt_sub below))

/-- The loop goes through all guesses, and leaves the size of `x`. -/
theorem exists_loop (room : (points values).length ≤ xBlock.length) :
    ∃ s, (List.range (maxCount - 1)).foldlM
      (fun s i => tryCountIn cast (Filling.holding (points values) rest) (doubleMin values) s
        (i + 1)) (⟨doubleMin values, 0⟩, xBlock) = Option.some s ∧
          s.2.length = xBlock.length := by
  refine foldlM_range_induction
    (fun _ (s : Best × List ℚ) => s.2.length = xBlock.length) rfl fun i hi s length => ?_
  obtain ⟨a, b, line⟩ := exists_line positive some hi
  have inside : (points values).length ≤ s.2.length := room.trans length.ge
  exact ⟨_, tryCountIn_eq positive some s.1 inside line,
    (length_guesses_append inside).trans length⟩

/-- The divisors of one guess, whatever is in `x` before. -/
theorem exists_divisors {count : ℕ} (counted : 1 ≤ count) (few : count < maxCount) {x : List ℚ}
    (room : (points values).length ≤ x.length) :
    ∃ x' sums c, (List.range (points values).length).foldlM (storeGuess cast
        (Filling.holding (points values) rest) count (doubleMin values)) x = Option.some x' ∧
      NonzeroDivisors (fun i => x'.getD i 0)
        (fun i => (Filling.holding (points values) rest).slots.getD i 0) (points values).length
        sums c := by
  have stored : (List.range (points values).length).foldlM (storeGuess cast
      (Filling.holding (points values) rest) count (doubleMin values)) x =
        Option.some (guesses cast values count ++ x.drop (points values).length) :=
    foldlM_storeGuess (doubleMin_pos positive some).ne' room
  obtain ⟨i, hi, j, hj, differ⟩ : ∃ i ∈ Finset.range (points values).length,
      ∃ j ∈ Finset.range (points values).length,
        convertedAt cast values count i ≠ convertedAt cast values count j :=
    converted_differ positive some counted few
  have apart : (guesses cast values count ++ x.drop (points values).length).getD i 0 ≠
      (guesses cast values count ++ x.drop (points values).length).getD j 0 := by
    rw [getD_guesses _ (Finset.mem_range.mp hi), getD_guesses _ (Finset.mem_range.mp hj)]
    exact differ
  obtain ⟨sums, c, divisors⟩ : ∃ sums c, NonzeroDivisors
      (fun i => (guesses cast values count ++ x.drop (points values).length).getD i 0)
      (fun i => (Filling.holding (points values) rest).slots.getD i 0) (points values).length
      sums c :=
    exists_nonzeroDivisors ⟨i, hi, j, hj, apart⟩
  exact ⟨_, sums, c, stored, divisors⟩

/-- Conversions that fit are those of `gcd`. -/
theorem convertedAt_eq (converts : Converts values) {count : ℕ} (few : count < maxCount) :
    convertedAt cast values count = multipleAt values count := by
  funext i
  have member : pointAt values i ∈ points values := by
    by_cases inside : i < (points values).length
    · exact pointAt_mem (Finset.mem_range.mpr inside)
    · -- behind the points there is a zero, as at the origin
      rw [pointAt, List.getD_eq_default _ _ (Nat.le_of_not_lt inside)]
      exact List.mem_append_right _ List.mem_cons_self
  have nonneg : 0 ≤ (count : ℚ) * pointAt values i / doubleMin values :=
    div_nonneg (mul_nonneg (Nat.cast_nonneg count) (point_nonneg positive member))
      (doubleMin_pos positive some).le
  have fits := converts.fits positive some few member
  have most : (intMax : ℚ) + 1 = 2 ^ 31 := by norm_num [intMax]
  rw [convertedAt, multipleAt, multiple, cast.truncates _ (by linarith) (most ▸ fits)]

omit positive some in
/-- What `gcd` returns in memory, from its two loops. -/
theorem gcdIn_of_loop {y : Filling ℚ} {s : Best × List ℚ}
    (allocated : mallocSquare dm values.length freshX = Option.some xBlock)
    (stored : pointsIn dm values freshY = Option.some y)
    (loop : (List.range (maxCount - 1)).foldlM
      (fun s i => tryCountIn cast y (doubleMin values) s (i + 1))
        (⟨doubleMin values, 0⟩, xBlock) = Option.some s) :
    gcdIn dm cast values freshX freshY = Option.some s.1.result := by
  rw [gcdIn, allocated, Option.bind_eq_bind, Option.bind_some]
  change (pointsIn dm values freshY).bind (fun y => ((List.range (maxCount - 1)).foldlM
    (fun s i => tryCountIn cast y (doubleMin values) s (i + 1)) _).bind _) = _
  rw [stored, Option.bind_some, loop]
  rfl

/-- A guess in memory is a guess of `gcd`, and keeps the size of `x`. -/
theorem exists_tryCount (converts : Converts values)
    (roomX : (points values).length ≤ xBlock.length) {i : ℕ}
    (below : i < maxCount - 1) (s : Best × List ℚ) (best : Best)
    (kept : s.1 = best ∧ s.2.length = xBlock.length) :
    ∃ s' best', tryCountIn cast (Filling.holding (points values) rest) (doubleMin values) s
        (i + 1) = Option.some s' ∧
      tryCount (points values) (doubleMin values) best (i + 1) = Option.some best' ∧
        s'.1 = best' ∧ s'.2.length = xBlock.length := by
  obtain ⟨same, length⟩ := kept
  have few : i + 1 < maxCount := Nat.add_lt_of_lt_sub below
  have converted : convertedAt cast values (i + 1) = multipleAt values (i + 1) :=
    convertedAt_eq positive some converts few
  obtain ⟨a, b, line⟩ : ∃ a b, Regressed (convertedAt cast values (i + 1)) (pointAt values) none
    (points values).length a b := exists_line positive some below
  have inside : (points values).length ≤ s.2.length := roomX.trans length.ge
  refine ⟨_, _, tryCountIn_eq positive some s.1 inside line,
    tryCount_eq positive some converts few best (converted ▸ line), ?_,
    (length_guesses_append inside).trans length⟩
  rw [converted, same]

/-- **In memory the result is that of `gcd`**, if every conversion fits in an `int`. -/
theorem gcdIn_eq (converts : Converts values) {yBlock : List ℚ}
    (allocatedX : mallocSquare dm values.length freshX = Option.some xBlock)
    (allocatedY : mallocSquare dm values.length freshY = Option.some yBlock)
    (roomX : (points values).length ≤ xBlock.length)
    (roomY : (points values).length ≤ yBlock.length) :
    gcdIn dm cast values freshX freshY = gcd values := by
  have stored := pointsIn_eq allocatedY roomY
  obtain ⟨s, best, loop, loop', same, _⟩ := foldlM_range_simulation
    (fun (s : Best × List ℚ) best => s.1 = best ∧ s.2.length = xBlock.length)
    (show (⟨doubleMin values, 0⟩, xBlock).1 = (⟨doubleMin values, 0⟩ : Best) ∧ _ from ⟨rfl, rfl⟩)
    fun i below => exists_tryCount positive some converts roomX below
  rw [gcdIn_of_loop allocatedX stored loop, gcd_of_loop loop', same]

end Loop

/-- What `gcd` does in its blocks of `size * size` entries: the points with the origin are at most
so many, all stores go into the blocks, and for every count the least value, `S` and `Stt` are not
zero. -/
structure Contained (dm : DataModel) (cast : IntCast) (values : List ℚ) (freshX freshY : ℕ → ℚ)
    (y : Filling ℚ) : Prop where
  stored : pointsIn dm values freshY = some y
  points : y.n = (crossValues values).length + 1
  square : y.n ≤ values.length * values.length
  least : doubleMin values ≠ 0
  guesses : ∀ count, 1 ≤ count → count < maxCount →
    ∀ x : List ℚ, x.length = values.length * values.length →
      ∃ x' sums c,
        (List.range y.n).foldlM (storeGuess cast y count (doubleMin values)) x = some x' ∧
          NonzeroDivisors (fun i => x'.getD i 0) (fun i => y.slots.getD i 0) y.n sums c
  returns : ∃ result, gcdIn dm cast values freshX freshY = some result

/-- **No overflow and no division by zero.** For at least two values, all positive, if and only if
`size * size` is an `int` and so many entries have a size. -/
theorem gcd_buffers_iff (dm : DataModel) (cast : IntCast) (values : List ℚ)
    (two : 2 ≤ values.length) (positive : ∀ v ∈ values, 0 < v) (freshX freshY : ℕ → ℚ) :
    (∃ y, Contained dm cast values freshX freshY y) ↔
      values.length * values.length ≤ intMax ∧ values.length * values.length * 8 < dm.sizeSpan := by
  have some : values ≠ [] := List.ne_nil_of_length_pos (Nat.lt_of_lt_of_le Nat.two_pos two)
  have fits := length_points_le two
  constructor
  · rintro ⟨y, contained⟩
    have int : values.length * values.length ≤ intMax := by
      by_contra large
      obtain ⟨result, returned⟩ := contained.returns
      have allocated : mallocSquare dm values.length freshX = none := if_neg large
      rw [gcdIn, allocated] at returned
      cases returned
    have allocated : mallocSquare dm values.length freshY = Option.some _ := if_pos int
    refine ⟨int, lt_sizeSpan_of_room int (Nat.le_of_not_lt fun short => ?_)⟩
    have outside := pointsIn_of_short allocated (by simpa using short)
    exact absurd (contained.stored.symm.trans outside) (by simp)
  · rintro ⟨int, inside⟩
    obtain ⟨xBlock, allocatedX, lengthX⟩ := mallocSquare_of_fits freshX int inside
    obtain ⟨yBlock, allocatedY, lengthY⟩ := mallocSquare_of_fits freshY int inside
    have stored := pointsIn_eq allocatedY (fits.trans lengthY.ge)
    obtain ⟨s, loop, _⟩ := exists_loop positive some (fits.trans lengthX.ge)
    refine ⟨_, stored, ?_, fits, (doubleMin_pos positive some).ne', ?_, s.1.result,
      gcdIn_of_loop allocatedX stored loop⟩
    · change (crossValues values ++ [0]).length = _
      rw [List.length_append, List.length_singleton]
    · intro count counted few x room
      exact exists_divisors positive some counted few (fits.trans room.ge)

/-- A conversion that is defined for all numbers. -/
def wideCast : IntCast := ⟨truncate, fun _ _ _ => rfl⟩

/-- Two loops: three points and the origin fill the four entries. -/
theorem gcd_buffers_iff_two :
    ∃ y, Contained .lp64 wideCast [3, 5] (fun _ => 0) (fun _ => 0) y :=
  (gcd_buffers_iff .lp64 wideCast [3, 5] (by decide) (by simp) _ _).mpr (by decide)

/-- The square of 65536 is no `int`. -/
theorem gcd_buffers_overflow : ¬∀ values : List ℚ, 2 ≤ values.length → (∀ v ∈ values, 0 < v) →
    ∃ y, Contained .lp64 wideCast values (fun _ => 0) (fun _ => 0) y := by
  intro contains
  obtain ⟨y, contained⟩ := contains (List.replicate 65536 1)
    (by rw [List.length_replicate]; decide) fun v member => by
      rw [List.eq_of_mem_replicate member]
      exact one_pos
  obtain ⟨result, returned⟩ := contained.returns
  have allocated :
      mallocSquare .lp64 (List.replicate 65536 (1 : ℚ)).length (fun _ => 0) = none := by
    rw [List.length_replicate]
    exact if_neg (by decide)
  rw [gcdIn, allocated] at returned
  cases returned

end Lmbench.Mhz
