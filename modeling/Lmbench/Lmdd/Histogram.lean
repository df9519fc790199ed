import Mathlib.Algebra.BigOperators.Group.Finset.Piecewise
import Mathlib.Algebra.Order.Ring.Int
import Mathlib.Data.List.Basic
import Mathlib.Tactic.Linarith

/-!
# The latency histograms of `lmdd`

With `rtmax=` or `wtmax=` each read or write is timed, and its milliseconds are counted
in one of twelve buckets: one for what is below the minimum, one for the maximum and above, and
ten of equal width. The width is a tenth of the range, without the remainder.

## Main results

* `bucket_bounds` - what is counted in one of the ten is printed in a range it lies in
* `countsOnce_iff` - when every time is counted
-/

namespace Lmbench.Lmdd

/-- What is timed: reads, for `rthist`, and writes, for `wthist`. -/
inductive Direction
  | read
  | write

/-- `Rtmin`, `Rtmax` or `Wtmin`, `Wtmax`. -/
structure Limits where
  min : ℤ
  max : ℤ

/-- The values of `rtmax=` and `rtmin=`, `wtmax=` and `wtmin=`, -1 where they are absent. -/
structure TimeOptions where
  rtmax : ℤ
  rtmin : ℤ
  wtmax : ℤ
  wtmin : ℤ

/-- What option processing makes of a pair of values. -/
def Limits.ofOptions (max min : ℤ) : Limits :=
  let max := if max ≠ -1 ∧ max < 10 then 10 else max
  { min := if max ≠ -1 ∧ min = -1 then 0 else min
    max := max }

/-- The limits of a direction. -/
def TimeOptions.limits (o : TimeOptions) : Direction → Limits
  | .read => .ofOptions o.rtmax o.rtmin
  | .write => .ofOptions o.wtmax o.wtmin

/-- Neither "need a max to go with that min" nor "min has to be less than max". -/
def TimeOptions.Accepted (o : TimeOptions) : Prop :=
  ¬((o.limits .read).min ≠ 0 ∧ (o.limits .read).max = 0 ∨
      (o.limits .write).min ≠ 0 ∧ (o.limits .write).max = 0) ∧
    ¬((o.limits .read).max < (o.limits .read).min ∨
      (o.limits .write).max < (o.limits .write).min)

instance (o : TimeOptions) : Decidable o.Accepted := by
  unfold TimeOptions.Accepted
  infer_instance

namespace Limits

variable (l : Limits)

/-- `(Rtmax - Rtmin) / 10`. -/
def step : ℤ := (l.max - l.min).tdiv 10

/-- `mills`, of a number of microseconds. -/
def mills (mics : ℤ) : ℤ := mics.tdiv 1000

/-- The bucket whose count is incremented. -/
def bucket (mics : ℤ) : Option ℕ :=
  if l.max ≤ mills mics then some 11
  else if mills mics < l.min then some 0
  else
    -- nothing is incremented where the loop is not left early
    (List.range' 1 10).find? fun i => mills mics < i * l.step + l.min

/-- The histogram after one more time. -/
def count (hist : ℕ → ℕ) (mics : ℤ) : ℕ → ℕ :=
  match l.bucket mics with
  | none => hist
  | some i => Function.update hist i (hist i + 1)

/-- The histogram of a run. -/
def histogram (times : List ℤ) : ℕ → ℕ := times.foldl l.count fun _ => 0

/-- The range that `done` prints with bucket `i`: `size` grows by a step from bucket to bucket. -/
def printed (i : ℕ) : ℤ × ℤ :=
  let size := (· + l.step)^[i - 1] l.min
  (size, size + l.step - 1)

end Limits

/-- `rthist`. -/
def rthist (o : TimeOptions) (times : List ℤ) : ℕ → ℕ := (o.limits .read).histogram times

/-- `wthist`. -/
def wthist (o : TimeOptions) (times : List ℤ) : ℕ → ℕ := (o.limits .write).histogram times

namespace TimeOptions

variable (o : TimeOptions)

def hist : Direction → List ℤ → ℕ → ℕ
  | .read => rthist o
  | .write => wthist o

/-- Every time is counted in exactly one of the twelve buckets, which therefore add up to the
number of times, and what is printed with buckets 1 to 10 contains the milliseconds. -/
structure CountsOnce (d : Direction) (times : List ℤ) : Prop where
  once : ∀ mics ∈ times, ∀ hist, ∃ i < 12, (o.limits d).count hist mics i = hist i + 1 ∧
    ∀ j, j ≠ i → (o.limits d).count hist mics j = hist j
  sum : ∑ i ∈ Finset.range 12, o.hist d times i = times.length
  within : ∀ mics ∈ times, ∀ hist i, 1 ≤ i → i ≤ 10 → (o.limits d).count hist mics i ≠ hist i →
    ((o.limits d).printed i).1 ≤ Limits.mills mics ∧
      Limits.mills mics ≤ ((o.limits d).printed i).2

variable {o}

theorem hist_eq (d : Direction) (times : List ℤ) :
    o.hist d times = (o.limits d).histogram times := by
  cases d <;> rfl

/-- The maximum of a direction that is timed is 10 at least, and not below the minimum. -/
theorem Accepted.bounds (accepted : o.Accepted) (d : Direction)
    (timed : (o.limits d).max ≠ -1) :
    10 ≤ (o.limits d).max ∧ (o.limits d).min ≤ (o.limits d).max := by
  have high (max min : ℤ) (timed : (Limits.ofOptions max min).max ≠ -1) :
      10 ≤ (Limits.ofOptions max min).max := by
    simp only [Limits.ofOptions] at timed ⊢
    split_ifs at timed ⊢ with low <;> omega
  have order := accepted.2
  rw [not_or, not_lt, not_lt] at order
  cases d with
  | read => exact ⟨high _ _ timed, order.1⟩
  | write => exact ⟨high _ _ timed, order.2⟩

end TimeOptions

namespace Limits

variable {l : Limits} {mics : ℤ} {i : ℕ}

theorem step_bounds (order : l.min ≤ l.max) : 0 ≤ l.step ∧ 10 * l.step + l.min ≤ l.max := by
  rw [step, Int.tdiv_eq_ediv_of_nonneg (by omega)]
  omega

theorem printed_eq (i : ℕ) :
    l.printed i = (l.min + (i - 1 : ℕ) * l.step, l.min + (i - 1 : ℕ) * l.step + l.step - 1) := by
  have size : (· + l.step)^[i - 1] l.min = l.min + (i - 1 : ℕ) * l.step := by
    rw [add_right_iterate]
    simp
  rw [printed, size]

theorem count_of_bucket (counted : l.bucket mics = some i) (hist : ℕ → ℕ) :
    l.count hist mics = Function.update hist i (hist i + 1) := by
  rw [count, counted]

/-- **What is counted in one of the ten** lies in the range that is printed with it. -/
theorem bucket_bounds (counted : l.bucket mics = some i) (first : 1 ≤ i) (last : i ≤ 10) :
    (l.printed i).1 ≤ mills mics ∧ mills mics ≤ (l.printed i).2 := by
  rw [printed_eq]
  obtain ⟨k, rfl⟩ : ∃ k, i = k + 1 := ⟨i - 1, by omega⟩
  rw [bucket] at counted
  split_ifs at counted with high low
  · injection counted with eleven
    omega
  · injection counted with zero
    omega
  · obtain ⟨below, _, above⟩ := List.find?_range'_eq_some.mp counted
    have upper : mills mics < (k + 1 : ℕ) * l.step + l.min := by simpa using below
    push_cast [Nat.add_sub_cancel] at upper ⊢
    refine ⟨?_, by linarith⟩
    cases k with
    | zero => push_cast; linarith
    | succ k =>
      have lower := above (k + 1) (by omega) (by omega)
      simp only [Bool.not_eq_eq_eq_not, Bool.not_true, decide_eq_false_iff_not, not_lt] at lower
      linarith

theorem bucket_lt (counted : l.bucket mics = some i) : i < 12 := by
  rw [bucket] at counted
  split_ifs at counted
  · injection counted with eleven
    omega
  · injection counted with zero
    omega
  · obtain ⟨_, member, _⟩ := List.find?_range'_eq_some.mp counted
    rw [List.mem_range'_1] at member
    omega

/-- What is counted nowhere lies between ten steps and the maximum. -/
theorem bucket_eq_none_iff (order : l.min ≤ l.max) :
    l.bucket mics = none ↔ l.min + 10 * l.step ≤ mills mics ∧ mills mics < l.max := by
  obtain ⟨nonneg, within⟩ := step_bounds order
  rw [bucket]
  split_ifs with high low
  · exact iff_of_false not_false fun gap => by omega
  · exact iff_of_false not_false fun gap => by omega
  · rw [List.find?_range'_eq_none]
    constructor
    · intro none
      have last := none 10 (by decide) (by decide)
      simp only [Bool.not_eq_eq_eq_not, Bool.not_true, decide_eq_false_iff_not, not_lt] at last
      push_cast at last
      omega
    · rintro ⟨gap, _⟩ i _ below
      have most : (i : ℤ) * l.step ≤ 10 * l.step :=
        mul_le_mul_of_nonneg_right (by exact_mod_cast (by omega : i ≤ 10)) nonneg
      simp only [Bool.not_eq_eq_eq_not, Bool.not_true, decide_eq_false_iff_not, not_lt]
      omega

theorem sum_count (l : Limits) (hist : ℕ → ℕ) (mics : ℤ) :
    ∑ i ∈ Finset.range 12, l.count hist mics i =
      ∑ i ∈ Finset.range 12, hist i + if (l.bucket mics).isSome then 1 else 0 := by
  rw [count]
  cases counted : l.bucket mics with
  | none => rfl
  | some i =>
    have inside : i ∈ Finset.range 12 := Finset.mem_range.mpr (bucket_lt counted)
    simp only
    rw [Finset.sum_update_of_mem inside, ← Finset.add_sum_erase _ hist inside,
      Finset.sdiff_singleton_eq_erase]
    simp only [Option.isSome_some, if_true]
    omega

/-- The buckets add up to the times that were counted. -/
theorem sum_histogram (l : Limits) (times : List ℤ) :
    ∑ i ∈ Finset.range 12, l.histogram times i =
      times.countP fun mics => (l.bucket mics).isSome := by
  have sofar (hist : ℕ → ℕ) : ∑ i ∈ Finset.range 12, times.foldl l.count hist i =
      ∑ i ∈ Finset.range 12, hist i + times.countP fun mics => (l.bucket mics).isSome := by
    induction times generalizing hist with
    | nil => rfl
    | cons mics rest ih =>
      rw [List.foldl_cons, ih, sum_count, List.countP_cons]
      omega
  rw [histogram, sofar, Finset.sum_const_zero, Nat.zero_add]

end Limits

namespace TimeOptions

variable {o : TimeOptions}

/-- **When every time is counted.** For whatever limits are accepted, for reads and for writes, and
for all times of a run: each is counted in one bucket, and printed in a range that it lies in, if
and only if none lies between ten steps above the minimum and the maximum. -/
theorem countsOnce_iff (accepted : o.Accepted) (d : Direction) (timed : (o.limits d).max ≠ -1)
    (times : List ℤ) :
    o.CountsOnce d times ↔ ∀ mics ∈ times,
      ¬((o.limits d).min + 10 * (o.limits d).step ≤ Limits.mills mics ∧
        Limits.mills mics < (o.limits d).max) := by
  have order := (accepted.bounds d timed).2
  constructor
  · intro all mics member gap
    obtain ⟨i, _, incremented, _⟩ := all.once mics member fun _ => 0
    rw [Limits.count, (Limits.bucket_eq_none_iff order).mpr gap] at incremented
    exact Nat.succ_ne_zero 0 incremented.symm
  · intro avoids
    have counted : ∀ mics ∈ times, ∃ i, (o.limits d).bucket mics = some i := fun mics member =>
      Option.ne_none_iff_exists'.mp (mt (Limits.bucket_eq_none_iff order).mp (avoids mics member))
    refine ⟨fun mics member hist => ?_, ?_, fun mics member hist i first last changed => ?_⟩
    · obtain ⟨i, counted⟩ := counted mics member
      refine ⟨i, Limits.bucket_lt counted, ?_, fun j other => ?_⟩
      · rw [Limits.count_of_bucket counted, Function.update_self]
      · rw [Limits.count_of_bucket counted, Function.update_of_ne other]
    · rw [hist_eq, Limits.sum_histogram, List.countP_eq_length]
      intro mics member
      obtain ⟨i, counted⟩ := counted mics member
      rw [counted]
      rfl
    · obtain ⟨j, counted⟩ := counted mics member
      rw [Limits.count_of_bucket counted] at changed
      obtain rfl : i = j := by
        by_contra other
        exact changed (Function.update_of_ne other _ _)
      exact Limits.bucket_bounds counted first last

/-- `rtmax=20`. -/
def twenty : TimeOptions := ⟨20, -1, -1, -1⟩

theorem countsOnce_twenty : twenty.CountsOnce .read [12000, 3500, 21000] :=
  (countsOnce_iff (by decide) .read (by decide) [12000, 3500, 21000]).mpr (by decide)

/-- **The slip.** With `rtmax=15` the buckets are a millisecond wide, and a read of twelve is in
none. -/
theorem not_countsOnce :
    ¬∀ (o : TimeOptions) (d : Direction), o.Accepted → 0 ≤ (o.limits d).min →
      (o.limits d).max ≠ -1 → ∀ times, o.CountsOnce d times := by
  intro always
  have all := always ⟨15, -1, -1, -1⟩ .read (by decide) (by decide) (by decide) [12000]
  exact absurd all.sum (by decide)

end TimeOptions

end Lmbench.Lmdd
