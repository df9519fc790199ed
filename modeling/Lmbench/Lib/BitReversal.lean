import Mathlib.Data.List.Nodup
import Mathlib.Data.List.Range
import Mathlib.Data.Nat.Bitwise

/-!
# Bit reversal as a rearrangement of an initial segment

Reading the low `width` bits of a number in the opposite order permutes the
numbers below `2 ^ width`. The reversal is defined by its bits; a loop that
sets the mirrored bits one after the other computes it.

## Main results

* `bitReverse_bitReverse` - reversing twice gives the number back
* `bitReverse_injOn` - below `2 ^ width` different numbers have different reversals
* `bitReverse_of_lt` - in a wider reversal the first numbers are the multiples of a stride
* `bitReverse_mod_injective_iff` - when reversals can be reduced without a collision
* `foldl_mirror` - the loop that mirrors one bit at a time
-/

namespace Lmbench.Lib

/-- The low `width` bits of `x`, lowest first written highest first. -/
def bitReverse (width x : ℕ) : ℕ :=
  Nat.ofBits fun j : Fin width => x.testBit (width - 1 - j)

theorem two_pow_succ_shiftRight (width : ℕ) : 2 ^ (width + 1) >>> 1 = 2 ^ width := by
  rw [Nat.shiftRight_one, Nat.pow_succ, Nat.mul_div_cancel _ Nat.zero_lt_two]

theorem testBit_bitReverse (width x i : ℕ) :
    (bitReverse width x).testBit i = (decide (i < width) && x.testBit (width - 1 - i)) := by
  rw [bitReverse, Nat.testBit_ofBits]
  by_cases inside : i < width <;> simp [inside]

theorem bitReverse_lt (width x : ℕ) : bitReverse width x < 2 ^ width :=
  Nat.ofBits_lt_two_pow _

@[simp] theorem bitReverse_zero (width : ℕ) : bitReverse width 0 = 0 := by
  refine Nat.eq_of_testBit_eq fun i => ?_
  rw [testBit_bitReverse, Nat.zero_testBit, Nat.zero_testBit, Bool.and_false]

/-- Below `2 ^ width` bit reversal is an involution. -/
theorem bitReverse_bitReverse {width x : ℕ} (small : x < 2 ^ width) :
    bitReverse width (bitReverse width x) = x := by
  refine Nat.eq_of_testBit_eq fun i => ?_
  rw [testBit_bitReverse, testBit_bitReverse]
  by_cases inside : i < width
  · have mirrored : width - 1 - (width - 1 - i) = i := by omega
    simp [inside, mirrored, show width - 1 - i < width by omega]
  · have high : x.testBit i = false :=
      Nat.testBit_lt_two_pow (small.trans_le (Nat.pow_le_pow_right (by decide) (not_lt.mp inside)))
    simp [inside, high]

theorem bitReverse_injOn {width x y : ℕ} (hx : x < 2 ^ width) (hy : y < 2 ^ width)
    (same : bitReverse width x = bitReverse width y) : x = y := by
  rw [← bitReverse_bitReverse hx, same, bitReverse_bitReverse hy]

/-- **The first numbers of a wider reversal.** Numbers of fewer bits are reversed among
these bits and spread out over the multiples of a power of two. -/
theorem bitReverse_of_lt {width narrow x : ℕ} (small : x < 2 ^ narrow) (le : narrow ≤ width) :
    bitReverse width x = bitReverse narrow x * 2 ^ (width - narrow) := by
  refine Nat.eq_of_testBit_eq fun i => ?_
  rw [Nat.testBit_mul_two_pow, testBit_bitReverse, testBit_bitReverse]
  by_cases spread : width - narrow ≤ i
  · -- both sides mirror the same bit
    have same : narrow - 1 - (i - (width - narrow)) = width - 1 - i := by omega
    have bounds : (i - (width - narrow) < narrow) ↔ i < width := by omega
    rw [same, decide_eq_decide.mpr bounds, decide_eq_true spread, Bool.true_and]
  · -- the low bits of the image are the high bits of `x`, and not set
    have high : x.testBit (width - 1 - i) = false :=
      Nat.testBit_lt_two_pow (small.trans_le (Nat.pow_le_pow_right (by decide) (by omega)))
    rw [high, decide_eq_false spread, Bool.and_false, Bool.false_and]

/-- All numbers below `2 ^ width` are reversals of such numbers. -/
theorem map_bitReverse_perm (width : ℕ) :
    ((List.range (2 ^ width)).map (bitReverse width)).Perm (List.range (2 ^ width)) := by
  have nodup : ((List.range (2 ^ width)).map (bitReverse width)).Nodup :=
    List.Nodup.map_on (fun x hx y hy same =>
      bitReverse_injOn (List.mem_range.mp hx) (List.mem_range.mp hy) same) List.nodup_range
  refine (List.perm_ext_iff_of_nodup nodup List.nodup_range).mpr fun x => ?_
  rw [List.mem_map, List.mem_range]
  constructor
  · rintro ⟨y, _, rfl⟩
    exact bitReverse_lt width y
  · intro small
    exact ⟨bitReverse width x, List.mem_range.mpr (bitReverse_lt width x),
      bitReverse_bitReverse small⟩

/-! ### Reversals modulo a number -/

theorem bitReverse_ones (width : ℕ) : bitReverse width (2 ^ width - 1) = 2 ^ width - 1 := by
  refine Nat.eq_of_testBit_eq fun i => ?_
  rw [testBit_bitReverse, Nat.testBit_two_pow_sub_one, Nat.testBit_two_pow_sub_one]
  by_cases inside : i < width
  · simp [inside, show width - 1 - i < width by omega]
  · simp [inside]

/-- Numbers without the highest bit are reversed to the even ones. -/
theorem exists_bitReverse_eq_two_mul {width x : ℕ} (small : x < 2 ^ width) :
    ∃ y < 2 ^ width, bitReverse (width + 1) y = 2 * x := by
  refine ⟨bitReverse width x, bitReverse_lt width x, ?_⟩
  rw [bitReverse_of_lt (bitReverse_lt width x) (Nat.le_add_right width 1),
    bitReverse_bitReverse small, Nat.add_sub_cancel_left, Nat.pow_one, Nat.mul_comm]

theorem bitReverse_two_pow (width : ℕ) : bitReverse (width + 1) (2 ^ width) = 1 := by
  have one : bitReverse (width + 1) 1 = 2 ^ width := by
    rw [bitReverse_of_lt (show 1 < 2 ^ 1 by decide) (by omega), Nat.add_sub_cancel]
    have : bitReverse 1 1 = 1 := by decide
    rw [this, Nat.one_mul]
  rw [← one, bitReverse_bitReverse (Nat.one_lt_two_pow (Nat.succ_ne_zero width))]

/-- **Reducing a reversal.** The numbers below `n` keep different reversals modulo `n`, taken
over the bits that `n - 1` has, only if `n` or `n + 1` is a power of two. -/
theorem bitReverse_mod_injective_iff {width n : ℕ} (low : 2 ^ width < n)
    (high : n ≤ 2 ^ (width + 1)) :
    (∀ x < n, ∀ y < n, bitReverse (width + 1) x % n = bitReverse (width + 1) y % n → x = y) ↔
      n = 2 ^ (width + 1) ∨ n + 1 = 2 ^ (width + 1) := by
  have double : 2 ^ (width + 1) = 2 * 2 ^ width := Nat.pow_succ'
  constructor
  · intro injective
    by_contra other
    rcases Nat.even_or_odd' n with ⟨k, even | odd⟩
    · -- `n` is the reversal of a small number, and 0 that of 0
      obtain ⟨y, small, reversed⟩ :=
        exists_bitReverse_eq_two_mul (show k < 2 ^ width by omega)
      have same := injective 0 (by omega) y (by omega)
        (by rw [reversed, ← even, bitReverse_zero, Nat.zero_mod, Nat.mod_self])
      rw [← same, bitReverse_zero] at reversed
      omega
    · -- `n + 1` is the reversal of a small number, and 1 that of `2 ^ width`
      obtain ⟨y, small, reversed⟩ :=
        exists_bitReverse_eq_two_mul (show k + 1 < 2 ^ width by omega)
      have next : 2 * (k + 1) = n + 1 := by omega
      rw [next] at reversed
      have same := injective (2 ^ width) low y (by omega)
        (by rw [reversed, bitReverse_two_pow, Nat.add_mod_left])
      rw [← same, bitReverse_two_pow] at reversed
      omega
  · intro fits x hx y hy same
    have below : ∀ z < n, bitReverse (width + 1) z < n := by
      intro z hz
      have inside := bitReverse_lt (width + 1) z
      rcases fits with power | ones
      · rwa [← power] at inside
      · -- only `n` itself is reversed to the number that consists of ones
        by_contra large
        have top : bitReverse (width + 1) z = bitReverse (width + 1) (2 ^ (width + 1) - 1) := by
          rw [bitReverse_ones]
          omega
        have all := bitReverse_injOn (by omega) (by omega) top
        omega
    rw [Nat.mod_eq_of_lt (below x hx), Nat.mod_eq_of_lt (below y hy)] at same
    exact bitReverse_injOn (by omega) (by omega) same

/-- Mirroring the bits `0 .. m - 1` one after the other leaves exactly their
images set. -/
theorem testBit_foldl_mirror (width x m i : ℕ) (bound : m ≤ width) :
    ((List.range m).foldl (fun word j =>
      if x.testBit j then word ||| 1 <<< (width - j - 1) else word) 0).testBit i =
        (decide (i < width ∧ width - 1 - i < m) && x.testBit (width - 1 - i)) := by
  induction m with
  | zero => simp
  | succ m ih =>
    rw [List.range_succ, List.foldl_append, List.foldl_cons, List.foldl_nil]
    have before := ih (by omega)
    by_cases here : i = width - m - 1
    · -- the bit this pass of the loop is about
      subst here
      have back : width - 1 - (width - m - 1) = m := by omega
      rw [back] at before ⊢
      have unset : ¬(width - m - 1 < width ∧ m < m) := by omega
      have reached : width - m - 1 < width ∧ m < m + 1 := by omega
      rw [decide_eq_false unset, Bool.false_and] at before
      rw [decide_eq_true reached, Bool.true_and]
      by_cases set : x.testBit m <;> simp [set, before, Nat.testBit_or, Nat.testBit_shiftLeft]
    · have elsewhere : (1 <<< (width - m - 1)).testBit i = false := by
        rw [Nat.one_shiftLeft, Nat.testBit_two_pow_of_ne (Ne.symm here)]
      have same : (i < width ∧ width - 1 - i < m + 1) ↔ (i < width ∧ width - 1 - i < m) := by
        omega
      rw [decide_eq_decide.mpr same, ← before]
      split <;> simp [Nat.testBit_or, elsewhere]

/-- The loop over all bits computes the reversal. -/
theorem foldl_mirror (width x : ℕ) :
    (List.range width).foldl (fun word j =>
      if x.testBit j then word ||| 1 <<< (width - j - 1) else word) 0 = bitReverse width x := by
  refine Nat.eq_of_testBit_eq fun i => ?_
  rw [testBit_foldl_mirror width x width i le_rfl, testBit_bitReverse]
  by_cases inside : i < width <;> simp [inside]
  intro _
  omega

end Lmbench.Lib
