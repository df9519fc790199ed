import Mathlib.Algebra.Order.Floor.Ring
import Mathlib.Algebra.Order.Field.Rat
import Mathlib.Data.Rat.Floor

/-!
# The C data models the program is built for

Sizes of the C types the program depends on and the conversions whose outcome
depends on them. Quantities that the program keeps well inside `int` are
natural numbers or integers elsewhere; the word `iter_t`, which is shifted and
converted from `double` without a bound, wraps here.

Floating-point values are exact rationals throughout.
-/

namespace Lmbench

/-- `x % n`, which C leaves undefined for `n = 0`. -/
def rem (x n : ℕ) : Option ℕ := if n = 0 then none else some (x % n)

theorem rem_eq {x n : ℕ} (positive : 0 < n) : rem x n = some (x % n) := if_neg positive.ne'

/-- `INT_MAX`, of an `int` of 32 bits. -/
def intMax : ℕ := 2147483647

/-- Sizes, in bytes, of the C types whose size matters, and the byte order. -/
structure DataModel where
  sizeofInt : ℕ
  sizeofLong : ℕ
  sizeofSizeT : ℕ
  littleEndian : Bool
  four_le_int : 4 ≤ sizeofInt
  int_le_long : sizeofInt ≤ sizeofLong
  int_le_sizeT : sizeofInt ≤ sizeofSizeT

namespace DataModel

/-- 32-bit `int`, `long` and `size_t`: the QNX target. -/
@[simps] def ilp32 : DataModel where
  sizeofInt := 4
  sizeofLong := 4
  sizeofSizeT := 4
  littleEndian := true
  four_le_int := by decide
  int_le_long := by decide
  int_le_sizeT := by decide

/-- 32-bit `int`, 64-bit `long` and `size_t`. -/
@[simps] def lp64 : DataModel where
  sizeofInt := 4
  sizeofLong := 8
  sizeofSizeT := 8
  littleEndian := true
  four_le_int := by decide
  int_le_long := by decide
  int_le_sizeT := by decide

variable (dm : DataModel)

theorem sizeofLong_pos : 0 < dm.sizeofLong := by
  have wide := dm.four_le_int.trans dm.int_le_long
  omega

theorem sizeofSizeT_pos : 0 < dm.sizeofSizeT := by
  have wide := dm.four_le_int.trans dm.int_le_sizeT
  omega

/-- One more than the largest `iter_t`, which is `u_long`. -/
def iterSpan : ℕ := 2 ^ (8 * dm.sizeofLong)

theorem two_pow_le_iterSpan : 2 ^ 32 ≤ dm.iterSpan := by
  have wide := dm.four_le_int.trans dm.int_le_long
  exact Nat.pow_le_pow_right (by decide) (by omega)

/-- `(iter_t) x` for a double `x`: the fraction is discarded. C defines no value
when the truncation does not fit in the type. -/
def toIter? (x : ℚ) : Option ℕ :=
  if -1 < x ∧ x < dm.iterSpan then some ⌊x⌋.toNat else none

/-- One more than the largest `size_t`. -/
def sizeSpan : ℕ := 2 ^ (8 * dm.sizeofSizeT)

/-- `x - y` on `size_t`, which wraps. -/
def subSize (x y : ℕ) : ℕ := if y ≤ x then x - y else x + dm.sizeSpan - y

/-- One more than the largest `unsigned int`. -/
def intSpan : ℕ := 2 ^ (8 * dm.sizeofInt)

/-- A `size_t` returned as an `int`: the low bits, read with a sign. -/
def sizeToInt (x : ℕ) : ℤ := (x : ℤ).bmod dm.intSpan

/-- An `int` passed as a `size_t`. -/
def intToSize (x : ℤ) : ℕ := (x % dm.sizeSpan).toNat

/-- `n <<= 3` on an `iter_t`. -/
def shiftIter (n : ℕ) : ℕ := (n <<< 3) % dm.iterSpan

/-- `size_t` is at least as wide as `int`. -/
theorem intSpan_dvd : dm.intSpan ∣ dm.sizeSpan :=
  Nat.pow_dvd_pow 2 (Nat.mul_le_mul_left 8 dm.int_le_sizeT)

/-- A `size_t` has 32 bits, or at least a byte more. -/
theorem sizeSpan_eq_or_le : dm.sizeSpan = 4294967296 ∨ 1099511627776 ≤ dm.sizeSpan := by
  have wide := dm.four_le_int.trans dm.int_le_sizeT
  rcases Nat.eq_or_lt_of_le wide with narrow | wider
  · left
    rw [sizeSpan, ← narrow]
    norm_num
  · right
    have bits : 40 ≤ 8 * dm.sizeofSizeT := by omega
    calc 1099511627776 = 2 ^ 40 := by norm_num
      _ ≤ dm.sizeSpan := Nat.pow_le_pow_right (by decide) bits

theorem two_pow_le_intSpan : 2 ^ 32 ≤ dm.intSpan := by
  have wide := dm.four_le_int
  exact Nat.pow_le_pow_right (by decide) (by omega)

variable {dm}

theorem toIter?_of_fits {x : ℚ} (nonneg : 0 ≤ x) (fits : x < dm.iterSpan) :
    dm.toIter? x = some ⌊x⌋.toNat :=
  if_pos ⟨by linarith, fits⟩

theorem shiftIter_of_fits {n : ℕ} (fits : 8 * n < dm.iterSpan) : dm.shiftIter n = 8 * n := by
  rw [shiftIter, Nat.shiftLeft_eq, Nat.mul_comm n, Nat.mod_eq_of_lt fits]

/-- The shift loses every set bit exactly on the multiples of an eighth of the
range. -/
theorem shiftIter_eq_zero_iff (n : ℕ) : dm.shiftIter n = 0 ↔ dm.iterSpan ∣ 8 * n := by
  rw [shiftIter, Nat.shiftLeft_eq, Nat.mul_comm]
  exact (Nat.dvd_iff_mod_eq_zero).symm

/-- A size that is positive as an `int`, or negative and no larger than a `size_t`,
is not cut down by the two conversions. -/
theorem le_intToSize_sizeToInt {x : ℕ}
    (fits : 2 * x < dm.intSpan ∨ dm.intSpan ≤ 2 * (x % dm.intSpan) ∧ x < dm.sizeSpan) :
    x ≤ dm.intToSize (dm.sizeToInt (x % dm.sizeSpan)) := by
  obtain ⟨k, size⟩ := dm.intSpan_dvd
  have wide := dm.two_pow_le_intSpan
  have positive : 0 < dm.sizeSpan := by unfold sizeSpan; positivity
  have quotient : 1 ≤ k := by
    rcases Nat.eq_zero_or_pos k with rfl | some
    · omega
    · exact some
  have span : dm.intSpan ≤ dm.sizeSpan := by
    rw [size]
    exact Nat.le_mul_of_pos_right _ quotient
  unfold intToSize sizeToInt
  rcases fits with small | ⟨negative, inside⟩
  · rw [Nat.mod_eq_of_lt (by omega), Int.bmod_eq_of_le (by omega) (by omega),
      Int.emod_eq_of_lt (by omega) (by omega)]
    omega
  · -- the sign bit stands for the bits above it
    have low := Nat.mod_lt x (show 0 < dm.intSpan by omega)
    have signed : (x : ℤ).bmod dm.intSpan = (x % dm.intSpan : ℕ) - dm.intSpan := by
      rw [Int.bmod_def, if_neg (by omega)]
      push_cast
      rfl
    have extended : ((x % dm.intSpan : ℕ) - dm.intSpan : ℤ) % dm.sizeSpan =
        (x % dm.intSpan : ℕ) - dm.intSpan + dm.sizeSpan := by
      rw [← Int.add_emod_right]
      exact Int.emod_eq_of_lt (by omega) (by omega)
    have blocks : dm.intSpan * (x / dm.intSpan) + dm.intSpan ≤ dm.sizeSpan := by
      have below : x / dm.intSpan < k := Nat.div_lt_of_lt_mul (size ▸ inside)
      rw [size, ← Nat.mul_succ]
      exact Nat.mul_le_mul_left _ below
    have whole := Nat.div_add_mod x dm.intSpan
    rw [Nat.mod_eq_of_lt inside, signed, extended]
    omega

end DataModel

end Lmbench
