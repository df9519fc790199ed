import Lmbench.Lib.BitReversal
import Lmbench.Lib.Rearrange
import Lmbench.Machine

/-!
# The orders in which memory is visited

`words_initialize` orders the words of a line, or the lines of a page, by
reversing the bits of their index; `permutation` shuffles the pages.

## Main results

* `wordsInitialize_eq_some_iff` - when there is an order
* `getD_wordOrder` - the order of a power of two many is bit reversal
* `permutation_perm` - the shuffled pages are the pages
-/

namespace Lmbench

open Lib

/-- `for (nbits = 0; i != 0; i >>= 1, nbits++)`. -/
def countBits : ℕ → ℕ → ℕ
  | 0, _ => 0
  | fuel + 1, i => if i = 0 then 0 else countBits fuel (i >>> 1) + 1

/-- The entries of `words`. -/
def wordOrder (max scale : ℕ) : List ℕ :=
  let nbits := countBits max (max >>> 1)
  (List.range max).map fun i =>
    (List.range nbits).foldl
      (fun word j => if i.testBit j then word ||| 1 <<< (nbits - j - 1) else word) 0 * scale

/-- `words_initialize(max, scale)`. What is shifted, by up to `nbits - 1`, is the `int` 1, and
`scale` is an `int` too, the value of which matters behind the first entry. A shift into the sign
bit or beyond and a scale that is no `int` have no result. -/
def wordsInitialize (max scale : ℕ) : Option (List ℕ) :=
  if 31 < countBits max (max >>> 1) ∨ (1 < max ∧ intMax < scale) then none
  else some (wordOrder max scale)

/-- `permutation(max, scale)`, where `r i` is the value of the static `r` in pass
`i` of the shuffle. -/
def permutation (max scale : ℕ) (r : ℕ → ℕ) : List ℕ :=
  (List.range max).foldl (fun result i => swapAt result (r i % max) i)
    ((List.range max).map (· * scale))

theorem countBits_two_pow {fuel width : ℕ} (enough : width < fuel) :
    countBits fuel (2 ^ width) = width + 1 := by
  induction width generalizing fuel with
  | zero =>
    obtain ⟨m, rfl⟩ : ∃ m, fuel = m + 1 := Nat.exists_eq_succ_of_ne_zero (by omega)
    cases m <;> simp [countBits]
  | succ width ih =>
    obtain ⟨m, rfl⟩ : ∃ m, fuel = m + 1 := Nat.exists_eq_succ_of_ne_zero (by omega)
    rw [countBits, if_neg (Nat.two_pow_pos _).ne', two_pow_succ_shiftRight, ih (by omega)]

/-- The bits counted for a power of two are its exponent. -/
theorem countBits_half (width : ℕ) : countBits (2 ^ width) (2 ^ width >>> 1) = width := by
  cases width with
  | zero => rfl
  | succ width =>
    have small : width + 1 < 2 ^ (width + 1) := Nat.lt_two_pow_self
    rw [two_pow_succ_shiftRight, countBits_two_pow (by omega)]

/-- No more bits are counted than the number has. -/
theorem two_pow_countBits_le (fuel i : ℕ) : 2 ^ countBits fuel i ≤ max 1 (2 * i) := by
  induction fuel generalizing i with
  | zero => exact Nat.le_max_left 1 _
  | succ fuel ih =>
    rw [countBits]
    split
    · exact Nat.le_max_left 1 _
    · have rest := ih (i >>> 1)
      rw [Nat.shiftRight_one] at rest
      rw [Nat.pow_succ, Nat.shiftRight_one]
      omega

/-- All bits of the number are counted. -/
theorem lt_two_pow_countBits {fuel i : ℕ} (enough : i ≤ fuel) : i < 2 ^ countBits fuel i := by
  induction fuel generalizing i with
  | zero =>
    rw [countBits, Nat.pow_zero]
    omega
  | succ fuel ih =>
    rw [countBits]
    split
    · rw [Nat.pow_zero]
      omega
    · have rest := ih (i := i >>> 1) (by rw [Nat.shiftRight_one]; omega)
      rw [Nat.pow_succ]
      rw [Nat.shiftRight_one] at rest ⊢
      omega

/-- The bits that are mirrored span no more than the range of the indices. -/
theorem two_pow_countBits_half_le {max : ℕ} (some : 0 < max) :
    2 ^ countBits max (max >>> 1) ≤ max := by
  have most := two_pow_countBits_le max (max >>> 1)
  rw [Nat.shiftRight_one] at most ⊢
  omega

/-- No more than 31 bits are mirrored below 2^32. -/
theorem countBits_half_le_iff {max : ℕ} (some : 0 < max) :
    countBits max (max >>> 1) ≤ 31 ↔ max < 2 ^ 32 := by
  constructor
  · intro few
    have all : max >>> 1 < 2 ^ countBits max (max >>> 1) :=
      lt_two_pow_countBits (by rw [Nat.shiftRight_one]; exact Nat.div_le_self _ _)
    have most : 2 ^ countBits max (max >>> 1) ≤ 2 ^ 31 := Nat.pow_le_pow_right (by decide) few
    rw [Nat.shiftRight_one] at all most
    omega
  · intro small
    have below : 2 ^ countBits max (max >>> 1) < 2 ^ 32 :=
      (two_pow_countBits_half_le some).trans_lt small
    exact Nat.le_of_lt_succ ((Nat.pow_lt_pow_iff_right (by decide)).mp below)

/-- **There is an order** for less than 2^32 entries and, behind the first, a scale that is an
`int`. -/
theorem wordsInitialize_eq_some_iff {max scale : ℕ} (some : 0 < max) :
    wordsInitialize max scale = Option.some (wordOrder max scale) ↔
      max < 2 ^ 32 ∧ (max ≤ 1 ∨ scale ≤ intMax) := by
  rw [← countBits_half_le_iff some, wordsInitialize]
  split
  · rename_i undefined
    refine iff_of_false nofun ?_
    omega
  · rename_i holds
    refine iff_of_true rfl ?_
    omega

/-- Where there is one, it is that one. -/
theorem eq_wordOrder {max scale : ℕ} {words : List ℕ}
    (made : wordsInitialize max scale = some words) : words = wordOrder max scale := by
  rw [wordsInitialize] at made
  split at made
  · cases made
  · exact (Option.some.inj made).symm

theorem getD_wordOrder_of_lt {max scale i : ℕ} (inside : i < max) :
    (wordOrder max scale).getD i 0 =
      bitReverse (countBits max (max >>> 1)) i * scale := by
  simp only [wordOrder, foldl_mirror]
  rw [List.getD_eq_getElem?_getD, List.getElem?_map, List.getElem?_range inside]
  rfl

/-- **The order is bit reversal.** -/
theorem getD_wordOrder {width scale i : ℕ} (inside : i < 2 ^ width) :
    (wordOrder (2 ^ width) scale).getD i 0 = bitReverse width i * scale := by
  rw [getD_wordOrder_of_lt inside, countBits_half]

@[simp] theorem length_wordOrder (max scale : ℕ) :
    (wordOrder max scale).length = max := by
  simp [wordOrder]

/-- **Shuffling loses no page.** -/
theorem permutation_perm (max scale : ℕ) (r : ℕ → ℕ) :
    (permutation max scale r).Perm ((List.range max).map (· * scale)) :=
  perm_foldl (fun l i _ => swapAt_perm l (r i % max) i) _

end Lmbench
