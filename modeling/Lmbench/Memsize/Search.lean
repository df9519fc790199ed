import Lmbench.Lib.BitReversal
import Mathlib.Algebra.Group.Nat.Defs
import Mathlib.Data.Nat.Init
import Mathlib.Data.Nat.Log
import Mathlib.Order.Basic

/-!
# The search of `memsize`

`main` halves the size until it can be allocated, and then adds half as much, a quarter as
much and so on, down to one MB. A sum that is larger than what failed before is left out, but a
sum that cannot be allocated ends the search.

## Main results

* `goDown_spec` - the largest power of two that can be allocated
* `goUp_spec` - the upward search up to the first sum that fails
* `findsMemory_iff` - for which amounts of memory the result is exact to one MB
-/

namespace Lmbench.Memsize

open Lib

section Model

variable (testMalloc : ℕ → Bool)

/-- `for (where = 0; !test_malloc(size); size >>= 1) max = size;`. None if `fuel` is used up. -/
def goDown : ℕ → ℕ → ℕ → Option (ℕ × ℕ)
  | fuel, size, max =>
    if testMalloc size then some (size, max)
    else
      match fuel with
      | 0 => none
      | fuel + 1 => goDown fuel (size >>> 1) size

/-- The loop over `delta`. None if `fuel` is used up. -/
def goUp : ℕ → ℕ → ℕ → ℕ → Option ℕ
  | fuel, delta, size, max =>
    if 0 < delta then
      match fuel with
      | 0 => none
      | fuel + 1 =>
        let sz := (size + delta * 1024 * 1024) % 2 ^ 64
        -- `size_t` has 64 bits too
        let check := sz % 2 ^ 64
        if max < sz then goUp fuel (delta >>> 1) size max
        else if check < sz ∨ ¬ testMalloc sz then some size
        else goUp fuel (delta >>> 1) sz max
    else some size

/-- The size that `main` ends up with, from the size that was asked for. -/
def memsize (fuel wanted : ℕ) : Option ℕ :=
  let max := if wanted < 1024 * 1024 then 1024 * 1024 * 1024 else wanted
  (goDown testMalloc fuel max max).bind fun (size, max) =>
    goUp testMalloc fuel (size >>> 21) size max

end Model

/-- If `limit` bytes can be allocated and no more, `main` finds them, or as many as are wanted,
to the MB. -/
def FindsMemory (limit wanted : ℕ) : Prop :=
  ∃ r, (∀ fuel ≥ 64, memsize (· ≤ limit) fuel wanted = some r) ∧ r ≤ limit ∧ r ≤ wanted ∧
    min limit wanted - r < 2 ^ 20

variable {limit fuel k m e i max : ℕ}

theorem goDown_of_fits {size : ℕ} (fits : size ≤ limit) :
    goDown (· ≤ limit) fuel size max = some (size, max) := by
  unfold goDown
  rw [if_pos (decide_eq_true fits)]

/-- Halving stops at the largest power of two that can be allocated, with the next one as the
limit. -/
theorem goDown_spec (fits : 2 ^ k ≤ limit) (next : limit < 2 ^ (k + 1)) (below : k < m)
    (enough : m ≤ k + fuel) :
    goDown (· ≤ limit) fuel (2 ^ m) max = some (2 ^ k, 2 ^ (k + 1)) := by
  induction fuel generalizing m max with
  | zero => omega
  | succ fuel ih =>
    obtain ⟨m, rfl⟩ : ∃ p, m = p + 1 := ⟨m - 1, by omega⟩
    have large : limit < 2 ^ (m + 1) :=
      Nat.lt_of_lt_of_le next (Nat.pow_le_pow_right Nat.zero_lt_two (by omega))
    unfold goDown
    rw [if_neg (by simpa using large), two_pow_succ_shiftRight]
    rcases Nat.eq_or_lt_of_le (Nat.lt_succ_iff.mp below) with rfl | lower
    · exact goDown_of_fits fits
    · exact ih lower (by omega)

/-- The sum for the next `delta`, when all sums so far could be allocated. -/
theorem sum_next (inside : i < e) (fits : e < 43) :
    (2 ^ 20 * (2 ^ (e + 1) - 2 ^ (i + 1)) + 2 ^ i * 1024 * 1024) % 2 ^ 64 =
      2 ^ 20 * (2 ^ (e + 1) - 2 ^ i) := by
  have double : 2 ^ (i + 1) = 2 * 2 ^ i := by rw [Nat.pow_succ, Nat.mul_comm]
  have reach : 2 ^ (i + 1) ≤ 2 ^ (e + 1) := Nat.pow_le_pow_right Nat.zero_lt_two (by omega)
  have bound : 2 ^ (e + 1) ≤ 2 ^ 43 := Nat.pow_le_pow_right Nat.zero_lt_two (by omega)
  rw [Nat.mod_eq_of_lt] <;> omega

/-- Sums are made as long as they can be allocated: the first one that fails is the last. -/
theorem goUp_spec (inside : i ≤ e) (fits : e < 43)
    (reached : 2 ^ 20 * (2 ^ (e + 1) - 2 ^ i) ≤ limit) :
    ∃ b ≤ i,
      (∀ fuel ≥ i, goUp (· ≤ limit) fuel (2 ^ i >>> 1) (2 ^ 20 * (2 ^ (e + 1) - 2 ^ i))
        (2 ^ (e + 21)) = some (2 ^ 20 * (2 ^ (e + 1) - 2 ^ b))) ∧
      2 ^ 20 * (2 ^ (e + 1) - 2 ^ b) ≤ limit ∧
      ∀ c < b, limit < 2 ^ 20 * (2 ^ (e + 1) - 2 ^ c) := by
  induction i with
  | zero =>
    refine ⟨0, le_refl 0, fun fuel _ => ?_, reached, fun c hc => absurd hc (Nat.not_lt_zero c)⟩
    unfold goUp
    rw [if_neg (by decide)]
  | succ i ih =>
    have positive : 0 < 2 ^ i := Nat.pow_pos Nat.zero_lt_two
    -- the sum stays below the power of two that failed
    have below : 2 ^ 20 * (2 ^ (e + 1) - 2 ^ i) ≤ 2 ^ (e + 21) := by
      have split : 2 ^ (e + 21) = 2 ^ 20 * 2 ^ (e + 1) := by
        rw [← Nat.pow_add]; congr 1; omega
      rw [split]
      exact Nat.mul_le_mul_left _ (Nat.sub_le _ _)
    have small : 2 ^ 20 * (2 ^ (e + 1) - 2 ^ i) < 2 ^ 64 := by
      rw [← sum_next (show i < e by omega) fits]
      exact Nat.mod_lt _ (Nat.pow_pos Nat.zero_lt_two)
    have step : ∀ fuel, goUp (· ≤ limit) (fuel + 1) (2 ^ i) (2 ^ 20 * (2 ^ (e + 1) - 2 ^ (i + 1)))
        (2 ^ (e + 21)) =
        if 2 ^ 20 * (2 ^ (e + 1) - 2 ^ i) ≤ limit then
          goUp (· ≤ limit) fuel (2 ^ i >>> 1) (2 ^ 20 * (2 ^ (e + 1) - 2 ^ i)) (2 ^ (e + 21))
        else some (2 ^ 20 * (2 ^ (e + 1) - 2 ^ (i + 1))) := by
      intro fuel
      conv_lhs => unfold goUp
      simp only [if_pos positive, sum_next (show i < e by omega) fits, Nat.mod_eq_of_lt small,
        Nat.lt_irrefl, false_or, if_neg (Nat.not_lt.mpr below), decide_eq_true_iff, ite_not]
    rw [two_pow_succ_shiftRight]
    by_cases next : 2 ^ 20 * (2 ^ (e + 1) - 2 ^ i) ≤ limit
    · obtain ⟨b, hb, run, last, first⟩ := ih (by omega) next
      refine ⟨b, by omega, fun fuel enough => ?_, last, first⟩
      obtain ⟨fuel, rfl⟩ : ∃ f, fuel = f + 1 := ⟨fuel - 1, by omega⟩
      rw [step, if_pos next]
      exact run fuel (by omega)
    · refine ⟨i + 1, le_refl _, fun fuel enough => ?_, reached, fun c hc => ?_⟩
      · obtain ⟨fuel, rfl⟩ : ∃ f, fuel = f + 1 := ⟨fuel - 1, by omega⟩
        rw [step, if_neg next]
      · have smaller : 2 ^ c ≤ 2 ^ i := Nat.pow_le_pow_right Nat.zero_lt_two (by omega)
        exact Nat.lt_of_lt_of_le (Nat.lt_of_not_le next)
          (Nat.mul_le_mul_left _ (Nat.sub_le_sub_left smaller _))

/-- With all that is wanted, no sum is tried. -/
theorem goUp_of_large {delta size : ℕ} (fits : size + delta * 1024 * 1024 < 2 ^ 64)
    (enough : delta < 2 ^ fuel) : goUp (· ≤ limit) fuel delta size size = some size := by
  induction fuel generalizing delta with
  | zero =>
    unfold goUp
    rw [if_neg (by omega)]
  | succ fuel ih =>
    unfold goUp
    by_cases positive : 0 < delta
    · simp only [if_pos positive, Nat.mod_eq_of_lt fits]
      have larger : size < size + delta * 1024 * 1024 := by omega
      have half : delta >>> 1 ≤ delta := Nat.shiftRight_le delta 1
      have halved : delta >>> 1 < 2 ^ fuel := by
        rw [Nat.shiftRight_one]
        rw [Nat.pow_succ] at enough
        omega
      have inside : size + delta >>> 1 * 1024 * 1024 < 2 ^ 64 :=
        Nat.lt_of_le_of_lt
          (Nat.add_le_add_left (Nat.mul_le_mul_right _ (Nat.mul_le_mul_right _ half)) _) fits
      rw [if_pos larger, ih inside halved]
    · rw [if_neg positive]

/-- The size that was asked for is taken as it is. -/
theorem memsize_of_large (wanted : 2 ^ m ≤ limit) (least : 20 ≤ m) (most : m ≤ 62)
    (enough : 64 ≤ fuel) : memsize (· ≤ limit) fuel (2 ^ m) = some (2 ^ m) := by
  have least' : 2 ^ 20 ≤ 2 ^ m := Nat.pow_le_pow_right Nat.zero_lt_two least
  have most' : 2 ^ m ≤ 2 ^ 62 := Nat.pow_le_pow_right Nat.zero_lt_two most
  have fuelled : 2 ^ 64 ≤ 2 ^ fuel := Nat.pow_le_pow_right Nat.zero_lt_two enough
  unfold memsize
  simp only [if_neg (show ¬ 2 ^ m < 1024 * 1024 by omega), goDown_of_fits wanted,
    Option.bind_some]
  apply goUp_of_large <;> rw [Nat.shiftRight_eq_div_pow] <;> omega

/-- Otherwise the result is the last of the sums `2 ^ e + 2 ^ (e - 1) + ...` MB before the first
one that cannot be allocated. -/
theorem memsize_of_small (fits : 2 ^ (e + 20) ≤ limit) (next : limit < 2 ^ (e + 21))
    (wanted : e + 20 < m) (most : m ≤ 62) :
    ∃ b ≤ e, (∀ fuel ≥ 64, memsize (· ≤ limit) fuel (2 ^ m) =
        some (2 ^ 20 * (2 ^ (e + 1) - 2 ^ b))) ∧
      2 ^ 20 * (2 ^ (e + 1) - 2 ^ b) ≤ limit ∧
      ∀ c < b, limit < 2 ^ 20 * (2 ^ (e + 1) - 2 ^ c) := by
  have start : 2 ^ (e + 20) = 2 ^ 20 * (2 ^ (e + 1) - 2 ^ e) := by
    rw [Nat.pow_succ 2 e, Nat.pow_add]
    omega
  have least : 2 ^ 20 ≤ 2 ^ m := Nat.pow_le_pow_right Nat.zero_lt_two (by omega)
  have delta : 2 ^ (e + 20) >>> 21 = 2 ^ e >>> 1 := by
    rw [Nat.shiftRight_eq_div_pow, Nat.shiftRight_eq_div_pow, Nat.pow_add]
    omega
  obtain ⟨b, hb, run, last, first⟩ :=
    goUp_spec (le_refl e) (show e < 43 by omega) (start ▸ fits)
  refine ⟨b, hb, fun fuel enough => ?_, last, first⟩
  unfold memsize
  simp only [if_neg (show ¬ 2 ^ m < 1024 * 1024 by omega),
    goDown_spec fits next wanted (show m ≤ e + 20 + fuel by omega), Option.bind_some, delta]
  rw [start]
  exact run fuel (by omega)

/-- The amounts of memory that such a sum is exact for. -/
theorem near_iff {b : ℕ} (fits : 2 ^ (e + 20) ≤ limit) (next : limit < 2 ^ (e + 21)) (hb : b ≤ e)
    (last : 2 ^ 20 * (2 ^ (e + 1) - 2 ^ b) ≤ limit)
    (first : ∀ c < b, limit < 2 ^ 20 * (2 ^ (e + 1) - 2 ^ c)) :
    limit - 2 ^ 20 * (2 ^ (e + 1) - 2 ^ b) < 2 ^ 20 ↔
      ∃ a b, b < a ∧ limit / 2 ^ 20 = 2 ^ a - 2 ^ b := by
  constructor
  · intro near
    exact ⟨e + 1, b, by omega, by omega⟩
  · rintro ⟨a, c, hc, same⟩
    have half : 2 ^ c ≤ 2 ^ (a - 1) := Nat.pow_le_pow_right Nat.zero_lt_two (by omega)
    have double : 2 ^ a = 2 * 2 ^ (a - 1) := by
      rw [← Nat.pow_succ']; congr 1; omega
    rw [Nat.pow_add] at fits next
    -- both have the same leading bit
    obtain rfl : a = e + 1 := by
      have lower : 2 ^ (a - 1) < 2 ^ (e + 1) := by rw [Nat.pow_succ]; omega
      have upper : 2 ^ e < 2 ^ a := by
        have positive : 0 < 2 ^ c := Nat.pow_pos Nat.zero_lt_two
        omega
      have := (Nat.pow_lt_pow_iff_right Nat.one_lt_two).mp lower
      have := (Nat.pow_lt_pow_iff_right Nat.one_lt_two).mp upper
      omega
    have later : b ≤ c := by
      refine Nat.le_of_not_lt fun earlier => ?_
      have := first c earlier
      omega
    have smaller : 2 ^ b ≤ 2 ^ c := Nat.pow_le_pow_right Nat.zero_lt_two later
    omega

/-- With less than what is wanted, the result is exact to one MB only if the bits of the number of
MBs are ones and then zeros. -/
theorem findsMemory_iff (limit m : ℕ) (some_memory : 2 ^ 20 ≤ limit) (least : 20 ≤ m)
    (most : m ≤ 62) :
    FindsMemory limit (2 ^ m) ↔
      2 ^ m ≤ limit ∨ ∃ a b, b < a ∧ limit / 2 ^ 20 = 2 ^ a - 2 ^ b := by
  by_cases wanted : 2 ^ m ≤ limit
  · refine iff_of_true ⟨2 ^ m, fun fuel enough => memsize_of_large wanted least most enough,
      wanted, le_refl _, ?_⟩ (Or.inl wanted)
    rw [Nat.min_eq_right wanted, Nat.sub_self]
    exact Nat.pow_pos Nat.zero_lt_two
  · obtain ⟨e, he⟩ : ∃ e, Nat.log 2 limit = e + 20 :=
      ⟨Nat.log 2 limit - 20, by
        have := Nat.le_log_of_pow_le Nat.one_lt_two some_memory
        omega⟩
    have fits : 2 ^ (e + 20) ≤ limit := he ▸ Nat.pow_log_le_self 2 (by omega)
    have next : limit < 2 ^ (e + 21) := by
      have := Nat.lt_pow_succ_log_self Nat.one_lt_two limit
      rwa [he] at this
    have below : e + 20 < m :=
      (Nat.pow_lt_pow_iff_right Nat.one_lt_two).mp
        (Nat.lt_of_le_of_lt fits (Nat.lt_of_not_le wanted))
    obtain ⟨b, hb, run, last, first⟩ := memsize_of_small fits next below most
    have smaller : limit < 2 ^ m := Nat.lt_of_not_le wanted
    rw [or_iff_right wanted, ← near_iff fits next hb last first]
    constructor
    · rintro ⟨r, ran, -, -, near⟩
      obtain rfl : 2 ^ 20 * (2 ^ (e + 1) - 2 ^ b) = r :=
        Option.some.inj ((run 64 (le_refl _)).symm.trans (ran 64 (le_refl _)))
      rwa [Nat.min_eq_left (Nat.le_of_lt smaller)] at near
    · intro near
      refine ⟨_, run, last, Nat.le_trans last (Nat.le_of_lt smaller), ?_⟩
      rwa [Nat.min_eq_left (Nat.le_of_lt smaller)]

/-- 768 MB are found. -/
theorem findsMemory_threeQuarters : FindsMemory (768 * 2 ^ 20) (2 ^ 30) :=
  (findsMemory_iff (768 * 2 ^ 20) 30 (by decide) (by decide) (by decide)).mpr
    (Or.inr ⟨10, 8, by decide, by decide⟩)

/-- Of 640 MB only 512 are reported: 768 MB are too much, and 640 are not tried any more. -/
theorem not_findsMemory_fiveEighths : ¬ FindsMemory (640 * 2 ^ 20) (2 ^ 30) := by
  rintro ⟨r, ran, -, -, near⟩
  have run : memsize (· ≤ 640 * 2 ^ 20) 64 (2 ^ 30) = some (512 * 2 ^ 20) := by decide
  obtain rfl : 512 * 2 ^ 20 = r := Option.some.inj (run.symm.trans (ran 64 (le_refl _)))
  exact absurd near (by decide)

end Lmbench.Memsize
