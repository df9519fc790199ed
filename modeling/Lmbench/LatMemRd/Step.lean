import Lmbench.Lib.Sweep
import Lmbench.Machine
import Mathlib.Algebra.Group.Nat.Defs

/-!
# The ranges of `lat_mem_rd`

`lat_mem_rd` measures ranges of memory from 512 bytes up to a length in megabytes.
`step` doubles a small range, adds a kilobyte to a larger one, and from four kilobytes
on adds half of the power of two in or below the range, which it finds by doubling
until it is beyond the range. From half of what a `size_t` holds on no power of two is:
the doubling wraps to zero and goes on for ever.

## Main results

* `step_eq` - the next range, below half of `size_t`
* `step_of_half` - there is none from there on
* `sweep_iff` - the sweep ends and meets every power of two if and only if the length is less
  than that half
-/

namespace Lmbench.LatMemRd

open Lib

section Model

variable (dm : DataModel)

/-- `LOWER`. -/
def lower : ℕ := 512

/-- `for (s = 4 * 1024; s <= k; s *= 2);`, from `s` on. None if `fuel` is used up. -/
def findIncrement (k : ℕ) : ℕ → ℕ → Option ℕ
  | 0, _ => none
  | fuel + 1, s => if s ≤ k then findIncrement k fuel (s * 2 % dm.sizeSpan) else some s

/-- `step(k)`. -/
def step (fuel k : ℕ) : Option ℕ :=
  if k < 1024 then some (k * 2 % dm.sizeSpan)
  else if k < 4 * 1024 then some ((k + 1024) % dm.sizeSpan)
  else do
    let s ← findIncrement dm k fuel (4 * 1024)
    return (k + s / 4) % dm.sizeSpan

/-- `len`, from the number that `atoi` reads. -/
def len (megabytes : ℤ) : ℕ := dm.intToSize megabytes * (1024 * 1024) % dm.sizeSpan

/-- The ranges of `for (range = LOWER; range <= len; range = step(range))`. -/
def ranges (fuel len : ℕ) : Option (List ℕ) := sweep (step dm fuel) len fuel lower

/-- The sweep ends, with ranges that increase and have the powers of two among them. -/
def Sweeps (len : ℕ) : Prop :=
  ∃ fuel l, ranges dm fuel len = some l ∧ l.Pairwise (· < ·) ∧
    ∀ j, 512 ≤ 2 ^ j → 2 ^ j ≤ len → 2 ^ j ∈ l

end Model

/-! ### The doubling -/

section Doubling

variable {dm : DataModel} {fuel k e i : ℕ}

theorem sizeSpan_eq (dm : DataModel) : dm.sizeSpan = 2 ^ (8 * dm.sizeofSizeT) := rfl

/-- Doubling a power of two below the last does not wrap. -/
theorem double_mod (room : i + 1 < 8 * dm.sizeofSizeT) :
    2 ^ i * 2 % dm.sizeSpan = 2 ^ (i + 1) := by
  rw [← Nat.pow_succ, sizeSpan_eq]
  exact Nat.mod_eq_of_lt (Nat.pow_lt_pow_right (by decide) room)

/-- **The power of two beyond the range**, below half of `size_t`: it is found with one pass for
each doubling. -/
theorem findIncrement_eq (low : 2 ^ e ≤ k) (high : k < 2 ^ (e + 1))
    (room : e + 1 < 8 * dm.sizeofSizeT) (start : i ≤ e + 1) :
    findIncrement dm k fuel (2 ^ i) = if e + 1 - i < fuel then some (2 ^ (e + 1)) else none := by
  induction fuel generalizing i with
  | zero => exact (if_neg (Nat.not_lt_zero _)).symm
  | succ fuel ih =>
    rw [findIncrement]
    rcases Nat.lt_or_eq_of_le start with below | rfl
    · have inside : 2 ^ i ≤ k := by
        have power : 2 ^ i ≤ 2 ^ e := Nat.pow_le_pow_right (by decide) (by omega)
        omega
      have fewer : e + 1 - (i + 1) < fuel ↔ e + 1 - i < fuel + 1 := by omega
      rw [if_pos inside, double_mod (by omega), ih below]
      simp only [fewer]
    · rw [if_neg (Nat.not_le.mpr high), if_pos (by omega)]

/-- **Without one the doubling does not end**: it wraps to zero. -/
theorem findIncrement_of_half (half : 2 ^ (8 * dm.sizeofSizeT - 1) ≤ k) {s : ℕ}
    (start : s = 0 ∨ ∃ i < 8 * dm.sizeofSizeT, s = 2 ^ i) :
    findIncrement dm k fuel s = none := by
  induction fuel generalizing s with
  | zero => rfl
  | succ fuel ih =>
    rw [findIncrement]
    rcases start with rfl | ⟨i, below, rfl⟩
    · -- zero is doubled for ever
      rw [if_pos (Nat.zero_le k), Nat.zero_mul, Nat.zero_mod]
      exact ih (Or.inl rfl)
    · have inside : 2 ^ i ≤ k := by
        have power : 2 ^ i ≤ 2 ^ (8 * dm.sizeofSizeT - 1) :=
          Nat.pow_le_pow_right (by decide) (by omega)
        omega
      rw [if_pos inside]
      rcases Nat.lt_or_eq_of_le (Nat.succ_le_of_lt below) with more | last
      · rw [double_mod more]
        exact ih (Or.inr ⟨i + 1, more, rfl⟩)
      · rw [← Nat.pow_succ, sizeSpan_eq, last, Nat.mod_self]
        exact ih (Or.inl rfl)

end Doubling

/-! ### One step -/

section Step

variable {dm : DataModel} {fuel k n j z : ℕ}

theorem width_le (dm : DataModel) : 32 ≤ 8 * dm.sizeofSizeT := by
  have wide := dm.four_le_int.trans dm.int_le_sizeT
  omega

theorem two_pow_le_sizeSpan (dm : DataModel) : 2 ^ 32 ≤ dm.sizeSpan :=
  Nat.pow_le_pow_right (by decide) (width_le dm)

/-- Half of what a `size_t` holds is a power of two. -/
theorem two_mul_half (dm : DataModel) : 2 * 2 ^ (8 * dm.sizeofSizeT - 1) = dm.sizeSpan := by
  have wide := width_le dm
  rw [Nat.mul_comm, ← Nat.pow_succ, sizeSpan_eq]
  congr 1
  omega

/-- **The next range**: half of its power of two is added, if there is fuel. -/
theorem step_eq (large : 10 ≤ n) (low : 2 ^ (n + 1) ≤ k) (high : k < 2 ^ (n + 2))
    (room : n + 2 < 8 * dm.sizeofSizeT) :
    step dm fuel k = some (k + 2 ^ n) ∨ step dm fuel k = none ∧ fuel ≤ n := by
  have fits : k + 2 ^ n < dm.sizeSpan := by
    have power : 2 ^ (n + 3) ≤ dm.sizeSpan := Nat.pow_le_pow_right (by decide) room
    have double : 2 ^ (n + 1) = 2 * 2 ^ n := Nat.pow_succ'
    have again : 2 ^ (n + 2) = 2 * 2 ^ (n + 1) := Nat.pow_succ'
    have last : 2 ^ (n + 3) = 2 * 2 ^ (n + 2) := Nat.pow_succ'
    omega
  have small : 2 ^ 11 ≤ 2 ^ (n + 1) := Nat.pow_le_pow_right (by decide) (by omega)
  rcases Nat.eq_or_lt_of_le large with rfl | larger
  · -- two kilobytes are below the limit of the fixed increment, which is half of them
    left
    rw [step, if_neg (by omega), if_pos (by omega)]
    exact congrArg some (Nat.mod_eq_of_lt fits)
  · have page : 2 ^ 12 ≤ 2 ^ (n + 1) := Nat.pow_le_pow_right (by decide) (by omega)
    have quarter : 2 ^ (n + 2) / 4 = 2 ^ n := by
      rw [Nat.pow_add]
      exact Nat.mul_div_cancel _ (by decide)
    have found : findIncrement dm k fuel (4 * 1024) =
        if n + 2 - 12 < fuel then some (2 ^ (n + 2)) else none :=
      @findIncrement_eq dm fuel k (n + 1) 12 low high room (by omega)
    rw [step, if_neg (by omega), if_neg (by omega), found]
    by_cases enough : n + 2 - 12 < fuel
    · left
      rw [if_pos enough, Option.bind_eq_bind, Option.bind_some, quarter, Nat.mod_eq_of_lt fits]
      rfl
    · right
      rw [if_neg enough]
      exact ⟨rfl, by omega⟩

/-- **No range follows one in the upper half** of `size_t`. -/
theorem step_of_half (half : dm.sizeSpan ≤ 2 * k) : step dm fuel k = none := by
  have wide := width_le dm
  have span := two_pow_le_sizeSpan dm
  have power := two_mul_half dm
  have lost : findIncrement dm k fuel (2 ^ 12) = none :=
    findIncrement_of_half (by omega) (Or.inr ⟨12, by omega, rfl⟩)
  rw [step, if_neg (by omega), if_neg (by omega)]
  change (findIncrement dm k fuel (2 ^ 12)).bind _ = none
  rw [lost]
  rfl

theorem step_of_lt (small : k < 1024) : step dm fuel k = some (2 * k) := by
  have span := two_pow_le_sizeSpan dm
  rw [step, if_pos small, Nat.mul_comm, Nat.mod_eq_of_lt (by omega)]

theorem step_of_kilobyte (low : 1024 ≤ k) (high : k < 4096) :
    step dm fuel k = some (k + 1024) := by
  have span := two_pow_le_sizeSpan dm
  rw [step, if_neg (by omega), if_pos (by omega), Nat.mod_eq_of_lt (by omega)]

/-- A range of two kilobytes or more lies between powers of two. -/
theorem exists_bits (low : 2048 ≤ k) : ∃ n, 10 ≤ n ∧ 2 ^ (n + 1) ≤ k ∧ k < 2 ^ (n + 2) := by
  have nonzero : k ≠ 0 := by omega
  have bits : 11 ≤ k.log2 := (Nat.le_log2 nonzero).mpr low
  obtain ⟨n, log⟩ : ∃ n, k.log2 = n + 1 := ⟨k.log2 - 1, by omega⟩
  have below := Nat.log2_self_le nonzero
  have above : k < 2 ^ (k.log2 + 1) := Nat.lt_log2_self
  rw [log] at below above
  exact ⟨n, by omega, below, above⟩

/-- **Every step below half makes progress.** -/
theorem step_progress (some : lower ≤ k) (half : 2 * k < dm.sizeSpan)
    (enough : 8 * dm.sizeofSizeT ≤ fuel) : ∃ z, step dm fuel k = Option.some z ∧ k < z := by
  have positive : 0 < k := Nat.lt_of_lt_of_le (by decide) some
  rcases Nat.lt_or_ge k 1024 with small | low
  · exact ⟨2 * k, step_of_lt small, by omega⟩
  · rcases Nat.lt_or_ge k 2048 with high | low'
    · exact ⟨k + 1024, step_of_kilobyte low (by omega), by omega⟩
    · obtain ⟨n, large, below, above⟩ := exists_bits low'
      have power : 2 ^ (n + 2) < 2 ^ (8 * dm.sizeofSizeT) := by
        rw [← sizeSpan_eq]
        have double : 2 ^ (n + 2) = 2 * 2 ^ (n + 1) := Nat.pow_succ'
        omega
      have room : n + 2 < 8 * dm.sizeofSizeT := (Nat.pow_lt_pow_iff_right (by decide)).mp power
      rcases step_eq large below above room with moved | ⟨_, short⟩
      · exact ⟨k + 2 ^ n, moved, Nat.lt_add_of_pos_right (Nat.two_pow_pos n)⟩
      · omega

end Step

/-! ### The sweep -/

section Sweep

variable {dm : DataModel} {fuel bound j : ℕ} {l : List ℕ}

/-- From a range of two kilobytes or more the sweep goes on by half of its power of two. -/
theorem add_mem {n k : ℕ} (ends : ranges dm fuel bound = some l) (member : k ∈ l) (large : 10 ≤ n)
    (low : 2 ^ (n + 1) ≤ k) (high : k < 2 ^ (n + 2)) (room : n + 2 < 8 * dm.sizeofSizeT)
    (inside : k + 2 ^ n ≤ bound) : k + 2 ^ n ∈ l := by
  obtain ⟨z, moved, follows⟩ := next_of_mem_sweep ends member
  rcases step_eq large low high room with eq | ⟨none, _⟩
  · obtain rfl := Option.some.inj (eq.symm.trans moved)
    exact follows inside
  · rw [none] at moved
    cases moved

/-- From a power of two the sweep goes on to the next. -/
theorem double_mem (ends : ranges dm fuel bound = some l) (start : 9 ≤ j) (member : 2 ^ j ∈ l)
    (inside : 2 ^ (j + 1) ≤ bound) (room : j + 1 < 8 * dm.sizeofSizeT) : 2 ^ (j + 1) ∈ l := by
  obtain ⟨z, moved, follows⟩ := next_of_mem_sweep ends member
  rcases Nat.eq_or_lt_of_le start with rfl | later
  · -- 512 is doubled
    obtain rfl := Option.some.inj ((step_of_lt (by decide)).symm.trans moved)
    exact follows inside
  · rcases Nat.eq_or_lt_of_le (Nat.succ_le_of_lt later) with rfl | last
    · obtain rfl := Option.some.inj ((step_of_kilobyte (by decide) (by decide)).symm.trans moved)
      exact follows inside
    · -- from two kilobytes on there is one range in between
      obtain ⟨n, rfl⟩ : ∃ n, j = n + 1 := ⟨j - 1, by omega⟩
      have half : 2 ^ (n + 1) = 2 ^ n + 2 ^ n := Nat.two_pow_succ n
      have whole : 2 ^ (n + 2) = 2 ^ (n + 1) + 2 ^ n + 2 ^ n := by
        rw [Nat.add_assoc, ← half]
        exact Nat.two_pow_succ (n + 1)
      have positive := Nat.two_pow_pos n
      change 2 ^ (n + 2) ≤ bound at inside
      change 2 ^ (n + 2) ∈ l
      rw [whole] at inside ⊢
      have between : 2 ^ (n + 1) + 2 ^ n ∈ l :=
        add_mem ends member (by omega) (Nat.le_refl _) (by omega) room (by omega)
      exact add_mem ends between (by omega) (Nat.le_add_right _ _) (by omega) room inside

/-- **A sweep that ends has every power of two** up to its bound. -/
theorem two_pow_mem (ends : ranges dm fuel bound = some l) (fits : bound < dm.sizeSpan)
    (start : 9 ≤ j) (inside : 2 ^ j ≤ bound) : 2 ^ j ∈ l := by
  induction j, start using Nat.le_induction with
  | base => exact mem_of_sweep ends inside
  | succ j start ih =>
    have power : 2 ^ (j + 1) < 2 ^ (8 * dm.sizeofSizeT) := Nat.lt_of_le_of_lt inside fits
    have before : 2 ^ j ≤ bound := (Nat.pow_le_pow_right (by decide) (Nat.le_succ j)).trans inside
    exact double_mem ends start (ih before) inside
      ((Nat.pow_lt_pow_iff_right (by decide)).mp power)

/-- **From half of `size_t` on the sweep does not end**: the last power of two has no next
range. -/
theorem ranges_of_half (half : dm.sizeSpan ≤ 2 * bound) (fits : bound < dm.sizeSpan) :
    ranges dm fuel bound = none := by
  have power := two_mul_half dm
  have wide := width_le dm
  refine Option.eq_none_iff_forall_not_mem.mpr fun l ends => ?_
  -- a sweep that ended would have computed the next range there
  have member : 2 ^ (8 * dm.sizeofSizeT - 1) ∈ l :=
    two_pow_mem ends fits (by omega) (by omega)
  obtain ⟨z, moved, _⟩ := next_of_mem_sweep ends member
  rw [step_of_half power.ge] at moved
  cases moved

/-- Below half it ends, and increases. -/
theorem exists_ranges (half : 2 * bound < dm.sizeSpan) :
    ∃ fuel l, ranges dm fuel bound = some l ∧ l.Pairwise (· < ·) := by
  have progress : ∀ k, lower ≤ k → k ≤ bound →
      ∃ z, step dm (bound + 8 * dm.sizeofSizeT + 2) k = some z ∧ k < z := fun k some inside =>
    step_progress some (by omega) (by omega)
  obtain ⟨l, ends⟩ := exists_sweep progress (Nat.le_refl lower)
    (show bound + 1 < lower + (bound + 8 * dm.sizeofSizeT + 2) by omega) (by omega)
  refine ⟨_, l, ends, (pairwise_of_sweep (fun k some inside z moved => ?_) (Nat.le_refl lower)
    ends).1⟩
  obtain ⟨z', moved', ahead⟩ := progress k some inside
  obtain rfl := Option.some.inj (moved'.symm.trans moved)
  exact ahead

end Sweep

/-- The length does not wrap where it fits. -/
theorem len_eq {dm : DataModel} {megabytes : ℕ}
    (fits : megabytes * (1024 * 1024) < dm.sizeSpan) :
    len dm megabytes = megabytes * (1024 * 1024) := by
  have small : (megabytes : ℤ) < dm.sizeSpan := by
    have := Nat.le_mul_of_pos_right megabytes (show 0 < 1024 * 1024 by decide)
    omega
  have size : dm.intToSize megabytes = megabytes := by
    rw [DataModel.intToSize, Int.emod_eq_of_lt (Int.natCast_nonneg _) small, Int.toNat_natCast]
  rw [len, size, Nat.mod_eq_of_lt fits]

/-- A 64-bit `size_t` holds twice the length for every `int` of megabytes. -/
theorem two_mul_len_lp64 {megabytes : ℕ} (int : megabytes < 2 ^ 31) :
    2 * len .lp64 megabytes < DataModel.lp64.sizeSpan := by
  have span : DataModel.lp64.sizeSpan = 2 ^ 64 := rfl
  rw [len_eq (by omega)]
  omega

/-- **When the sweep makes progress.** For every length that `main` computes: the sweep ends,
with ranges that increase and every power of two from 512 to the length, if and only if the
length is less than half of what a `size_t` holds. -/
theorem sweep_iff (dm : DataModel) (megabytes : ℤ) :
    Sweeps dm (len dm megabytes) ↔ 2 * len dm megabytes < dm.sizeSpan := by
  have fits : len dm megabytes < dm.sizeSpan :=
    Nat.mod_lt _ (Nat.lt_of_lt_of_le (by decide) (two_pow_le_sizeSpan dm))
  constructor
  · rintro ⟨fuel, l, ends, _⟩
    refine Nat.lt_of_not_le fun half => ?_
    rw [ranges_of_half half fits] at ends
    cases ends
  · intro half
    obtain ⟨fuel, l, ends, increasing⟩ := exists_ranges half
    refine ⟨fuel, l, ends, increasing, fun j start inside => two_pow_mem ends fits ?_ inside⟩
    exact (Nat.pow_le_pow_iff_right (show 1 < 2 by decide)).mp start

/-- Two gigabytes fit in a 32-bit `size_t`. -/
theorem not_sweeps_two_gigabytes : 2048 * (1024 * 1024) < DataModel.ilp32.sizeSpan ∧
    ¬ Sweeps .ilp32 (len .ilp32 2048) := by
  have fits : 2048 * (1024 * 1024) < DataModel.ilp32.sizeSpan := by decide
  refine ⟨fits, fun sweeps => ?_⟩
  obtain ⟨fuel, l, ends, _⟩ := sweeps
  have size : len .ilp32 2048 = 2048 * (1024 * 1024) := @len_eq .ilp32 2048 fits
  rw [size, ranges_of_half (by decide) fits] at ends
  cases ends

end Lmbench.LatMemRd
