import Lmbench.Lmdd.Norepeat
import Mathlib.Algebra.Group.Nat.Defs
import Mathlib.Algebra.Order.Floor.Ring
import Mathlib.Data.Rat.Floor
import Mathlib.Tactic.Linarith

/-!
# Where `lmdd` seeks at random

With `rand=` each transfer goes to a block of the area behind `start=`; with `end=` to one of
the two ends of that area by turns. The offset drawn is rounded up to the block size, in `uint64`.

Products with what `drand48()` returns are exact.

## Main results

* `offset_eq` - the two modes compute the same sum, modulo the width of `uint64`
* `inArea_iff` - when the block lies in the area
-/

namespace Lmbench.Lmdd.Norepeat

/-- The multiple of `bs` that `ALIGN` is meant for. -/
def roundUp (x bs : ℕ) : ℕ := (x + (bs - 1)) / bs * bs

/-- `x - y` on `uint64`, which wraps. -/
def sub64 (x y : ℕ) : ℕ := (x + 2 ^ 64 - y) % 2 ^ 64

namespace Config

variable (cfg : Config)

/-- What `drand48()` is multiplied with. -/
def scale : ℕ :=
  match cfg.ending with
  | some ending => min ending cfg.rand
  -- `size` is the aligned difference of `Rand` and the block size
  | none => sub64 (align (sub64 cfg.rand cfg.bs) cfg.bs) cfg.bs

/-- The number that the product becomes for the value `d` of `drand48()`. -/
def drawn (d : ℚ) : ℕ := ⌊d * cfg.scale⌋.toNat

/-- `start` in the transfer of number `k`. -/
def base (k : ℕ) : ℕ := cfg.nextStart^[k + 1] 0

/-- Where the transfer of number `k` goes with the value `d` of `drand48()`. -/
def off (k : ℕ) (d : ℚ) : ℕ := cfg.offset (cfg.base k) (cfg.drawn d)

/-- What the sizes have to be: `start=`, `end=` and `rand=` multiples of a block size that is a
power of two, and room for two blocks. -/
structure Sizes : Prop where
  power : ∃ b, cfg.bs = 2 ^ b
  four_le : 4 ≤ cfg.bs
  rand_lt : cfg.rand < 2 ^ 64
  rand_dvd : cfg.bs ∣ cfg.rand
  two_blocks : 2 * cfg.bs ≤ cfg.rand
  start_lt : ∀ start ∈ cfg.start, start < 2 ^ 64
  start_dvd : ∀ start ∈ cfg.start, cfg.bs ∣ start
  ending_dvd : ∀ ending ∈ cfg.ending, cfg.bs ∣ ending
  ending_le : ∀ ending ∈ cfg.ending, cfg.bs ≤ ending ∧ ending ≤ cfg.rand

/-- The block at `off` lies in the area, or in one of its ends. -/
def InArea (off : ℕ) : Prop :=
  let first := cfg.start.getD 0
  match cfg.ending with
  | some ending =>
    first ≤ off ∧ off + cfg.bs ≤ first + ending ∨
      first + (cfg.rand - ending) ≤ off ∧ off + cfg.bs ≤ first + cfg.rand
  | none => first ≤ off ∧ off + cfg.bs ≤ first + cfg.rand

/-- The draw leaves room for a block before the limit, or the block behind the first end belongs
to the last. And the offset is none of those that `uint64` cannot hold. -/
def Keeps (k draw : ℕ) : Prop :=
  cfg.start.getD 0 + cfg.base k + draw + cfg.bs ≤ 2 ^ 64 ∧
    ∀ ending ∈ cfg.ending, draw + cfg.bs ≤ ending ∨
      k % 2 = 1 ∧ cfg.rand ≤ 2 * ending ∧ ending + cfg.bs ≤ cfg.rand

end Config

/-! ### Rounding up -/

theorem roundUp_dvd (x bs : ℕ) : bs ∣ roundUp x bs := Nat.dvd_mul_left bs _

theorem le_roundUp {bs : ℕ} (positive : 0 < bs) (x : ℕ) : x ≤ roundUp x bs := by
  have split := Nat.div_add_mod (x + (bs - 1)) bs
  have small := Nat.mod_lt (x + (bs - 1)) positive
  rw [roundUp, Nat.mul_comm]
  omega

theorem roundUp_le_iff {bs limit : ℕ} (positive : 0 < bs) (divides : bs ∣ limit) (x : ℕ) :
    roundUp x bs ≤ limit ↔ x ≤ limit := by
  refine ⟨(le_roundUp positive x).trans, fun within => ?_⟩
  obtain ⟨k, rfl⟩ := divides
  have quotient : (x + (bs - 1)) / bs < k + 1 := by
    rw [Nat.div_lt_iff_lt_mul positive, Nat.add_mul, Nat.mul_comm k, Nat.one_mul]
    omega
  rw [roundUp, Nat.mul_comm]
  exact Nat.mul_le_mul_left bs (by omega)

theorem roundUp_add {bs y : ℕ} (positive : 0 < bs) (divides : bs ∣ y) (x : ℕ) :
    roundUp (x + y) bs = roundUp x bs + y := by
  obtain ⟨k, rfl⟩ := divides
  rw [roundUp, roundUp, Nat.add_right_comm, Nat.add_mul_div_left _ _ positive, Nat.add_mul,
    Nat.mul_comm k]

theorem roundUp_eq_self {bs x : ℕ} (positive : 0 < bs) (divides : bs ∣ x) : roundUp x bs = x :=
  le_antisymm ((roundUp_le_iff positive divides x).mpr le_rfl) (le_roundUp positive x)

/-- The mask clears the bits below the block size. -/
theorem and_mask {y b : ℕ} (small : y < 2 ^ 64) (narrow : b ≤ 64) :
    y &&& (2 ^ 64 - 2 ^ b) = y / 2 ^ b * 2 ^ b := by
  have mask : 2 ^ 64 - 2 ^ b = (2 ^ (64 - b) - 1) <<< b := by
    rw [Nat.shiftLeft_eq, Nat.sub_mul, Nat.one_mul, ← Nat.pow_add, Nat.sub_add_cancel narrow]
  rw [mask, ← Nat.shiftRight_eq_div_pow, ← Nat.shiftLeft_eq]
  refine Nat.eq_of_testBit_eq fun i => ?_
  simp only [Nat.testBit_and, Nat.testBit_shiftLeft, Nat.testBit_two_pow_sub_one,
    Nat.testBit_shiftRight]
  by_cases high : b ≤ i
  · by_cases wide : i < 64
    · simp [high, Nat.add_sub_of_le high, show i - b < 64 - b by omega]
    · have clear : y.testBit i = false :=
        Nat.testBit_lt_two_pow (small.trans_le (Nat.pow_le_pow_right (by decide) (by omega)))
      simp [high, Nat.add_sub_of_le high, clear]
  · simp [high]

/-- `ALIGN` rounds up, modulo the width of `uint64`. -/
theorem align_eq {b : ℕ} (narrow : b ≤ 64) (x : ℕ) :
    align x (2 ^ b) = roundUp x (2 ^ b) % 2 ^ 64 := by
  obtain ⟨k, whole⟩ : 2 ^ b ∣ 2 ^ 64 := Nat.pow_dvd_pow 2 narrow
  rw [align, and_mask (Nat.mod_lt _ (by decide)) narrow, roundUp, whole, Nat.mod_mul_right_div_self,
    Nat.mul_comm (2 ^ b) k, Nat.mul_mod_mul_right]

theorem align_mod {b : ℕ} (narrow : b ≤ 64) (x : ℕ) :
    align (x % 2 ^ 64) (2 ^ b) = roundUp x (2 ^ b) % 2 ^ 64 := by
  rw [← align_eq narrow x, align, align, Nat.mod_add_mod]

/-! ### Offsets -/

namespace Config

variable {cfg : Config} {k x : ℕ} {d : ℚ}

theorem Sizes.positive (sizes : cfg.Sizes) : 0 < cfg.bs := by
  have := sizes.four_le
  omega

theorem Sizes.narrow (sizes : cfg.Sizes) : ∃ b ≤ 64, cfg.bs = 2 ^ b := by
  obtain ⟨b, power⟩ := sizes.power
  have within : 2 ^ b < 2 ^ 64 := by
    have := sizes.rand_lt
    have := sizes.two_blocks
    omega
  exact ⟨b, ((Nat.pow_lt_pow_iff_right (by decide)).mp within).le, power⟩

theorem Sizes.width_dvd (sizes : cfg.Sizes) : cfg.bs ∣ 2 ^ 64 := by
  obtain ⟨b, narrow, power⟩ := sizes.narrow
  exact power ▸ Nat.pow_dvd_pow 2 narrow

theorem Sizes.first_dvd (sizes : cfg.Sizes) : cfg.bs ∣ cfg.start.getD 0 := by
  cases given : cfg.start with
  | none => exact dvd_zero _
  | some start => exact sizes.start_dvd start given

theorem Sizes.first_lt (sizes : cfg.Sizes) : cfg.start.getD 0 < 2 ^ 64 := by
  cases given : cfg.start with
  | none => decide
  | some start => exact sizes.start_lt start given

/-- **The sum of the two modes.** -/
theorem offset_eq (sizes : cfg.Sizes) (start x : ℕ) (absent : cfg.ending = none → start = 0) :
    cfg.offset start x = (cfg.start.getD 0 + start + roundUp x cfg.bs) % 2 ^ 64 := by
  obtain ⟨b, narrow, power⟩ := sizes.narrow
  rw [offset]
  cases ending : cfg.ending with
  | some ending =>
    simp only
    rw [power, align_eq narrow, Nat.add_assoc, Nat.mod_add_mod]
    congr 1
    omega
  | none =>
    simp only
    rw [power, align_mod narrow, ← power, roundUp_add sizes.positive sizes.first_dvd, absent ending,
      Nat.add_zero, Nat.add_comm]

theorem base_of_absent (absent : cfg.ending = none) (k : ℕ) : cfg.base k = 0 := by
  have stays : cfg.nextStart = id := by
    funext start
    rw [nextStart, absent]
    rfl
  rw [base, stays, Function.iterate_id]
  rfl

/-- The two ends by turns, the last one first. -/
theorem base_of_ending (sizes : cfg.Sizes) {ending : ℕ} (given : cfg.ending = some ending) (k : ℕ) :
    cfg.base k = if k % 2 = 0 then cfg.rand - ending else 0 := by
  have next (start : ℕ) : cfg.nextStart start = if start = 0 then cfg.rand - ending else 0 := by
    rw [nextStart, given]
    simp only
    rw [Nat.min_eq_left (sizes.ending_le ending given).2]
  induction k with
  | zero => exact next 0
  | succ k ih =>
    have step : cfg.base (k + 1) = cfg.nextStart (cfg.base k) := Function.iterate_succ_apply' _ _ _
    rw [step, next, ih]
    split_ifs <;> omega

theorem scale_of_ending (sizes : cfg.Sizes) {ending : ℕ} (given : cfg.ending = some ending) :
    cfg.scale = ending := by
  rw [scale, given]
  exact Nat.min_eq_left (sizes.ending_le ending given).2

/-- Without an end the last block is left out. -/
theorem scale_of_absent (sizes : cfg.Sizes) (absent : cfg.ending = none) :
    cfg.scale = cfg.rand - 2 * cfg.bs := by
  have := sizes.rand_lt
  have := sizes.two_blocks
  obtain ⟨b, narrow, power⟩ := sizes.narrow
  have first : sub64 cfg.rand cfg.bs = cfg.rand - cfg.bs := by
    rw [sub64]
    omega
  have aligned : align (cfg.rand - cfg.bs) cfg.bs = cfg.rand - cfg.bs := by
    have divides : cfg.bs ∣ cfg.rand - cfg.bs := Nat.dvd_sub sizes.rand_dvd dvd_rfl
    rw [power, align_eq narrow, ← power, roundUp_eq_self sizes.positive divides,
      Nat.mod_eq_of_lt (by omega)]
  rw [scale, absent]
  simp only
  rw [first, aligned, sub64]
  omega

theorem drawn_le (nonneg : 0 ≤ d) (below : d < 1) : cfg.drawn d ≤ cfg.scale := by
  have product : 0 ≤ ⌊d * cfg.scale⌋ := Int.floor_nonneg.mpr (by positivity)
  have most : d * cfg.scale ≤ cfg.scale := mul_le_of_le_one_left (by positivity) below.le
  have : ⌊d * cfg.scale⌋ ≤ (cfg.scale : ℤ) := Int.floor_le_iff.mpr (by push_cast; linarith)
  rw [drawn]
  omega

theorem scale_dvd (sizes : cfg.Sizes) : cfg.bs ∣ cfg.scale := by
  cases ending : cfg.ending with
  | some ending' =>
    rw [scale_of_ending sizes ending]
    exact sizes.ending_dvd ending' ending
  | none =>
    rw [scale_of_absent sizes ending]
    exact Nat.dvd_sub sizes.rand_dvd (Nat.dvd_mul_left _ _)

theorem base_dvd (sizes : cfg.Sizes) (k : ℕ) : cfg.bs ∣ cfg.base k := by
  cases ending : cfg.ending with
  | some ending' =>
    rw [base_of_ending sizes ending]
    split
    · exact Nat.dvd_sub sizes.rand_dvd (sizes.ending_dvd ending' ending)
    · exact dvd_zero _
  | none =>
    rw [base_of_absent ending]
    exact dvd_zero _

/-- The end point and the range of the draws fit into `Rand`. -/
theorem base_add_scale_le (sizes : cfg.Sizes) (k : ℕ) : cfg.base k + cfg.scale ≤ cfg.rand := by
  cases ending : cfg.ending with
  | some ending' =>
    have := (sizes.ending_le ending' ending).2
    rw [base_of_ending sizes ending, scale_of_ending sizes ending]
    split <;> omega
  | none =>
    rw [base_of_absent ending, scale_of_absent sizes ending]
    omega

section Off

variable (sizes : cfg.Sizes) (k : ℕ) (within : cfg.drawn d ≤ cfg.scale)
include sizes

theorem off_eq (d : ℚ) : cfg.off k d =
    (cfg.start.getD 0 + cfg.base k + roundUp (cfg.drawn d) cfg.bs) % 2 ^ 64 :=
  offset_eq sizes _ _ fun absent => base_of_absent absent k

theorem off_of_fits (fits : cfg.start.getD 0 + cfg.base k + cfg.drawn d + cfg.bs ≤ 2 ^ 64) :
    cfg.off k d = cfg.start.getD 0 + cfg.base k + roundUp (cfg.drawn d) cfg.bs := by
  have divides : cfg.bs ∣ 2 ^ 64 - (cfg.start.getD 0 + cfg.base k) - cfg.bs :=
    Nat.dvd_sub (Nat.dvd_sub sizes.width_dvd (dvd_add sizes.first_dvd (base_dvd sizes k))) dvd_rfl
  have rounded := (roundUp_le_iff sizes.positive divides (cfg.drawn d)).mpr (by omega)
  have := sizes.positive
  rw [off_eq sizes, Nat.mod_eq_of_lt (by omega)]

include within

theorem roundUp_drawn_le : roundUp (cfg.drawn d) cfg.bs ≤ cfg.scale :=
  (roundUp_le_iff sizes.positive (scale_dvd sizes) _).mpr within

/-- An offset that does not fit ends in front of the area. -/
theorem off_of_wraps (wraps : ¬cfg.start.getD 0 + cfg.base k + cfg.drawn d + cfg.bs ≤ 2 ^ 64) :
    cfg.off k d < cfg.start.getD 0 := by
  have rounded := roundUp_drawn_le sizes within
  have above := le_roundUp sizes.positive (cfg.drawn d)
  have fits := base_add_scale_le sizes k
  have := sizes.first_lt
  have := sizes.rand_lt
  -- between two multiples of the block size there is a block
  have reached : 2 ^ 64 ≤ cfg.start.getD 0 + cfg.base k + roundUp (cfg.drawn d) cfg.bs :=
    Nat.le_of_lt_add_of_dvd (by omega) sizes.width_dvd
      (dvd_add (dvd_add sizes.first_dvd (base_dvd sizes k)) (roundUp_dvd _ _))
  rw [off_eq sizes]
  omega

end Off

section Fits

variable (sizes : cfg.Sizes) (k : ℕ) (within : cfg.drawn d ≤ cfg.scale)
  (fits : cfg.start.getD 0 + cfg.base k + cfg.drawn d + cfg.bs ≤ 2 ^ 64)
include sizes within fits

/-- Without an end the area is not left: its last block is never drawn. -/
theorem inArea_of_absent (absent : cfg.ending = none) : cfg.InArea (cfg.off k d) := by
  have rounded := roundUp_drawn_le sizes within
  have := sizes.two_blocks
  rw [scale_of_absent sizes absent] at rounded
  rw [off_of_fits sizes k fits, base_of_absent absent, InArea, absent]
  exact ⟨by omega, by omega⟩

theorem inArea_iff_of_ending {ending : ℕ} (given : cfg.ending = some ending) :
    cfg.InArea (cfg.off k d) ↔ cfg.drawn d + cfg.bs ≤ ending ∨
      k % 2 = 1 ∧ cfg.rand ≤ 2 * ending ∧ ending + cfg.bs ≤ cfg.rand := by
  have rounded := roundUp_drawn_le sizes within
  have positive := sizes.positive
  obtain ⟨least, most⟩ := sizes.ending_le ending given
  have divides := sizes.ending_dvd ending given
  have room : roundUp (cfg.drawn d) cfg.bs + cfg.bs ≤ ending ↔ cfg.drawn d + cfg.bs ≤ ending := by
    rw [← Nat.le_sub_iff_add_le least, ← Nat.le_sub_iff_add_le least]
    exact roundUp_le_iff positive (Nat.dvd_sub divides dvd_rfl) _
  -- a block for which there is no room begins at the end
  have full : ¬roundUp (cfg.drawn d) cfg.bs + cfg.bs ≤ ending →
      roundUp (cfg.drawn d) cfg.bs = ending := fun none => by
    rw [scale_of_ending sizes given] at rounded
    exact le_antisymm rounded (Nat.le_of_lt_add_of_dvd (by omega) divides (roundUp_dvd _ _))
  rw [off_of_fits sizes k fits, base_of_ending sizes given, InArea, given, ← room]
  generalize roundUp (cfg.drawn d) cfg.bs = up at full ⊢
  simp only
  rcases Nat.mod_two_eq_zero_or_one k with even | odd
  · rw [if_pos even]
    omega
  · rw [if_neg (by omega), and_iff_right odd]
    by_cases free : up + cfg.bs ≤ ending
    · exact iff_of_true (.inl ⟨by omega, by omega⟩) (.inl free)
    · obtain rfl := full free
      omega

end Fits

theorem InArea.first_le {off : ℕ} (inside : cfg.InArea off) : cfg.start.getD 0 ≤ off := by
  rw [InArea] at inside
  cases ending : cfg.ending with
  | none =>
    rw [ending] at inside
    exact inside.1
  | some ending' =>
    rw [ending] at inside
    simp only at inside
    omega

/-- **When the block lies in its area.** For every transfer and every value of `drand48()`: if
and only if the offset fits, and the draw leaves room for a block before `end=` or the block
behind the first end belongs to the last; without `end=` the draw always does. -/
theorem inArea_iff (sizes : cfg.Sizes) (k : ℕ) (nonneg : 0 ≤ d) (below : d < 1) :
    cfg.InArea (cfg.off k d) ↔ cfg.Keeps k (cfg.drawn d) := by
  have within : cfg.drawn d ≤ cfg.scale := drawn_le nonneg below
  rw [Keeps]
  by_cases fits : cfg.start.getD 0 + cfg.base k + cfg.drawn d + cfg.bs ≤ 2 ^ 64
  · rw [and_iff_right fits]
    cases ending : cfg.ending with
    | none =>
      simp only [Option.mem_def, reduceCtorEq, false_imp_iff, implies_true]
      exact iff_true_intro (inArea_of_absent sizes k within fits ending)
    | some ending' =>
      simp only [Option.mem_def, Option.some.injEq, forall_eq']
      exact inArea_iff_of_ending sizes k within fits ending
  · have before := off_of_wraps sizes k within fits
    exact iff_of_false (fun inside => (inside.first_le.trans_lt before).false) fun keeps =>
      fits keeps.1

/-- `lmdd rand=64k bs=8k end=8k`. -/
def smallEnds : Config := ⟨8192, none, 65536, some 8192, none⟩

theorem smallEnds_sizes : smallEnds.Sizes := by
  refine ⟨⟨13, rfl⟩, by decide, by decide, by decide, by decide, ?_, ?_, ?_, ?_⟩ <;>
    simp [smallEnds]

theorem inArea_smallEnds :
    smallEnds.InArea (smallEnds.off 0 0) ∧ ¬smallEnds.InArea (smallEnds.off 0 (1 / 2)) := by
  have scale : smallEnds.scale = 8192 := rfl
  constructor
  · refine (inArea_iff smallEnds_sizes 0 le_rfl (by norm_num)).mpr ?_
    have drawn : smallEnds.drawn 0 = 0 := by
      rw [Config.drawn, zero_mul]
      rfl
    rw [drawn]
    refine ⟨by decide +kernel, fun ending given => .inl ?_⟩
    obtain rfl := Option.some.inj given
    decide
  · refine (inArea_iff smallEnds_sizes 0 (by norm_num) (by norm_num)).not.mpr ?_
    have drawn : smallEnds.drawn (1 / 2) = 4096 := by
      rw [Config.drawn, scale]
      norm_num
      rfl
    rw [drawn]
    exact fun keeps => absurd (keeps.2 8192 rfl) (by decide)

/-- **The slip.** Half of the end is rounded up to all of it, and the block is behind `Rand`. -/
theorem not_inArea :
    ¬∀ (cfg : Config) (k : ℕ) (d : ℚ), cfg.Sizes → 0 ≤ d → d < 1 → cfg.InArea (cfg.off k d) := by
  intro always
  have inside := always smallEnds 0 (1 / 2) smallEnds_sizes (by norm_num) (by norm_num)
  have scale : smallEnds.scale = 8192 := rfl
  have drawn : smallEnds.drawn (1 / 2) = 4096 := by
    rw [Config.drawn, scale]
    norm_num
    rfl
  have off : smallEnds.off 0 (1 / 2) = 65536 := by
    rw [Config.off, drawn]
    decide +kernel
  rw [off, InArea] at inside
  simp [smallEnds] at inside

end Config

end Lmbench.Lmdd.Norepeat
