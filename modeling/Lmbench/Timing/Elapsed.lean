import Lmbench.Timing.Clock
import Mathlib.Algebra.Group.Int.Defs
import Mathlib.Algebra.Group.Nat.Defs
import Mathlib.Algebra.Order.Group.Int

/-!
# Differences of times

`tvdelta` of `lib_timing.c` is nought if time went backwards. `diff_tv` and `diff_tp` of `TIMES.c`
carry the sign in the seconds: the other field of a difference is never negative.

## Main results

* `tvdelta_eq` - microseconds, but not less than nought
* `diffTv_spec`, `diffTp_spec` - normalised, and the difference with its sign
* `tvsub_eq` - the two algorithms agree until time goes backwards
* `elapsed_spec` - both libraries
-/

namespace Lmbench

/-- `struct timespec`. -/
structure Timespec where
  tvSec : ℤ
  tvNsec : ℤ
deriving DecidableEq, Repr

/-- `diff_tv(&diff, tv_start, tv_end)`. -/
def diffTv (tvStart tvEnd : Timeval) : Timeval :=
  if tvEnd.tvUsec < tvStart.tvUsec then
    ⟨tvEnd.tvSec - tvStart.tvSec - 1, 1000000 - (tvStart.tvUsec - tvEnd.tvUsec)⟩
  else ⟨tvEnd.tvSec - tvStart.tvSec, tvEnd.tvUsec - tvStart.tvUsec⟩

/-- `diff_tp(&diff, tp_start, tp_end)`. -/
def diffTp (tpStart tpEnd : Timespec) : Timespec :=
  if tpEnd.tvNsec < tpStart.tvNsec then
    ⟨tpEnd.tvSec - tpStart.tvSec - 1, 1000000000 - (tpStart.tvNsec - tpEnd.tvNsec)⟩
  else ⟨tpEnd.tvSec - tpStart.tvSec, tpEnd.tvNsec - tpStart.tvNsec⟩

/-- The result of an operation as an `int64_t`. -/
def int64 (x : ℤ) : ℤ := x.bmod (2 ^ 64)

/-- The seconds in units of `scale`, and the units that are in the nanoseconds. -/
def inUnits (scale unit : ℤ) (diff : Timespec) : ℤ :=
  int64 (int64 (diff.tvSec * scale) + diff.tvNsec.tdiv unit)

/-- `diff_tp_ns(tp_start, tp_end)`. -/
def diffTpNs (tpStart tpEnd : Timespec) : ℤ := inUnits 1000000000 1 (diffTp tpStart tpEnd)

/-- `diff_tp_us(tp_start, tp_end)`. -/
def diffTpUs (tpStart tpEnd : Timespec) : ℤ := inUnits 1000000 1000 (diffTp tpStart tpEnd)

/-- `diff_tp_ms(tp_start, tp_end)`. -/
def diffTpMs (tpStart tpEnd : Timespec) : ℤ := inUnits 1000 1000000 (diffTp tpStart tpEnd)

namespace Timeval

/-- Microseconds from 0 to 999999. -/
def Normalised (t : Timeval) : Prop := 0 ≤ t.tvUsec ∧ t.tvUsec < 1000000

instance (t : Timeval) : Decidable t.Normalised := by unfold Normalised; infer_instance

/-- The time in microseconds. -/
def us (t : Timeval) : ℤ := t.tvSec * 1000000 + t.tvUsec

end Timeval

namespace Timespec

/-- Nanoseconds from 0 to 999999999. -/
def Normalised (t : Timespec) : Prop := 0 ≤ t.tvNsec ∧ t.tvNsec < 1000000000

instance (t : Timespec) : Decidable t.Normalised := by unfold Normalised; infer_instance

/-- The time in nanoseconds. -/
def ns (t : Timespec) : ℤ := t.tvSec * 1000000000 + t.tvNsec

end Timespec

variable {a b : Timeval} {s t : Timespec}

/-- A normalised difference, with its sign. -/
theorem diffTv_spec (first : a.Normalised) (last : b.Normalised) :
    (diffTv a b).Normalised ∧ (diffTv a b).us = b.us - a.us := by
  obtain ⟨low, high⟩ := first
  obtain ⟨low', high'⟩ := last
  unfold diffTv Timeval.Normalised Timeval.us
  split_ifs with borrow <;> dsimp only <;> omega

/-- The same for nanoseconds. -/
theorem diffTp_spec (first : s.Normalised) (last : t.Normalised) :
    (diffTp s t).Normalised ∧ (diffTp s t).ns = t.ns - s.ns := by
  obtain ⟨low, high⟩ := first
  obtain ⟨low', high'⟩ := last
  unfold diffTp Timespec.Normalised Timespec.ns
  split_ifs with borrow <;> dsimp only <;> omega

/-- Both libraries subtract alike until time goes backwards. -/
theorem tvsub_eq (first : a.Normalised) (last : b.Normalised) :
    tvsub b a = if a.us ≤ b.us then diffTv a b else ⟨0, 0⟩ := by
  obtain ⟨low, high⟩ := first
  obtain ⟨low', high'⟩ := last
  unfold tvsub diffTv Timeval.us
  by_cases borrow : b.tvUsec - a.tvUsec < 0 ∧ 0 < b.tvSec - a.tvSec
  · simp only [if_pos borrow, if_pos (show b.tvUsec < a.tvUsec by omega)]
    rw [if_neg (by omega), if_pos (by omega), Timeval.mk.injEq]
    omega
  · simp only [if_neg borrow]
    by_cases backward : b.tvUsec - a.tvUsec < 0 ∨ b.tvSec < a.tvSec
    · -- in the same second there is nothing to borrow from
      rw [if_pos backward, if_neg (by omega)]
    · rw [if_neg backward, if_pos (by omega), if_neg (by omega)]

/-- The difference in microseconds, but not less than nought. -/
theorem tvdelta_eq (first : a.Normalised) (last : b.Normalised)
    (fits : (b.tvSec - a.tvSec + 1) * 1000000 ≤ 2 ^ 64) :
    (tvdelta a b : ℤ) = max 0 (b.us - a.us) := by
  obtain ⟨normalised, total⟩ := diffTv_spec first last
  unfold tvdelta
  rw [tvsub_eq first last]
  by_cases forward : a.us ≤ b.us
  · have same : (diffTv a b).tvSec * 1000000 + (diffTv a b).tvUsec = b.us - a.us := total
    have small : b.us - a.us < 2 ^ 64 := by
      obtain ⟨low, high⟩ := first
      obtain ⟨low', high'⟩ := last
      unfold Timeval.us
      omega
    simp only [if_pos forward, same]
    rw [Int.max_eq_right (by omega), Nat.mod_eq_of_lt (by omega), Int.toNat_of_nonneg (by omega)]
  · rw [if_neg forward, Int.max_eq_left (by omega)]
    rfl

theorem int64_of_fits {x : ℤ} (above : -2 ^ 63 ≤ x) (below : x < 2 ^ 63) : int64 x = x :=
  Int.bmod_eq_of_le (by omega) (by omega)

/-- A normalised time in larger units is rounded down. -/
theorem inUnits_eq {scale unit : ℤ} (normalised : t.Normalised) (positive : 0 < unit)
    (whole : scale * unit = 1000000000)
    (above : -2 ^ 63 ≤ t.tvSec * scale) (below : t.tvSec * scale + scale ≤ 2 ^ 63) :
    inUnits scale unit t = t.ns / unit := by
  obtain ⟨low, high⟩ := normalised
  have scaled : t.ns / unit = t.tvSec * scale + t.tvNsec / unit := by
    rw [Timespec.ns, ← whole, ← Int.mul_assoc, Int.add_comm,
      Int.add_mul_ediv_right _ _ (Int.ne_of_gt positive), Int.add_comm]
  have nonneg : 0 ≤ t.tvNsec / unit := Int.ediv_nonneg low (Int.le_of_lt positive)
  have part : t.tvNsec / unit < scale := (Int.ediv_lt_iff_lt_mul positive).mpr (by omega)
  rw [inUnits, Int.tdiv_eq_ediv_of_nonneg low, int64_of_fits above (by omega),
    int64_of_fits (by omega) (by omega), scaled]

/-- The seconds of a difference may be one less than the difference of the seconds. -/
theorem diffTp_tvSec (s t : Timespec) : t.tvSec - s.tvSec - 1 ≤ (diffTp s t).tvSec ∧
    (diffTp s t).tvSec ≤ t.tvSec - s.tvSec := by
  unfold diffTp
  split_ifs <;> dsimp only <;> omega

/-- The difference in larger units, rounded down. -/
theorem inUnits_diffTp {scale unit : ℤ} (first : s.Normalised) (last : t.Normalised)
    (positive : 0 < unit) (whole : scale * unit = 1000000000)
    (above : -2 ^ 63 ≤ (diffTp s t).tvSec * scale)
    (below : (diffTp s t).tvSec * scale + scale ≤ 2 ^ 63) :
    inUnits scale unit (diffTp s t) = (t.ns - s.ns) / unit := by
  obtain ⟨normalised, total⟩ := diffTp_spec first last
  rw [inUnits_eq normalised positive whole above below, total]

/-- The difference in nanoseconds, with its sign. -/
theorem diffTpNs_eq (first : s.Normalised) (last : t.Normalised)
    (fits : (|t.tvSec - s.tvSec| + 1) * 1000000000 ≤ 2 ^ 63) : diffTpNs s t = t.ns - s.ns := by
  obtain ⟨least, most⟩ := diffTp_tvSec s t
  have above := neg_abs_le (t.tvSec - s.tvSec)
  have below := le_abs_self (t.tvSec - s.tvSec)
  rw [diffTpNs, inUnits_diffTp first last (by decide) (by decide) (by omega) (by omega),
    Int.ediv_one]

/-- **Elapsed times are exact**: those of both libraries, and those that are set. -/
theorem elapsed_spec :
    (∀ a b : Timeval, a.Normalised → b.Normalised →
      (b.tvSec - a.tvSec + 1) * 1000000 ≤ 2 ^ 64 →
        (tvdelta a b : ℤ) = max 0 (b.us - a.us) ∧
        (diffTv a b).Normalised ∧ (diffTv a b).us = b.us - a.us ∧
        ((tvdelta a b : ℤ) = (diffTv a b).us ↔ a.us ≤ b.us)) ∧
    (∀ s t : Timespec, s.Normalised → t.Normalised →
      (|t.tvSec - s.tvSec| + 1) * 1000000000 ≤ 2 ^ 63 →
        (diffTp s t).Normalised ∧ diffTpNs s t = t.ns - s.ns ∧
        diffTpUs s t = (t.ns - s.ns) / 1000 ∧ diffTpMs s t = (t.ns - s.ns) / 1000000) ∧
    (∀ usecs < 2 ^ 64, ∀ regs : Registers, (regs.settime usecs).gettime = usecs) := by
  refine ⟨fun a b first last fits => ?_, fun s t first last fits => ?_, fun usecs fits regs => ?_⟩
  · obtain ⟨normalised, total⟩ := diffTv_spec first last
    have saturated := tvdelta_eq first last fits
    exact ⟨saturated, normalised, total, by omega⟩
  · obtain ⟨least, most⟩ := diffTp_tvSec s t
    have above := neg_abs_le (t.tvSec - s.tvSec)
    have below := le_abs_self (t.tvSec - s.tvSec)
    exact ⟨(diffTp_spec first last).1, diffTpNs_eq first last fits,
      inUnits_diffTp first last (by decide) (by decide) (by omega) (by omega),
      inUnits_diffTp first last (by decide) (by decide) (by omega) (by omega)⟩
  · exact Registers.gettime_settime fits regs

/-- From 1.9 s to 3.1 s and back, and 1.5 s that are set. -/
theorem elapsed_twelveTenths : tvdelta ⟨1, 900000⟩ ⟨3, 100000⟩ = 1200000 ∧
    diffTpMs ⟨3, 100000000⟩ ⟨1, 900000001⟩ = -1200 ∧
    (Registers.zero.settime 1500000).gettime = 1500000 := by
  have forward := elapsed_spec.1 ⟨1, 900000⟩ ⟨3, 100000⟩ (by decide) (by decide) (by decide)
  have backward := elapsed_spec.2.1 ⟨3, 100000000⟩ ⟨1, 900000001⟩ (by decide) (by decide)
    (by decide)
  have set := elapsed_spec.2.2 1500000 (by decide) Registers.zero
  exact ⟨Int.ofNat_inj.mp forward.1, backward.2.2.2, set⟩

end Lmbench
