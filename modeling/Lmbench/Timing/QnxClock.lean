import Lmbench.Timing.Elapsed
import Mathlib.Algebra.Order.Field.Basic
import Mathlib.Algebra.Order.Field.Rat
import Mathlib.Tactic.Linarith

/-!
# The clocks of QNX

`clock_gettime`, `gettimeofday` and `clock` of `TIMES.c` count processor cycles. The first one of
them that is called keeps the kHz of the processor in a static variable.

## Main results

* `clockGettime_eq`, `gettimeofday_eq` - what the clocks show in all
* `diffTpNs_near` - the difference of two readings
* `clocks_agree` - how they are related
-/

namespace Lmbench.Timing

/-- The result of an operation as a `uint64_t`. -/
def uint64 (x : ℕ) : ℕ := x % 2 ^ 64

/-- The static `kHz`: nought until a clock is read. -/
structure KHz (cyclesPerSec : ℕ) where
  kHz : ℕ
  valid : kHz = 0 ∨ kHz = cyclesPerSec / 1000

variable {cyclesPerSec : ℕ}

/-- `kHz` at the start. -/
def KHz.start : KHz cyclesPerSec := ⟨0, Or.inl rfl⟩

/-- `if (!kHz) kHz = SYSPAGE_ENTRY(qtime)->cycles_per_sec / 1000ULL;`. -/
def KHz.set (k : KHz cyclesPerSec) : KHz cyclesPerSec :=
  if k.kHz = 0 then ⟨cyclesPerSec / 1000, Or.inr rfl⟩ else k

/-- `clock_gettime(CLOCK_MONOTONIC, &tp)` when `ClockCycles()` is `cycles`. -/
def clockGettime (cycles : ℕ) (k : KHz cyclesPerSec) : Timespec × KHz cyclesPerSec :=
  let k := k.set
  let ns := uint64 cycles
  let ns := uint64 (ns * 1000000)
  let ns := ns / k.kHz
  let nss := ns / 1000000000
  let tvSec := nss
  let nss := uint64 (nss * 1000000000)
  (⟨tvSec, uint64 (ns + 2 ^ 64 - nss)⟩, k)

/-- `gettimeofday(&tv, NULL)`. -/
def gettimeofday (cycles : ℕ) (k : KHz cyclesPerSec) : Timeval × KHz cyclesPerSec :=
  let k := k.set
  let us := uint64 cycles
  let us := uint64 (us * 1000)
  let us := us / k.kHz
  let uss := us / 1000000
  let tvSec := uss
  let uss := uint64 (uss * 1000000)
  (⟨tvSec, uint64 (us + 2 ^ 64 - uss)⟩, k)

/-- `clock()`, before the conversion to `clock_t`. -/
def clock (cycles : ℕ) (k : KHz cyclesPerSec) : ℕ × KHz cyclesPerSec :=
  let k := k.set
  let us := uint64 cycles
  let us := uint64 (us * 1000)
  (us / k.kHz, k)

variable {c c' : ℕ} {k k' : KHz cyclesPerSec}

theorem uint64_of_fits {x : ℕ} (fits : x < 2 ^ 64) : uint64 x = x := Nat.mod_eq_of_lt fits

@[simp] theorem KHz.set_kHz (k : KHz cyclesPerSec) : k.set.kHz = cyclesPerSec / 1000 := by
  unfold set
  split_ifs with unset
  · rfl
  · exact k.valid.resolve_left unset

/-- Seconds and a remainder that are taken apart by multiplying back. -/
theorem multiplyBack (x scale : ℕ) (fits : x < 2 ^ 64) (positive : 0 < scale) :
    uint64 (x + 2 ^ 64 - uint64 (x / scale * scale)) = x % scale := by
  have whole := Nat.div_add_mod' x scale
  have below := Nat.mod_lt x positive
  rw [uint64_of_fits (x := x / scale * scale) (by omega)]
  unfold uint64
  omega

/-- Nanoseconds in all. -/
theorem clockGettime_eq (fits : c * 1000000 < 2 ^ 64) (k : KHz cyclesPerSec) :
    (clockGettime c k).1.Normalised ∧
      (clockGettime c k).1.ns = (c * 1000000 / (cyclesPerSec / 1000) : ℕ) := by
  have small : c * 1000000 / (cyclesPerSec / 1000) < 2 ^ 64 :=
    Nat.lt_of_le_of_lt (Nat.div_le_self _ _) fits
  unfold clockGettime Timespec.Normalised Timespec.ns
  simp only [KHz.set_kHz, uint64_of_fits fits, uint64_of_fits (show c < 2 ^ 64 by omega),
    multiplyBack _ _ small (show 0 < 1000000000 by decide)]
  omega

/-- Microseconds in all. -/
theorem gettimeofday_eq (fits : c * 1000000 < 2 ^ 64) (k : KHz cyclesPerSec) :
    (gettimeofday c k).1.Normalised ∧
      (gettimeofday c k).1.us = (c * 1000 / (cyclesPerSec / 1000) : ℕ) := by
  have fewer : c * 1000 < 2 ^ 64 := Nat.lt_of_le_of_lt (Nat.mul_le_mul_left c (by decide)) fits
  have small : c * 1000 / (cyclesPerSec / 1000) < 2 ^ 64 :=
    Nat.lt_of_le_of_lt (Nat.div_le_self _ _) fewer
  unfold gettimeofday Timeval.Normalised Timeval.us
  simp only [KHz.set_kHz, uint64_of_fits fewer, uint64_of_fits (show c < 2 ^ 64 by omega),
    multiplyBack _ _ small (show 0 < 1000000 by decide)]
  omega

theorem clock_eq (fits : c * 1000000 < 2 ^ 64) (k : KHz cyclesPerSec) :
    (clock c k).1 = c * 1000 / (cyclesPerSec / 1000) := by
  have fewer : c * 1000 < 2 ^ 64 := Nat.lt_of_le_of_lt (Nat.mul_le_mul_left c (by decide)) fits
  unfold clock
  simp only [KHz.set_kHz, uint64_of_fits fewer, uint64_of_fits (show c < 2 ^ 64 by omega)]

/-- Rounding two readings down changes their difference by less than one. -/
theorem abs_sub_div_lt_one {x y n : ℕ} (positive : 0 < n) :
    |((y / n : ℕ) : ℚ) - (x / n : ℕ) - ((y : ℚ) - x) / n| < 1 := by
  have denominator : (0 : ℚ) < n := by exact_mod_cast positive
  have bounds (z : ℕ) : ((z / n : ℕ) : ℚ) ≤ z / n ∧ (z : ℚ) / n < (z / n : ℕ) + 1 := by
    constructor
    · rw [le_div_iff₀ denominator]
      exact_mod_cast Nat.div_mul_le_self z n
    · rw [div_lt_iff₀ denominator]
      exact_mod_cast Nat.lt_mul_of_div_lt (Nat.lt_succ_self (z / n)) positive
  obtain ⟨lowX, highX⟩ := bounds x
  obtain ⟨lowY, highY⟩ := bounds y
  rw [abs_lt, sub_div]
  constructor <;> linarith

/-- From one MHz on the range of the cycles bounds the seconds, too. -/
theorem clockGettime_tvSec (fast : 1000000 ≤ cyclesPerSec) (fits : c * 1000000 < 2 ^ 64)
    (k : KHz cyclesPerSec) :
    0 ≤ (clockGettime c k).1.tvSec ∧ (clockGettime c k).1.tvSec * 1000000000 ≤ 2 ^ 64 / 1000 := by
  obtain ⟨⟨low, high⟩, total⟩ := clockGettime_eq fits k
  have slower : c * 1000000 / (cyclesPerSec / 1000) ≤ c * 1000000 / 1000 :=
    Nat.div_le_div_left (by omega) (by decide)
  rw [Timespec.ns] at total
  generalize c * 1000000 / (cyclesPerSec / 1000) = ns at slower total
  omega

/-- The microseconds are the nanoseconds, rounded down. -/
theorem ns_div_thousand (cycles kHz : ℕ) :
    cycles * 1000000 / kHz / 1000 = cycles * 1000 / kHz := by
  rw [Nat.div_div_eq_div_mul, show 1000000 = 1000 * 1000 by decide, ← Nat.mul_assoc,
    Nat.mul_div_mul_right _ _ (by decide)]

/-- The difference of two readings is that of the cycles, up to one nanosecond. -/
theorem diffTpNs_near (fast : 1000000 ≤ cyclesPerSec) (fits : c * 1000000 < 2 ^ 64)
    (fits' : c' * 1000000 < 2 ^ 64) (k k' : KHz cyclesPerSec) :
    |(diffTpNs (clockGettime c k).1 (clockGettime c' k').1 : ℚ) -
      (c' - c) * 1000000 / (cyclesPerSec / 1000 : ℕ)| < 1 := by
  obtain ⟨normalised, ns⟩ := clockGettime_eq fits k
  obtain ⟨normalised', ns'⟩ := clockGettime_eq fits' k'
  have range := clockGettime_tvSec fast fits k
  have range' := clockGettime_tvSec fast fits' k'
  have near : |(clockGettime c' k').1.tvSec - (clockGettime c k).1.tvSec| ≤ 18446745 := by
    rw [abs_le]
    omega
  have room := Int.mul_le_mul_of_nonneg_right (Int.add_le_add_right near 1)
    (show (0 : ℤ) ≤ 1000000000 by decide)
  rw [diffTpNs_eq normalised normalised' (room.trans (by decide)), ns, ns']
  have positive : 0 < cyclesPerSec / 1000 := Nat.div_pos (by omega) (by decide)
  have rounded := @abs_sub_div_lt_one (c * 1000000) (c' * 1000000) _ positive
  push_cast at rounded ⊢
  rwa [← sub_mul] at rounded

/-- **The clocks agree**, whichever is read first. -/
theorem clocks_agree (cyclesPerSec : ℕ) (fast : 1000000 ≤ cyclesPerSec) :
    (∀ c, c * 1000000 < 2 ^ 64 → ∀ k k' k'' : KHz cyclesPerSec,
      (clockGettime c k).1.Normalised ∧ (gettimeofday c k').1.Normalised ∧
      (gettimeofday c k').1.us = (clock c k'').1 ∧
      (gettimeofday c k').1.us = (clockGettime c k).1.ns / 1000) ∧
    (∀ c c', c ≤ c' → c' * 1000000 < 2 ^ 64 → ∀ k k' : KHz cyclesPerSec,
      (clockGettime c k).1.ns ≤ (clockGettime c' k').1.ns ∧
      (gettimeofday c k).1.us ≤ (gettimeofday c' k').1.us ∧
      (clock c k).1 ≤ (clock c' k').1 ∧
      |(diffTpNs (clockGettime c k).1 (clockGettime c' k').1 : ℚ) -
        (c' - c) * 1000000 / (cyclesPerSec / 1000 : ℕ)| < 1) := by
  constructor
  · intro c fits k k' k''
    obtain ⟨normalised, ns⟩ := clockGettime_eq fits k
    obtain ⟨normalised', us⟩ := gettimeofday_eq fits k'
    refine ⟨normalised, normalised', ?_, ?_⟩
    · rw [us, clock_eq fits]
    · rw [us, ns, ← ns_div_thousand]
      exact Int.natCast_ediv _ 1000
  · intro c c' le fits' k k'
    have fits : c * 1000000 < 2 ^ 64 := Nat.lt_of_le_of_lt (Nat.mul_le_mul_right _ le) fits'
    have ascends (scale : ℕ) :
        c * scale / (cyclesPerSec / 1000) ≤ c' * scale / (cyclesPerSec / 1000) :=
      Nat.div_le_div_right (Nat.mul_le_mul_right scale le)
    refine ⟨?_, ?_, ?_, diffTpNs_near fast fits fits' k k'⟩
    · rw [(clockGettime_eq fits k).2, (clockGettime_eq fits' k').2]
      exact_mod_cast ascends 1000000
    · rw [(gettimeofday_eq fits k).2, (gettimeofday_eq fits' k').2]
      exact_mod_cast ascends 1000
    · rw [clock_eq fits, clock_eq fits']
      exact ascends 1000

/-- 66 MHz: a hundred cycles are 1515 ns and a fraction. -/
theorem clocks_sixtySix :
    (gettimeofday 1000 (KHz.start : KHz 66000000)).1.us =
      (clock 1000 (KHz.start : KHz 66000000)).1 ∧
    |(diffTpNs (clockGettime 1000 (KHz.start : KHz 66000000)).1
        (clockGettime 1100 (KHz.start : KHz 66000000)).1 : ℚ) -
      ((1100 : ℕ) - (1000 : ℕ)) * 1000000 / (66000000 / 1000 : ℕ)| < 1 :=
  have agree := clocks_agree 66000000 (by decide)
  ⟨(agree.1 1000 (by decide) .start .start .start).2.2.1,
    (agree.2 1000 1100 (by decide) (by decide) .start .start).2.2.2⟩

end Lmbench.Timing
