import Mathlib.Tactic.Common
import Mathlib.Algebra.Order.Ring.Int

/-!
# The start and stop registers of the timing library

`start_tv`, `stop_tv` and `iterations` are the three file-scope variables of
`lib_timing.c` through which every benchmark hands its measurement on: `settime`
and `save_n` store one, `gettime` and `get_n` read it back.

## Main results

* `Registers.gettime_settime` - a stored time is read back unchanged
-/

namespace Lmbench

/-- `struct timeval`. -/
structure Timeval where
  tvSec : ℤ
  tvUsec : ℤ
deriving DecidableEq, Repr

/-- `tvsub(&tdiff, t1, t0)`: the difference, zero when time went backwards. -/
def tvsub (t1 t0 : Timeval) : Timeval :=
  let sec := t1.tvSec - t0.tvSec
  let usec := t1.tvUsec - t0.tvUsec
  let tdiff : Timeval := if usec < 0 ∧ 0 < sec then ⟨sec - 1, usec + 1000000⟩ else ⟨sec, usec⟩
  -- time may go backwards
  if tdiff.tvUsec < 0 ∨ t1.tvSec < t0.tvSec then ⟨0, 0⟩ else tdiff

/-- `tvdelta(start, stop)`: microseconds between two times, as a `uint64`. -/
def tvdelta (start stop : Timeval) : ℕ :=
  let td := tvsub stop start
  (td.tvSec * 1000000 + td.tvUsec).toNat % 2 ^ 64

/-- The static variables behind `settime`, `gettime`, `save_n` and `get_n`. -/
structure Registers where
  startTv : Timeval
  stopTv : Timeval
  iterations : ℕ
deriving DecidableEq, Repr

namespace Registers

/-- The registers of a program that has measured nothing yet. -/
def zero : Registers := ⟨⟨0, 0⟩, ⟨0, 0⟩, 0⟩

/-- `save_n(n)`. -/
def saveN (regs : Registers) (n : ℕ) : Registers := { regs with iterations := n }

/-- `get_n()`. -/
def getN (regs : Registers) : ℕ := regs.iterations

/-- `settime(usecs)`: make the time spent be `usecs`. -/
def settime (regs : Registers) (usecs : ℕ) : Registers :=
  { regs with
    startTv := ⟨0, 0⟩
    stopTv := ⟨(usecs / 1000000 : ℕ), (usecs % 1000000 : ℕ)⟩ }

/-- `gettime()`. -/
def gettime (regs : Registers) : ℕ := tvdelta regs.startTv regs.stopTv

@[simp] theorem getN_saveN (regs : Registers) (n : ℕ) : (regs.saveN n).getN = n := rfl

@[simp] theorem getN_settime (regs : Registers) (usecs : ℕ) :
    (regs.settime usecs).getN = regs.getN := rfl

@[simp] theorem gettime_saveN (regs : Registers) (n : ℕ) :
    (regs.saveN n).gettime = regs.gettime := rfl

/-- A stored time is read back, up to the width of `uint64`. -/
theorem gettime_settime_mod (regs : Registers) (usecs : ℕ) :
    (regs.settime usecs).gettime = usecs % 2 ^ 64 := by
  have usecNonneg : ¬((usecs % 1000000 : ℕ) : ℤ) - 0 < 0 := by omega
  have secNonneg : ¬((usecs / 1000000 : ℕ) : ℤ) < 0 := by omega
  simp only [gettime, settime, tvdelta, tvsub, usecNonneg, secNonneg, false_and, if_false, or_self]
  congr 1
  omega

/-- A stored time is read back unchanged. -/
theorem gettime_settime {usecs : ℕ} (fits : usecs < 2 ^ 64) (regs : Registers) :
    (regs.settime usecs).gettime = usecs := by
  rw [gettime_settime_mod, Nat.mod_eq_of_lt fits]

@[simp] theorem gettime_settime_zero (regs : Registers) : (regs.settime 0).gettime = 0 :=
  gettime_settime_mod regs 0

end Registers

end Lmbench
