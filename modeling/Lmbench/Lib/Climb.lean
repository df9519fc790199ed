import Mathlib.Algebra.Group.Nat.Defs
import Mathlib.Algebra.Ring.Nat
import Mathlib.Order.Bounds.Basic

/-!
# Climbing in strides

A search goes forward from a value in strides of one length, as long as the value one
stride ahead passes a test. With a test that every smaller value passes too, a last climb
in strides of length `step` finds the greatest multiple of `step` that passes, from
wherever coarser climbs have left it.

## Main results

* `reached_of_climb` - what is kept, and where a climb stops
* `exists_climb` - a climb below a bound ends
* `isGreatest_of_stuck` - the end of a climb is the greatest value on its grid
-/

namespace Lmbench.Lib

variable (p : ℕ → Prop) [DecidablePred p]

/-- Go forward as long as the next value passes. None if `fuel` is used up. -/
def climb (step : ℕ) : ℕ → ℕ → Option ℕ
  | fuel, off =>
    if p (off + step) then
      match fuel with
      | 0 => none
      | fuel + 1 => climb step fuel (off + step)
    else some off

/-- Zero, or a value on the grid that passes. -/
def Reached (step off : ℕ) : Prop := step ∣ off ∧ (off = 0 ∨ p off)

variable {p} {step grid fuel off r bound : ℕ}

theorem climb_of_not (stuck : ¬ p (off + step)) : climb p step fuel off = some off := by
  cases fuel <;> simp [climb, stuck]

theorem climb_of_pass (passes : p (off + step)) :
    climb p step (fuel + 1) off = climb p step fuel (off + step) := by
  rw [climb, if_pos passes]

/-- A climb stays on every grid that its strides are on, and stops in front of a value that
does not pass. -/
theorem reached_of_climb (aligned : grid ∣ step) (reached : Reached p grid off)
    (ends : climb p step fuel off = some r) : Reached p grid r ∧ ¬ p (r + step) := by
  induction fuel generalizing off with
  | zero =>
    by_cases passes : p (off + step)
    · simp [climb, passes] at ends
    · obtain rfl : off = r := by simpa [climb_of_not passes] using ends
      exact ⟨reached, passes⟩
  | succ fuel ih =>
    by_cases passes : p (off + step)
    · rw [climb_of_pass passes] at ends
      exact ih ⟨Nat.dvd_add reached.1 aligned, .inr passes⟩ ends
    · obtain rfl : off = r := by simpa [climb_of_not passes] using ends
      exact ⟨reached, passes⟩

/-- A climb ends if only values up to a bound pass. -/
theorem exists_climb (bounded : ∀ x, p x → x ≤ bound)
    (enough : bound < off + step * (fuel + 1)) : ∃ r, climb p step fuel off = some r := by
  induction fuel generalizing off with
  | zero =>
    have stuck : ¬ p (off + step) := fun passes => by
      have := bounded _ passes
      omega
    exact ⟨off, climb_of_not stuck⟩
  | succ fuel ih =>
    by_cases passes : p (off + step)
    · rw [climb_of_pass passes]
      apply ih
      rw [Nat.mul_succ] at enough
      omega
    · exact ⟨off, climb_of_not passes⟩

omit [DecidablePred p] in
/-- Where a climb stops is the greatest value on its grid, if every value below one that
passes does too. -/
theorem isGreatest_of_stuck (down : ∀ a b, a ≤ b → p b → p a) (reached : Reached p step r)
    (stuck : ¬ p (r + step)) : IsGreatest {x | Reached p step x} r := by
  refine ⟨reached, fun x ⟨aligned, passes⟩ => ?_⟩
  by_contra beyond
  have ahead : r + step ≤ x := by
    obtain ⟨k, rfl⟩ := aligned
    obtain ⟨j, rfl⟩ := reached.1
    have more : j < k := by
      by_contra few
      exact beyond (Nat.mul_le_mul_left step (Nat.not_lt.mp few))
    calc
      step * j + step = step * (j + 1) := (Nat.mul_succ step j).symm
      _ ≤ step * k := Nat.mul_le_mul_left step more
  rcases passes with zero | passes
  · omega
  · exact stuck (down _ _ ahead passes)

end Lmbench.Lib
