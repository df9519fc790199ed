import Mathlib.Data.Nat.Init
import Mathlib.Data.List.Basic

/-!
# Sweeps

A loop that goes from a value to the next as long as it does not pass a bound. The next
value is computed by a function that may fail to return, and need not be larger; the
sweep ends if it always returns a larger one.

## Main results

* `exists_sweep` - a sweep that always makes progress ends
* `pairwise_of_sweep` - and its values increase
* `next_of_mem_sweep` - at each of its values the next was computed, and follows unless it passes
  the bound
-/

namespace Lmbench.Lib

variable (next : ℕ → Option ℕ) (bound : ℕ)

/-- The values of `for (x = start; x <= bound; x = next(x))`. None if `fuel` is used up or
`next` does not return. -/
def sweep : ℕ → ℕ → Option (List ℕ)
  | 0, _ => none
  | fuel + 1, x =>
    if x ≤ bound then do
      let y ← next x
      let rest ← sweep fuel y
      return x :: rest
    else some []

variable {next bound} {fuel low x y : ℕ} {l : List ℕ}

theorem sweep_of_lt (beyond : bound < x) : sweep next bound (fuel + 1) x = some [] :=
  if_neg (Nat.not_le.mpr beyond)

/-- What a pass does. -/
theorem sweep_of_le (inside : x ≤ bound) : sweep next bound (fuel + 1) x = some l ↔
    ∃ y rest, next x = some y ∧ sweep next bound fuel y = some rest ∧ l = x :: rest := by
  rw [sweep, if_pos inside]
  constructor
  · intro ends
    obtain ⟨y, moved, ends⟩ := Option.bind_eq_some_iff.mp ends
    obtain ⟨rest, later, ends⟩ := Option.bind_eq_some_iff.mp ends
    exact ⟨y, rest, moved, later, (Option.some.inj ends).symm⟩
  · rintro ⟨y, rest, moved, later, rfl⟩
    rw [moved, Option.bind_eq_bind, Option.bind_some, later]
    rfl

/-- A sweep that makes progress from every value ends. -/
theorem exists_sweep
    (progress : ∀ x, low ≤ x → x ≤ bound → ∃ y, next x = some y ∧ x < y)
    (start : low ≤ x) (enough : bound + 1 < x + fuel) (fueled : 0 < fuel) :
    ∃ l, sweep next bound fuel x = some l := by
  induction fuel generalizing x with
  | zero => exact absurd fueled (Nat.lt_irrefl 0)
  | succ fuel ih =>
    by_cases inside : x ≤ bound
    · obtain ⟨y, moved, ahead⟩ := progress x start inside
      obtain ⟨rest, later⟩ := ih (show low ≤ y by omega) (by omega) (by omega)
      exact ⟨x :: rest, (sweep_of_le inside).mpr ⟨y, rest, moved, later, rfl⟩⟩
    · exact ⟨[], sweep_of_lt (Nat.lt_of_not_le inside)⟩

/-- A sweep begins where it starts. -/
theorem mem_of_sweep (ends : sweep next bound fuel x = some l) (inside : x ≤ bound) : x ∈ l := by
  cases fuel with
  | zero => cases ends
  | succ fuel =>
    obtain ⟨y, rest, _, _, rfl⟩ := (sweep_of_le inside).mp ends
    exact List.mem_cons_self

/-- **From each value the sweep went on.** -/
theorem next_of_mem_sweep (ends : sweep next bound fuel x = some l) (member : y ∈ l) :
    ∃ z, next y = some z ∧ (z ≤ bound → z ∈ l) := by
  induction fuel generalizing x l with
  | zero => cases ends
  | succ fuel ih =>
    by_cases inside : x ≤ bound
    · obtain ⟨z, rest, moved, later, rfl⟩ := (sweep_of_le inside).mp ends
      rcases List.mem_cons.mp member with rfl | member
      · -- what follows the first value is where the rest starts
        exact ⟨z, moved, fun within => List.mem_cons_of_mem _ (mem_of_sweep later within)⟩
      · obtain ⟨z', moved', follows⟩ := ih later member
        exact ⟨z', moved', fun within => List.mem_cons_of_mem _ (follows within)⟩
    · rw [sweep_of_lt (Nat.lt_of_not_le inside)] at ends
      obtain rfl := Option.some.inj ends
      cases member

/-- **The values increase**, and none is below the start. -/
theorem pairwise_of_sweep
    (progress : ∀ x, low ≤ x → x ≤ bound → ∀ y, next x = some y → x < y)
    (start : low ≤ x) (ends : sweep next bound fuel x = some l) :
    l.Pairwise (· < ·) ∧ ∀ y ∈ l, x ≤ y := by
  induction fuel generalizing x l with
  | zero => cases ends
  | succ fuel ih =>
    by_cases inside : x ≤ bound
    · obtain ⟨y, rest, moved, later, rfl⟩ := (sweep_of_le inside).mp ends
      have ahead := progress x start inside y moved
      obtain ⟨increasing, above⟩ := ih (show low ≤ y by omega) later
      refine ⟨List.pairwise_cons.mpr ⟨fun z hz => Nat.lt_of_lt_of_le ahead (above z hz),
        increasing⟩, fun z hz => ?_⟩
      rcases List.mem_cons.mp hz with rfl | hz
      · exact Nat.le_refl _
      · exact Nat.le_of_lt (Nat.lt_of_lt_of_le ahead (above z hz))
    · rw [sweep_of_lt (Nat.lt_of_not_le inside)] at ends
      obtain rfl := Option.some.inj ends
      exact ⟨List.Pairwise.nil, fun z hz => by cases hz⟩

end Lmbench.Lib
