import Mathlib.Algebra.Group.Int.Defs
import Mathlib.Algebra.Order.Field.Rat
import Mathlib.Algebra.Order.Ring.Int
import Mathlib.Data.Rat.Cast.Order
import Mathlib.Tactic.Linarith
import Mathlib.Tactic.NormNum
import Mathlib.Tactic.Ring

/-!
# The search for the reach of the TLB

`find_tlb` doubles the number of pages until a load takes visibly longer than from as
many cache lines, and then bisects between that number and its half. Both loops run
on the same variable, and what they bisect is set in only one branch of the first.

An `int` has 32 bits. Shifts that leave it and variables that are read before they are set
have no value.

## Main results

* `findTlb_eq` - the threshold is found exactly, where the doubling passes it
-/

namespace Lmbench

/-- What `compute_times` stores: nanoseconds for a load. -/
structure LoadTimes where
  tlbTime : ℚ
  cacheTime : ℚ

/-- `*tlb_time / *cache_time > THRESHOLD`. A quotient by zero is infinite, or no number. -/
def LoadTimes.effect (t : LoadTimes) : Bool :=
  if t.cacheTime = 0 then 0 < t.tlbTime else 115 / 100 < t.tlbTime / t.cacheTime

/-- The variables of `find_tlb`, and the number of calls of `compute_times`. -/
structure TlbSearch where
  i : ℤ
  lower : Option ℤ
  upper : Option ℤ
  calls : ℕ

/-- `i << 1`. -/
def shiftInt (i : ℤ) : Option ℤ := if 0 ≤ i ∧ 2 * i < 2 ^ 31 then some (2 * i) else none

/-- `lower + (upper - lower) / 2`. -/
def middle (lower upper : ℤ) : ℤ := lower + (upper - lower).tdiv 2

section Model

variable (computeTimes : ℕ → ℤ → LoadTimes) (maxpages : ℤ)

/-- The loop that doubles `i`, for at most `fuel` rounds. -/
def doublePages : ℕ → TlbSearch → Option TlbSearch
  | 0, _ => none
  | fuel + 1, s =>
    if s.i ≤ maxpages then
      let measured := { s with calls := s.calls + 1 }
      if (computeTimes s.calls s.i).effect then
        let lower := s.i / 2
        let upper := s.i
        some { measured with i := middle lower upper, lower := some lower, upper := some upper }
      else do
        let i ← shiftInt s.i
        doublePages fuel { measured with i := i }
    else some s

/-- The binary search, for at most `fuel` rounds. -/
def bisectPages : ℕ → TlbSearch → Option ℤ
  | 0, _ => none
  | fuel + 1, s => do
    let lower ← s.lower
    let upper ← s.upper
    if lower + 1 < upper then
      let measured := { s with calls := s.calls + 1 }
      if (computeTimes s.calls s.i).effect then
        bisectPages fuel { measured with i := middle lower s.i, upper := some s.i }
      else bisectPages fuel { measured with i := middle s.i upper, lower := some s.i }
    else some lower

/-- `find_tlb(start, maxpages, ...)`. -/
def findTlb (start : ℤ) (fuel : ℕ) : Option ℤ := do
  let s ← doublePages computeTimes maxpages fuel ⟨start, none, none, 0⟩
  -- "we can't find any tlb effect"
  if maxpages ≤ s.i then some 0 else bisectPages computeTimes fuel s

end Model

theorem middle_bounds {lower upper : ℤ} (less : lower < upper) :
    lower ≤ middle lower upper ∧ middle lower upper < upper := by
  unfold middle
  rw [Int.tdiv_eq_ediv_of_nonneg (by omega)]
  omega

theorem middle_strict {lower upper : ℤ} (apart : lower + 1 < upper) :
    lower < middle lower upper := by
  unfold middle
  rw [Int.tdiv_eq_ediv_of_nonneg (by omega)]
  omega

/-- Before each round of the bisection: the threshold is at `lower` or above it and below
`upper`, and the next number to be tried is in their middle. -/
structure TlbSearch.Brackets (T lower upper : ℤ) (s : TlbSearch) : Prop where
  lower_eq : s.lower = some lower
  upper_eq : s.upper = some upper
  i_eq : s.i = middle lower upper
  positive : 0 < lower
  lower_le : lower ≤ T
  lt_upper : T < upper

theorem le_doubled {i : ℤ} (nonneg : 0 ≤ i) (k : ℕ) : i ≤ i * 2 ^ k :=
  le_mul_of_one_le_right nonneg (one_le_pow₀ (by norm_num))

section Search

variable {computeTimes : ℕ → ℤ → LoadTimes} {maxpages T : ℤ}
  (threshold : ∀ n pages, 0 < pages → ((computeTimes n pages).effect ↔ T < pages))
include threshold

/-- From a bracket the bisection ends, and at the threshold. -/
theorem bisectPages_of_brackets {lower upper : ℤ} {fuel : ℕ} {s : TlbSearch}
    (brackets : s.Brackets T lower upper) (enough : upper - lower ≤ fuel) :
    bisectPages computeTimes fuel s = some T := by
  induction fuel generalizing s lower upper with
  | zero =>
    have := brackets.lower_le
    have := brackets.lt_upper
    omega
  | succ fuel ih =>
    have low := brackets.lower_le
    have high := brackets.lt_upper
    have positive := brackets.positive
    rw [bisectPages, brackets.lower_eq, brackets.upper_eq]
    simp only [Option.bind_eq_bind, Option.bind_some]
    by_cases apart : lower + 1 < upper
    · have inside := middle_strict apart
      have under : middle lower upper < upper := (middle_bounds (by omega)).2
      rw [if_pos apart]
      by_cases effect : T < s.i
      · rw [if_pos ((threshold _ _ (by rw [brackets.i_eq]; omega)).mpr effect)]
        refine ih ⟨rfl, rfl, rfl, positive, low, effect⟩ ?_
        rw [brackets.i_eq]
        omega
      · rw [if_neg (mt (threshold _ _ (by rw [brackets.i_eq]; omega)).mp effect)]
        refine ih ⟨rfl, rfl, rfl, ?_, by omega, high⟩ ?_
        · rw [brackets.i_eq]
          omega
        · rw [brackets.i_eq]
          omega
    · rw [if_neg apart]
      congr 1
      omega

/-- Doubling ends with a bracket below `maxpages`, or beyond it without having seen an
effect. -/
theorem doublePages_eq (high : maxpages < 2 ^ 30) (fuel : ℕ) {s : TlbSearch} (low : 2 ≤ s.i)
    (half : s.i / 2 ≤ T) (enough : maxpages < s.i + fuel) :
    ∃ s', doublePages computeTimes maxpages (fuel + 1) s = some s' ∧
      ((∃ lower upper k, s'.Brackets T lower upper ∧ upper = s.i * 2 ^ k ∧ upper ≤ maxpages) ∨
        (maxpages < s'.i ∧ ∀ k : ℕ, s.i * 2 ^ k ≤ maxpages → s.i * 2 ^ k ≤ T)) := by
  induction fuel generalizing s with
  | zero =>
    refine ⟨s, if_neg (by omega), .inr ⟨by omega, fun k reached => ?_⟩⟩
    have grows : s.i ≤ s.i * 2 ^ k := le_doubled (by omega) k
    omega
  | succ fuel ih =>
    by_cases inside : s.i ≤ maxpages
    · rw [doublePages, if_pos inside]
      by_cases effect : T < s.i
      · rw [if_pos ((threshold _ _ (by omega)).mpr effect)]
        exact ⟨_, rfl, .inl ⟨s.i / 2, s.i, 0, ⟨rfl, rfl, rfl, by omega, half, effect⟩, by simp,
          inside⟩⟩
      · have shift : shiftInt s.i = some (2 * s.i) := if_pos (by omega)
        rw [if_neg (mt (threshold _ _ (by omega)).mp effect), shift]
        simp only [Option.bind_eq_bind, Option.bind_some]
        -- the next round starts at the double, whose half has shown no effect
        obtain ⟨s', returned, outcome⟩ := ih (s := { s with i := 2 * s.i, calls := s.calls + 1 })
          (by simp only; omega) (by simp only; omega) (by push_cast at enough; simp only; omega)
        have next (k : ℕ) : 2 * s.i * 2 ^ k = s.i * 2 ^ (k + 1) := by ring
        refine ⟨s', returned, ?_⟩
        rcases outcome with ⟨lower, upper, k, brackets, reached, within⟩ | ⟨beyond, never⟩
        · exact .inl ⟨lower, upper, k + 1, brackets, reached.trans (next k), within⟩
        · refine .inr ⟨beyond, fun k reached => ?_⟩
          cases k with
          | zero =>
            rw [pow_zero, mul_one]
            omega
          | succ k =>
            rw [← next] at reached ⊢
            exact never k reached
    · refine ⟨s, if_neg inside, .inr ⟨by omega, fun k reached => ?_⟩⟩
      have grows : s.i ≤ s.i * 2 ^ k := le_doubled (by omega) k
      omega

/-- **The threshold is found.** If the times show an effect for exactly the numbers of pages
above `T`, then `find_tlb` returns, without reading what is not set or leaving `int`: it returns
`T` if one of the numbers `start`, `2 * start`, ... lies above `T` and not above `maxpages`, and
0 if none does. -/
theorem findTlb_eq {start : ℤ} (low : 2 ≤ start) (high : maxpages < 2 ^ 30)
    (half : start / 2 ≤ T) {fuel : ℕ} (enough : maxpages.toNat + 1 < fuel) :
    ((∃ k : ℕ, T < start * 2 ^ k ∧ start * 2 ^ k ≤ maxpages) →
      findTlb computeTimes maxpages start fuel = some T) ∧
    ((¬∃ k : ℕ, T < start * 2 ^ k ∧ start * 2 ^ k ≤ maxpages) →
      findTlb computeTimes maxpages start fuel = some 0) := by
  obtain ⟨rounds, rfl⟩ : ∃ rounds, fuel = rounds + 1 := ⟨fuel - 1, by omega⟩
  obtain ⟨s, doubled, outcome⟩ := doublePages_eq threshold high rounds
    (s := ⟨start, none, none, 0⟩) low half (by simp only; omega)
  rw [findTlb, doubled]
  simp only [Option.bind_eq_bind, Option.bind_some]
  rcases outcome with ⟨lower, upper, k, brackets, reached, within⟩ | ⟨beyond, never⟩
  · have beyond := brackets.lt_upper
    have under := brackets.lower_le
    have small : ¬maxpages ≤ s.i := by
      rw [brackets.i_eq, not_le]
      exact (middle_bounds (by omega)).2.trans_le within
    rw [if_neg small]
    refine ⟨fun _ => ?_, fun none => absurd ⟨k, ?_, ?_⟩ none⟩
    · have positive := brackets.positive
      exact bisectPages_of_brackets threshold brackets (by omega)
    · rwa [← reached]
    · rwa [← reached]
  · rw [if_pos beyond.le]
    refine ⟨?_, fun _ => rfl⟩
    rintro ⟨k, above, within⟩
    exact absurd (never k within) (not_le.mpr above)

end Search

/-- A TLB of 64 entries: a load takes twice as long from more pages. -/
def sixtyFour (_ : ℕ) (pages : ℤ) : LoadTimes := if 64 < pages then ⟨2, 1⟩ else ⟨1, 1⟩

theorem sixtyFour_effect (n : ℕ) (pages : ℤ) : (sixtyFour n pages).effect ↔ 64 < pages := by
  unfold sixtyFour LoadTimes.effect
  split
  · norm_num
    assumption
  · norm_num
    omega

theorem findTlb_sixtyFour : findTlb sixtyFour 16384 8 16386 = some 64 :=
  (findTlb_eq (T := 64) (fun n pages _ => sixtyFour_effect n pages) (by decide) (by decide)
    (by decide) (by decide)).1 ⟨4, by decide, by decide⟩

end Lmbench
