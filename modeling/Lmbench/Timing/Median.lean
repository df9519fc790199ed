import Lmbench.Timing.ResultStore
import Mathlib.Data.List.GetD
import Mathlib.Tactic.Linarith
import Mathlib.Tactic.Ring

/-!
# The median of an even number of measurements

`save_median` takes the mean of the two entries in the middle: half the sum of their
times, and half the sum of their counts, each without its remainder. The fraction in between
is the mediant of the two; what is stored may miss them both.

## Main results

* `medianWithin_iff` - when the stored median lies between the middle entries
* `Lead.of_same_count` - it does where the counts are the same
-/

namespace Lmbench

/-- The entry `results->v[j]`. -/
def ResultT.entry (r : ResultT) (j : ℕ) : ValueT := r.v.getD j ⟨0, 1⟩

/-- What is stored has a count, and lies between the two middle entries; for an odd number of
entries, at the middle one. -/
def Globals.MedianWithin (g : Globals) (r : ResultT) : Prop :=
  1 ≤ g.regs.getN ∧
    if r.N % 2 = 1 then (g.regs.gettime : ℚ) / g.regs.getN = (r.entry (r.N / 2)).quotient
    else (r.entry (r.N / 2)).quotient ≤ (g.regs.gettime : ℚ) / g.regs.getN ∧
      (g.regs.gettime : ℚ) / g.regs.getN ≤ (r.entry (r.N / 2 - 1)).quotient

/-- How far two fractions lie apart, over both denominators. -/
def ValueT.lead (slow fast : ValueT) : ℤ := slow.u * fast.n - fast.u * slow.n

/-- The two fractions lie apart far enough for what the halves lose: nothing if both sums are
even. -/
structure Lead (slow fast : ValueT) : Prop where
  time : (slow.u + fast.u) % 2 = 1 → (slow.n + fast.n) % 2 = 0 → fast.n ≤ slow.lead fast
  count : (slow.u + fast.u) % 2 = 0 → (slow.n + fast.n) % 2 = 1 → slow.u ≤ slow.lead fast
  both : (slow.u + fast.u) % 2 = 1 → (slow.n + fast.n) % 2 = 1 →
    slow.u ≤ slow.lead fast + slow.n ∧ fast.n ≤ slow.lead fast + fast.u

/-- With one count for both, the fractions are apart as soon as their times differ. -/
theorem Lead.of_same_count {slow fast : ValueT} (same : slow.n = fast.n)
    (order : fast.u ≤ slow.u) : Lead slow fast := by
  have even : (slow.n + fast.n) % 2 = 0 := by omega
  refine ⟨fun odd _ => ?_, fun _ odd => absurd odd (by omega), fun _ odd => absurd odd (by omega)⟩
  have less : fast.u + 1 ≤ slow.u := by omega
  have apart : (fast.n : ℤ) * (fast.u + 1) ≤ fast.n * slow.u :=
    mul_le_mul_of_nonneg_left (by exact_mod_cast less) (Int.natCast_nonneg _)
  rw [ValueT.lead, same]
  linarith

/-- Twice what separates the halves from either fraction, where `α` and `β` are what the halves
of the times and of the counts lose. -/
theorem halves_lead (u n u' n' : ℤ) {a b α β : ℤ} (time : u + u' = 2 * a + α)
    (count : n + n' = 2 * b + β) :
    2 * (a * n' - u' * b) = (u * n' - u' * n) - α * n' + β * u' ∧
      2 * (u * b - a * n) = (u * n' - u' * n) - β * u + α * n := by
  obtain rfl : α = u + u' - 2 * a := by omega
  obtain rfl : β = n + n' - 2 * b := by omega
  constructor <;> ring

/-- **When the halves lie between two fractions.** -/
theorem halves_between_iff {slow fast : ValueT} (hs : 1 ≤ slow.n) (hf : 1 ≤ fast.n)
    (order : fast.quotient ≤ slow.quotient) :
    (fast.quotient ≤ ((slow.u + fast.u) / 2 : ℕ) / ((slow.n + fast.n) / 2 : ℕ) ∧
      (((slow.u + fast.u) / 2 : ℕ) / ((slow.n + fast.n) / 2 : ℕ) : ℚ) ≤ slow.quotient) ↔
      Lead slow fast := by
  have sn : (0 : ℚ) < slow.n := by exact_mod_cast hs
  have fn : (0 : ℚ) < fast.n := by exact_mod_cast hf
  have some : 0 < (slow.n + fast.n) / 2 := by omega
  have half : (0 : ℚ) < ((slow.n + fast.n) / 2 : ℕ) := by exact_mod_cast some
  rw [ValueT.quotient, ValueT.quotient, div_le_div_iff₀ fn sn] at order
  rw [ValueT.quotient, ValueT.quotient, div_le_div_iff₀ fn half, div_le_div_iff₀ half sn]
  norm_cast at order ⊢
  have time := Nat.div_add_mod (slow.u + fast.u) 2
  have count := Nat.div_add_mod (slow.n + fast.n) 2
  generalize (slow.u + fast.u) / 2 = a at time ⊢
  generalize (slow.n + fast.n) / 2 = b at count ⊢
  have separated := halves_lead slow.u slow.n fast.u fast.n (a := a) (b := b)
    (α := ((slow.u + fast.u) % 2 : ℕ)) (β := ((slow.n + fast.n) % 2 : ℕ))
    (by exact_mod_cast time.symm) (by exact_mod_cast count.symm)
  rw [← ValueT.lead] at separated
  obtain ⟨below, above⟩ := separated
  zify at order ⊢
  have nonneg : 0 ≤ slow.lead fast := sub_nonneg.mpr order
  rcases Nat.mod_two_eq_zero_or_one (slow.u + fast.u) with evenTime | oddTime <;>
    rcases Nat.mod_two_eq_zero_or_one (slow.n + fast.n) with evenCount | oddCount
  · rw [evenTime, evenCount] at below above
    refine iff_of_true ⟨by push_cast at below; linarith, by push_cast at above; linarith⟩ ?_
    exact ⟨fun odd _ => by omega, fun _ odd => by omega, fun odd _ => by omega⟩
  · rw [evenTime, oddCount] at below above
    push_cast at below above
    constructor
    · rintro ⟨_, upper⟩
      exact ⟨fun odd _ => by omega, fun _ _ => by linarith, fun odd _ => by omega⟩
    · intro lead
      have apart := lead.count evenTime oddCount
      exact ⟨by have : (0 : ℤ) ≤ fast.u := Int.natCast_nonneg _; linarith, by linarith⟩
  · rw [oddTime, evenCount] at below above
    push_cast at below above
    constructor
    · rintro ⟨lower, _⟩
      exact ⟨fun _ _ => by linarith, fun _ odd => by omega, fun _ odd => by omega⟩
    · intro lead
      have apart := lead.time oddTime evenCount
      exact ⟨by linarith, by have : (0 : ℤ) ≤ slow.n := Int.natCast_nonneg _; linarith⟩
  · rw [oddTime, oddCount] at below above
    push_cast at below above
    constructor
    · rintro ⟨lower, upper⟩
      exact ⟨fun _ even => by omega, fun even _ => by omega,
        fun _ _ => ⟨by linarith, by linarith⟩⟩
    · intro lead
      obtain ⟨apart, apart'⟩ := lead.both oddTime oddCount
      exact ⟨by linarith, by linarith⟩

theorem ResultT.entry_mem {r : ResultT} {j : ℕ} (inside : j < r.N) : r.entry j ∈ r.v := by
  rw [entry, List.getD_eq_getElem _ _ inside]
  exact List.getElem_mem inside

/-- **When the median lies within the data.** For every sorted set with at least one entry: what
`save_median` stores has a count and lies between the entries in the middle if and only if
their number is odd or the two lie apart by what the halves lose. -/
theorem medianWithin_iff {g : Globals} (nonempty : g.results.N ≠ 0) (sorted : g.results.Sorted)
    (words : ∀ x ∈ g.results.v, x.u < 2 ^ 64)
    (sums : ∀ i j, i < j → j < g.results.N →
      (g.results.entry i).u + (g.results.entry j).u < 2 ^ 64 ∧
        (g.results.entry i).n + (g.results.entry j).n < 2 ^ 64) :
    g.saveMedian.MedianWithin g.results ↔
      (g.results.N % 2 = 0 →
        Lead (g.results.entry (g.results.N / 2 - 1)) (g.results.entry (g.results.N / 2))) := by
  have fastIn := ResultT.entry_mem (show g.results.N / 2 < g.results.N by omega)
  have hf := sorted.counts _ fastIn
  rcases Nat.mod_two_eq_zero_or_one g.results.N with even | odd
  · have slowIn := ResultT.entry_mem (show g.results.N / 2 - 1 < g.results.N by omega)
    have hs := sorted.counts _ slowIn
    obtain ⟨timeFits, countFits⟩ := sums (g.results.N / 2 - 1) (g.results.N / 2) (by omega)
      (by omega)
    have order : (g.results.entry (g.results.N / 2)).quotient ≤
        (g.results.entry (g.results.N / 2 - 1)).quotient := by
      have before : g.results.N / 2 - 1 < g.results.v.length := by
        have : g.results.N = g.results.v.length := rfl
        omega
      have behind : g.results.N / 2 < g.results.v.length := Nat.div_lt_self (by omega) (by decide)
      rw [ResultT.entry, ResultT.entry, List.getD_eq_getElem _ _ before,
        List.getD_eq_getElem _ _ behind]
      exact List.pairwise_iff_getElem.mp sorted.order _ _ before behind (by omega)
    have stored : g.saveMedian =
        g.report (((g.results.entry (g.results.N / 2 - 1)).u +
            (g.results.entry (g.results.N / 2)).u) / 2)
          (((g.results.entry (g.results.N / 2 - 1)).n +
            (g.results.entry (g.results.N / 2)).n) / 2) := by
      rw [Globals.saveMedian, if_neg nonempty, if_neg (by omega)]
      change g.report (((g.results.entry (g.results.N / 2)).u + _) % 2 ^ 64 / 2)
        (((g.results.entry (g.results.N / 2)).n + _) % 2 ^ 64 / 2) = _
      rw [Nat.add_comm (g.results.entry (g.results.N / 2)).u,
        Nat.add_comm (g.results.entry (g.results.N / 2)).n]
      exact congrArg₂ (fun u n => g.report (u / 2) (n / 2)) (Nat.mod_eq_of_lt timeFits)
        (Nat.mod_eq_of_lt countFits)
    rw [stored, Globals.MedianWithin, if_neg (by omega), Globals.getN_report,
      Globals.gettime_report, Nat.mod_eq_of_lt (by omega),
      halves_between_iff hs hf order]
    exact ⟨fun within _ => within.2, fun lead => ⟨by omega, lead even⟩⟩
  · have stored : g.saveMedian = g.report (g.results.entry (g.results.N / 2)).u
        (g.results.entry (g.results.N / 2)).n := by
      rw [Globals.saveMedian, if_neg nonempty, if_pos odd]
      rfl
    refine iff_of_true ?_ fun even => by omega
    rw [stored, Globals.MedianWithin, if_pos odd, Globals.getN_report, Globals.gettime_report,
      Nat.mod_eq_of_lt (words _ fastIn)]
    exact ⟨hf, rfl⟩

/-- A set of two measurements. -/
def twoEntries (slow fast : ValueT) : Globals := ⟨.zero, ⟨[slow, fast]⟩⟩

theorem twoEntries_sorted {slow fast : ValueT} (hs : 1 ≤ slow.n) (hf : 1 ≤ fast.n)
    (order : fast.quotient ≤ slow.quotient) : (twoEntries slow fast).results.Sorted := by
  refine ⟨?_, List.pairwise_pair.mpr order⟩
  simp only [twoEntries, List.mem_cons, List.not_mem_nil, or_false, forall_eq_or_imp, forall_eq]
  exact ⟨hs, hf⟩

theorem twoEntries_sums {slow fast : ValueT} (time : slow.u + fast.u < 2 ^ 64)
    (count : slow.n + fast.n < 2 ^ 64) (i j : ℕ) (before : i < j)
    (inside : j < (twoEntries slow fast).results.N) :
    ((twoEntries slow fast).results.entry i).u + ((twoEntries slow fast).results.entry j).u <
        2 ^ 64 ∧
      ((twoEntries slow fast).results.entry i).n + ((twoEntries slow fast).results.entry j).n <
        2 ^ 64 := by
  have two : (twoEntries slow fast).results.N = 2 := rfl
  obtain ⟨rfl, rfl⟩ : i = 0 ∧ j = 1 := by omega
  exact ⟨time, count⟩

theorem medianWithin_sameCount :
    (twoEntries ⟨20, 3⟩ ⟨15, 3⟩).saveMedian.MedianWithin (twoEntries ⟨20, 3⟩ ⟨15, 3⟩).results :=
  (medianWithin_iff (by decide)
    (twoEntries_sorted (by decide) (by decide) (by norm_num [ValueT.quotient])) (by decide)
    (twoEntries_sums (by decide) (by decide))).mpr fun _ => .of_same_count rfl (by decide)

/-- **The slip.** Both measurements took ten microseconds an iteration, and fifteen are stored. -/
theorem not_medianWithin :
    ¬∀ g : Globals, g.results.N ≠ 0 → g.results.Sorted → (∀ x ∈ g.results.v, x.u < 2 ^ 64) →
      (∀ i j, i < j → j < g.results.N →
        (g.results.entry i).u + (g.results.entry j).u < 2 ^ 64 ∧
          (g.results.entry i).n + (g.results.entry j).n < 2 ^ 64) →
      g.saveMedian.MedianWithin g.results := by
  intro always
  obtain ⟨_, within⟩ := always (twoEntries ⟨20, 2⟩ ⟨10, 1⟩) (by decide)
    (twoEntries_sorted (by decide) (by decide) (by norm_num [ValueT.quotient])) (by decide)
    (twoEntries_sums (by decide) (by decide))
  rw [if_neg (by decide)] at within
  have stored : (twoEntries ⟨20, 2⟩ ⟨10, 1⟩).saveMedian.regs.gettime = 15 ∧
      (twoEntries ⟨20, 2⟩ ⟨10, 1⟩).saveMedian.regs.getN = 1 := by decide
  have high := within.2
  rw [stored.1, stored.2] at high
  norm_num [ValueT.quotient, ResultT.entry, twoEntries, ResultT.N] at high

end Lmbench
