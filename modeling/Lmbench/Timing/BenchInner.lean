import Lmbench.Timing.Calibration

/-!
# The measurement loop `BENCH_INNER`

The macro runs its body `__iterations` times between `start` and `stop` until
the reading reaches 0.95 times `enough`. The count is re-tuned after every pass
that is off target, and the final count is stored next to the final reading.
The last pass may itself be off target: the loop then ends with a count that
the pass did not run with.

## Main results

* `benchInner_labelled_iff` - the stored pair is the last pass exactly when every count
  fits, and that pass is on target or its re-tuned count is the count it ran with
* `benchInner_mislabels` - one pass of one iteration is stored with count two
-/

namespace Lmbench

/-- What one evaluation of the re-tuning statement leads to. -/
inductive Retuned
  /-- Go on with this value of `__iterations`. -/
  | next (iterations : ℕ)
  /-- `__result = 0.; break;` -/
  | giveUp
  /-- The conversion to `iter_t` does not fit, which C leaves undefined. -/
  | undefined
deriving DecidableEq, Repr

/-- One pass of the macro's loop: the iterations its body executed and the
reading of `stop(0,0)`. -/
structure Pass where
  executed : ℕ
  elapsed : ℕ
deriving DecidableEq, Repr

/-- How the macro ends on a given sequence of clock readings. -/
inductive BenchExit
  /-- All readings are consumed and the loop is still running. -/
  | running
  /-- A conversion was undefined. -/
  | undefined
  /-- The arguments of `save_n` and `settime`, and the passes that were timed. -/
  | left (iterations result : ℕ) (passes : List Pass)
deriving DecidableEq, Repr

section BenchInner

variable (dm : DataModel) (enough : ℤ)

/-- The re-tuning statement after a pass of `iterations` that read `result`. -/
def retune (iterations result : ℕ) : Retuned :=
  if OffTarget enough result then
    if 150 < result then
      match dm.toIter? (rescaled enough iterations result) with
      | some n => .next n
      | none => .undefined
    -- the bound is tested before the shift
    else if 1 <<< 27 < iterations then .giveUp
    else .next (dm.shiftIter iterations)
  else .next iterations

/-- The loop `while (__result < 0.95 * __enough)`, with the value of
`__iterations`, of `__result` and the passes made so far. -/
def benchLoop : List ℕ → ℕ → ℕ → List Pass → BenchExit
  | [], iterations, result, passes =>
    if (result : ℚ) < 95 / 100 * enough then .running else .left iterations result passes
  | reading :: readings, iterations, result, passes =>
    if (result : ℚ) < 95 / 100 * enough then
      let passes := passes ++ [⟨iterations, reading⟩]
      -- the count is re-tuned whether or not another pass follows
      match retune dm enough iterations reading with
      | .next n => benchLoop readings n reading passes
      | .giveUp => .left iterations 0 passes
      | .undefined => .undefined
    else .left iterations result passes

/-- `BENCH_INNER(loop_body, enough)` entered with the static counter at
`iterations`; `enough` is the value that `get_enough` returned. -/
def benchInner (iterations : ℕ) (readings : List ℕ) : BenchExit :=
  benchLoop dm enough readings iterations 0 []

/-- A nonzero stored time comes with the count and the reading of the last pass. -/
def BenchExit.Labelled : BenchExit → Prop
  | .running => True
  | .undefined => False
  | .left iterations result passes =>
    result ≠ 0 → passes.getLast? = some ⟨iterations, result⟩

/-- The static counter after the passes that read `readings`, all of them short
of 0.95 times `enough`. -/
def countAfter : ℕ → List ℕ → Option ℕ
  | iterations, [] => some iterations
  | iterations, reading :: readings =>
    if (reading : ℚ) < 95 / 100 * enough then
      match retune dm enough iterations reading with
      | .next n => countAfter n readings
      | _ => none
    else none

/-- The static counter is `iterations` when the pass begins that reads `result`. -/
def TimedPass (first : ℕ) (readings : List ℕ) (iterations result : ℕ) : Prop :=
  0 < enough ∧ ∃ before after, readings = before ++ result :: after ∧
    countAfter dm enough first before = some iterations

/-- A count that is rescaled after the pass fits in `iter_t`. -/
def RescaleFits (iterations result : ℕ) : Prop :=
  OffTarget enough result → 150 < result → rescaled enough iterations result < dm.iterSpan

/-- The condition on the final pass: on target; or long, and within one
iteration's share of `1.1 * enough`; or too short to be rescaled with a count
beyond the shift bound, so that the time is discarded. -/
def LabelSafe (iterations result : ℕ) : Prop :=
  ¬OffTarget enough result ∨
  (6 / 5 * enough < (result : ℚ) ∧ 150 < result ∧
    ((iterations : ℚ) - 1) * result ≤ 11 / 10 * enough * iterations) ∨
  (result ≤ 150 ∧ 2 ^ 27 < iterations)

/-- The condition on a pass, which is the final one if it reaches 0.95 times `enough`. -/
def PassSafe (iterations result : ℕ) : Prop :=
  RescaleFits dm enough iterations result ∧
    ((95 / 100 * enough : ℚ) ≤ result → LabelSafe enough iterations result)

end BenchInner

section Lemmas

variable {dm : DataModel} {enough : ℤ} {iterations result : ℕ}

/-- The counter never drops to zero. -/
theorem one_le_of_retune {n : ℕ} (ran : 1 ≤ iterations) (nonneg : 0 ≤ enough)
    (tuned : retune dm enough iterations result = .next n) : 1 ≤ n := by
  unfold retune at tuned
  split_ifs at tuned with off long large
  · split at tuned
    · rename_i m defined
      obtain rfl : m = n := by simpa using tuned
      have positive : (0 : ℚ) < result := by
        have : 0 < result := by omega
        exact_mod_cast this
      have one_le := one_le_rescaled (n := iterations) nonneg positive
      have converted : ⌊rescaled enough iterations result⌋.toNat = m := by
        obtain ⟨_, same⟩ := by simpa [DataModel.toIter?] using defined
        exact same
      have floor_pos : 1 ≤ ⌊rescaled enough iterations result⌋ :=
        Int.le_floor.mpr (by exact_mod_cast one_le)
      omega
    · simp at tuned
  · have bound := dm.two_pow_le_iterSpan
    have small : 8 * iterations < dm.iterSpan := by
      have : iterations ≤ 1 <<< 27 := not_lt.mp large
      omega
    obtain rfl : dm.shiftIter iterations = n := by simpa using tuned
    rw [DataModel.shiftIter_of_fits small]
    omega
  · obtain rfl : iterations = n := by simpa using tuned
    exact ran

/-- When the conversion to `iter_t` is defined. -/
theorem retune_ne_undefined_iff (nonneg : 0 ≤ enough) :
    retune dm enough iterations result ≠ .undefined ↔ RescaleFits dm enough iterations result := by
  unfold retune RescaleFits
  by_cases off : OffTarget enough (result : ℚ)
  · by_cases long : 150 < result
    · have resultPos : (0 : ℚ) < result := by
        have : 0 < result := by omega
        exact_mod_cast this
      have lower := one_le_rescaled (n := iterations) nonneg resultPos
      simp only [off, long, if_true, true_implies]
      by_cases fits : rescaled enough iterations result < dm.iterSpan
      · have defined := DataModel.toIter?_of_fits (zero_le_one.trans lower) fits
        simp [defined, fits]
      · have undefined : dm.toIter? (rescaled enough iterations result) = none :=
          if_neg fun both => fits both.2
        simp [undefined, fits]
    · simp only [off, long, if_true, if_false, false_implies, implies_true, iff_true]
      split <;> simp
  · simp [off]

/-- What re-tuning the final pass must give for the pair to be labelled. -/
theorem retune_ok_iff (ran : 1 ≤ iterations) (positive : 0 < enough)
    (fits : RescaleFits dm enough iterations result) :
    (∀ n, retune dm enough iterations result = .next n → n = iterations) ↔
      LabelSafe enough iterations result := by
  have nonneg := positive.le
  unfold retune LabelSafe
  by_cases off : OffTarget enough (result : ℚ)
  swap
  · simp [off]
  have target : (0 : ℚ) < enough := by exact_mod_cast positive
  by_cases long : 150 < result
  · -- the pass is long enough to be rescaled
    have resultPos : (0 : ℚ) < result := by
      have : 0 < result := by omega
      exact_mod_cast this
    have notShort : ¬result ≤ 150 := by omega
    simp only [off, long, notShort, not_true_eq_false, false_or, if_true, true_and, false_and,
      or_false]
    have lower := one_le_rescaled (n := iterations) nonneg resultPos
    have defined := DataModel.toIter?_of_fits (zero_le_one.trans lower) (fits off long)
    simp only [defined, Retuned.next.injEq, forall_eq']
    rw [rescaled_toNat_eq_iff nonneg resultPos ran]
    -- a reading below the target always makes the count larger
    rcases off with short | above
    · have notOver : ¬6 / 5 * (enough : ℚ) < result := by linarith
      have notMore : ¬11 / 10 * (enough : ℚ) < result := by linarith
      simp [notOver, notMore]
    · have more : 11 / 10 * (enough : ℚ) < result := by linarith
      simp [above, more]
  · -- the count is shifted, which changes it, unless the pass is given up
    have short : result ≤ 150 := not_lt.mp long
    by_cases large : 1 <<< 27 < iterations
    · have beyond : 2 ^ 27 < iterations := by simpa using large
      simp only [off, long, large, short, beyond, if_true, if_false, reduceCtorEq,
        false_implies, implies_true, and_self, or_true]
    · have small : ¬2 ^ 27 < iterations := by simpa using large
      have bound := dm.two_pow_le_iterSpan
      have shifted : dm.shiftIter iterations = 8 * iterations :=
        DataModel.shiftIter_of_fits (by omega)
      simp only [off, long, large, small, if_true, if_false, not_true_eq_false,
        and_false, false_and, or_false, Retuned.next.injEq, forall_eq', iff_false, shifted]
      omega

end Lemmas

section Main

variable {dm : DataModel} {enough : ℤ}

/-- Once a reading has ended the loop, nothing else happens. -/
theorem benchLoop_of_reached {iterations result : ℕ} {passes : List Pass}
    (reached : (95 / 100 * enough : ℚ) ≤ result) (readings : List ℕ) :
    benchLoop dm enough readings iterations result passes = .left iterations result passes := by
  cases readings <;> simp [benchLoop, not_lt.mpr reached]

/-- The first pass, and if it is short those behind it. -/
theorem timedPass_cons_iff {iterations reading n r : ℕ} {readings : List ℕ} :
    TimedPass dm enough iterations (reading :: readings) n r ↔
      0 < enough ∧ n = iterations ∧ r = reading ∨
        (reading : ℚ) < 95 / 100 * enough ∧
          ∃ m, retune dm enough iterations reading = .next m ∧
            TimedPass dm enough m readings n r := by
  constructor
  · rintro ⟨positive, before, after, split, counted⟩
    cases before with
    | nil =>
      obtain ⟨rfl, rfl⟩ := by simpa using split
      exact .inl ⟨positive, by simpa [countAfter] using counted.symm, rfl⟩
    | cons head tail =>
      obtain ⟨rfl, rfl⟩ := by simpa using split
      by_cases short : (reading : ℚ) < 95 / 100 * enough
      · simp only [countAfter, short, if_true] at counted
        cases tuned : retune dm enough iterations reading with
        | next m =>
          rw [tuned] at counted
          exact .inr ⟨short, m, rfl, positive, tail, after, rfl, counted⟩
        | giveUp => simp [tuned] at counted
        | undefined => simp [tuned] at counted
      · simp [countAfter, short] at counted
  · rintro (⟨positive, rfl, rfl⟩ | ⟨short, m, tuned, positive, before, after, rfl, counted⟩)
    · exact ⟨positive, [], readings, rfl, rfl⟩
    · refine ⟨positive, reading :: before, after, rfl, ?_⟩
      simp [countAfter, short, tuned, counted]

/-- The labelling of a loop that is about to make another pass. -/
theorem benchLoop_labelled_iff (positive : 0 < enough) (readings : List ℕ) :
    ∀ {iterations result : ℕ} {passes : List Pass}, 1 ≤ iterations →
      (result : ℚ) < 95 / 100 * enough →
      ((benchLoop dm enough readings iterations result passes).Labelled ↔
        ∀ n r, TimedPass dm enough iterations readings n r → PassSafe dm enough n r) := by
  -- induction on the readings: each one is either the final pass or a short pass
  induction readings with
  | nil =>
    intro iterations result passes _ short
    simp [benchLoop, short, BenchExit.Labelled, TimedPass]
  | cons reading readings ih =>
    intro iterations result passes ran short
    have here : (∀ n r, TimedPass dm enough iterations (reading :: readings) n r →
        PassSafe dm enough n r) ↔ PassSafe dm enough iterations reading ∧
          ((reading : ℚ) < 95 / 100 * enough → ∀ m,
            retune dm enough iterations reading = .next m →
              ∀ n r, TimedPass dm enough m readings n r → PassSafe dm enough n r) := by
      constructor
      · intro safe
        refine ⟨safe _ _ (timedPass_cons_iff.mpr (.inl ⟨positive, rfl, rfl⟩)), ?_⟩
        intro shortPass m tuned n r later
        exact safe n r (timedPass_cons_iff.mpr (.inr ⟨shortPass, m, tuned, later⟩))
      · rintro ⟨first, rest⟩ n r timed
        rcases timedPass_cons_iff.mp timed with ⟨_, rfl, rfl⟩ | ⟨shortPass, m, tuned, later⟩
        · exact first
        · exact rest shortPass m tuned n r later
    rw [here, PassSafe, benchLoop, if_pos short, ← retune_ne_undefined_iff positive.le]
    by_cases reached : (95 / 100 * enough : ℚ) ≤ reading
    · -- this pass ends the loop
      have target : (0 : ℚ) < enough := by exact_mod_cast positive
      have readingPos : reading ≠ 0 := by
        rintro rfl
        rw [Nat.cast_zero] at reached
        linarith
      simp only [reached, true_implies, not_lt.mpr reached, false_implies, and_true]
      by_cases defined : retune dm enough iterations reading = .undefined
      · simp [defined, BenchExit.Labelled]
      · have fits := (retune_ne_undefined_iff positive.le).mp defined
        rw [← retune_ok_iff ran positive fits]
        cases tuned : retune dm enough iterations reading with
        | next m =>
          simp [benchLoop_of_reached reached, BenchExit.Labelled, readingPos, eq_comm]
        | giveUp => simp [BenchExit.Labelled]
        | undefined => exact absurd tuned defined
    · have shortPass := not_le.mp reached
      simp only [reached, false_implies, and_true, shortPass, true_implies]
      cases tuned : retune dm enough iterations reading with
      | next m =>
        simpa using ih (one_le_of_retune ran positive.le tuned) shortPass
      | giveUp => simp [BenchExit.Labelled]
      | undefined => simp [BenchExit.Labelled]

/-- **When `BENCH_INNER` labels its measurement.** The stored pair is the pair
of the last pass if and only if every count that a pass is re-tuned to fits, and
the final pass is on target, or re-tuning gives the count it ran with back, or
its time is discarded. -/
theorem benchInner_labelled_iff (dm : DataModel) (enough : ℤ) (first : ℕ) (readings : List ℕ)
    (ran : 1 ≤ first) :
    (benchInner dm enough first readings).Labelled ↔
      ∀ n r, TimedPass dm enough first readings n r → PassSafe dm enough n r := by
  by_cases positive : 0 < enough
  · refine benchLoop_labelled_iff positive readings ran ?_
    have target : (0 : ℚ) < enough := by exact_mod_cast positive
    rw [Nat.cast_zero]
    linarith
  · have target : (enough : ℚ) ≤ 0 := by exact_mod_cast not_lt.mp positive
    have never : (95 / 100 * enough : ℚ) ≤ (0 : ℕ) := by
      rw [Nat.cast_zero]
      linarith
    rw [benchInner, benchLoop_of_reached never]
    simp [BenchExit.Labelled, TimedPass, positive]

/-- A single pass of 10 iterations, exactly on target. -/
theorem benchInner_labelled_iff_on_target :
    (benchInner DataModel.lp64 10000 10 [10000]).Labelled := by
  refine (benchInner_labelled_iff DataModel.lp64 10000 10 [10000] (by decide)).mpr ?_
  intro n r timed
  rcases timedPass_cons_iff.mp timed with ⟨_, rfl, rfl⟩ | ⟨short, _⟩
  · have onTarget : ¬OffTarget 10000 (10000 : ℕ) := by
      unfold OffTarget
      norm_num
    exact ⟨fun off => absurd off onTarget, fun _ => .inl onTarget⟩
  · norm_num at short

/-- **The slip.** A pass of one iteration that reads 9600 microseconds ends the
loop, but is off target by the re-tuning test, so it is stored with count two. -/
theorem benchInner_mislabels :
    benchInner DataModel.lp64 10000 1 [9600] = .left 2 9600 [⟨1, 9600⟩] ∧
      ¬(benchInner DataModel.lp64 10000 1 [9600]).Labelled := by
  have stored : benchInner DataModel.lp64 10000 1 [9600] = .left 2 9600 [⟨1, 9600⟩] := by
    decide +kernel
  rw [stored]
  exact ⟨rfl, by simp [BenchExit.Labelled]⟩

end Main

end Lmbench
