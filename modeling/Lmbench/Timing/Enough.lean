import Lmbench.Timing.Calibration
import Lmbench.Timing.ResultStore

/-!
# How long a measurement has to be

Before its first measurement the timing library looks for the shortest interval that it can
time well. For each of a few candidates, `find_N` looks for an amount of work that takes so
long, and `test_time` checks that a little more work takes a little longer in proportion. The
time of some work is the least of ten readings, which `time_N` files in a result set of its
own.

## Main results

* `timeN_spec` - the time of some work is the least of its readings
* `results_findN`, `results_computeEnough` - the result set of the caller stays in place
* `onTarget_of_findN` - the work that is found was measured to take as long as wanted
* `computeEnough_of_steady` - on a machine of steady speed the shortest candidate is taken, also
  if nine of ten readings are disturbed
-/

namespace Lmbench

/-- What the calibration reads and changes: the globals of the library, the static variables of
`find_N`, and the number of calls of `duration`. -/
structure Calibration where
  globals : Globals
  N : ℕ
  usecs : ℕ
  runs : ℕ

/-- Before the first call. -/
def Calibration.initial (g : Globals) : Calibration := ⟨g, 10000, 0, 0⟩

/-- `test_points` -/
def testPoints : List ℚ := [1015 / 1000, 102 / 100, 1035 / 1000]

/-- `possibilities` -/
def possibilities : List ℕ := [5000, 10000, 50000, 100000]

/-- `SHORT` -/
def SHORT : ℕ := 1000000

/-- `0.98 * enough < usecs && usecs < 1.02 * enough` -/
def OnTarget (enough usecs : ℕ) : Prop :=
  (98 / 100 * enough : ℚ) < usecs ∧ (usecs : ℚ) < 102 / 100 * enough

instance (enough usecs : ℕ) : Decidable (OnTarget enough usecs) :=
  inferInstanceAs (Decidable (_ ∧ _))

section Enough

-- `clock i N` is what the call `i` of `duration` returns, where its argument is `N`
variable (dm : DataModel) (clock : ℕ → ℕ → ℕ)

/-- `time_N` -/
def timeN (N : ℕ) (s : Calibration) : ℕ × Calibration :=
  let readings := (List.range (tries - 1)).map fun i => clock (s.runs + i) N
  let r := readings.foldl (fun r usecs => insertsort usecs N r) insertinit
  let g := (s.globals.setResults r).saveMinimum
  (g.regs.gettime,
    { s with globals := g.setResults s.globals.results, runs := s.runs + (tries - 1) })

/-- The next `N` in `find_N`. -/
def adjustN (enough : ℕ) (s : Calibration) : Option ℕ :=
  if s.usecs < 1000 then some (s.N * 10 % dm.iterSpan)
  else dm.toIter? (s.N / s.usecs * enough + 1)

/-- The loop of `find_N` with so many tries left. -/
def findLoop (enough : ℕ) : ℕ → Calibration → Option (ℕ × Calibration)
  | 0, s => some (0, s)
  | left + 1, s =>
    if OnTarget enough s.usecs then some (s.N, s)
    else do
      let N ← adjustN dm enough s
      let (usecs, s) := timeN clock N s
      findLoop enough left { s with N := N, usecs := usecs }

/-- `find_N` -/
def findN (enough : ℕ) (s : Calibration) : Option (ℕ × Calibration) :=
  let s := if s.usecs = 0 then
      let (usecs, s) := timeN clock s.N s
      { s with usecs := usecs }
    else s
  findLoop dm clock enough 10 s

/-- A double as an `int` that is not negative, if it is one. -/
def toInt? (x : ℚ) : Option ℕ := if x < 2 ^ 31 then some ⌊x⌋.toNat else none

/-- A double as a `uint64`, if it is one. -/
def toUint64? (x : ℚ) : Option ℕ := if x < 2 ^ 64 then some ⌊x⌋.toNat else none

/-- One of the points of `test_time`: whether it is passed. -/
def testPoint (N baseline : ℕ) (point : ℚ) (s : Calibration) : Option (Bool × Calibration) := do
  let work ← toInt? (N * point)
  let (usecs, s) := timeN clock work s
  let expected ← toUint64? (baseline * point)
  let diff := if usecs < expected then expected - usecs else usecs - expected
  return (decide ((diff : ℚ) ≤ 25 / 10000 * expected), s)

/-- The loop of `test_time`. -/
def testAll (N baseline : ℕ) : List ℚ → Calibration → Option (Bool × Calibration)
  | [], s => some (true, s)
  | point :: points, s => do
    let (passed, s) ← testPoint clock N baseline point s
    if passed then testAll N baseline points s else some (false, s)

/-- `test_time` -/
def testTime (enough : ℕ) (s : Calibration) : Option (Bool × Calibration) := do
  let (N, s) ← findN dm clock enough s
  if N = 0 then some (false, s)
  else
    let (baseline, s) := timeN clock N s
    testAll clock N baseline testPoints s

/-- The loop of `compute_enough`. -/
def firstEnough : List ℕ → Calibration → Option (ℕ × Calibration)
  | [], s => some (SHORT, s)
  | enough :: others, s => do
    let (passed, s) ← testTime dm clock enough s
    if passed then some (enough, s) else firstEnough others s

/-- `compute_enough`, where `ENOUGH` is not set. -/
def computeEnough (s : Calibration) : Option (ℕ × Calibration) :=
  firstEnough dm clock possibilities s

end Enough

variable {dm : DataModel} {clock : ℕ → ℕ → ℕ} {s s' : Calibration} {N M enough left usecs : ℕ}

section TimeN

/-- The readings of `time_N`. -/
def readings (clock : ℕ → ℕ → ℕ) (N : ℕ) (s : Calibration) : List ValueT :=
  (List.range (tries - 1)).map fun i => ⟨clock (s.runs + i) N, N⟩

theorem timeN_fst : (timeN clock N s).1 = (s.globals.setResults
    (insertAll (readings clock N s) insertinit)).saveMinimum.regs.gettime := by
  simp only [timeN, insertAll, readings, List.foldl_map]

@[simp] theorem results_timeN : (timeN clock N s).2.globals.results = s.globals.results :=
  Globals.results_setResults _ _

@[simp] theorem runs_timeN : (timeN clock N s).2.runs = s.runs + 10 := rfl

/-- **The time of some work is the least of its readings**, if they are not zero. -/
theorem timeN_spec (positive : 1 ≤ N)
    (words : ∀ i < 10, 0 < clock (s.runs + i) N ∧ clock (s.runs + i) N < 2 ^ 64) :
    (∃ i < 10, (timeN clock N s).1 = clock (s.runs + i) N) ∧
      ∀ i < 10, (timeN clock N s).1 ≤ clock (s.runs + i) N := by
  have member : ∀ x, x ∈ readings clock N s ↔ ∃ i < 10, x = ⟨clock (s.runs + i) N, N⟩ := by
    intro x
    simp [readings, tries, eq_comm]
  have all_filed : (readings clock N s).filter (·.u ≠ 0) = readings clock N s := by
    rw [List.filter_eq_self]
    intro x there
    obtain ⟨i, small, rfl⟩ := (member x).mp there
    simpa using (words i small).1.ne'
  have counts : ∀ x ∈ readings clock N s, 1 ≤ x.n := by
    intro x there
    obtain ⟨i, -, rfl⟩ := (member x).mp there
    exact positive
  set r := insertAll (readings clock N s) insertinit with filed
  have sorted : r.Sorted := by
    apply insertAll_sorted counts
    exact ⟨fun x none_there => absurd none_there List.not_mem_nil, List.Pairwise.nil⟩
  have perm : r.v.Perm (readings clock N s) := by
    have bag := coe_insertAll_filter (readings clock N s) insertinit
    rw [all_filed, insertinit, Multiset.coe_nil, Multiset.add_zero] at bag
    exact Multiset.coe_eq_coe.mp bag
  have results : (s.globals.setResults r).results = r := Globals.results_setResults _ _
  have least := (s.globals.setResults r).saveMinimum_storesLeast (by rwa [results]) (by
    rw [results]
    intro x there
    obtain ⟨i, small, rfl⟩ := (member x).mp (perm.mem_iff.mp there)
    exact (words i small).2)
  rw [results] at least
  have some_reading : readings clock N s ≠ [] := by
    intro empty
    have first := (member ⟨clock (s.runs + 0) N, N⟩).mpr ⟨0, by omega, rfl⟩
    rw [empty] at first
    cases first
  obtain ⟨x, there, -, time, lowest⟩ := (least.of_perm perm).2 some_reading
  rw [timeN_fst, ← filed, time]
  obtain ⟨i, small, rfl⟩ := (member x).mp there
  refine ⟨⟨i, small, rfl⟩, fun j inside => ?_⟩
  have order := lowest _ ((member _).mpr ⟨j, inside, rfl⟩)
  -- the counts are the same, so the quotients compare as the times do
  have work : (0 : ℚ) < N := by exact_mod_cast positive
  simp only [ValueT.quotient, div_le_div_iff_of_pos_right work] at order
  exact_mod_cast order

end TimeN

section Frame

/-- A step of the loop. -/
theorem findLoop_succ (off : ¬ OnTarget enough s.usecs) :
    findLoop dm clock enough (left + 1) s = (adjustN dm enough s).bind fun N =>
      findLoop dm clock enough left
        { (timeN clock N s).2 with N := N, usecs := (timeN clock N s).1 } :=
  if_neg off

theorem findLoop_spec (found : findLoop dm clock enough left s = some (N, s')) :
    s'.globals.results = s.globals.results ∧
      (N ≠ 0 → N = s'.N ∧ OnTarget enough s'.usecs) := by
  induction left generalizing s with
  | zero =>
    cases found
    exact ⟨rfl, fun positive => absurd rfl positive⟩
  | succ left ih =>
    by_cases on : OnTarget enough s.usecs
    · rw [findLoop, if_pos on] at found
      cases found
      exact ⟨rfl, fun _ => ⟨rfl, on⟩⟩
    · rw [findLoop_succ on] at found
      obtain ⟨M, -, later⟩ := Option.bind_eq_some_iff.mp found
      obtain ⟨kept, target⟩ := ih later
      exact ⟨kept.trans results_timeN, target⟩

theorem results_findN (found : findN dm clock enough s = some (N, s')) :
    s'.globals.results = s.globals.results := by
  unfold findN at found
  split_ifs at found
  · exact (findLoop_spec found).1.trans results_timeN
  · exact (findLoop_spec found).1

/-- **The work that is found was measured to take as long as wanted**, with an error of at most
two percent. -/
theorem onTarget_of_findN (found : findN dm clock enough s = some (N, s')) (positive : N ≠ 0) :
    N = s'.N ∧ OnTarget enough s'.usecs := by
  unfold findN at found
  split_ifs at found
  · exact (findLoop_spec found).2 positive
  · exact (findLoop_spec found).2 positive

theorem results_testPoint {baseline : ℕ} {point : ℚ} {passed : Bool}
    (tested : testPoint clock N baseline point s = some (passed, s')) :
    s'.globals.results = s.globals.results := by
  obtain ⟨work, -, rest⟩ := Option.bind_eq_some_iff.mp tested
  obtain ⟨expected, -, rest⟩ := Option.bind_eq_some_iff.mp rest
  cases rest
  exact results_timeN

theorem results_testAll {baseline : ℕ} {points : List ℚ} {passed : Bool}
    (tested : testAll clock N baseline points s = some (passed, s')) :
    s'.globals.results = s.globals.results := by
  induction points generalizing s with
  | nil =>
    cases tested
    rfl
  | cons point points ih =>
    obtain ⟨⟨good, s₁⟩, first, rest⟩ := Option.bind_eq_some_iff.mp tested
    cases good with
    | true => exact (ih rest).trans (results_testPoint first)
    | false =>
      cases rest
      exact results_testPoint first

theorem results_testTime {passed : Bool}
    (tested : testTime dm clock enough s = some (passed, s')) :
    s'.globals.results = s.globals.results := by
  obtain ⟨⟨N, s₁⟩, found, rest⟩ := Option.bind_eq_some_iff.mp tested
  dsimp only at rest
  split_ifs at rest
  · cases rest
    exact results_findN found
  · exact (results_testAll rest).trans (results_timeN.trans (results_findN found))

theorem firstEnough_spec {candidates : List ℕ}
    (computed : firstEnough dm clock candidates s = some (enough, s')) :
    s'.globals.results = s.globals.results ∧ (enough ∈ candidates ∨ enough = SHORT) := by
  induction candidates generalizing s with
  | nil =>
    cases computed
    exact ⟨rfl, .inr rfl⟩
  | cons candidate others ih =>
    obtain ⟨⟨passed, s₁⟩, first, rest⟩ := Option.bind_eq_some_iff.mp computed
    cases passed with
    | true =>
      cases rest
      exact ⟨results_testTime first, .inl List.mem_cons_self⟩
    | false =>
      obtain ⟨kept, which⟩ := ih rest
      exact ⟨kept.trans (results_testTime first), which.imp_left (List.mem_cons_of_mem _)⟩

theorem results_computeEnough (computed : computeEnough dm clock s = some (enough, s')) :
    s'.globals.results = s.globals.results :=
  (firstEnough_spec computed).1

end Frame

section Steady

/-- A machine that does `speed` units of work in a microsecond. A reading may be any longer than
that, but of ten readings in a row one is not, up to the resolution of the clock. -/
structure Steady (clock : ℕ → ℕ → ℕ) (speed : ℚ) : Prop where
  long : ∀ i (N : ℕ), (N / speed - 1 : ℚ) < clock i N
  undisturbed : ∀ i (N : ℕ), ∃ k < 10, (clock (i + k) N : ℚ) < N / speed + 1
  word : ∀ i N, N ≤ 2 ^ 32 → clock i N < 2 ^ 64

/-- A time that is right up to the resolution of the clock. -/
def Close (speed : ℚ) (N usecs : ℕ) : Prop :=
  (N / speed - 1 : ℚ) < usecs ∧ (usecs : ℚ) < N / speed + 1

variable {speed : ℚ}

/-- The least of ten readings is right. -/
theorem close_timeN (steady : Steady clock speed) (fast : 1 ≤ speed) (work : 2 * speed ≤ N)
    (little : N ≤ 2 ^ 32) (s : Calibration) : Close speed N (timeN clock N s).1 := by
  have speed_pos : 0 < speed := by linarith
  have two : 2 ≤ N / speed := (le_div_iff₀ speed_pos).mpr work
  have some_work : 1 ≤ N := by
    have : (1 : ℚ) ≤ N := by linarith
    exact_mod_cast this
  have positive : ∀ i, 0 < clock i N := by
    intro i
    have long := steady.long i N
    have : (0 : ℚ) < clock i N := by linarith
    exact_mod_cast this
  obtain ⟨⟨i, -, is⟩, least⟩ := timeN_spec some_work fun i (_ : i < 10) =>
    (⟨positive (s.runs + i), steady.word _ _ little⟩ :
      0 < clock (s.runs + i) N ∧ clock (s.runs + i) N < 2 ^ 64)
  obtain ⟨k, small, undisturbed⟩ := steady.undisturbed s.runs N
  constructor
  · rw [is]
    exact steady.long _ _
  · have bound : ((timeN clock N s).1 : ℚ) ≤ clock (s.runs + k) N := by
      exact_mod_cast least k small
    linarith

/-- Work that took a thousand microseconds is scaled up or down to what takes as long as
wanted. -/
theorem rescaled_close (fast : 1 ≤ speed) (close : Close speed N usecs) (long : 1000 ≤ usecs)
    {x : ℚ} (is : x = N / usecs * enough) :
    (999 / 1000 * enough * speed : ℚ) ≤ x ∧ x ≤ 1001 / 1000 * enough * speed := by
  have speed_pos : 0 < speed := by linarith
  have long' : (1000 : ℚ) ≤ usecs := by exact_mod_cast long
  have usecs_pos : (0 : ℚ) < usecs := by linarith
  have wanted : (0 : ℚ) ≤ enough := Nat.cast_nonneg _
  obtain ⟨lower, upper⟩ := close
  have least : (usecs - 1) * speed ≤ N := by
    have := (lt_div_iff₀ speed_pos).mp (show (usecs - 1 : ℚ) < N / speed by linarith)
    exact this.le
  have most : (N : ℚ) ≤ (usecs + 1) * speed := by
    have := (div_lt_iff₀ speed_pos).mp (show (N / speed : ℚ) < usecs + 1 by linarith)
    exact this.le
  -- one microsecond is no more than a thousandth
  have ratio_least : 999 / 1000 * speed ≤ N / usecs := by
    rw [le_div_iff₀ usecs_pos]
    nlinarith
  have ratio_most : N / usecs ≤ 1001 / 1000 * speed := by
    rw [div_le_iff₀ usecs_pos]
    nlinarith
  rw [is]
  constructor
  · calc (999 / 1000 * enough * speed : ℚ) = 999 / 1000 * speed * enough := by ring
      _ ≤ N / usecs * enough := mul_le_mul_of_nonneg_right ratio_least wanted
  · calc (N / usecs * enough : ℚ) ≤ 1001 / 1000 * speed * enough :=
          mul_le_mul_of_nonneg_right ratio_most wanted
      _ = 1001 / 1000 * enough * speed := by ring

/-- The least count that takes at least `x` units of work. -/
theorem floor_add_one_bounds {x : ℚ} (nonneg : 0 ≤ x) :
    x < ⌊x + 1⌋.toNat ∧ (⌊x + 1⌋.toNat : ℚ) ≤ x + 1 := by
  have floor_nonneg : 0 ≤ ⌊x + 1⌋ := Int.floor_nonneg.mpr (by linarith)
  have cast : ((⌊x + 1⌋.toNat : ℕ) : ℚ) = (⌊x + 1⌋ : ℤ) := by
    have := Int.toNat_of_nonneg floor_nonneg
    exact_mod_cast this
  rw [cast]
  refine ⟨?_, Int.floor_le _⟩
  have above := Int.lt_floor_add_one (x + 1)
  linarith

/-- What the loop has found. -/
structure Found (speed : ℚ) (enough : ℕ) (s : Calibration) : Prop where
  close : Close speed s.N s.usecs
  onTarget : OnTarget enough s.usecs

variable (steady : Steady clock speed) (fast : 1 ≤ speed) (limit : speed ≤ 5000)
  (low : 1000 ≤ enough) (high : enough ≤ 100000)

include steady fast limit low high

/-- From work that takes long enough, one step leads to the target. -/
theorem findLoop_of_long (close : Close speed s.N s.usecs) (long : 1000 ≤ s.usecs) :
    ∃ c, findLoop dm clock enough (left + 2) s = some (c.N, c) ∧ Found speed enough c := by
  by_cases on : OnTarget enough s.usecs
  · exact ⟨s, if_pos on, close, on⟩
  · have speed_pos : 0 < speed := by linarith
    have low' : (1000 : ℚ) ≤ enough := by exact_mod_cast low
    have high' : (enough : ℚ) ≤ 100000 := by exact_mod_cast high
    set x : ℚ := s.N / s.usecs * enough with is
    obtain ⟨least, most⟩ := rescaled_close fast close long is
    have x_low : 999 * speed ≤ x := by nlinarith
    have x_high : x ≤ 500500000 := by nlinarith
    have nonneg : 0 ≤ x := by linarith
    obtain ⟨lower, upper⟩ := floor_add_one_bounds nonneg
    set M := ⌊x + 1⌋.toNat with M_is
    have span : ((2 ^ 32 : ℕ) : ℚ) ≤ dm.iterSpan := by exact_mod_cast dm.two_pow_le_iterSpan
    have adjusted : adjustN dm enough s = some M := by
      rw [adjustN, if_neg (not_lt.mpr long)]
      exact DataModel.toIter?_of_fits (by linarith) (by push_cast at span; linarith)
    have M_small : M ≤ 2 ^ 32 := by
      have : (M : ℚ) ≤ (2 ^ 32 : ℕ) := by push_cast; linarith
      exact_mod_cast this
    have close' := close_timeN steady fast (N := M) (by linarith) M_small s
    obtain ⟨shortest, longest⟩ := close'
    have M_low : 999 / 1000 * enough ≤ M / speed := by
      rw [le_div_iff₀ speed_pos]
      linarith
    have M_high : M / speed ≤ 1001 / 1000 * enough + 1 := by
      rw [div_le_iff₀ speed_pos]
      linarith
    have on' : OnTarget enough (timeN clock M s).1 := by
      constructor <;> linarith
    refine ⟨{ (timeN clock M s).2 with N := M, usecs := (timeN clock M s).1 }, ?_,
      ⟨shortest, longest⟩, on'⟩
    rw [findLoop_succ on, adjusted, Option.bind_some, findLoop, if_pos on']

/-- The work is multiplied by ten until it takes long enough. -/
theorem findLoop_of_steady {k : ℕ} (close : Close speed s.N s.usecs) (big : 10000 ≤ s.N)
    (top : 5005000 ≤ 10 ^ k * s.N) (enough_tries : k + 2 ≤ left) :
    ∃ c, findLoop dm clock enough left s = some (c.N, c) ∧ Found speed enough c := by
  have speed_pos : 0 < speed := by linarith
  induction k generalizing s left with
  | zero =>
    obtain ⟨more, rfl⟩ := Nat.exists_eq_add_of_le' enough_tries
    refine findLoop_of_long steady fast limit low high close ?_
    -- so much work takes a thousand microseconds
    have much : (5005000 : ℚ) ≤ s.N := by exact_mod_cast (by omega : 5005000 ≤ s.N)
    have time : 1001 ≤ s.N / speed := (le_div_iff₀ speed_pos).mpr (by linarith)
    have bound : (1000 : ℚ) < s.usecs := by linarith [close.1]
    exact_mod_cast bound.le
  | succ k ih =>
    rcases Nat.lt_or_ge s.usecs 1000 with short | long
    · by_cases on : OnTarget enough s.usecs
      · obtain ⟨more, rfl⟩ := Nat.exists_eq_add_of_le' (show 1 ≤ left by omega)
        exact ⟨s, if_pos on, close, on⟩
      · obtain ⟨more, rfl⟩ := Nat.exists_eq_add_of_le' (show 1 ≤ left by omega)
        have short' : (s.usecs : ℚ) ≤ 999 := by exact_mod_cast (by omega : s.usecs ≤ 999)
        have time : s.N / speed < 1000 := by linarith [close.1]
        have little : (s.N : ℚ) < 5000000 := by
          have := (div_lt_iff₀ speed_pos).mp time
          nlinarith
        have little' : s.N < 5000000 := by exact_mod_cast little
        have span := dm.two_pow_le_iterSpan
        have adjusted : adjustN dm enough s = some (s.N * 10) := by
          rw [adjustN, if_pos short, Nat.mod_eq_of_lt (by omega)]
        have big' : (10000 : ℚ) ≤ s.N := by exact_mod_cast big
        have close' := close_timeN steady fast (N := s.N * 10) (by push_cast; linarith) (by omega)
          s
        obtain ⟨c, returned, found⟩ := @ih
          { (timeN clock (s.N * 10) s).2 with
            N := s.N * 10, usecs := (timeN clock (s.N * 10) s).1 } more close'
          (by dsimp only; omega) (by dsimp only; rw [Nat.pow_succ] at top; linarith) (by omega)
        refine ⟨c, ?_, found⟩
        rw [findLoop_succ on, adjusted, Option.bind_some, returned]
    · obtain ⟨more, rfl⟩ := Nat.exists_eq_add_of_le' (show 2 ≤ left by omega)
      exact findLoop_of_long steady fast limit low high close long

/-- The first call finds the work for every interval that is wanted. -/
theorem findN_of_steady (g : Globals) :
    ∃ c, findN dm clock enough (.initial g) = some (c.N, c) ∧ Found speed enough c := by
  have work : (2 * speed : ℚ) ≤ (10000 : ℕ) := by push_cast; linarith
  have close := close_timeN steady fast (N := 10000) work (by omega) (.initial g)
  exact findLoop_of_steady steady fast limit low high
    (s := { (timeN clock 10000 (.initial g)).2 with usecs := (timeN clock 10000 (.initial g)).1 })
    (k := 3) close le_rfl (by dsimp only [Calibration.initial, timeN]; omega) (by omega)

end Steady

section Points

variable {speed point : ℚ} {baseline : ℕ} (steady : Steady clock speed) (fast : 1 ≤ speed)

include steady fast

/-- A little more work takes a little longer in proportion, up to a few microseconds. -/
theorem testPoint_of_steady (close : Close speed N baseline) (long : 4000 * speed ≤ N)
    (small : N ≤ 1000000000) (least : 1 ≤ point) (most : point ≤ 2) :
    ∃ s', testPoint clock N baseline point s = some (true, s') := by
  have speed_pos : 0 < speed := by linarith
  have small' : (N : ℚ) ≤ 1000000000 := by exact_mod_cast small
  have N_nonneg : (0 : ℚ) ≤ N := Nat.cast_nonneg _
  set y : ℚ := N / speed with y_is
  have y_long : 4000 ≤ y := (le_div_iff₀ speed_pos).mpr long
  have y_small : y ≤ 1000000000 := (div_le_iff₀ speed_pos).mpr (by nlinarith)
  obtain ⟨lower, upper⟩ := close
  -- the work
  have work_nonneg : (0 : ℚ) ≤ N * point := by nlinarith
  have fits : (N * point : ℚ) < 2 ^ 31 := by norm_num; nlinarith
  set work := ⌊(N * point : ℚ)⌋.toNat with work_is
  have work_cast : (work : ℚ) = ⌊(N * point : ℚ)⌋ := by
    have := Int.toNat_of_nonneg (Int.floor_nonneg.mpr work_nonneg)
    exact_mod_cast this
  have work_le : (work : ℚ) ≤ N * point := by rw [work_cast]; exact Int.floor_le _
  have lt_work : (N * point : ℚ) - 1 < work := by rw [work_cast]; exact Int.sub_one_lt_floor _
  -- its time
  have enough_work : 2 * speed ≤ work := by nlinarith
  have work_small : work ≤ 2 ^ 32 := by
    have : (work : ℚ) ≤ (2 ^ 32 : ℕ) := by push_cast; linarith
    exact_mod_cast this
  obtain ⟨shortest, longest⟩ := close_timeN steady fast enough_work work_small s
  set usecs := (timeN clock work s).1 with usecs_is
  have work_time_le : work / speed ≤ y * point := by
    rw [div_le_iff₀ speed_pos, y_is]
    calc (work : ℚ) ≤ N * point := work_le
      _ = N / speed * point * speed := by field_simp
  have lt_work_time : y * point - 1 < work / speed := by
    rw [lt_div_iff₀ speed_pos, sub_mul, y_is]
    have whole : N / speed * point * speed = N * point := by field_simp
    rw [whole]
    linarith
  -- what is expected
  have expected_nonneg : (0 : ℚ) ≤ baseline * point := by
    have : (0 : ℚ) ≤ baseline := Nat.cast_nonneg _
    nlinarith
  have fits' : (baseline * point : ℚ) < 2 ^ 64 := by norm_num; nlinarith
  set expected := ⌊(baseline * point : ℚ)⌋.toNat with expected_is
  have expected_cast : (expected : ℚ) = ⌊(baseline * point : ℚ)⌋ := by
    have := Int.toNat_of_nonneg (Int.floor_nonneg.mpr expected_nonneg)
    exact_mod_cast this
  have expected_le : (expected : ℚ) ≤ baseline * point := by
    rw [expected_cast]
    exact Int.floor_le _
  have lt_expected : (baseline * point : ℚ) - 1 < expected := by
    rw [expected_cast]
    exact Int.sub_one_lt_floor _
  have product_le : (baseline * point : ℚ) ≤ y * point + point := by nlinarith
  have le_product : y * point - point ≤ baseline * point := by nlinarith
  have passed : ((if usecs < expected then expected - usecs else usecs - expected : ℕ) : ℚ) ≤
      25 / 10000 * expected := by
    have far : (3996 : ℚ) ≤ expected := by nlinarith
    split_ifs with less
    · rw [Nat.cast_sub less.le]
      linarith
    · rw [Nat.cast_sub (not_lt.mp less)]
      linarith
  refine ⟨(timeN clock work s).2, ?_⟩
  rw [testPoint, toInt?, if_pos fits, ← work_is]
  simp only [Option.bind_eq_bind, Option.bind_some]
  rw [toUint64?, if_pos fits', ← expected_is, ← usecs_is]
  simp only [Option.bind_some, passed, decide_true]
  rfl

theorem testAll_of_steady {points : List ℚ} (close : Close speed N baseline)
    (long : 4000 * speed ≤ N) (small : N ≤ 1000000000)
    (near : ∀ point ∈ points, 1 ≤ point ∧ point ≤ 2) :
    ∃ s', testAll clock N baseline points s = some (true, s') := by
  induction points generalizing s with
  | nil => exact ⟨s, rfl⟩
  | cons point points ih =>
    obtain ⟨least, most⟩ := near point List.mem_cons_self
    obtain ⟨s₁, first⟩ :=
      testPoint_of_steady steady fast (s := s) close long small least most
    obtain ⟨s', rest⟩ := ih (s := s₁) fun p member => near p (List.mem_cons_of_mem _ member)
    refine ⟨s', ?_⟩
    rw [testAll, first]
    exact rest

/-- **On a machine of steady speed the shortest interval is taken**, whatever disturbs nine of
ten readings. -/
theorem computeEnough_of_steady (limit : speed ≤ 5000) (g : Globals) :
    ∃ s', computeEnough dm clock (.initial g) = some (5000, s') ∧
      s'.globals.results = g.results := by
  have speed_pos : 0 < speed := by linarith
  obtain ⟨c, found, close, onTarget⟩ : ∃ c, findN dm clock 5000 (.initial g) = some (c.N, c) ∧
      Found speed 5000 c := findN_of_steady steady fast limit (by omega) (by omega) g
  have short : (c.usecs : ℚ) < 5100 := by
    have := onTarget.2
    push_cast at this
    linarith
  have long : (4900 : ℚ) < c.usecs := by
    have := onTarget.1
    push_cast at this
    linarith
  have work_le : (c.N : ℚ) ≤ 5101 * speed :=
    (div_le_iff₀ speed_pos).mp (by linarith [close.1])
  have le_work : 4000 * speed ≤ c.N := (le_div_iff₀ speed_pos).mp (by linarith [close.2])
  have small : c.N ≤ 1000000000 := by
    have : (c.N : ℚ) ≤ 1000000000 := by nlinarith
    exact_mod_cast this
  have nonzero : c.N ≠ 0 := by
    intro zero
    rw [zero, Nat.cast_zero] at le_work
    linarith
  have baseline := close_timeN steady fast (N := c.N) (by linarith) (by omega) c
  have near : ∀ point ∈ testPoints, (1 : ℚ) ≤ point ∧ point ≤ 2 := by
    intro point member
    simp only [testPoints, List.mem_cons, List.not_mem_nil, or_false] at member
    rcases member with rfl | rfl | rfl <;> constructor <;> norm_num
  obtain ⟨s', tested⟩ :=
    testAll_of_steady steady fast (s := (timeN clock c.N c).2) baseline le_work small near
  have passed : testTime dm clock 5000 (.initial g) = some (true, s') := by
    rw [testTime, found]
    simp only [Option.bind_eq_bind, Option.bind_some, if_neg nonzero]
    exact tested
  refine ⟨s', ?_, results_testTime passed⟩
  rw [computeEnough, possibilities, firstEnough, passed]
  rfl

end Points

/-- One unit in a microsecond, and all but one of ten readings are longer. -/
theorem computeEnough_of_steady_disturbed :
    ∃ s', computeEnough .lp64 (fun i N => if i % 10 = 3 then N else N + 777)
      (.initial .initial) = some (5000, s') ∧ s'.globals.results = Globals.initial.results := by
  have steady : Steady (fun i N => if i % 10 = 3 then N else N + 777) 1 := by
    refine ⟨?_, ?_, ?_⟩
    · intro i N
      split_ifs
      · linarith
      · push_cast
        linarith
    · intro i N
      refine ⟨(13 - i % 10) % 10, Nat.mod_lt _ (by omega), ?_⟩
      rw [if_pos (by omega)]
      linarith
    · intro i N little
      split_ifs <;> omega
  exact computeEnough_of_steady steady le_rfl (by norm_num) _

end Lmbench
