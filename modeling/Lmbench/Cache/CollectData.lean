import Lmbench.Cache.Spare

/-!
# The samples of `collect_data`

`collect_data` times the largest sample first. While that fails it takes the sample for
unusable and turns to the one below, and there it looks at what is stored before it has
measured anything. Whatever sample is timed, `measure` closes the cycle in the last line
that is used of the last page.

## Main results

* `discard_eq` - once the largest sample has failed the loop runs out of the data points
* `fallsBack_iff` - so a usable sample is found only where there was nothing to fall back from
* `lastLine_iff` - a sample that is shorter than a line has no last line
-/

namespace Lmbench

/-! ### Falling back to a smaller sample -/

section Model

variable (measured : ℕ → ℕ → ℚ)

/-- `collect_data` from its first call of `measure` on: the field `latency` of each data point,
the variable `samples`, the number of calls of `measure` and the data points these were for. -/
structure Fallback where
  latency : List ℚ
  samples : ℤ
  calls : ℕ
  tried : List ℕ

/-- The data points are initialized. -/
def Fallback.initial (samples : ℕ) : Fallback := ⟨List.replicate samples (-1), samples, 0, []⟩

/-- The index `samples-1`, if it is that of a data point. -/
def Fallback.top (f : Fallback) : Option ℕ :=
  if 0 < f.samples ∧ f.samples ≤ f.latency.length then some (f.samples - 1).toNat else none

/-- `p[i].latency = measure(p[i].len, ...)`, where `measured n i` is what the call of number
`n` returns for data point `i`. -/
def Fallback.measure (f : Fallback) (i : ℕ) : Fallback :=
  { f with
    latency := f.latency.set i (measured f.calls i)
    calls := f.calls + 1
    tried := i :: f.tried }

/-- How the loop that discards samples ends. -/
inductive FallbackResult
  | usable (f : Fallback)
  /-- `p[samples-1]` is read, and is no data point. -/
  | outside (f : Fallback)
  | unfinished

/-- `while (p[samples-1].latency <= 0.0)`. -/
def discard : ℕ → Fallback → FallbackResult
  | 0, _ => .unfinished
  | fuel + 1, f =>
    match f.top with
    | none => .outside f
    | some i =>
      if f.latency.getD i 0 ≤ 0 then
        -- the sample that failed is measured once more, and given up
        discard fuel { f.measure measured i with samples := f.samples - 1 }
      else .usable f

/-- The first measurement and the loop. -/
def fallBack (samples fuel : ℕ) : FallbackResult :=
  match (Fallback.initial samples).top with
  | none => .outside (.initial samples)
  | some i => discard measured fuel ((Fallback.initial samples).measure measured i)

/-- The loop ends inside the data points, with the largest sample whose measurement was
positive: every larger one has been measured, and failed. -/
def FallsBack (samples : ℕ) : Prop :=
  ∃ fuel f i, fallBack measured samples fuel = .usable f ∧ 1 ≤ f.samples ∧ f.top = some i ∧
    i ∈ f.tried ∧ 0 < f.latency.getD i 0 ∧
    ∀ j, i < j → j < samples → j ∈ f.tried ∧ f.latency.getD j 0 ≤ 0

end Model

section Fallback

variable {measured : ℕ → ℕ → ℚ}

@[simp] theorem Fallback.length_measure (f : Fallback) (i : ℕ) :
    (f.measure measured i).latency.length = f.latency.length := List.length_set

theorem Fallback.getD_measure (f : Fallback) {i : ℕ} (inside : i < f.latency.length) :
    (f.measure measured i).latency.getD i 0 = measured f.calls i := by
  rw [measure, List.getD_eq_getElem?_getD, List.getElem?_set_self inside, Option.getD_some]

theorem Fallback.getD_measure_ne (f : Fallback) {i j : ℕ} (other : i ≠ j) :
    (f.measure measured i).latency.getD j 0 = f.latency.getD j 0 := by
  rw [measure, List.getD_eq_getElem?_getD, List.getElem?_set_ne other, List.getD_eq_getElem?_getD]

theorem Fallback.top_eq {f : Fallback} {k : ℕ} (samples : f.samples = (k + 1 : ℕ))
    (stored : k < f.latency.length) : f.top = some k := by
  rw [top, if_pos (by omega), samples]
  congr 1
  omega

/-- **Nothing stops the loop** once the data points below `samples` hold nothing positive: it
discards them all and reads `p[-1]`. -/
theorem discard_eq (measured : ℕ → ℕ → ℚ) (k : ℕ) (f : Fallback) (samples : f.samples = k)
    (stored : k ≤ f.latency.length) (failing : ∀ j < k, f.latency.getD j 0 ≤ 0) :
    ∃ g, g.samples = 0 ∧ ∀ fuel,
      discard measured fuel f = if fuel ≤ k then .unfinished else .outside g := by
  induction k generalizing f with
  | zero =>
    refine ⟨f, samples, fun fuel => ?_⟩
    cases fuel with
    | zero => rfl
    | succ fuel =>
      have none : f.top = none := if_neg (by omega)
      rw [discard, none, if_neg (by omega)]
  | succ k ih =>
    -- the data points further down are those of before, most of them not measured yet
    have below : ∀ j < k, (f.measure measured k).latency.getD j 0 ≤ 0 := fun j hj => by
      rw [f.getD_measure_ne (by omega)]
      exact failing j (by omega)
    obtain ⟨g, empty, rest⟩ := ih { f.measure measured k with samples := f.samples - 1 }
      (by simp only; omega) (by simp only [Fallback.length_measure]; omega) below
    refine ⟨g, empty, fun fuel => ?_⟩
    cases fuel with
    | zero => rfl
    | succ fuel =>
      rw [discard, Fallback.top_eq samples (by omega)]
      simp only [Nat.add_le_add_iff_right]
      rw [if_pos (failing k (by omega)), rest fuel]

theorem Fallback.top_initial {samples : ℕ} (some : 0 < samples) :
    (Fallback.initial samples).top = .some (samples - 1) :=
  top_eq (by simp only [initial]; omega) (by simp only [initial, List.length_replicate]; omega)

theorem Fallback.getD_initial {samples j : ℕ} (inside : j < samples) :
    (Fallback.initial samples).latency.getD j 0 = -1 := by
  rw [initial, List.getD_eq_getElem?_getD, List.getElem?_replicate, if_pos inside,
    Option.getD_some]

theorem fallBack_eq (measured : ℕ → ℕ → ℚ) (k fuel : ℕ) :
    fallBack measured (k + 1) fuel =
      discard measured fuel ((Fallback.initial (k + 1)).measure measured k) := by
  rw [fallBack, Fallback.top_initial (Nat.succ_pos k)]
  rfl

theorem Fallback.first_measure (measured : ℕ → ℕ → ℚ) (k : ℕ) :
    ((initial (k + 1)).measure measured k).latency.getD k 0 = measured 0 k :=
  getD_measure _ (by simp only [initial, List.length_replicate]; omega)

/-- A first measurement that fails is not made good. -/
theorem not_fallsBack_of_failed {k : ℕ} (failed : measured 0 k ≤ 0) :
    ¬FallsBack measured (k + 1) := by
  rintro ⟨fuel, f, i, returned, _⟩
  have failing : ∀ j < k + 1,
      ((Fallback.initial (k + 1)).measure measured k).latency.getD j 0 ≤ 0 := by
    intro j hj
    by_cases last : k = j
    · rwa [← last, Fallback.first_measure]
    · rw [Fallback.getD_measure_ne _ last, Fallback.getD_initial hj]
      norm_num
  obtain ⟨g, _, outcome⟩ := discard_eq measured (k + 1) _ rfl
    (by simp only [Fallback.length_measure, Fallback.initial, List.length_replicate, le_refl])
    failing
  rw [fallBack_eq, outcome] at returned
  split at returned <;> cases returned

/-- **When a usable sample is found.** Whatever `measure` returns, call by call: the loop finds
the largest sample whose measurement is positive if and only if that is the first measurement
of the largest sample of all. -/
theorem fallsBack_iff (measured : ℕ → ℕ → ℚ) {samples : ℕ} (some : 0 < samples) :
    FallsBack measured samples ↔ 0 < measured 0 (samples - 1) := by
  obtain ⟨k, rfl⟩ : ∃ k, samples = k + 1 := ⟨samples - 1, by omega⟩
  rw [Nat.add_sub_cancel]
  constructor
  · intro found
    by_contra failed
    exact not_fallsBack_of_failed (not_lt.mp failed) found
  · intro positive
    have top : ((Fallback.initial (k + 1)).measure measured k).top = .some k :=
      Fallback.top_eq rfl (by
        simp only [Fallback.length_measure, Fallback.initial, List.length_replicate]
        omega)
    refine ⟨1, (Fallback.initial (k + 1)).measure measured k, k, ?_, ?_, top, ?_, ?_, ?_⟩
    · rw [fallBack_eq, discard, top]
      simp only
      rw [Fallback.first_measure, if_neg (not_le.mpr positive)]
    · show (1 : ℤ) ≤ (k + 1 : ℕ)
      omega
    · exact List.mem_cons_self
    · rwa [Fallback.first_measure]
    · intro j above inside
      omega

theorem fallsBack_three : FallsBack (fun _ _ => 5) 3 :=
  (fallsBack_iff (fun _ _ => 5) (show 0 < 3 by decide)).mpr (by norm_num)

/-- **The slip.** The largest of three samples cannot be timed, both others always can. -/
theorem not_fallsBack : ¬∀ (measured : ℕ → ℕ → ℚ) (samples : ℕ),
    (∃ i < samples, ∀ n, 0 < measured n i) → FallsBack measured samples := by
  intro always
  have found := always (fun _ i => if i = 2 then 0 else 5) 3
    ⟨0, by decide, fun n => by norm_num⟩
  exact not_fallsBack_of_failed (k := 2) (by norm_num) found

end Fallback

/-! ### The last line of a sample -/

/-- `measure` indexes `lines` inside its bounds: there is a last line of the last page, and
`nlines - 1` is an index below `state->nlines`. -/
def MemState.LastLine (dm : DataModel) (s : MemState) (size : ℕ) : Prop :=
  1 ≤ s.linesOf size ∧ dm.subSize (s.linesOf size) 1 < s.nlines

/-- The grid has four lengths between one power of two and the next. -/
theorem exists_of_mem_sampleLens {maxlen fuel k len : ℕ}
    (sample : len ∈ sampleLens maxlen fuel (4 * 2 ^ k) (2 ^ k)) :
    ∃ i j, k ≤ i ∧ j < 4 ∧ len = (4 + j) * 2 ^ i := by
  induction fuel generalizing k with
  | zero => exact absurd sample List.not_mem_nil
  | succ fuel ih =>
    rw [sampleLens] at sample
    split at sample
    · rcases List.mem_append.mp sample with here | later
      · obtain ⟨j, hj, rfl⟩ := List.mem_map.mp (List.mem_filter.mp here).1
        exact ⟨k, j, le_rfl, List.mem_range.mp hj, by ring⟩
      · have next : 4 * 2 ^ k + 4 * 2 ^ k = 4 * 2 ^ (k + 1) := by ring
        have twice : 2 * 2 ^ k = 2 ^ (k + 1) := by ring
        rw [next, twice] at later
        obtain ⟨i, j, above, hj, rfl⟩ := ih later
        exact ⟨i, j, by omega, hj, rfl⟩
    · exact absurd sample List.not_mem_nil

/-- What a length of at least a page leaves over of its last page is a quarter of it or more. -/
theorem quarter_le_mod {i j m : ℕ} (hj : j < 4) (page : 2 ^ m ≤ (4 + j) * 2 ^ i) :
    (4 + j) * 2 ^ i % 2 ^ m = 0 ∨ 2 ^ m ≤ 4 * ((4 + j) * 2 ^ i % 2 ^ m) := by
  have positive : 0 < 2 ^ i := Nat.two_pow_pos i
  by_cases whole : m ≤ i
  · exact .inl (Nat.mod_eq_zero_of_dvd ((pow_dvd_pow 2 whole).mul_left _))
  · have below : 2 ^ m < 2 ^ (i + 3) :=
      calc 2 ^ m ≤ (4 + j) * 2 ^ i := page
        _ < 8 * 2 ^ i := Nat.mul_lt_mul_of_pos_right (by omega) positive
        _ = 2 ^ (i + 3) := by ring
    have exponent : m < i + 3 := (Nat.pow_lt_pow_iff_right (by decide)).mp below
    obtain rfl | rfl : m = i + 1 ∨ m = i + 2 := by omega
    · rw [show 2 ^ (i + 1) = 2 * 2 ^ i by ring, Nat.mul_mod_mul_right]
      rcases Nat.mod_two_eq_zero_or_one (4 + j) with even | odd
      · exact .inl (by rw [even, Nat.zero_mul])
      · exact .inr (by rw [odd]; omega)
    · rw [show 2 ^ (i + 2) = 4 * 2 ^ i by ring, Nat.mul_mod_mul_right]
      by_cases none : (4 + j) % 4 = 0
      · exact .inl (by rw [none, Nat.zero_mul])
      · exact .inr (Nat.mul_le_mul_left 4 (Nat.le_mul_of_pos_left _ (by omega)))

section LastLine

variable {dm : DataModel} {s : MemState}

theorem MemState.linesOf_congr {size size' : ℕ} (same : size % s.pagesize = size' % s.pagesize) :
    s.linesOf size = s.linesOf size' := by
  rw [linesOf, linesOf, same]

/-- One line at least is enough: there are never more than the page has. -/
theorem MemState.lastLine_iff_pos (line : 0 < s.line) (divides : s.line ∣ s.pagesize)
    (page : 0 < s.pagesize) (size : ℕ) : s.LastLine dm size ↔ 1 ≤ s.linesOf size := by
  constructor
  · exact fun last => last.1
  · intro some
    refine ⟨some, ?_⟩
    have most : s.linesOf size ≤ s.nlines := by
      rw [linesOf]
      split
      · exact Nat.div_le_div_right (Nat.mod_lt _ page).le
      · exact le_rfl
    rw [subSize_of_le some]
    have lines : 0 < s.nlines := Nat.div_pos (Nat.le_of_dvd page divides) line
    omega

/-- **When `measure` stays inside `lines`.** For every power-of-two page and every line that
divides it into eight or more: whatever whole chunk of pages is removed from a sample on the
grid, `measure` indexes `lines` inside its bounds if and only if the sample is a line long. -/
theorem lastLine_iff (dm : DataModel) (s : MemState) {m : ℕ} (page : s.pagesize = 2 ^ m)
    (divides : s.line ∣ s.pagesize) (eighth : s.line ≤ s.pagesize / 8) (maxlen : ℕ)
    {len : ℕ} (sample : len ∈ sampleGrid maxlen) {chunk : ℕ} (part : chunk < s.pagesOf len) :
    s.LastLine dm (len - chunk * s.pagesize) ↔ s.line ≤ len := by
  have positive : 0 < s.pagesize := page ▸ Nat.two_pow_pos m
  have line : 0 < s.line := Nat.pos_of_dvd_of_pos divides positive
  -- removing whole pages leaves the last page as it is
  have removed : chunk * s.pagesize ≤ len := by
    have most : chunk * s.pagesize + s.pagesize ≤ len + s.pagesize - 1 := by
      rw [← Nat.succ_mul]
      exact (Nat.mul_le_mul_right _ part).trans (Nat.div_mul_le_self _ _)
    omega
  have same : (len - chunk * s.pagesize) % s.pagesize = len % s.pagesize := by
    rw [Nat.mul_comm]
    exact Nat.sub_mul_mod (by rwa [Nat.mul_comm])
  rw [MemState.lastLine_iff_pos line divides positive, MemState.linesOf_congr same,
    MemState.linesOf]
  by_cases short : len < s.pagesize
  · -- all of the sample is in its last page
    rw [Nat.mod_eq_of_lt short]
    split
    · exact Nat.div_pos_iff.trans (and_iff_right line)
    · have shortest : 1 ≤ len := by
        obtain ⟨i, j, _, _, rfl⟩ := exists_of_mem_sampleLens (k := 7) sample
        exact Nat.mul_pos (by omega) (Nat.two_pow_pos i)
      omega
  · have long : s.line ≤ len := by omega
    refine iff_of_true ?_ long
    obtain ⟨i, j, _, hj, rfl⟩ := exists_of_mem_sampleLens (k := 7) sample
    have quarter := quarter_le_mod hj (page ▸ not_lt.mp short : 2 ^ m ≤ (4 + j) * 2 ^ i)
    rw [← page] at quarter
    split
    · exact Nat.div_pos (by omega) line
    · exact Nat.div_pos (by omega) line

theorem lastLine_sixteenK : MemState.sixteenK.LastLine .lp64 (12288 - 2 * 4096) ↔ 64 ≤ 12288 :=
  lastLine_iff .lp64 .sixteenK (m := 12) rfl (by decide) (by decide) 16384 (by decide +kernel)
    (by decide)

/-- Pages of 16384 bytes, whose sixteenth `main` takes for the line. -/
def MemState.longLine : MemState := ⟨33554432, 33554432, 1024, 16384, 1, 8, by decide⟩

/-- **The slip.** The smallest sample is half such a line, and `lines[-1]` is read. -/
theorem not_lastLine :
    ¬∀ (dm : DataModel) (s : MemState) (m maxlen len chunk : ℕ), s.pagesize = 2 ^ m →
      s.line ∣ s.pagesize → s.ptr ≤ s.line → s.line ≤ s.pagesize / 8 → len ∈ sampleGrid maxlen →
      chunk < s.pagesOf len → s.LastLine dm (len - chunk * s.pagesize) := by
  intro always
  have inside := always .lp64 .longLine 14 33554432 512 0 rfl (by decide) (by decide) (by decide)
    (by decide +kernel) (by decide)
  exact absurd inside.1 (by decide)

end LastLine

end Lmbench
