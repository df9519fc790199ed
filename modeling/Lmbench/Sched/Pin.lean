import Mathlib.Algebra.Group.Nat.Defs
import Mathlib.Data.List.Basic
import Mathlib.Data.Nat.Init

/-!
# Pinning a process to a CPU

`sched_pin` on Linux counts the CPUs of the affinity mask in its first call, and looks for
the one it is asked for. Both loops test a bit of an `unsigned long` with `1 << bit`, which
is an `int`: from bit 31 on its value is negative or not defined.

## Main results

* `schedPin_eq` - the CPUs that the tests find, for any value of the undefined shifts
* `pins_low` - what happens on fewer than 32 CPUs, if shifts are taken modulo 32
* `not_pinsOne` - some shift is never defined
-/

namespace Lmbench.Sched

/-- An affinity mask. -/
abbrev CpuMask := List (BitVec 64)

/-- The CPUs of a mask. -/
def cpus (mask : CpuMask) : List ℕ :=
  (List.range (64 * mask.length)).filter fun i => (mask.getD (i / 64) 0).getLsbD (i % 64)

/-- The mask of one CPU. -/
def oneCpu (sz i : ℕ) : CpuMask := (List.replicate sz 0).set (i / 64) (1#64 <<< (i % 64))

section Model

variable (wild : ℕ → BitVec 32)

/-- `1 << bit`, as an `unsigned long`: the sign of the `int` is extended. From bit 32 on
nothing is known of its value. -/
def shift (bit : ℕ) : BitVec 64 := (if bit < 32 then 1#32 <<< bit else wild bit).signExtend 64

/-- `cpumask[word] & (1 << bit)` -/
def tests (cpumask : CpuMask) (i : ℕ) : Bool :=
  cpumask.getD (i / 64) 0 &&& shift wild (i % 64) ≠ 0

/-- The first loop: `ncpus`, and the bits that were shifted to. -/
structure Count where
  ncpus : ℕ
  shifts : List ℕ
deriving DecidableEq, Repr

/-- A pass of the first loop. -/
def countPass (cpumask : CpuMask) (s : Count) (i : ℕ) : Count where
  ncpus := if tests wild cpumask i then s.ncpus + 1 else s.ncpus
  shifts := s.shifts ++ [i % 64]

/-- The second loop: `j`, the bit that it stopped at, and the bits that were shifted to. -/
structure Search where
  j : ℕ
  found : Option ℕ
  shifts : List ℕ
deriving DecidableEq, Repr

/-- A pass of the second loop. -/
def searchPass (cpumask : CpuMask) (cpu : ℕ) (s : Search) (i : ℕ) : Search :=
  if s.found.isSome then s
  else if tests wild cpumask i then
    -- `mask[word] |= (1 << bit)` shifts once more
    if cpu ≤ s.j then { s with found := some i, shifts := s.shifts ++ [i % 64, i % 64] }
    else { s with j := s.j + 1, shifts := s.shifts ++ [i % 64] }
  else { s with shifts := s.shifts ++ [i % 64] }

/-- What `sched_pin` computes: the number of CPUs, the mask for `sched_setaffinity`, and the
bits that were shifted to. -/
structure Pin where
  ncpus : ℕ
  mask : CpuMask
  shifts : List ℕ
deriving DecidableEq, Repr

/-- The first call of `sched_pin(cpu)`, for the mask that `sched_getaffinity` returned. None if
`cpu %= ncpus` is not defined. -/
def schedPin (cpumask : CpuMask) (cpu : ℕ) : Option Pin :=
  let bits := List.range (64 * cpumask.length)
  let count := bits.foldl (countPass wild cpumask) ⟨0, []⟩
  if count.ncpus = 0 then none
  else
    let search := bits.foldl (searchPass wild cpumask (cpu % count.ncpus)) ⟨0, none, []⟩
    -- `bzero(mask, ...)`
    let mask := List.replicate cpumask.length 0
    some {
      ncpus := count.ncpus
      mask := search.found.elim mask fun i =>
        mask.set (i / 64) (mask.getD (i / 64) 0 ||| shift wild (i % 64))
      shifts := count.shifts ++ search.shifts }

end Model

/-- All CPUs are counted, the process is pinned to the one asked for, and each shift is
defined. -/
def PinsOne (wild : ℕ → BitVec 32) (cpumask : CpuMask) (cpu : ℕ) : Prop :=
  ∃ o, schedPin wild cpumask cpu = some o ∧ o.ncpus = (cpus cpumask).length ∧
    (∃ i, (cpus cpumask)[cpu % (cpus cpumask).length]? = some i ∧
      o.mask = oneCpu cpumask.length i) ∧
    ∀ bit ∈ o.shifts, bit < 31

variable {wild : ℕ → BitVec 32} {cpumask : CpuMask} {cpu : ℕ}

section Loops

variable {l : List ℕ} {s : Count}

theorem foldl_countPass : l.foldl (countPass wild cpumask) s =
    ⟨s.ncpus + (l.filter (tests wild cpumask)).length, s.shifts ++ l.map (· % 64)⟩ := by
  induction l generalizing s with
  | nil => simp
  | cons i l ih =>
    rw [List.foldl_cons, ih, countPass]
    cases bit : tests wild cpumask i with
    | false => simp [bit]
    | true => simp [bit, Nat.add_assoc, Nat.add_comm 1]

theorem foldl_searchPass_of_found {s : Search} (found : s.found.isSome) :
    l.foldl (searchPass wild cpumask cpu) s = s := by
  induction l with
  | nil => rfl
  | cons i l ih => rw [List.foldl_cons, searchPass, if_pos found, ih]

/-- The search stops at the bit of which `cpu` others were found before. -/
theorem found_foldl_searchPass {s : Search} (none_yet : s.found = none) (before : s.j ≤ cpu) :
    (l.foldl (searchPass wild cpumask cpu) s).found =
      (l.filter (tests wild cpumask))[cpu - s.j]? := by
  induction l generalizing s with
  | nil => simpa using none_yet
  | cons i l ih =>
    have goes : ¬ s.found.isSome := by simp [none_yet]
    rw [List.foldl_cons, searchPass, if_neg goes]
    cases bit : tests wild cpumask i with
    | false =>
      rw [List.filter_cons_of_neg (by simp [bit])]
      exact ih none_yet before
    | true =>
      rw [List.filter_cons_of_pos bit]
      by_cases here : cpu ≤ s.j
      · simp only [if_true, here]
        rw [foldl_searchPass_of_found rfl, Nat.sub_eq_zero_of_le here]
        rfl
      · obtain ⟨more, later⟩ : ∃ more, cpu - s.j = more + 1 :=
          ⟨cpu - s.j - 1, by omega⟩
        have rest : cpu - (s.j + 1) = more := by omega
        simp only [if_true, here, if_false]
        rw [@ih { s with j := s.j + 1, shifts := s.shifts ++ [i % 64] } none_yet
          (by simp only; omega), later, List.getElem?_cons_succ, rest]

end Loops

/-- The CPUs that the tests find. -/
def tested (wild : ℕ → BitVec 32) (cpumask : CpuMask) : List ℕ :=
  (List.range (64 * cpumask.length)).filter (tests wild cpumask)

/-- The mask that is set was cleared before. -/
theorem cleared_or (sz w : ℕ) (x : BitVec 64) :
    (List.replicate sz (0 : BitVec 64)).getD w 0 ||| x = x := by
  have cleared : (List.replicate sz (0 : BitVec 64)).getD w 0 = 0#64 := by
    rw [List.getD_eq_getElem?_getD, List.getElem?_replicate]
    split <;> rfl
  rw [cleared, BitVec.zero_or]

theorem shift_of_lt {bit : ℕ} (low : bit < 32) :
    shift wild bit = (1#32 <<< bit).signExtend 64 := by
  rw [shift, if_pos low]

/-- What `sched_pin` computes from the CPUs that the tests find. -/
theorem schedPin_eq {i : ℕ}
    (found : (tested wild cpumask)[cpu % (tested wild cpumask).length]? = some i) :
    ∃ shifts, schedPin wild cpumask cpu =
      some ⟨(tested wild cpumask).length,
        (List.replicate cpumask.length 0).set (i / 64) (shift wild (i % 64)), shifts⟩ := by
  have some_tested : (tested wild cpumask).length ≠ 0 := by
    intro none_tested
    rw [List.length_eq_zero_iff.mp none_tested] at found
    simp at found
  have count := @foldl_countPass wild cpumask (List.range (64 * cpumask.length)) ⟨0, []⟩
  have ncpus : 0 + ((List.range (64 * cpumask.length)).filter (tests wild cpumask)).length =
      (tested wild cpumask).length := Nat.zero_add _
  rw [ncpus, List.nil_append] at count
  have search := @found_foldl_searchPass wild cpumask (cpu % (tested wild cpumask).length)
    (List.range (64 * cpumask.length)) ⟨0, none, []⟩ rfl (Nat.zero_le _)
  rw [Nat.sub_zero, ← tested, found] at search
  refine ⟨(List.range (64 * cpumask.length)).map (· % 64) ++
    ((List.range (64 * cpumask.length)).foldl
      (searchPass wild cpumask (cpu % (tested wild cpumask).length)) ⟨0, none, []⟩).shifts, ?_⟩
  rw [schedPin]
  simp only [count, some_tested, if_false, search, Option.elim_some, cleared_or]

/-- The first loop shifts to all bits of a word. -/
theorem mem_shifts {o : Pin} {bit : ℕ} (result : schedPin wild cpumask cpu = some o)
    (some_words : cpumask ≠ []) (inside : bit < 64) : bit ∈ o.shifts := by
  have words := List.length_pos_iff.mpr some_words
  simp only [schedPin, foldl_countPass] at result
  split at result
  · simp at result
  · obtain rfl := Option.some.inj result
    refine List.mem_append_left _ (List.mem_append_right _ (List.mem_map.mpr ⟨bit, ?_, ?_⟩))
    · rw [List.mem_range]
      omega
    · exact Nat.mod_eq_of_lt inside

/-- For no mask and no CPU are all shifts defined. -/
theorem not_pinsOne : ¬ PinsOne wild cpumask cpu := by
  rintro ⟨o, result, -, ⟨i, one, -⟩, defined⟩
  have some_words : cpumask ≠ [] := by
    rintro rfl
    simp [cpus] at one
  have sign := defined 31 (mem_shifts result some_words (by decide))
  omega

/-- The `int` of bit 31 is negative: the mask for CPU 31 has all bits from there on. -/
theorem not_pinsOne_last : ¬ ∃ wild, PinsOne wild [0x80000000#64] 0 := by
  rintro ⟨wild, o, result, -, ⟨i, one, mask⟩, -⟩
  have before : ∀ i ∈ List.range 31, tests wild [0x80000000#64] i = false := by
    intro i member
    have below := List.mem_range.mp member
    rw [tests, shift_of_lt (by omega)]
    revert i
    decide
  have here : tests wild [0x80000000#64] 31 = true := by
    rw [tests, shift_of_lt (by decide)]
    decide
  have found : (tested wild [0x80000000#64])[0 % (tested wild [0x80000000#64]).length]? =
      some 31 := by
    have split : List.range (64 * [0x80000000#64].length) =
        List.range 31 ++ 31 :: List.range' 32 32 := by decide
    rw [Nat.zero_mod, tested, split, List.filter_append,
      List.filter_eq_nil_iff.mpr fun i member => by simp [before i member], List.nil_append,
      List.filter_cons_of_pos here]
    rfl
  obtain ⟨shifts, pinned⟩ := schedPin_eq found
  obtain rfl := Option.some.inj (pinned.symm.trans result)
  obtain rfl : i = 31 := by
    rw [show cpus [0x80000000#64] = [31] by decide] at one
    simpa using one.symm
  rw [shift_of_lt (by decide)] at mask
  have negative : (List.replicate 1 0#64).set 0 ((1#32 <<< 31).signExtend 64) = oneCpu 1 31 := mask
  exact absurd negative (by decide)

section Modulo

/-- Shifts by the low five bits of the count, as the processor may do them. -/
def moduloShift (bit : ℕ) : BitVec 32 := 1#32 <<< (bit % 32)

variable {word : BitVec 64}

theorem shift_modulo (bit : ℕ) :
    shift moduloShift bit = (1#32 <<< (bit % 32)).signExtend 64 := by
  rw [shift, moduloShift]
  split
  · rw [Nat.mod_eq_of_lt ‹_›]
  · rfl

theorem getLsbD_of_low (low : word.toNat < 2 ^ 31) {k : ℕ} (high : 31 ≤ k) :
    word.getLsbD k = false :=
  Nat.testBit_lt_two_pow (Nat.lt_of_lt_of_le low (Nat.pow_le_pow_right (by decide) high))

/-- In a low word the sign of the shift does not show. -/
theorem and_shift_modulo (low : word.toNat < 2 ^ 31) (bit : ℕ) :
    word &&& shift moduloShift bit = word &&& BitVec.twoPow 64 (bit % 32) := by
  rw [shift_modulo, ← BitVec.twoPow_eq]
  refine BitVec.eq_of_getLsbD_eq fun k inside => ?_
  rw [BitVec.getLsbD_and, BitVec.getLsbD_and]
  by_cases high : 31 ≤ k
  · rw [getLsbD_of_low low high, Bool.false_and, Bool.false_and]
  · have small : bit % 32 < 32 := Nat.mod_lt bit (by decide)
    rw [BitVec.getLsbD_signExtend, if_pos (by omega), BitVec.getLsbD_twoPow,
      BitVec.getLsbD_twoPow]
    simp [inside, small, show bit % 32 < 64 by omega]

/-- Each bit of a low word is tested twice. -/
theorem tests_modulo (low : word.toNat < 2 ^ 31) {i : ℕ} (inside : i < 64) :
    tests moduloShift [word] i = word.getLsbD (i % 32) := by
  have first : [word].getD (i / 64) 0 = word := by
    rw [Nat.div_eq_of_lt inside]
    rfl
  rw [tests, first, and_shift_modulo low, Nat.mod_mod_of_dvd i (by decide), BitVec.and_twoPow]
  cases word.getLsbD (i % 32) with
  | false => simp
  | true =>
    have positive : BitVec.twoPow 64 (i % 32) ≠ 0 := by
      intro zero
      have bit := BitVec.getLsbD_twoPow (w := 64) (i % 32) (i % 32)
      rw [zero] at bit
      simp at bit
      omega
    simpa using positive

/-- The CPUs of a low word. -/
theorem cpus_low (low : word.toNat < 2 ^ 31) :
    cpus [word] = (List.range 32).filter fun i => word.getLsbD i := by
  have split : List.range (64 * [word].length) = List.range 32 ++ List.range' 32 32 := by rfl
  rw [cpus, split, List.filter_append]
  have high : (List.range' 32 32).filter
      (fun i => ([word].getD (i / 64) 0).getLsbD (i % 64)) = [] := by
    refine List.filter_eq_nil_iff.mpr fun i member => ?_
    obtain ⟨from32, below⟩ := List.mem_range'_1.mp member
    rw [Nat.mod_eq_of_lt below, Nat.div_eq_of_lt below, Bool.not_eq_true]
    exact getLsbD_of_low low (by omega)
  rw [high, List.append_nil]
  refine List.filter_congr fun i member => ?_
  have below := List.mem_range.mp member
  rw [Nat.mod_eq_of_lt (by omega), Nat.div_eq_of_lt (by omega)]
  rfl

/-- The CPUs that are found are those of the word, and the numbers that are 32 higher. -/
theorem tested_modulo (low : word.toNat < 2 ^ 31) :
    tested moduloShift [word] = cpus [word] ++ (cpus [word]).map (32 + ·) := by
  have split : List.range (64 * [word].length) =
      List.range 32 ++ (List.range 32).map (32 + ·) := by rfl
  rw [tested, split, List.filter_append, List.filter_map, cpus_low low]
  congr 1
  · refine List.filter_congr fun i member => ?_
    have below := List.mem_range.mp member
    rw [tests_modulo low (by omega), Nat.mod_eq_of_lt below]
  · congr 1
    refine List.filter_congr fun i member => ?_
    have below := List.mem_range.mp member
    rw [Function.comp, tests_modulo low (by omega), Nat.add_mod_left, Nat.mod_eq_of_lt below]

/-- The `m`-th of a list that is written twice, the second time with numbers that are 32
higher. -/
theorem getElem?_twice {l : List ℕ} {m : ℕ} (small : ∀ i ∈ l, i < 32) (inside : m < 2 * l.length) :
    ∃ i, (l ++ l.map (32 + ·))[m]? = some i ∧ i < 64 ∧ l[m % l.length]? = some (i % 32) := by
  by_cases first : m < l.length
  · have below := small _ (List.getElem_mem first)
    refine ⟨l[m], ?_, by omega, ?_⟩
    · rw [List.getElem?_append_left first, List.getElem?_eq_getElem first]
    · rw [Nat.mod_eq_of_lt first, Nat.mod_eq_of_lt below, List.getElem?_eq_getElem first]
  · have second : m - l.length < l.length := by omega
    have below := small _ (List.getElem_mem second)
    have rest : m % l.length = m - l.length := by
      rw [Nat.mod_eq_sub_mod (by omega), Nat.mod_eq_of_lt second]
    refine ⟨32 + l[m - l.length], ?_, by omega, ?_⟩
    · rw [List.getElem?_append_right (by omega), List.getElem?_map,
        List.getElem?_eq_getElem second, Option.map_some]
    · rw [rest, Nat.add_mod_left, Nat.mod_eq_of_lt below, List.getElem?_eq_getElem second]

/-- The bit of a CPU is not the sign. -/
theorem shift_cpu (low : word.toNat < 2 ^ 31) {i : ℕ} (listed : i ∈ cpus [word]) :
    (1#32 <<< i).signExtend 64 = 1#64 <<< i := by
  have all : ∀ i < 31, (1#32 <<< i).signExtend 64 = 1#64 <<< i := by decide
  refine all i ?_
  rw [cpus_low low] at listed
  by_contra high
  have set := (List.mem_filter.mp listed).2
  rw [getLsbD_of_low low (by omega)] at set
  exact Bool.false_ne_true set

/-- With fewer than 32 CPUs, and shifts modulo 32, each CPU is counted twice, and the process is
pinned to the one that was asked for nevertheless. -/
theorem pins_low (low : word.toNat < 2 ^ 31) (some_cpus : cpus [word] ≠ []) (cpu : ℕ) :
    ∃ o i, schedPin moduloShift [word] cpu = some o ∧ o.ncpus = 2 * (cpus [word]).length ∧
      (cpus [word])[cpu % (cpus [word]).length]? = some i ∧ o.mask = oneCpu 1 i := by
  have positive := List.length_pos_iff.mpr some_cpus
  have twice : (tested moduloShift [word]).length = 2 * (cpus [word]).length := by
    rw [tested_modulo low, List.length_append, List.length_map]
    omega
  have small : ∀ i ∈ cpus [word], i < 32 := by
    rw [cpus_low low]
    exact fun i member => List.mem_range.mp (List.mem_filter.mp member).1
  obtain ⟨i, found, inside, asked⟩ :=
    getElem?_twice (m := cpu % (2 * (cpus [word]).length)) small (Nat.mod_lt cpu (by omega))
  rw [Nat.mod_mod_of_dvd cpu (Nat.dvd_mul_left _ _)] at asked
  rw [← tested_modulo low, ← twice] at found
  obtain ⟨shifts, pinned⟩ := schedPin_eq found
  refine ⟨_, i % 32, pinned, twice, asked, ?_⟩
  have listed : i % 32 ∈ cpus [word] := List.mem_of_getElem? asked
  simp only
  rw [shift_modulo, Nat.mod_mod_of_dvd i (by decide), shift_cpu low listed, oneCpu,
    Nat.div_eq_of_lt inside, Nat.div_eq_of_lt (by omega : i % 32 < 64),
    Nat.mod_eq_of_lt (by omega : i % 32 < 64)]
  rfl

end Modulo

end Lmbench.Sched
