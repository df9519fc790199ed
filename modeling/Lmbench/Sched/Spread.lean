import Lmbench.Mem.Words

/-!
# The schedules

`handle_scheduler` chooses a CPU for a process of a benchmark, as the environment asks for.
The spread schedules reverse the bits of the process number to put neighbours far from each
other; the number of bits that are reversed is that of the last processor's number, and the
reversal is reduced modulo the number of processors.

## Main results

* `nbits_spec` - the number of bits that are reversed
* `handleScheduler_spread` - what the spread schedule chooses
* `spreads_iff` - when different processes get different processors
-/

namespace Lmbench.Sched

open Lib

/-- `tolower` -/
def tolower (c : Char) : Char :=
  if 'A' ≤ c ∧ c ≤ 'Z' then Char.ofNat (c.toNat + 32) else c

/-- `strcasecmp(s, t) == 0` -/
def strcasecmp (s t : List Char) : Bool := s.map tolower = t.map tolower

/-- `strncasecmp(s, t, strlen(t)) == 0` -/
def strncasecmp (s t : List Char) : Bool := strcasecmp (s.take t.length) t

/-- `for (i = max>>1, nbits = 1; i > 0; i >>= 1, nbits++)` for `max` the number of the last
processor. -/
def nbits (ncpus : ℕ) : ℕ := countBits ncpus ((ncpus - 1) >>> 1) + 1

/-- `reverse_bits` -/
def reverseBits (ncpus cpu : ℕ) : ℕ :=
  (List.range (nbits ncpus)).foldl (fun cpuReverse i =>
    if cpu.testBit i then cpuReverse ||| 1 <<< (nbits ncpus - i - 1) else cpuReverse) 0

/-- `handle_scheduler`: the CPU that `sched_pin` is asked for, if it is. What `custom` returns
for a text and a CPU is a parameter. -/
def handleScheduler (custom : List Char → ℕ → ℤ) (ncpus : ℕ) (sched : Option (List Char))
    (childno benchproc nbenchprocs : ℕ) : Option ℤ :=
  match sched with
  | none => none
  | some sched =>
    let unique := childno * (nbenchprocs + 1) + benchproc
    let cpu : Option ℤ :=
      if strcasecmp sched "DEFAULT".toList then none
      else if strcasecmp sched "SINGLE".toList then some 0
      else if strcasecmp sched "BALANCED".toList then some childno
      else if strcasecmp sched "BALANCED_SPREAD".toList then some (reverseBits ncpus childno)
      else if strcasecmp sched "UNIQUE".toList then some unique
      else if strcasecmp sched "UNIQUE_SPREAD".toList then some (reverseBits ncpus unique)
      else if strncasecmp sched "CUSTOM ".toList then some (custom (sched.drop 6) childno)
      else if strncasecmp sched "CUSTOM_SPREAD ".toList then some (custom (sched.drop 13) unique)
      else none
    cpu.map fun cpu => cpu.tmod ncpus

/-- Every process has its own processor, as long as there are enough. -/
def Spreads (ncpus : ℕ) : Prop :=
  ∀ custom benchproc nbenchprocs, ∀ a < ncpus, ∀ b < ncpus,
    handleScheduler custom ncpus (some "BALANCED_SPREAD".toList) a benchproc nbenchprocs =
      handleScheduler custom ncpus (some "BALANCED_SPREAD".toList) b benchproc nbenchprocs → a = b

variable {ncpus : ℕ}

/-- The bits that are reversed are those of the number of the last processor. -/
theorem nbits_spec (several : 2 ≤ ncpus) :
    ∃ width, nbits ncpus = width + 1 ∧ 2 ^ width < ncpus ∧ ncpus ≤ 2 ^ (width + 1) := by
  refine ⟨countBits ncpus ((ncpus - 1) >>> 1), rfl, ?_, ?_⟩
  · have few := two_pow_countBits_le ncpus ((ncpus - 1) >>> 1)
    rw [Nat.shiftRight_one] at few ⊢
    omega
  · have all : (ncpus - 1) >>> 1 < 2 ^ countBits ncpus ((ncpus - 1) >>> 1) :=
      lt_two_pow_countBits (by rw [Nat.shiftRight_one]; omega)
    rw [Nat.pow_succ]
    rw [Nat.shiftRight_one] at all ⊢
    omega

theorem reverseBits_eq (ncpus cpu : ℕ) :
    reverseBits ncpus cpu = bitReverse (nbits ncpus) cpu :=
  foldl_mirror (nbits ncpus) cpu

/-- The spread schedule reduces the reversal of the process number. -/
theorem handleScheduler_spread (custom : List Char → ℕ → ℤ) (childno benchproc nbenchprocs : ℕ) :
    handleScheduler custom ncpus (some "BALANCED_SPREAD".toList) childno benchproc nbenchprocs =
      some ((bitReverse (nbits ncpus) childno % ncpus : ℕ) : ℤ) := by
  have spread : strcasecmp "BALANCED_SPREAD".toList "BALANCED_SPREAD".toList = true := rfl
  have others : ∀ word ∈ ["DEFAULT".toList, "SINGLE".toList, "BALANCED".toList],
      strcasecmp "BALANCED_SPREAD".toList word = false := by decide
  simp only [List.forall_mem_cons] at others
  obtain ⟨default, single, balanced, -⟩ := others
  simp only [handleScheduler, default, single, balanced, spread, Bool.false_eq_true, if_false,
    if_true, Option.map_some, reverseBits_eq]
  rfl

/-- There is only one power of two to be compared with. -/
theorem power_iff {width : ℕ} (low : 2 ^ width < ncpus) (high : ncpus ≤ 2 ^ (width + 1)) :
    (∃ k, ncpus = 2 ^ k ∨ ncpus + 1 = 2 ^ k) ↔
      ncpus = 2 ^ (width + 1) ∨ ncpus + 1 = 2 ^ (width + 1) := by
  refine ⟨fun ⟨k, power⟩ => ?_, fun power => ⟨width + 1, power⟩⟩
  have least : width < k := (Nat.pow_lt_pow_iff_right (by decide : 1 < 2)).mp (by omega)
  rcases Nat.eq_or_lt_of_le least with rfl | more
  · exact power
  · -- twice as much is too much
    have double : 2 ^ (width + 2) ≤ 2 ^ k := Nat.pow_le_pow_right (by decide) more
    have positive := Nat.two_pow_pos width
    rw [Nat.pow_succ, Nat.pow_succ] at double
    rw [Nat.pow_succ] at high
    omega

/-- Every process has its own processor if and only if the number of processors, or that of
one more, is a power of two. -/
theorem spreads_iff (some : 1 ≤ ncpus) :
    Spreads ncpus ↔ ∃ k, ncpus = 2 ^ k ∨ ncpus + 1 = 2 ^ k := by
  simp only [Spreads, handleScheduler_spread, Option.some.injEq, Int.natCast_inj]
  rcases some.eq_or_lt with rfl | several
  · exact iff_of_true (fun _ _ _ a ha b hb _ => by omega) ⟨0, .inl rfl⟩
  · obtain ⟨width, bits, low, high⟩ := nbits_spec several
    rw [power_iff low high, ← bitReverse_mod_injective_iff low high, bits]
    constructor
    · exact fun spreads => spreads (fun _ _ => 0) 0 0
    · exact fun injective _ _ _ => injective

/-- Three processors. -/
theorem spreads_three : Spreads 3 := (spreads_iff (by decide)).mpr ⟨2, .inr rfl⟩

/-- With five processors, processes 3 and 4 share one. -/
theorem not_spreads_five : ¬ Spreads 5 := by
  intro spreads
  have same := spreads (fun _ _ => 0) 0 0 3 (by decide) 4 (by decide) (by decide)
  exact absurd same (by decide)

end Lmbench.Sched
