import Mathlib.Algebra.Field.Rat
import Mathlib.Algebra.Group.Int.Defs
import Mathlib.Algebra.Group.Nat.Defs
import Mathlib.Data.List.Basic
import Mathlib.Data.List.Induction

/-!
# The report of the message ring

`get_opts` takes any `int` for the numbers of processes and rounds and for the size of the
data, as long as it is not too small. `print_result` divides by the product of the first two,
and the size is multiplied by 1024; both products are those of `int`s.

## Main results

* `accepted_of_getOpts` - what accepted options have in common
* `mulInt_eq_iff` - when a product is right
* `sound_iff` - for which options the report is
-/

namespace Lmbench.Msgring

/-- The product of two `int`s, as far as 32 bits hold it. -/
def mulInt (x y : ℤ) : ℤ := (x * y).bmod (2 ^ 32)

/-- `policy` -/
inductive Policy
  | other
  | roundRobin
  | fifo
deriving DecidableEq, Repr

/-- The variables that `get_opts` sets. -/
structure Opts where
  warmup : ℤ
  rounds : ℤ
  procs : ℤ
  policy : Policy
  priority : ℤ
  verbose : ℤ
  processSize : ℤ
deriving DecidableEq, Repr

/-- The variables as they are defined. -/
def Opts.initial : Opts where
  warmup := 1
  rounds := 5
  procs := 4
  policy := .other
  priority := 1
  verbose := 0
  processSize := 0

/-- One pass of the loop of `get_opts`: the option that `getopt` returned, and `atoi(optarg)`.
None if the usage is printed, which ends the program. -/
def getOpt (o : Opts) (opt : Char × ℤ) : Option Opts :=
  match opt with
  | ('W', n) => if n < 0 then none else some { o with warmup := n }
  | ('N', n) => if n < 1 then none else some { o with rounds := n }
  | ('P', n) => if n < 2 then none else some { o with procs := n }
  | ('R', n) => if n < 1 then none else some { o with priority := n, policy := .roundRobin }
  | ('F', n) => if n < 1 then none else some { o with priority := n, policy := .fifo }
  | ('s', n) => if n < 1 then none else some { o with processSize := mulInt n 1024 }
  | ('v', _) => some { o with verbose := o.verbose + 1 }
  | _ => none

/-- `get_opts` -/
def getOpts (l : List (Char × ℤ)) : Option Opts := l.foldlM getOpt .initial

/-- What `print_result` prints: the number of passes, the time of each, the time of the data
access, and what is left for the switch. -/
structure Report where
  passes : ℤ
  passTime : ℚ
  accessTime : ℚ
  switchTime : ℚ
deriving DecidableEq

/-- `print_result`. None if it divides an `int64_t` by zero. -/
def printResult (ns procs rounds nsProcessData : ℤ) : Option Report :=
  if mulInt procs rounds = 0 then none
  else
    let us : ℚ := ns / 1000
    some {
      passes := mulInt procs rounds
      passTime := us / mulInt procs rounds
      accessTime := nsProcessData / 1000
      switchTime := (ns.tdiv (mulInt procs rounds) - nsProcessData : ℤ) / 1000 }

/-- The arithmetic is sound for the options `l`, which are accepted with the result `o`. -/
structure Sound (l : List (Char × ℤ)) (o : Opts) : Prop where
  product : mulInt o.procs o.rounds = o.procs * o.rounds
  positive : 0 < mulInt o.procs o.rounds
  divides : ∀ ns nsProcessData, (printResult ns o.procs o.rounds nsProcessData).isSome
  sizes : ∀ before n after, l = before ++ ('s', n) :: after →
    ∀ set, getOpts (before ++ [('s', n)]) = some set →
      set.processSize = 1024 * n ∧ 0 < set.processSize

/-- What accepted options have in common. -/
structure Accepted (o : Opts) : Prop where
  rounds : 1 ≤ o.rounds
  procs : 2 ≤ o.procs

variable {l before after : List (Char × ℤ)} {o set : Opts} {opt : Char × ℤ} {x y n : ℤ}

theorem mulInt_eq_iff (hx : 0 < x) (hy : 0 < y) : mulInt x y = x * y ↔ x * y < 2 ^ 31 := by
  have positive := Int.mul_pos hx hy
  rw [mulInt]
  generalize x * y = z at *
  constructor
  · intro same
    have := Int.bmod_lt (x := z) (m := 2 ^ 32) (by decide)
    omega
  · intro fits
    apply Int.bmod_eq_of_le_mul_two <;> omega

/-- An option keeps what accepted options have in common: a number that is too small ends the
program. -/
theorem Accepted.getOpt (accepted : Accepted o) (taken : getOpt o opt = some set) :
    Accepted set := by
  obtain ⟨rounds, procs⟩ := accepted
  unfold Msgring.getOpt at taken
  split at taken
  case h_2 n =>
    -- the number of rounds
    obtain ⟨enough, rfl⟩ : ¬ n < 1 ∧ { o with rounds := n } = set := by
      simpa only [Option.ite_none_left_eq_some, Option.some.injEq] using taken
    exact ⟨Int.not_lt.mp enough, procs⟩
  case h_3 n =>
    obtain ⟨enough, rfl⟩ : ¬ n < 2 ∧ { o with procs := n } = set := by
      simpa only [Option.ite_none_left_eq_some, Option.some.injEq] using taken
    exact ⟨rounds, Int.not_lt.mp enough⟩
  case h_7 =>
    obtain rfl := Option.some.inj taken
    exact ⟨rounds, procs⟩
  case h_8 => simp at taken
  -- the others set neither
  all_goals
    simp only [Option.ite_none_left_eq_some, Option.some.injEq] at taken
    obtain ⟨-, rfl⟩ := taken
    exact ⟨rounds, procs⟩

theorem getOpts_append (l : List (Char × ℤ)) (opt : Char × ℤ) :
    getOpts (l ++ [opt]) = (getOpts l).bind fun o => getOpt o opt := by
  rw [getOpts, List.foldlM_append]
  congr 1
  funext o
  simp

theorem accepted_of_getOpts (taken : getOpts l = some o) : Accepted o := by
  induction l using List.reverseRecOn generalizing o with
  | nil =>
    obtain rfl := Option.some.inj taken
    exact ⟨by decide, by decide⟩
  | append_singleton l opt ih =>
    rw [getOpts_append, Option.bind_eq_some_iff] at taken
    obtain ⟨before, earlier, last⟩ := taken
    exact (ih earlier).getOpt last

/-- The options before an option of accepted ones are accepted. -/
theorem exists_getOpts_of_append (taken : getOpts (before ++ after) = some o) :
    ∃ set, getOpts before = some set := by
  rw [getOpts, List.foldlM_append, Option.bind_eq_bind, Option.bind_eq_some_iff] at taken
  obtain ⟨set, earlier, -⟩ := taken
  exact ⟨set, earlier⟩

/-- What `-s` sets. -/
theorem processSize_of_getOpts (taken : getOpts (before ++ [('s', n)]) = some set) :
    1 ≤ n ∧ set.processSize = mulInt n 1024 := by
  rw [getOpts_append, Option.bind_eq_some_iff] at taken
  obtain ⟨o, -, last⟩ := taken
  obtain ⟨enough, rfl⟩ : ¬ n < 1 ∧ { o with processSize := mulInt n 1024 } = set := by
    simpa only [getOpt, Option.ite_none_left_eq_some, Option.some.injEq] using last
  exact ⟨by simpa using enough, rfl⟩

/-- The size is right if and only if the number of kB is below 2 ^ 21. -/
theorem size_iff (least : 1 ≤ n) :
    mulInt n 1024 = 1024 * n ∧ 0 < mulInt n 1024 ↔ n < 2 ^ 21 := by
  have product := mulInt_eq_iff (x := n) (y := 1024) (by omega) (by decide)
  rw [Int.mul_comm n] at product
  rw [product]
  constructor
  · rintro ⟨fits, -⟩
    omega
  · intro fits
    have same := product.mpr (by omega)
    omega

/-- The arithmetic is sound for accepted options if and only if the number of messages is an
`int`, and so is each size in bytes. -/
theorem sound_iff (taken : getOpts l = some o) :
    Sound l o ↔ o.procs * o.rounds < 2 ^ 31 ∧ ∀ n, ('s', n) ∈ l → n < 2 ^ 21 := by
  obtain ⟨rounds, procs⟩ := accepted_of_getOpts taken
  have product := mulInt_eq_iff (x := o.procs) (y := o.rounds) (by omega) (by omega)
  have positive : 0 < o.procs * o.rounds := Int.mul_pos (by omega) (by omega)
  constructor
  · intro sound
    refine ⟨product.mp sound.product, fun n member => ?_⟩
    obtain ⟨before, after, split⟩ := List.append_of_mem member
    have whole : before ++ ('s', n) :: after = (before ++ [('s', n)]) ++ after := by simp
    rw [split, whole] at taken
    obtain ⟨set, earlier⟩ := exists_getOpts_of_append taken
    obtain ⟨least, size⟩ := processSize_of_getOpts earlier
    have right := sound.sizes before n after split set earlier
    rw [size] at right
    exact (size_iff least).mp right
  · rintro ⟨fits, sizes⟩
    have same := product.mpr fits
    refine ⟨same, by rwa [same], fun ns nsProcessData => ?_,
      fun before n after split set earlier => ?_⟩
    · rw [printResult, same, if_neg positive.ne']
      rfl
    · obtain ⟨least, size⟩ := processSize_of_getOpts earlier
      rw [size]
      exact (size_iff least).mpr (sizes n (by simp [split]))

/-- `msgring -P 10 -N 10000 -s 64` -/
theorem sound_tenProcesses : ∃ o, getOpts [('P', 10), ('N', 10000), ('s', 64)] = some o ∧
    Sound [('P', 10), ('N', 10000), ('s', 64)] o := by
  refine ⟨_, rfl, (sound_iff rfl).mpr ⟨by decide, ?_⟩⟩
  simp

/-- `msgring -N 1073741824`: with the four processes that are the default, the report divides by
zero. -/
theorem not_sound_billion : ∃ o, getOpts [('N', 2 ^ 30)] = some o ∧ ¬ Sound [('N', 2 ^ 30)] o := by
  refine ⟨_, rfl, fun sound => ?_⟩
  have positive := sound.positive
  revert positive
  decide

end Lmbench.Msgring
