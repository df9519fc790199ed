import Mathlib.Algebra.Group.Int.Defs
import Mathlib.Algebra.Group.Nat.Defs
import Mathlib.Algebra.Order.Group.Int
import Mathlib.Logic.Function.Iterate

/-!
# The reader of `bw_unix`

An iteration of `reader` asks the writer for `todo` bytes and reads until it has as many.
What `read` returns is kept in a `size_t`: an error is not `<= 0` there, but adds `2^64-1`.

## Main results

* `readPass_of_full`, `readPass_of_empty`, `readPass_of_error` - what a read does
* `iteration_of_full` - the iteration as long as data comes in
* `filling_iteration` - what an iteration keeps if no read fails
* `countsReceived_iff` - when an iteration counts received data only
-/

namespace Lmbench.Bandwidth

/-- The end of an iteration, or of the program. -/
inductive Ending
  | complete
  | exit (status : ℕ)
deriving DecidableEq, Repr

/-- The variables of an iteration and the number of its reads. -/
structure Reading where
  reads : ℕ
  done : ℕ
  ending : Option Ending
deriving DecidableEq, Repr

/-- The `size_t` that a result of `read` is kept in. -/
def toSize (n : ℤ) : ℕ := (n % 2 ^ 64).toNat

/-- One pass of `for (done = 0; done < todo; done += n)`. The results of the reads are `r`. -/
def readPass (todo : ℕ) (r : ℕ → ℤ) (s : Reading) : Reading :=
  if s.ending.isSome then s
  else if s.done < todo then
    let n := toSize (r s.reads)
    if n ≤ 0 then { s with reads := s.reads + 1, ending := some (.exit 1) }
    else { s with reads := s.reads + 1, done := (s.done + n) % 2 ^ 64 }
  else { s with ending := some .complete }

/-- The iteration after at most `n` passes. -/
def iteration (todo : ℕ) (r : ℕ → ℤ) (n : ℕ) : Reading := (readPass todo r)^[n] ⟨0, 0, none⟩

/-- The sum of the positive ones of the first results. -/
def received (r : ℕ → ℤ) : ℕ → ℤ
  | 0 => 0
  | k + 1 => received r k + max (r k) 0

/-- What `read` can return. -/
def Reads (xfer : ℕ) (r : ℕ → ℤ) : Prop := ∀ k, r k = -1 ∨ 0 ≤ r k ∧ r k ≤ xfer

/-- An iteration is complete only if as much as asked for was received, and a read that
brings no data ends the program. -/
structure CountsReceived (todo : ℕ) (r : ℕ → ℤ) : Prop where
  complete : ∀ n, (iteration todo r n).ending = some .complete →
    todo ≤ received r (iteration todo r n).reads
  exits : ∀ n, ∀ k < (iteration todo r n).reads, r k ≤ 0 →
    (iteration todo r n).ending = some (.exit 1)

variable {todo xfer n k : ℕ} {r : ℕ → ℤ} {s : Reading}

theorem received_succ_of_pos (data : 0 < r k) : received r (k + 1) = received r k + r k := by
  rw [received, max_eq_left data.le]

theorem received_nonneg : 0 ≤ received r k := by
  induction k with
  | zero => exact le_rfl
  | succ k ih =>
    rw [received]
    omega

theorem received_mono {j : ℕ} (before : j ≤ k) : received r j ≤ received r k := by
  induction before with
  | refl => exact le_rfl
  | step _ ih =>
    rw [received]
    omega

theorem iteration_succ : iteration todo r (n + 1) = readPass todo r (iteration todo r n) :=
  Function.iterate_succ_apply' _ _ _

section Pass

variable (live : s.ending = none) (more : s.done < todo)

include live more

/-- A read that brings data. -/
theorem readPass_of_full (small : todo < 2 ^ 62) (data : 0 < r s.reads)
    (fits : r s.reads < 2 ^ 62) :
    readPass todo r s =
      { s with reads := s.reads + 1, done := s.done + (r s.reads).toNat } := by
  have size : toSize (r s.reads) = (r s.reads).toNat := by
    rw [toSize, Int.emod_eq_of_lt data.le (by omega)]
  have some_bytes : ¬ (r s.reads).toNat ≤ 0 := by omega
  have sum : (s.done + (r s.reads).toNat) % 2 ^ 64 = s.done + (r s.reads).toNat :=
    Nat.mod_eq_of_lt (by omega)
  simp only [readPass, live, Option.isSome_none, Bool.false_eq_true, if_false, more, if_true, size,
    some_bytes, sum]

/-- The end of the data is noticed. -/
theorem readPass_of_empty (empty : r s.reads = 0) :
    readPass todo r s = { s with reads := s.reads + 1, ending := some (.exit 1) } := by
  simp [readPass, live, more, empty, toSize]

/-- An error is not. -/
theorem readPass_of_error (error : r s.reads = -1) :
    readPass todo r s =
      { s with reads := s.reads + 1, done := (s.done + (2 ^ 64 - 1)) % 2 ^ 64 } := by
  have size : toSize (-1) = 2 ^ 64 - 1 := by decide
  simp [readPass, live, more, error, size]

end Pass

/-- The iteration as long as data comes in and more is asked for. -/
theorem iteration_of_full (reads : Reads xfer r) (small : todo < 2 ^ 62) (small' : xfer < 2 ^ 62)
    (data : ∀ j < k, 0 < r j) (more : ∀ j < k, received r j < todo) :
    iteration todo r k = ⟨k, (received r k).toNat, none⟩ := by
  induction k with
  | zero => rfl
  | succ k ih =>
    have before := ih (fun j below => data j (by omega)) fun j below => more j (by omega)
    have nonneg := @received_nonneg k r
    have asked := more k (Nat.lt_succ_self k)
    have some_bytes := data k (Nat.lt_succ_self k)
    have fits : r k < 2 ^ 62 := by
      rcases reads k with error | ⟨-, limit⟩ <;> omega
    rw [iteration_succ, before, readPass_of_full rfl (by simp only; omega) small some_bytes fits,
      received_succ_of_pos some_bytes]
    simp only [Reading.mk.injEq, true_and, and_true]
    omega

/-- What holds between the passes if no read fails: all reads brought data, unless the
program has ended. -/
structure Filling (todo : ℕ) (r : ℕ → ℤ) (s : Reading) : Prop where
  data : ∀ j < s.reads, 0 < r j
  done : (s.done : ℤ) = received r s.reads
  complete : s.ending ≠ none → s.ending = some .complete ∧ todo ≤ received r s.reads

/-- A pass keeps this or ends the program. -/
theorem filling_readPass (reads : Reads xfer r) (small : todo < 2 ^ 62) (small' : xfer < 2 ^ 62)
    (filling : Filling todo r s)
    (noError : (∀ j < s.reads, 0 < r j) → received r s.reads < todo → r s.reads ≠ -1) :
    Filling todo r (readPass todo r s) ∨ (readPass todo r s).ending = some (.exit 1) := by
  cases live : s.ending with
  | some ending =>
    left
    rwa [readPass, if_pos (by simp [live])]
  | none =>
    by_cases more : s.done < todo
    · have asked : received r s.reads < todo := by
        rw [← filling.done]
        omega
      rcases reads s.reads with error | ⟨nonneg, limit⟩
      · exact absurd error (noError filling.data asked)
      · rcases nonneg.eq_or_lt with empty | data
        · right
          rw [readPass_of_empty live more empty.symm]
        · left
          rw [readPass_of_full live more small data (by omega)]
          refine ⟨fun j below => ?_, ?_, fun ended => absurd live ended⟩
          · rcases Nat.lt_succ_iff_lt_or_eq.mp below with before | rfl
            · exact filling.data j before
            · exact data
          · rw [received_succ_of_pos data, ← filling.done]
            simp only
            omega
    · left
      have enough : (todo : ℤ) ≤ received r s.reads := by
        rw [← filling.done]
        omega
      rw [readPass, if_neg (by simp [live]), if_neg more]
      exact ⟨filling.data, filling.done, fun _ => ⟨rfl, enough⟩⟩

/-- So it holds in an iteration whose reads do not fail, until the program ends. -/
theorem filling_iteration (reads : Reads xfer r) (small : todo < 2 ^ 62) (small' : xfer < 2 ^ 62)
    (noError : ∀ k, (∀ j < k, 0 < r j) → received r k < todo → r k ≠ -1) (n : ℕ) :
    Filling todo r (iteration todo r n) ∨ (iteration todo r n).ending = some (.exit 1) := by
  induction n with
  | zero => exact .inl ⟨by simp [iteration], rfl, fun ended => absurd rfl ended⟩
  | succ n ih =>
    rw [iteration_succ]
    rcases ih with filling | exited
    · exact filling_readPass reads small small' filling (noError _)
    · right
      rwa [readPass, if_pos (by simp [exited])]

/-- An iteration counts received data only exactly if no read that it makes fails. -/
theorem countsReceived_iff (reads : Reads xfer r) (small : todo < 2 ^ 62)
    (small' : xfer < 2 ^ 62) :
    CountsReceived todo r ↔
      ∀ k, (∀ j < k, 0 < r j) → received r k < todo → r k ≠ -1 := by
  constructor
  · intro counts k data asked error
    have full := iteration_of_full reads small small' data fun j below =>
      (received_mono below.le).trans_lt asked
    have nonneg := @received_nonneg k r
    -- the read that fails does not end the program, as `exits` has it
    have after : (iteration todo r (k + 1)).ending = none ∧
        (iteration todo r (k + 1)).reads = k + 1 := by
      rw [iteration_succ, full, readPass_of_error rfl (by simp only; omega) error]
      exact ⟨rfl, rfl⟩
    have exits := counts.exits (k + 1) k (by omega) (by omega)
    rw [after.1] at exits
    exact absurd exits (by decide)
  · intro noError
    refine ⟨fun n complete => ?_, fun n k made nothing => ?_⟩
    · rcases filling_iteration reads small small' noError n with filling | exited
      · exact (filling.complete (by simp [complete])).2
      · rw [exited] at complete
        exact absurd complete (by decide)
    · rcases filling_iteration reads small small' noError n with filling | exited
      · have data := filling.data k made
        omega
      · exact exited

/-- Data in two messages. -/
theorem countsReceived_messages : CountsReceived 100 fun _ => 64 := by
  have reads : Reads 64 fun _ => 64 := fun _ => .inr ⟨by simp, by simp⟩
  refine (countsReceived_iff reads (by decide) (by decide)).mpr fun k _ _ => ?_
  simp

/-- A first read that fails completes the iteration. -/
theorem not_countsReceived_error : ¬ CountsReceived 100 fun _ => -1 := by
  intro counts
  have received := counts.complete 2 (by decide)
  revert received
  decide

end Lmbench.Bandwidth
