import Mathlib.Logic.Function.Basic
import Mathlib.Data.List.Basic
import Mathlib.Algebra.Order.Ring.Int

/-!
# Semaphore sets

An array of operations on a set of semaphores is carried out in order, and all of
it or nothing: as long as one operation would have to wait, none takes effect. A
positive operation adds, a negative one takes away what must be there, and zero
waits for zero.

## Main results

* `semop_nonneg` - no value becomes negative
* `semop_move_eq_some_iff` - a permit moved from one semaphore to another
-/

namespace Lmbench.Lib

variable {ι : Type*} [DecidableEq ι]

/-- One operation on a semaphore. -/
structure SemBuf (ι : Type*) where
  num : ι
  op : ℤ

/-- One operation, unless it has to wait. -/
def semopOne (values : ι → ℤ) (sop : SemBuf ι) : Option (ι → ℤ) :=
  if sop.op = 0 then if values sop.num = 0 then some values else none
  else if 0 ≤ values sop.num + sop.op then
    some (Function.update values sop.num (values sop.num + sop.op))
  else none

/-- An array of operations, or none of them. -/
def semop (values : ι → ℤ) (sops : List (SemBuf ι)) : Option (ι → ℤ) := sops.foldlM semopOne values

variable {values values' : ι → ℤ} {i j : ι}

theorem semop_cons (sop : SemBuf ι) (rest : List (SemBuf ι)) :
    semop values (sop :: rest) = (semopOne values sop).bind fun between => semop between rest :=
  List.foldlM_cons

theorem semopOne_nonneg {sop : SemBuf ι} (nonneg : ∀ i, 0 ≤ values i)
    (done : semopOne values sop = some values') (i : ι) : 0 ≤ values' i := by
  unfold semopOne at done
  split at done
  · split at done
    · obtain rfl := Option.some.inj done
      exact nonneg i
    · cases done
  · split at done
    · rename_i enough
      obtain rfl := Option.some.inj done
      by_cases here : i = sop.num
      · rwa [here, Function.update_self]
      · rw [Function.update_of_ne here]
        exact nonneg i
    · cases done

/-- **No value becomes negative.** -/
theorem semop_nonneg {sops : List (SemBuf ι)} (nonneg : ∀ i, 0 ≤ values i)
    (done : semop values sops = some values') : ∀ i, 0 ≤ values' i := by
  induction sops generalizing values with
  | nil =>
    obtain rfl := Option.some.inj done
    exact nonneg
  | cons sop rest ih =>
    rw [semop_cons, Option.bind_eq_some_iff] at done
    obtain ⟨between, first, later⟩ := done
    exact ih (semopOne_nonneg nonneg first) later

/-- Adding to a semaphore never waits. -/
theorem semop_post (nonneg : 0 ≤ values i) :
    semop values [⟨i, 1⟩] = some (Function.update values i (values i + 1)) := by
  rw [semop_cons, semopOne, if_neg one_ne_zero, if_pos (by simp only; omega)]
  rfl

/-- **A permit is moved** if there is one. -/
theorem semop_move_eq_some_iff (other : j ≠ i) (nonneg : 0 ≤ values j) :
    semop values [⟨i, -1⟩, ⟨j, 1⟩] = some values' ↔
      1 ≤ values i ∧ values' = Function.update (Function.update values i (values i - 1)) j
        (values j + 1) := by
  rw [semop_cons, semopOne, if_neg (by simp)]
  split
  · rename_i enough
    have kept : 0 ≤ Function.update values i (values i - 1) j := by
      rwa [Function.update_of_ne other]
    change semop (Function.update values i (values i - 1)) [⟨j, 1⟩] = some values' ↔ _
    rw [semop_post kept, Function.update_of_ne other, Option.some.injEq, eq_comm]
    exact (and_iff_right (by simp only at enough; omega)).symm
  · rename_i short
    constructor
    · intro waiting
      cases waiting
    · rintro ⟨enough, _⟩
      simp only at short
      omega

end Lmbench.Lib
