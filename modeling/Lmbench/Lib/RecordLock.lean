import Mathlib.Logic.Function.Basic

/-!
# Record locks

A record has at most one owner. A process that asks for a record it owns has it at
once, one that asks for another's waits, and to give back a record that one does not
own does nothing. A waiting process gets the record some time after it is free, but
so does any other that asks for it then.

## Main results

* `setLockWait_of_owned`, `setUnlock_of_owned` - nobody takes a record from its owner
-/

namespace Lmbench.Lib

variable {ι π : Type*} [DecidableEq ι]

/-- A granted lock, or an unlock. -/
inductive LockEvent (ι π : Type*)
  | locked (p : π) (i : ι)
  | unlocked (p : π) (i : ι)
deriving DecidableEq, Repr

section Owner

variable [DecidableEq π] (owner : ι → Option π) (p : π) (i : ι)

/-- `F_SETLKW` with `F_WRLCK`, unless it has to wait. -/
def setLockWait : Option (ι → Option π) :=
  if owner i = none ∨ owner i = some p then some (Function.update owner i (some p)) else none

/-- `F_SETLK` with `F_UNLCK`. -/
def setUnlock : ι → Option π :=
  if owner i = some p then Function.update owner i none else owner

variable {owner p i} {owner' : ι → Option π} {q : π} {j : ι}

/-- A record that another owns stays as it is. -/
theorem setLockWait_of_owned (owned : owner j = some q) (other : q ≠ p)
    (granted : setLockWait owner p i = some owner') : owner' j = some q := by
  unfold setLockWait at granted
  split at granted
  · rename_i free
    obtain rfl := Option.some.inj granted
    have elsewhere : j ≠ i := by
      rintro rfl
      rcases free with none | own
      · rw [owned] at none
        cases none
      · rw [owned] at own
        exact other (Option.some.inj own)
    rwa [Function.update_of_ne elsewhere]
  · cases granted

theorem setLockWait_self (granted : setLockWait owner p i = some owner') :
    owner' = Function.update owner i (some p) := by
  unfold setLockWait at granted
  split at granted
  · exact (Option.some.inj granted).symm
  · cases granted

theorem setUnlock_of_ne (elsewhere : j ≠ i) : setUnlock owner p i j = owner j := by
  unfold setUnlock
  split
  · rw [Function.update_of_ne elsewhere]
  · rfl

theorem setUnlock_of_owned (owned : owner j = some q) (other : q ≠ p) :
    setUnlock owner p i j = some q := by
  unfold setUnlock
  split
  · rename_i own
    have elsewhere : j ≠ i := by
      rintro rfl
      rw [owned] at own
      exact other (Option.some.inj own)
    rwa [Function.update_of_ne elsewhere]
  · exact owned

/-- Unlocking gives nobody a record. -/
theorem setUnlock_of_none (free : owner j = none) : setUnlock owner p i j = none := by
  unfold setUnlock
  split
  · by_cases here : j = i
    · rw [here, Function.update_self]
    · rwa [Function.update_of_ne here]
  · exact free

end Owner

end Lmbench.Lib
