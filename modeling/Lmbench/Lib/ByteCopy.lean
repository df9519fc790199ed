import Mathlib.Data.List.Perm.Basic
import Mathlib.Data.Nat.Basic
import Mathlib.Algebra.Group.Nat.Defs

/-!
# Copying arrays of words byte by byte

A copy of some number of bytes copies whole words and perhaps the first bytes of
one more; which digits of that word they are depends on the byte order.

## Main results

* `copyBytes_copyBytes` - bytes saved and copied back come from the original
* `take_copyBytes`, `getElem?_copyBytes_of_le` - the words that are copied, and those that stay
-/

namespace Lmbench.Lib

/-- Replace the first `count` bytes of a word of `size` bytes by those of another. -/
def overwrite (littleEndian : Bool) (size count source target : ℕ) : ℕ :=
  if littleEndian then source % 256 ^ count + target / 256 ^ count * 256 ^ count
  else source / 256 ^ (size - count) * 256 ^ (size - count) + target % 256 ^ (size - count)

/-- Copy a number of bytes from one array of words over the beginning of another. -/
def copyBytes (littleEndian : Bool) (size : ℕ) : ℕ → List ℕ → List ℕ → List ℕ
  | bytes, a :: source, b :: target =>
    -- a word is copied whole, left alone or, once, replaced in part
    if size ≤ bytes then a :: copyBytes littleEndian size (bytes - size) source target
    else if bytes = 0 then b :: target
    else overwrite littleEndian size bytes a b :: target
  | _, _, target => target

variable {littleEndian : Bool} {size bytes : ℕ} {source target : List ℕ}

/-- The bytes that are replaced do not depend on what else is in the source word. -/
theorem overwrite_overwrite (count a b c : ℕ) :
    overwrite littleEndian size count (overwrite littleEndian size count a b) c =
      overwrite littleEndian size count a c := by
  have low : 0 < 256 ^ count := Nat.pow_pos (by decide)
  have high : 0 < 256 ^ (size - count) := Nat.pow_pos (by decide)
  cases littleEndian with
  | true =>
    simp only [overwrite, if_true]
    rw [Nat.add_mul_mod_self_right, Nat.mod_mod]
  | false =>
    simp only [overwrite, Bool.false_eq_true, if_false]
    rw [Nat.mul_comm (a / _), Nat.mul_add_div high, Nat.div_eq_of_lt (Nat.mod_lt _ high),
      Nat.add_zero, Nat.mul_comm]

@[simp] theorem length_copyBytes (littleEndian : Bool) (size bytes : ℕ) (source target : List ℕ) :
    (copyBytes littleEndian size bytes source target).length = target.length := by
  induction bytes, source, target using copyBytes.induct size with
  | case1 bytes a source b target whole ih => simp [copyBytes, whole, ih]
  | case2 a source b target short => simp [copyBytes, short]
  | case3 bytes a source b target short some => simp [copyBytes, short, some]
  | case4 bytes source target absent =>
    rw [copyBytes]
    exact absent

/-- Copying through a buffer copies from the source. -/
theorem copyBytes_copyBytes {buffer : List ℕ} (room : buffer.length = source.length) :
    copyBytes littleEndian size bytes (copyBytes littleEndian size bytes source buffer) target =
      copyBytes littleEndian size bytes source target := by
  induction source generalizing bytes buffer target with
  | nil =>
    obtain rfl := List.length_eq_zero_iff.mp room
    rfl
  | cons a source ih =>
    cases buffer with
    | nil => cases room
    | cons g buffer =>
      cases target with
      | nil => simp [copyBytes]
      | cons b target =>
        by_cases whole : size ≤ bytes
        · simp only [copyBytes, if_pos whole, ih (Nat.succ.inj room)]
        · by_cases none : bytes = 0
          · simp only [copyBytes, if_neg whole, if_pos none]
          · simp only [copyBytes, if_neg whole, if_neg none, overwrite_overwrite]

/-- The words that are copied whole. -/
theorem take_copyBytes (positive : 0 < size) (room : target.length = source.length) :
    (copyBytes littleEndian size bytes source target).take (bytes / size) =
      source.take (bytes / size) := by
  induction source generalizing bytes target with
  | nil =>
    obtain rfl := List.length_eq_zero_iff.mp room
    rfl
  | cons a source ih =>
    cases target with
    | nil => cases room
    | cons b target =>
      by_cases whole : size ≤ bytes
      · rw [Nat.div_eq_sub_div positive whole, copyBytes, if_pos whole, List.take_succ_cons,
          List.take_succ_cons, ih (Nat.succ.inj room)]
      · rw [Nat.div_eq_of_lt (by omega), List.take_zero, List.take_zero]

/-- A word that the copy does not reach stays. -/
theorem getElem?_copyBytes_of_le (positive : 0 < size) {k : ℕ} (behind : bytes ≤ size * k) :
    (copyBytes littleEndian size bytes source target)[k]? = target[k]? := by
  induction bytes, source, target using copyBytes.induct size generalizing k with
  | case1 bytes a source b target whole ih =>
    rw [copyBytes, if_pos whole]
    cases k with
    | zero => omega
    | succ k =>
      rw [List.getElem?_cons_succ, List.getElem?_cons_succ]
      apply ih
      rw [Nat.mul_succ] at behind
      omega
  | case2 a source b target short => simp [copyBytes, short]
  | case3 bytes a source b target short more =>
    rw [copyBytes, if_neg short, if_neg more]
    cases k with
    | zero => omega
    | succ k => rfl
  | case4 bytes source target absent =>
    rw [copyBytes]
    exact absent

end Lmbench.Lib
