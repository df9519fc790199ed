import Lmbench.Lib.Loops
import Mathlib.Data.Nat.Init

/-!
# Stores into an allocated block

A block of memory has so many entries, and holds something in each of them from the
start. A store outside it has no result, so a run of stores that has one stayed inside.
Loops that fill a block from the front do, if and only if there is room.

## Main results

* `foldlM_put`, `foldlM_put_of_short` - a loop that stores at its counter
* `foldlM_push`, `foldlM_push_of_short` - a loop that stores at a counter of its own
-/

namespace Lmbench.Lib

universe u

variable {α : Type u}

/-- `block[i] = x`, if there is such an entry. -/
def put (block : List α) (i : ℕ) (x : α) : Option (List α) :=
  if i < block.length then some (block.set i x) else none

theorem put_append {front : List α} {i : ℕ} (inside : i < front.length) (rest : List α) (x : α) :
    put (front ++ rest) i x = some (front.set i x ++ rest) := by
  rw [put, if_pos (by rw [List.length_append]; omega), List.set_append_left _ _ inside]

/-- The first entry behind a part. -/
theorem put_next (front rest : List α) (y x : α) :
    put (front ++ y :: rest) front.length x = some (front ++ x :: rest) := by
  have inside : front.length < (front ++ y :: rest).length := by simp
  rw [put, if_pos inside, List.set_append_right _ _ (Nat.le_refl _), Nat.sub_self,
    List.set_cons_zero]

theorem put_of_length_le {block : List α} {i : ℕ} (outside : block.length ≤ i) (x : α) :
    put block i x = none :=
  if_neg (Nat.not_lt.mpr outside)

section Fill

variable {block : List α} {n : ℕ}

/-- A loop that stores at its counter fills the front of the block. -/
theorem foldlM_put (f : ℕ → α) (room : n ≤ block.length) :
    (List.range n).foldlM (fun block i => put block i (f i)) block =
      some ((List.range n).map f ++ block.drop n) := by
  refine foldlM_range_some (fun n => (List.range n).map f ++ block.drop n) fun i hi => ?_
  have next : block.drop i = block[i] :: block.drop (i + 1) := List.drop_eq_getElem_cons (by omega)
  have stored := put_next ((List.range i).map f) (block.drop (i + 1)) block[i] (f i)
  rw [List.length_map, List.length_range] at stored
  rw [next, stored, List.range_succ, List.map_append, List.append_assoc]
  rfl

/-- Without room it leaves the block. -/
theorem foldlM_put_of_short (f : ℕ → α) (short : block.length < n) :
    (List.range n).foldlM (fun block i => put block i (f i)) block = none := by
  obtain ⟨k, rfl⟩ := Nat.exists_eq_add_of_le (Nat.succ_le_of_lt short)
  have outside : put ((List.range block.length).map f) block.length (f block.length) = none :=
    put_of_length_le (by simp) _
  rw [Nat.succ_eq_add_one, List.range_add, List.range_succ, List.append_assoc, List.foldlM_append,
    foldlM_put f (Nat.le_refl _), List.drop_length, List.append_nil]
  change (put ((List.range block.length).map f) block.length (f block.length)).bind _ = none
  rw [outside]
  rfl

end Fill

/-- A block of which the first `n` entries are in use. -/
structure Filling (α : Type u) where
  slots : List α
  n : ℕ

namespace Filling

/-- `slots[n++] = x`. -/
def push (b : Filling α) (x : α) : Option (Filling α) := do
  let slots ← put b.slots b.n x
  return ⟨slots, b.n + 1⟩

/-- A block that holds `l` in front of what was there. -/
def holding (l rest : List α) : Filling α := ⟨l ++ rest, l.length⟩

theorem push_holding (l rest : List α) (y x : α) :
    (holding l (y :: rest)).push x = some (holding (l ++ [x]) rest) := by
  have length : (l ++ [x]).length = l.length + 1 := by simp
  change (put (l ++ y :: rest) l.length x).bind _ =
    some (Filling.mk ((l ++ [x]) ++ rest) (l ++ [x]).length)
  rw [put_next, length, List.append_assoc]
  rfl

/-- Stores at a counter of its own. -/
theorem foldlM_push (l : List α) {front block : List α} (room : l.length ≤ block.length) :
    l.foldlM push (holding front block) = some (holding (front ++ l) (block.drop l.length)) := by
  induction l generalizing front block with
  | nil =>
    rw [List.append_nil]
    rfl
  | cons x l ih =>
    cases block with
    | nil => simp at room
    | cons y block =>
      rw [List.foldlM_cons, push_holding]
      change l.foldlM push (holding (front ++ [x]) block) = _
      rw [ih (Nat.le_of_succ_le_succ room), List.append_assoc]
      rfl

/-- Without room they leave the block. -/
theorem foldlM_push_of_short (l : List α) {front block : List α} (short : block.length < l.length) :
    l.foldlM push (holding front block) = none := by
  induction l generalizing front block with
  | nil => cases short
  | cons x l ih =>
    cases block with
    | nil =>
      have outside : (holding front []).push x = none := by
        change (put (front ++ []) front.length x).bind _ = none
        rw [put_of_length_le (by simp)]
        rfl
      rw [List.foldlM_cons, outside]
      rfl
    | cons y block =>
      rw [List.foldlM_cons, push_holding]
      exact ih (Nat.lt_of_succ_lt_succ short)

end Filling

end Lmbench.Lib
