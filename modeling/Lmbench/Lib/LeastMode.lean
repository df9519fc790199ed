import Mathlib.Data.List.Count
import Mathlib.Order.Basic

/-!
# Modes of ascending lists

The most frequent entry of a list, and the least of these if there are several.
When a list is read in ascending order, equal entries come one after the other, so
it is enough to compare the length of the last run with that of the longest.

## Main results

* `LeastMode.append` - a longer run takes the place of the mode
* `LeastMode.append_le` - a run of at most its length does not
-/

namespace Lmbench.Lib

variable {α : Type*} [DecidableEq α]

/-- `v` is the least of the most frequent entries of `l`. -/
structure LeastMode [LE α] (l : List α) (v : α) : Prop where
  most : ∀ u, l.count u ≤ l.count v
  least : ∀ u, l.count u = l.count v → v ≤ u

namespace LeastMode

theorem perm [LE α] {l l' : List α} {v : α} (mode : LeastMode l v) (same : l.Perm l') :
    LeastMode l' v := by
  constructor
  · intro u
    rw [← same.count_eq, ← same.count_eq]
    exact mode.most u
  · intro u equal
    rw [← same.count_eq, ← same.count_eq] at equal
    exact mode.least u equal

section Order

variable [PartialOrder α] {l : List α} {m v : α}

/-- There is only one. -/
theorem unique (mode : LeastMode l m) (mode' : LeastMode l v) : m = v := by
  have same : l.count m = l.count v := Nat.le_antisymm (mode'.most m) (mode.most v)
  exact le_antisymm (mode.least v same.symm) (mode'.least m same)

theorem singleton (v : α) : LeastMode [v] v := by
  constructor
  · intro u
    rw [List.count_singleton_self, List.count_singleton]
    split <;> omega
  · intro u equal
    rw [List.count_singleton_self] at equal
    exact (List.mem_singleton.mp (List.count_pos_iff.mp (by omega))).ge

omit [PartialOrder α] in
theorem count_append_of_ne {u : α} (other : u ≠ v) : (l ++ [v]).count u = l.count u := by
  rw [List.count_append, List.count_singleton, if_neg (by simpa using other.symm), Nat.add_zero]

omit [PartialOrder α] in
theorem count_append_self : (l ++ [v]).count v = l.count v + 1 := by
  rw [List.count_append, List.count_singleton_self]

/-- An entry that is now more frequent is the mode. -/
theorem append (mode : LeastMode l m) (longer : l.count m < l.count v + 1) :
    LeastMode (l ++ [v]) v := by
  have others : ∀ u, u ≠ v → (l ++ [v]).count u < (l ++ [v]).count v := by
    intro u other
    rw [count_append_of_ne other, count_append_self]
    exact Nat.lt_of_le_of_lt (mode.most u) longer
  constructor
  · intro u
    by_cases same : u = v
    · exact Nat.le_of_eq (by rw [same])
    · exact Nat.le_of_lt (others u same)
  · intro u equal
    by_cases same : u = v
    · exact same.ge
    · exact absurd equal (Nat.ne_of_lt (others u same))

/-- A greatest entry that is not more frequent changes nothing. -/
theorem append_le (mode : LeastMode l m) (last : ∀ x ∈ l, x ≤ v)
    (shorter : l.count v + 1 ≤ l.count m) :
    LeastMode (l ++ [v]) m ∧ (l ++ [v]).count m = l.count m := by
  have other : m ≠ v := by
    rintro rfl
    omega
  have member : m ∈ l := List.count_pos_iff.mp (by omega)
  have kept : (l ++ [v]).count m = l.count m := count_append_of_ne other
  refine ⟨⟨fun u => ?_, fun u equal => ?_⟩, kept⟩
  · rw [kept]
    by_cases same : u = v
    · rw [same, count_append_self]
      exact shorter
    · rw [count_append_of_ne same]
      exact mode.most u
  · by_cases same : u = v
    · rw [same]
      exact last m member
    · rw [kept, count_append_of_ne same] at equal
      exact mode.least u equal

omit [DecidableEq α] in
/-- An entry above all before it starts a run. -/
theorem not_mem_of_lt (last : ∀ x ∈ l, x ≤ m) (above : m < v) : v ∉ l :=
  fun member => absurd (last v member) (not_le_of_gt above)

end Order

end LeastMode

end Lmbench.Lib
