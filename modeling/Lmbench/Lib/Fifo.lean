import Mathlib.Data.List.Basic

/-!
# First-in first-out pipes

A pipe remembers everything that was ever written to it; how much of that has
been read is a number. What is pending is the rest, in the order of writing, and
a read returns some positive prefix of it.

## Main results

* `Fifo.read_eq_some_iff` - what a read returns and what it changes
-/

namespace Lmbench.Lib

universe u

/-- A pipe with its history. -/
@[ext]
structure Fifo (α : Type u) where
  written : List α
  taken : ℕ
  taken_le : taken ≤ written.length

namespace Fifo

variable {α : Type u}

/-- A pipe nobody has written to. -/
def empty : Fifo α := ⟨[], 0, Nat.zero_le _⟩

/-- The items that are written and not yet read. -/
def pending (q : Fifo α) : List α := q.written.drop q.taken

/-- Write at the end. -/
def write (q : Fifo α) (items : List α) : Fifo α :=
  ⟨q.written ++ items, q.taken, by
    have := q.taken_le
    rw [List.length_append]
    omega⟩

theorem length_pending (q : Fifo α) : q.pending.length = q.written.length - q.taken :=
  List.length_drop

/-- Read `k` items, where `k` is positive and at most what is there. -/
def read (q : Fifo α) (k : ℕ) : Option (List α × Fifo α) :=
  if available : 0 < k ∧ k ≤ q.pending.length then
    some (q.pending.take k, ⟨q.written, q.taken + k, by
      have := q.taken_le
      have := q.length_pending
      omega⟩)
  else none

theorem pending_write (q : Fifo α) (items : List α) :
    (q.write items).pending = q.pending ++ items :=
  List.drop_append_of_le_length q.taken_le

/-- A read of what is there succeeds and leaves the rest. -/
theorem exists_read (q : Fifo α) {k : ℕ} (positive : 0 < k) (available : k ≤ q.pending.length) :
    ∃ q', q.read k = some (q.pending.take k, q') ∧ q'.pending = q.pending.drop k := by
  refine ⟨_, dif_pos ⟨positive, available⟩, ?_⟩
  simp only [pending, List.drop_drop]

@[simp] theorem written_empty : (empty : Fifo α).written = [] := rfl

@[simp] theorem taken_empty : (empty : Fifo α).taken = 0 := rfl

@[simp] theorem written_write (q : Fifo α) (items : List α) :
    (q.write items).written = q.written ++ items := rfl

@[simp] theorem taken_write (q : Fifo α) (items : List α) : (q.write items).taken = q.taken := rfl

/-- A read returns the oldest pending items and moves past them. -/
theorem read_eq_some_iff {q q' : Fifo α} {k : ℕ} {items : List α} :
    q.read k = some (items, q') ↔
      0 < k ∧ q.taken + k ≤ q.written.length ∧ items = (q.written.drop q.taken).take k ∧
        q'.written = q.written ∧ q'.taken = q.taken + k := by
  have bound := q.taken_le
  have length := q.length_pending
  unfold read
  split
  · rename_i available
    rw [Option.some.injEq, Prod.mk.injEq]
    constructor
    · rintro ⟨rfl, rfl⟩
      exact ⟨available.1, by omega, rfl, rfl, rfl⟩
    · rintro ⟨_, _, rfl, written, taken⟩
      refine ⟨rfl, ?_⟩
      ext1
      · exact written.symm
      · exact taken.symm
  · rename_i unavailable
    constructor
    · exact nofun
    · rintro ⟨positive, fits, _⟩
      exact absurd ⟨positive, by omega⟩ unavailable

end Fifo

end Lmbench.Lib
