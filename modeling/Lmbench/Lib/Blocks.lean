import Mathlib.Data.Fintype.Card
import Mathlib.Algebra.BigOperators.Group.Finset.Basic
import Mathlib.Algebra.Order.BigOperators.Group.List

/-!
# Lists cut into blocks

A sender that writes records of one size one behind the other produces a list
that its receiver can cut by counting alone, as long as every record is complete
before the next begins. The counts also tell who has written: where each of `n`
senders writes at most once, `n` entries are one from each.

## Main results

* `take_drop_flatMap` - the block at a position
* `full_of_mul_le_length` - blocks that add up to the most they can are all full
* `mem_of_card_le` - a list without repetition that is long enough has everything
-/

namespace Lmbench.Lib

universe u v

variable {α : Type u} {β : Type v}

/-- Skipping `i` full blocks and reading one returns block `i`. -/
theorem take_drop_flatMap {block : α → List β} {size : ℕ} {l : List α}
    (full : ∀ x ∈ l, (block x).length = size) {i : ℕ} {x : α} (here : l[i]? = some x) :
    ((l.flatMap block).drop (i * size)).take size = block x := by
  induction l generalizing i with
  | nil => cases here
  | cons y rest ih =>
    have head : (block y).length = size := full y List.mem_cons_self
    have tail : ∀ z ∈ rest, (block z).length = size := fun z hz =>
      full z (List.mem_cons_of_mem y hz)
    cases i with
    | zero =>
      obtain rfl : y = x := by simpa using here
      simp [← head]
    | succ i =>
      have skipped : (i + 1) * size = (block y).length + i * size := by
        rw [head, Nat.succ_mul, Nat.add_comm]
      rw [List.flatMap_cons, skipped, List.drop_append, List.drop_of_length_le (by omega),
        List.nil_append, Nat.add_sub_cancel_left]
      exact ih tail (by simpa using here)

theorem length_flatMap_le {block : α → List β} {size : ℕ} {l : List α}
    (bounded : ∀ x ∈ l, (block x).length ≤ size) : (l.flatMap block).length ≤ l.length * size := by
  induction l with
  | nil => simp
  | cons y rest ih =>
    have head : (block y).length ≤ size := bounded y List.mem_cons_self
    have tail := ih fun z hz => bounded z (List.mem_cons_of_mem y hz)
    rw [List.flatMap_cons, List.length_append, List.length_cons, Nat.succ_mul]
    omega

/-- If at most `n` blocks of at most `size` items make up `n * size` items, then
there are `n` and every one is full. -/
theorem full_of_mul_le_length {block : α → List β} {size n : ℕ} {l : List α}
    (bounded : ∀ x ∈ l, (block x).length ≤ size) (few : l.length ≤ n)
    (many : n * size ≤ (l.flatMap block).length) : ∀ x ∈ l, (block x).length = size := by
  induction l generalizing n with
  | nil => simp
  | cons y rest ih =>
    have head : (block y).length ≤ size := bounded y List.mem_cons_self
    have tail : ∀ z ∈ rest, (block z).length ≤ size := fun z hz =>
      bounded z (List.mem_cons_of_mem y hz)
    obtain ⟨m, rfl⟩ : ∃ m, n = m + 1 := Nat.exists_eq_succ_of_ne_zero fun zero => by
      simp [zero] at few
    have fewer : rest.length ≤ m := Nat.le_of_succ_le_succ few
    have atMost := (length_flatMap_le tail).trans (Nat.mul_le_mul_right size fewer)
    rw [List.flatMap_cons, List.length_append, Nat.succ_mul] at many
    intro x hx
    rcases List.mem_cons.mp hx with rfl | later
    · omega
    · exact ih tail fewer (by omega) x later

/-- A list without repetition that is as long as the type has elements has all of
them. -/
theorem mem_of_card_le [Fintype α] {l : List α} (nodup : l.Nodup)
    (long : Fintype.card α ≤ l.length) (x : α) : x ∈ l := by
  classical
  have everything : l.toFinset = Finset.univ := by
    apply Finset.eq_univ_of_card
    rw [List.toFinset_card_of_nodup nodup]
    exact le_antisymm nodup.length_le_card long
  rw [← List.mem_toFinset, everything]
  exact Finset.mem_univ x

end Lmbench.Lib
