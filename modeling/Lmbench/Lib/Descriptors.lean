import Mathlib.Data.Finset.Card
import Mathlib.Data.Finset.Range
import Mathlib.Data.Fintype.EquivFin
import Mathlib.Data.Nat.Find

/-!
# Tables of descriptors

A process has a finite set of descriptors in use. A new one is always the least that is free,
so descriptors that are taken one after the other fill the table from below.

## Main results

* `lowest_le_card` - the least free descriptor is at most the number of those in use
* `Filled.insert_lowest` - taking the least keeps the table filled from below
* `Filled.range_subset` - who takes `n` descriptors has taken all below `n` that were free
-/

namespace Lmbench.Lib.Descriptors

/-- The least free descriptor. -/
def lowest (table : Finset ℕ) : ℕ := Nat.find (Infinite.exists_notMem_finset table)

theorem lowest_notMem (table : Finset ℕ) : lowest table ∉ table :=
  Nat.find_spec (Infinite.exists_notMem_finset table)

theorem mem_of_lt_lowest {table : Finset ℕ} {fd : ℕ} (below : fd < lowest table) :
    fd ∈ table := by
  by_contra free
  exact Nat.find_min (Infinite.exists_notMem_finset table) below free

theorem lowest_le {table : Finset ℕ} {fd : ℕ} (free : fd ∉ table) : lowest table ≤ fd :=
  Nat.find_min' (Infinite.exists_notMem_finset table) free

/-- The descriptors below the least free one are all in use. -/
theorem lowest_le_card (table : Finset ℕ) : lowest table ≤ table.card := by
  have below : Finset.range (lowest table) ⊆ table := by
    intro fd member
    exact mem_of_lt_lowest (Finset.mem_range.mp member)
  simpa using Finset.card_le_card below

/-- A table that has been filled up from below with `k` more descriptors. -/
structure Filled (before after : Finset ℕ) (k : ℕ) : Prop where
  subset : before ⊆ after
  card : after.card = before.card + k
  below : ∀ fd ∈ after, fd ∉ before → ∀ lower < fd, lower ∈ after

variable {before after : Finset ℕ} {k n : ℕ}

theorem filled_refl (table : Finset ℕ) : Filled table table 0 where
  subset := Finset.Subset.refl _
  card := rfl
  below := fun _ member free => absurd member free

/-- Taking the least free descriptor. -/
theorem Filled.insert_lowest (filled : Filled before after k) :
    Filled before (insert (lowest after) after) (k + 1) where
  subset := filled.subset.trans (Finset.subset_insert _ _)
  card := by
    rw [Finset.card_insert_of_notMem (lowest_notMem after), filled.card]
    rfl
  below := by
    intro fd member free lower less
    apply Finset.mem_insert_of_mem
    rcases Finset.mem_insert.mp member with rfl | old
    · exact mem_of_lt_lowest less
    · exact filled.below fd old free lower less

/-- Who takes `n` descriptors has taken all below `n` that were free. -/
theorem Filled.range_subset (filled : Filled before after k) (enough : n ≤ k) :
    Finset.range n ⊆ after := by
  intro fd member
  by_contra free
  have less := Finset.mem_range.mp member
  -- then all that were taken are less than this one
  have taken : after \ before ⊆ Finset.range fd := by
    intro other there
    obtain ⟨in_after, new⟩ := Finset.mem_sdiff.mp there
    apply Finset.mem_range.mpr
    rcases Nat.lt_trichotomy other fd with lower | same | higher
    · exact lower
    · exact absurd (same ▸ in_after) free
    · exact absurd (filled.below other in_after new fd higher) free
  have few := Finset.card_le_card taken
  rw [Finset.card_range, Finset.card_sdiff_of_subset filled.subset, filled.card] at few
  omega

/-- How many of the first `n` descriptors are new. -/
theorem Filled.card_new (filled : Filled before after k) (enough : n ≤ k) :
    ((after \ before).filter (· < n)).card = n - ((Finset.range n) ∩ before).card := by
  have these : (after \ before).filter (· < n) = Finset.range n \ before := by
    ext fd
    simp only [Finset.mem_filter, Finset.mem_sdiff, Finset.mem_range]
    constructor
    · rintro ⟨⟨-, new⟩, less⟩
      exact ⟨less, new⟩
    · rintro ⟨less, new⟩
      exact ⟨⟨filled.range_subset enough (Finset.mem_range.mpr less), new⟩, less⟩
  rw [these, Finset.card_sdiff, Finset.card_range, Finset.inter_comm]

end Lmbench.Lib.Descriptors
