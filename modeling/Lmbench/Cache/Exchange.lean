import Lmbench.Cache.Optimiser

/-!
# Taking a chunk out of the working set

`remove_chunk` and `fixup_chunk` both bring the pages of a chunk to the end of the
working set by exchanging them one by one with the pages there. `remove_chunk` counts
its partners down from the end, `fixup_chunk` counts them up to it, and where the chunk
is closer to the end than it is long the two loops do different things.

## Main results

* `removeChunk_removes` - the chunk is removed, and put back, wherever it is
* `movedToEnd_iff` - when the loop of `fixup_chunk` brings the chunk to the end
-/

namespace Lmbench

open Lib

/-- The entries of the working set that are not in the chunk. -/
def outside (pages : List ℕ) (i chunk npages : ℕ) : List ℕ :=
  slice pages 0 i ++ slice pages (i + chunk) (npages - (i + chunk))

/-- The places of these entries. -/
theorem outside_eq (pages : List ℕ) (i chunk npages : ℕ) : outside pages i chunk npages =
    (List.range' 0 i ++ List.range' (i + chunk) (npages - (i + chunk))).filterMap (pages[·]?) := by
  rw [outside, slice_eq, slice_eq, List.filterMap_append]

theorem nodup_outside_places (i chunk npages : ℕ) :
    (List.range' 0 i ++ List.range' (i + chunk) (npages - (i + chunk))).Nodup := by
  refine List.nodup_append.mpr ⟨List.nodup_range', List.nodup_range', fun x hx y hy => ?_⟩
  rw [List.mem_range'_1] at hx hy
  omega

/-! ### `remove_chunk` -/

section Remove

variable {pages : List ℕ} {i chunk npages : ℕ} (fits : i + chunk ≤ npages)
  (stored : npages ≤ pages.length)
include fits stored

/-- The chunk is not among the first pages, and all others are. -/
theorem mirrored_removes : (slice (swapAll pages (mirrored i chunk npages)) 0 (npages - chunk)).Perm
    (outside pages i chunk npages) := by
  unfold mirrored
  split
  · rename_i inner
    rw [outside_eq]
    refine slice_perm (fun x =>
      if (i ≤ x ∧ x < i + chunk) ↔ (npages - 1 < x + chunk ∧ x ≤ npages - 1) then x
      else i + (npages - 1) - x) ?_ ?_ (nodup_outside_places i chunk npages) ?_
    · intro x _ _
      have moved := getElem?_swapMirror (l := pages) (i := i) (t := npages - 1) (n := chunk)
        (by omega) (by omega) x
      rw [swapMirror] at moved
      rw [moved]
      split <;> rfl
    · intro x _ hx y _ hy same
      split at same <;> split at same <;> omega
    · intro y
      rw [List.mem_append, List.mem_range'_1, List.mem_range'_1]
      constructor
      · -- what comes from the tail does not come from the chunk
        rintro ⟨x, _, below, rfl⟩
        split <;> omega
      · intro kept
        by_cases before : y < npages - chunk
        · exact ⟨y, by omega, by omega, if_pos (by omega)⟩
        · -- an entry of the tail comes from its reflection
          have back : i + (npages - 1) - (i + (npages - 1) - y) = y := by omega
          refine ⟨i + (npages - 1) - y, by omega, by omega, ?_⟩
          rw [if_neg (by omega), back]
  · -- a chunk at the end stays where it is
    rename_i last
    have start : npages - chunk = i := by omega
    have none : npages - (i + chunk) = 0 := by omega
    rw [outside, start, none]
    simp [slice, swapAll]

omit fits in
/-- The second loop puts everything back. -/
theorem mirrored_mirrored :
    swapAll (swapAll pages (mirrored i chunk npages)) (mirrored i chunk npages) = pages := by
  unfold mirrored
  split
  · exact swapMirror_swapMirror (by omega) (by omega)
  · rfl

end Remove

/-- So `remove_chunk` leaves all of the list as it was. -/
theorem pages_removeChunk (s : MemState) (latency : ℕ → ℚ) (i chunk npages len : ℕ)
    (o : Optimiser) (stored : npages ≤ o.pages.length) :
    (removeChunk s latency i chunk npages len o).2.pages = o.pages := by
  have timed : ((o.swaps (mirrored i chunk npages)).timed s (len - chunk * s.pagesize)).pages =
      (o.swaps (mirrored i chunk npages)).pages := rfl
  rw [removeChunk, pages_swaps, timed, pages_swaps, mirrored_mirrored stored]

/-- **`remove_chunk` removes the chunk and nothing sticks.** For every chunk of the pages of a
working set, whether or not it overlaps the tail it is exchanged with: at the call of
`measure` the first `npages - chunk` entries are those outside the chunk, and on return all of
`pages` is what it was on entry. -/
theorem removeChunk_removes (s : MemState) (latency : ℕ → ℚ) (i chunk npages len : ℕ)
    (o : Optimiser) (fits : i + chunk ≤ npages) (stored : npages ≤ o.pages.length) :
    removeChunk s latency i chunk npages len o =
        (latency o.measured, ((o.swaps (mirrored i chunk npages)).timed s
          (len - chunk * s.pagesize)).swaps (mirrored i chunk npages)) ∧
      (slice (o.swaps (mirrored i chunk npages)).pages 0 (npages - chunk)).Perm
        (outside o.pages i chunk npages) ∧
      (removeChunk s latency i chunk npages len o).2.pages = o.pages := by
  refine ⟨rfl, ?_, ?_⟩
  · rw [pages_swaps]
    exact mirrored_removes fits stored
  · exact pages_removeChunk s latency i chunk npages len o stored

/-- Two pages of four, one of them in the tail. -/
theorem removeChunk_removes_overlap :
    removeChunk .fourPages Optimiser.noBenefit 1 2 4 64 .fourPages =
        (100, ((Optimiser.fourPages.swaps (mirrored 1 2 4)).timed .fourPages (64 - 2 * 16)).swaps
          (mirrored 1 2 4)) ∧
      (slice (Optimiser.fourPages.swaps (mirrored 1 2 4)).pages 0 (4 - 2)).Perm
        (outside [0, 16, 32, 48] 1 2 4) ∧
      (removeChunk .fourPages Optimiser.noBenefit 1 2 4 64 .fourPages).2.pages = [0, 16, 32, 48] :=
  removeChunk_removes .fourPages Optimiser.noBenefit 1 2 4 64 .fourPages (by decide) (by decide)

/-! ### `fixup_chunk` -/

/-- The chunk is at the end of the working set, and the other entries are before it. -/
def MovedToEnd (before after : List ℕ) (i chunk npages : ℕ) : Prop :=
  (slice after (npages - chunk) chunk).Perm (slice before i chunk) ∧
    (slice after 0 (npages - chunk)).Perm (outside before i chunk npages)

/-- The pages of one chunk that `test_chunk` goes on to, on the way down from the working
set. -/
inductive Reaches (npages : ℕ) : ℕ → ℕ → Prop
  | start : Reaches npages 0 npages
  | piece {i chunk : ℕ} {part : ℕ × ℕ} : Reaches npages i chunk →
      ¬(chunk ≤ 20 ∧ chunk < npages) →
      part ∈ pieces (i + chunk) chunk i ((chunk + 19) / 20) → Reaches npages part.1 part.2

section MoveToEnd

variable {pages : List ℕ} {i chunk npages : ℕ} (inner : i + chunk < npages)
  (stored : npages ≤ pages.length)
include inner

theorem moveChunk_eq :
    swapAll pages (moveChunk i chunk npages) = swapShift pages i (npages - chunk - i) chunk := by
  have partner : i + (npages - chunk - i) = npages - chunk := by omega
  rw [moveChunk, if_pos inner, swapShift, partner]

include stored

theorem getElem?_moveChunk (x : ℕ) : (swapAll pages (moveChunk i chunk npages))[x]? =
    if i ≤ x ∧ x < i + chunk then pages[x + (npages - chunk - i)]?
    else if i + chunk ≤ x ∧ x < npages then pages[i + (x - i) % (npages - chunk - i)]?
    else pages[x]? := by
  have last : i + (npages - chunk - i) + chunk = npages := by omega
  rw [moveChunk_eq inner, getElem?_swapShift (by omega) (by omega), last]

/-- Far enough from the end, the chunk is exchanged with pages outside it. -/
theorem movedToEnd_of_far (far : i + 2 * chunk ≤ npages) :
    MovedToEnd pages (swapAll pages (moveChunk i chunk npages)) i chunk npages := by
  constructor
  · rw [slice_eq pages]
    refine slice_perm (fun x => x - (npages - chunk - i)) ?_ (by omega) List.nodup_range' ?_
    · intro x _ _
      -- the distance is at least the length, so there is one period only
      have period : (x - i) % (npages - chunk - i) = x - i - (npages - chunk - i) := by
        rw [Nat.mod_eq_sub_mod (by omega), Nat.mod_eq_of_lt (by omega)]
      have place : i + (x - i - (npages - chunk - i)) = x - (npages - chunk - i) := by omega
      rw [getElem?_moveChunk inner stored, if_neg (by omega), if_pos (by omega), period, place]
    · intro y
      rw [List.mem_range'_1]
      constructor
      · rintro ⟨x, lower, upper, rfl⟩
        omega
      · intro inChunk
        exact ⟨y + (npages - chunk - i), by omega, by omega, by omega⟩
  · rw [outside_eq]
    refine slice_perm (fun x =>
      if i ≤ x ∧ x < i + chunk then x + (npages - chunk - i) else x) ?_ ?_
      (nodup_outside_places i chunk npages) ?_
    · intro x _ _
      rw [getElem?_moveChunk inner stored]
      split
      · rfl
      · split
        · have place : i + (x - i) % (npages - chunk - i) = x := by
            rw [Nat.mod_eq_of_lt (by omega)]
            omega
          rw [place]
        · rfl
    · intro x _ hx y _ hy same
      split at same <;> split at same <;> omega
    · intro y
      rw [List.mem_append, List.mem_range'_1, List.mem_range'_1]
      constructor
      · rintro ⟨x, _, below, rfl⟩
        split <;> omega
      · intro kept
        by_cases before : y < npages - chunk
        · exact ⟨y, by omega, by omega, if_neg (by omega)⟩
        · refine ⟨y - (npages - chunk - i), by omega, by omega, ?_⟩
          rw [if_pos (by omega)]
          omega

/-- Nearer to it, the last place of the chunk is among the last places, and gets an entry that
was not in the chunk. -/
theorem not_movedToEnd_of_near (nodup : pages.Nodup) (near : npages < i + 2 * chunk) :
    ¬MovedToEnd pages (swapAll pages (moveChunk i chunk npages)) i chunk npages := by
  rintro ⟨last, _⟩
  have there : npages - 1 < pages.length := by omega
  -- the last page of the working set comes to the last place of the chunk
  have place : i + chunk - 1 + (npages - chunk - i) = npages - 1 := by omega
  have moved : (swapAll pages (moveChunk i chunk npages))[i + chunk - 1]? =
      some pages[npages - 1] := by
    rw [getElem?_moveChunk inner stored, if_pos (by omega), place, List.getElem?_eq_getElem there]
  have member := last.mem_iff.mp (mem_slice.mpr ⟨i + chunk - 1, by omega, by omega, moved⟩)
  -- but it was not in the chunk
  obtain ⟨y, lower, upper, same⟩ := mem_slice.mp member
  rw [← List.getElem?_eq_getElem there] at same
  have := (List.getElem?_inj there nodup).mp same.symm
  omega

end MoveToEnd

/-- Both loops that `fixup_chunk` starts with leave these pages. -/
theorem pages_startSearch (s : MemState) (i chunk npages : ℕ) (chunkBaseline : ℚ) (o : Optimiser) :
    (startSearch s i chunk npages chunkBaseline o).o.pages =
      swapAll o.pages (moveChunk i chunk npages) := by
  rw [← pages_swaps]
  unfold startSearch
  dsimp only
  split <;> rfl

/-- **When the loop moves the chunk to the end.** For every working set of some of the pages,
none of which is there twice, and every chunk that `fixup_chunk` can be called for and that is
not at the end already: when the search for pages begins, the last entries are those of the
chunk and the first ones the others if and only if the rest behind the chunk is at least as long
as the chunk. -/
theorem movedToEnd_iff (s : MemState) (i chunk npages : ℕ) (chunkBaseline : ℚ) (o : Optimiser)
    (inner : i + chunk < npages) (stored : npages ≤ o.pages.length) (nodup : o.pages.Nodup) :
    MovedToEnd o.pages (startSearch s i chunk npages chunkBaseline o).o.pages i chunk npages ↔
      i + 2 * chunk ≤ npages := by
  rw [pages_startSearch]
  constructor
  · intro moved
    by_contra near
    exact not_movedToEnd_of_near inner stored nodup (by omega) moved
  · exact movedToEnd_of_far inner stored

theorem movedToEnd_iff_fourPages :
    MovedToEnd [0, 16, 32, 48] (startSearch .fourPages 1 2 4 10 .fourPages).o.pages 1 2 4 ↔
      1 + 2 * 2 ≤ 4 :=
  movedToEnd_iff .fourPages 1 2 4 10 .fourPages (by decide) (by decide) (by decide)

/-- Twenty-one pages, in order. -/
def Optimiser.manyPages : Optimiser where
  chain := ⟨(List.range 21).map (· * 16), fun _ => none, fun _ => none⟩
  availableIndex := 0
  measured := 0

/-- **The slip.** Of twenty-one pages `test_chunk` takes two at a time and the last one alone.
Behind the two before it there is one page, and it does not come to stand before them: the last
two entries are the pages that were at 20 and at 18. -/
theorem not_movedToEnd :
    ¬∀ (s : MemState) (npages i chunk : ℕ) (chunkBaseline : ℚ) (o : Optimiser), 2 ≤ npages →
      Reaches npages i chunk → chunk ≤ 20 ∧ chunk < npages → i + chunk < npages →
      npages ≤ o.pages.length → o.pages.Nodup →
      MovedToEnd o.pages (startSearch s i chunk npages chunkBaseline o).o.pages i chunk npages := by
  intro always
  have reached : Reaches 21 18 2 :=
    .piece .start (by decide) (show (18, 2) ∈ _ by decide)
  have moved := always .fourPages 21 18 2 10 .manyPages (by decide) reached (by decide) (by decide)
    (by decide) (by decide)
  have first := moved.1
  revert first
  decide

end Lmbench
