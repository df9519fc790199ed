import Lmbench.Mem.Initialize
import Mathlib.Data.List.Dedup

/-!
# The footprint of the chain

The callers of `mem_initialize` divide a time by the number of cache lines of
`state->len`. The counter that is to cut the last page short goes up with the
links within a page and not with the links from page to page, so for each page
before it the last page has one line too many.

## Main results

* `lines_chain` - which lines the chain reads
* `memInitialize_footprint` - when they are those of the length
-/

namespace Lmbench

open Lib

/-- The lines that are read are all those of the whole pages of the length, and as many
of the next page as are left over. -/
structure MemState.Footprint (s : MemState) (pages slots : List ℕ) : Prop where
  total : (slots.map s.lineOf).dedup.length = s.len / s.line
  whole : ∀ i < s.len / s.pagesize, ∀ j < s.nlines,
    pages.getD i 0 + j * s.line ∈ slots.map s.lineOf
  partly : s.len % s.pagesize ≠ 0 →
    ((List.range s.nlines).filter fun j =>
      pages.getD (s.len / s.pagesize) 0 + j * s.line ∈ slots.map s.lineOf).length =
        s.len % s.pagesize / s.line

/-! ### Pages and lines of a length -/

namespace MemState.Shape

variable {s : MemState} {a b : ℕ} (shape : s.Shape a b)
include shape

theorem line_dvd_pagesize : s.line ∣ s.pagesize := Dvd.intro_left _ shape.pagesize.symm

theorem pagesize_eq : s.pagesize = s.line * s.nlines := by
  rw [shape.nlines_eq, Nat.mul_comm, shape.pagesize]

/-- The lines of a length are those of its whole pages and those left over. -/
theorem npointers_eq :
    s.npointers = s.len / s.pagesize * s.nlines + s.len % s.pagesize / s.line := by
  have parts := Nat.div_add_mod s.len s.pagesize
  conv at parts => lhs; rw [shape.pagesize_eq, Nat.mul_assoc, ← shape.pagesize_eq]
  rw [MemState.npointers]
  conv_lhs => rw [← parts]
  rw [Nat.mul_add_div shape.line_pos, Nat.mul_comm]

theorem rest_lt : s.len % s.pagesize / s.line < s.nlines := by
  refine Nat.div_lt_of_lt_mul ?_
  rw [← shape.pagesize_eq]
  exact Nat.mod_lt _ shape.pagesize_pos

/-- Unless the length is whole pages, it takes one page more than it has whole ones. -/
theorem npages_eq (partly : s.len % s.pagesize ≠ 0) : s.npages = s.len / s.pagesize + 1 := by
  have positive := shape.pagesize_pos
  have parts := Nat.div_add_mod s.len s.pagesize
  have below := Nat.mod_lt s.len positive
  rw [MemState.npages, Nat.div_eq_iff positive, Nat.succ_mul, Nat.mul_comm]
  omega

theorem rest_pos (lines : s.line ∣ s.len) (partly : s.len % s.pagesize ≠ 0) :
    0 < s.len % s.pagesize / s.line := by
  refine Nat.div_pos (Nat.le_of_dvd (by omega) ?_) shape.line_pos
  exact (Nat.dvd_mod_iff shape.line_dvd_pagesize).mpr lines

/-- The last line used of a page that the length does not fill: each page before it
leaves the counter one behind. -/
theorem last_partly (lines : s.line ∣ s.len) (partly : s.len % s.pagesize ≠ 0) :
    s.last (s.len / s.pagesize) + 1 =
      min s.nlines (s.len % s.pagesize / s.line + s.len / s.pagesize) := by
  have some := shape.nlines_pos
  have rest := shape.rest_pos lines partly
  have passed : s.len / s.pagesize * (s.nlines - 1) + s.len / s.pagesize =
      s.len / s.pagesize * s.nlines := by
    rw [← Nat.mul_succ, Nat.succ_eq_add_one, Nat.sub_add_cancel some]
  have pointers := shape.npointers_eq
  rw [MemState.last, shape.npages_eq partly, Nat.add_sub_cancel, if_neg (lt_irrefl _)]
  generalize s.len / s.pagesize = full at *
  generalize s.len % s.pagesize / s.line = rest at *
  omega

theorem last_of_mod (whole : s.len % s.pagesize = 0) {i : ℕ} (inside : i < s.npages) :
    s.last i + 1 = s.nlines := by
  have some := shape.nlines_pos
  rw [shape.last_of_whole (Nat.dvd_of_mod_eq_zero whole) inside]
  omega

theorem npages_of_mod (whole : s.len % s.pagesize = 0) : s.npages = s.len / s.pagesize := by
  have positive := shape.pagesize_pos
  have parts := Nat.div_add_mod s.len s.pagesize
  rw [MemState.npages, Nat.div_eq_iff positive, Nat.mul_comm]
  omega

end MemState.Shape

/-! ### The lines of the chain -/

section Lines

variable (s : MemState) (pages : List ℕ)

/-- The lines of the chain, in the order in which they are linked. -/
def MemState.chainLines : List ℕ :=
  gridSlots (fun _ i j => s.lineSlot pages i j) s.last 1 s.npages

/-- The slots of the chain. -/
def MemState.chainSlots : List ℕ :=
  gridSlots (fun k i j => s.slot pages i j k) s.last s.nwords s.npages

variable {s pages} {a b : ℕ} (shape : s.Shape a b) (order : PageOrder s pages)
  (room : s.npages ≤ s.nmpages)
include shape order room

theorem nodup_chainLines : (s.chainLines pages).Nodup := by
  apply nodup_gridSlots
  intro k hk i hi j hj k' hk' i' hi' j' hj' same
  have line := shape.last_lt i
  have line' := shape.last_lt i'
  obtain ⟨page, place⟩ := lineSlot_inj shape order (by omega) (by omega) (by omega) (by omega) same
  exact ⟨by omega, page, place⟩

/-- The chain reads these lines and no others. -/
theorem mem_lines_chain {line : ℕ} :
    line ∈ (s.chainSlots pages).map s.lineOf ↔ line ∈ s.chainLines pages := by
  have lineOf_slot : ∀ k < s.nwords, ∀ i < s.npages, ∀ j ≤ s.last i,
      s.lineOf (s.slot pages i j k) = s.lineSlot pages i j := by
    intro k hk i hi j hj
    have inside := shape.last_lt i
    exact shape.lineOf_address (order.aligned (order.getD_mem (by omega))) (by omega) hk
  rw [List.mem_map, MemState.chainLines, mem_gridSlots]
  constructor
  · rintro ⟨slot, visited, rfl⟩
    obtain ⟨k, hk, i, hi, j, hj, rfl⟩ := mem_gridSlots.mp visited
    exact ⟨0, Nat.zero_lt_one, i, hi, j, hj, (lineOf_slot k hk i hi j hj).symm⟩
  · rintro ⟨_, _, i, hi, j, hj, rfl⟩
    exact ⟨s.slot pages i j 0, mem_gridSlots.mpr ⟨0, shape.nwords_pos, i, hi, j, hj, rfl⟩,
      lineOf_slot 0 shape.nwords_pos i hi j hj⟩

/-- As many lines are read as are linked. -/
theorem length_dedup_chain : ((s.chainSlots pages).map s.lineOf).dedup.length =
    ((List.range s.npages).map fun i => s.last i + 1).sum := by
  have lines : ((s.chainSlots pages).map s.lineOf).dedup.Perm (s.chainLines pages) := by
    refine (List.perm_ext_iff_of_nodup (List.nodup_dedup _)
      (nodup_chainLines shape order room)).mpr fun line => ?_
    rw [List.mem_dedup]
    exact mem_lines_chain shape order room
  rw [lines.length_eq, MemState.chainLines, length_gridSlots, Nat.one_mul]

/-- A line of page `i` is read if it is not after the last one used. -/
theorem line_mem_chain {i j : ℕ} (hi : i < s.npages) (hj : j < s.nlines) :
    pages.getD i 0 + j * s.line ∈ (s.chainSlots pages).map s.lineOf ↔
      bitReverse a j ≤ s.last i := by
  -- the line at this place of the page is the one of the reversed index
  have mirrored : bitReverse a j < s.nlines := shape.nlines_eq ▸ bitReverse_lt a j
  have place : pages.getD i 0 + j * s.line = s.lineSlot pages i (bitReverse a j) := by
    rw [MemState.lineSlot, shape.lineAt_eq mirrored, bitReverse_bitReverse (shape.nlines_eq ▸ hj)]
  rw [mem_lines_chain shape order room, place, MemState.chainLines, mem_gridSlots]
  constructor
  · rintro ⟨_, _, i', hi', j', hj', same⟩
    have inside := shape.last_lt i'
    obtain ⟨rfl, rfl⟩ := lineSlot_inj shape order (by omega) (by omega) (by omega) mirrored same
    exact hj'
  · intro used
    exact ⟨0, Nat.zero_lt_one, i, hi, _, used, rfl⟩

/-- The lines of a page that are read, counted. -/
theorem count_line_chain {i : ℕ} (hi : i < s.npages) :
    ((List.range s.nlines).filter fun j =>
      pages.getD i 0 + j * s.line ∈ (s.chainSlots pages).map s.lineOf).length = s.last i + 1 := by
  have inside := shape.last_lt i
  have reversed : ((List.range s.nlines).filter fun j =>
      pages.getD i 0 + j * s.line ∈ (s.chainSlots pages).map s.lineOf).Perm
        ((List.range (s.last i + 1)).map (bitReverse a)) := by
    refine (List.perm_ext_iff_of_nodup (List.nodup_range.filter _) ?_).mpr fun j => ?_
    · refine List.Nodup.map_on (fun x hx y hy same => ?_) List.nodup_range
      rw [List.mem_range] at hx hy
      have lines := shape.nlines_eq
      exact bitReverse_injOn (by omega) (by omega) same
    · simp only [List.mem_filter, List.mem_range, decide_eq_true_iff]
      constructor
      · rintro ⟨hj, read⟩
        refine List.mem_map.mpr ⟨bitReverse a j, ?_, bitReverse_bitReverse (shape.nlines_eq ▸ hj)⟩
        exact List.mem_range.mpr
          (Nat.lt_succ_of_le ((line_mem_chain shape order room hi hj).mp read))
      · intro reversed
        obtain ⟨x, hx, rfl⟩ := List.mem_map.mp reversed
        rw [List.mem_range] at hx
        have small : x < 2 ^ a := by
          have lines := shape.nlines_eq
          omega
        have hj : bitReverse a x < s.nlines := shape.nlines_eq ▸ bitReverse_lt a x
        refine ⟨hj, (line_mem_chain shape order room hi hj).mpr ?_⟩
        rw [bitReverse_bitReverse small]
        exact Nat.le_of_lt_succ hx
  rw [reversed.length_eq, List.length_map, List.length_range]

end Lines

/-! ### When the footprint is that of the length -/

section Footprint

variable {s : MemState} {pages : List ℕ} {a b : ℕ} (shape : s.Shape a b)
  (order : PageOrder s pages) (room : s.npages ≤ s.nmpages) (lines : s.line ∣ s.len)
include shape order room lines

omit lines in
theorem footprint_of_mod (whole : s.len % s.pagesize = 0) :
    s.Footprint pages (s.chainSlots pages) where
  total := by
    have full : (List.range s.npages).map (fun i => s.last i + 1) =
        (List.range s.npages).map fun _ => s.nlines :=
      List.map_congr_left fun i hi => shape.last_of_mod whole (List.mem_range.mp hi)
    have pointers := shape.npointers_eq
    rw [whole, Nat.zero_div, Nat.add_zero, ← shape.npages_of_mod whole] at pointers
    rw [length_dedup_chain shape order room, full, List.map_const',
      List.sum_replicate_nat, List.length_range, ← pointers]
    rfl
  whole := by
    intro i hi j hj
    rw [← shape.npages_of_mod whole] at hi
    refine (line_mem_chain shape order room hi hj).mpr ?_
    have reversed : bitReverse a j < s.nlines := shape.nlines_eq ▸ bitReverse_lt a j
    have last := shape.last_of_mod whole hi
    omega
  partly := fun rest => absurd whole rest

/-- A length below the page size is cut at the right line. -/
theorem footprint_of_lt (some : 0 < s.len) (below : s.len < s.pagesize) :
    s.Footprint pages (s.chainSlots pages) := by
  have none : s.len / s.pagesize = 0 := Nat.div_eq_of_lt below
  have rest : s.len % s.pagesize = s.len := Nat.mod_eq_of_lt below
  have partly : s.len % s.pagesize ≠ 0 := by omega
  have one : s.npages = 1 := by rw [shape.npages_eq partly, none]
  have fits := shape.rest_lt
  have last := shape.last_partly lines partly
  rw [rest] at fits
  simp only [none, rest, Nat.add_zero, Nat.min_eq_right fits.le] at last
  refine ⟨?_, ?_, fun _ => ?_⟩
  · rw [length_dedup_chain shape order room, one, List.range_one, List.map_singleton,
      List.sum_singleton, last]
  · intro i hi
    omega
  · rw [none, rest, ← last]
    exact count_line_chain shape order room (by omega)

/-- Any other length is cut too late. -/
theorem not_footprint (above : s.pagesize ≤ s.len) (partly : s.len % s.pagesize ≠ 0) :
    ¬s.Footprint pages (s.chainSlots pages) := by
  intro footprint
  have counted := footprint.partly partly
  have pages := shape.npages_eq partly
  rw [count_line_chain shape order room (by omega), shape.last_partly lines partly] at counted
  have fits := shape.rest_lt
  have full : 0 < s.len / s.pagesize := Nat.div_pos above shape.pagesize_pos
  omega

end Footprint

/-- **The footprint.** For pages of a power of two lines, at least two, of a power of two
words each, and a length of at least two whole lines that is no more than was allocated,
in any order of the pages: the chain is laid, the pointer chase from `state->p[0]` is a cycle
and the lines it reads are those of the length if and only if the length is whole pages or less
than one, and its words and a hundred more are an `int`. The number of entries of `state->p` must
be one that the code can divide by. -/
theorem memInitialize_footprint (s : MemState) (a b : ℕ) (shape : s.Shape a b)
    (share : 0 < s.npointers / s.width) (lines : 2 ≤ s.nlines) (within : s.len ≤ s.maxlen)
    (whole : s.line ∣ s.len) (pointers : 2 ≤ s.len / s.line) (pages : List ℕ)
    (order : PageOrder s pages) :
    (∃ f start slots, memInitialize s pages = some f ∧ f.p 0 = some start ∧
      IsCycle f.mem start slots ∧ s.Footprint pages slots) ↔
      (s.pagesize ∣ s.len ∨ s.len < s.pagesize) ∧ s.len / s.ptr + 100 ≤ intMax := by
  have room : s.npages ≤ s.nmpages := Nat.div_le_div_right (by omega)
  have nonzero : 0 < s.len := Nat.pos_of_ne_zero fun zero => by simp [zero] at pointers
  have some : 0 < s.npages := Nat.div_pos (by omega) shape.pagesize_pos
  have first : (fillChain s pages).p 0 = Option.some (s.slot pages 0 0 0) :=
    p_fillChain shape share some lines pointers
  have cycle := chain_isCycle shape order room some
  rw [memInitialize_eq shape, nwords_mul_npointers shape whole]
  constructor
  · rintro ⟨f, start, slots, laid, begin, cycle', footprint⟩
    split at laid
    · rename_i ints
      refine ⟨?_, ints⟩
      obtain rfl := Option.some.inj laid
      -- there is one cycle from the first slot
      obtain rfl := Option.some.inj (first.symm.trans begin)
      obtain rfl := cycle'.unique cycle
      rw [Nat.dvd_iff_mod_eq_zero]
      by_contra other
      rw [not_or, Nat.not_lt] at other
      exact not_footprint shape order room whole other.2 other.1 footprint
    · cases laid
  · rintro ⟨lengths, ints⟩
    refine ⟨_, _, _, if_pos ints, first, cycle, ?_⟩
    rcases lengths with full | below
    · exact footprint_of_mod shape order room (Nat.mod_eq_zero_of_dvd full)
    · exact footprint_of_lt shape order room whole nonzero below

/-- Two pages of sixty-four lines of eight words. -/
def MemState.twoPages : MemState := ⟨8192, 8192, 64, 4096, 1, 8, machine_lp64⟩

/-- Shuffled, they have their footprint. -/
theorem memInitialize_footprint_two :
    ∃ f start slots,
      memInitialize .twoPages (permutation 2 4096 fun i => i + 1) = some f ∧ f.p 0 = some start ∧
      IsCycle f.mem start slots ∧
      MemState.twoPages.Footprint (permutation 2 4096 fun i => i + 1) slots :=
  (memInitialize_footprint .twoPages 6 3 ⟨by decide, by decide, by decide⟩
    (by decide) (by decide) (by decide) (by decide) (by decide) _ (permutation_perm _ _ _)).mpr
    ⟨.inl (by decide), by decide⟩

/-- One page and a half. -/
def MemState.onePageAndHalf : MemState := ⟨6144, 8192, 64, 4096, 1, 8, machine_lp64⟩

/-- The chain reads one line too many of the second page. -/
theorem memInitialize_footprint_half :
    ¬∃ f start slots,
      memInitialize .onePageAndHalf (permutation 2 4096 fun i => i + 1) = some f ∧
      f.p 0 = some start ∧ IsCycle f.mem start slots ∧
      MemState.onePageAndHalf.Footprint (permutation 2 4096 fun i => i + 1) slots := by
  have shape : MemState.onePageAndHalf.Shape 6 3 := ⟨by decide, by decide, by decide⟩
  have order : PageOrder .onePageAndHalf (permutation 2 4096 fun i => i + 1) :=
    permutation_perm _ _ _
  rintro ⟨f, start, slots, laid, begin, cycle, footprint⟩
  obtain rfl := Option.some.inj ((memInitialize_of_lt shape (by decide) _).symm.trans laid)
  have first := @p_fillChain _ _ _ (permutation 2 4096 fun i => i + 1) shape (by decide)
    (by decide) (by decide) (by decide)
  obtain rfl := Option.some.inj (first.symm.trans begin)
  obtain rfl := cycle.unique (chain_isCycle shape order (by decide) (by decide))
  exact not_footprint shape order (by decide) (by decide) (by decide) (by decide) footprint

end Lmbench
