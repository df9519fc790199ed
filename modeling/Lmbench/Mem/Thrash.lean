import Lmbench.Mem.Footprint
import Mathlib.Data.Nat.ModEq
import Mathlib.Tactic.IntervalCases

/-!
# The pointer chain of `thrash_initialize`

For whole pages every access is to be on another page: the chain goes through
all pages, one line of each, with the line moving on by one from page to page.
For other lengths the chain jumps through the lines of the whole length in the
order of `words_initialize`, which mirrors a fixed number of bits and so repeats
itself unless there are a power of two many lines.

## Main results

* `thrashInitialize_isCycle` - whole pages: one cycle through all lines
* `thrashInitialize_rest` - other lengths: when the chain is one cycle
-/

namespace Lmbench

open Lib

section Model

variable (s : MemState)

/-- The stores for a length that is not whole pages. -/
def thrashRest : List (ℕ × ℕ) :=
  let nwords := s.len / s.line
  let words := wordOrder nwords s.line
  ((List.range (nwords - 1)).map fun i => (words.getD i 0, words.getD (i + 1) 0)) ++
    [(words.getD (nwords - 1) 0, 0)]

/-- The stores for whole pages: each page to the next, and the last to the first. -/
def thrashPages (pages : List ℕ) : List (ℕ × ℕ) :=
  let nwords := s.pagesize / s.line
  let words := wordOrder nwords s.line
  ((List.range (s.npages - 1)).flatMap fun i =>
    (List.range nwords).map fun j =>
      (pages.getD i 0 + words.getD ((i + j) % nwords) 0,
        pages.getD (i + 1) 0 + words.getD ((i + j + 1) % nwords) 0)) ++
  -- the loop has left `i` at the last page
  let i := s.npages - 1
  (List.range nwords).map fun j =>
    (pages.getD i 0 + words.getD ((i + j) % nwords) 0,
      pages.getD 0 0 + words.getD ((j + 1) % nwords) 0)

/-- `thrash_initialize`, for the page order that `base_initialize` has drawn: the memory
and `state->p[0]`. -/
def thrashInitialize (pages : List ℕ) : Option (Memory × ℕ) :=
  if s.len % s.pagesize ≠ 0 then do
    let _words ← wordsInitialize (s.len / s.line) s.line
    return (storeAll (fun _ => none) (thrashRest s), 0)
  else do
    let _words ← wordsInitialize (s.pagesize / s.line) s.line
    return (storeAll (fun _ => none) (thrashPages s pages), pages.getD 0 0)

end Model

/-! ### Whole pages -/

section Pages

variable (s : MemState)

/-- The slot that pass `k` over the pages visits in page `i`. -/
def MemState.diagonal (pages : List ℕ) (k i : ℕ) : ℕ := s.lineSlot pages i ((i + k) % s.nlines)

/-- Where the chain goes from there. -/
def MemState.nextDiagonal (pages : List ℕ) (k i : ℕ) : ℕ :=
  if i + 1 < s.npages then s.diagonal pages k (i + 1)
  else s.diagonal pages ((k + 1) % s.nlines) 0

variable {s} {pages : List ℕ}

/-- Every store links a slot to the next one, on another page. -/
theorem mem_thrashPages (some : 0 < s.npages) {w : ℕ × ℕ} :
    w ∈ thrashPages s pages ↔ ∃ i < s.npages, ∃ k < s.nlines,
      w = (s.diagonal pages k i, s.nextDiagonal pages k i) := by
  have inside : ∀ i < s.npages - 1, ∀ k,
      s.nextDiagonal pages k i = s.lineSlot pages (i + 1) ((i + k + 1) % s.nlines) := by
    intro i hi k
    rw [MemState.nextDiagonal, if_pos (by omega), MemState.diagonal, Nat.add_right_comm]
  have wrap : ∀ k,
      s.nextDiagonal pages k (s.npages - 1) = s.lineSlot pages 0 ((k + 1) % s.nlines) := by
    intro k
    have beyond : ¬s.npages - 1 + 1 < s.npages := by omega
    rw [MemState.nextDiagonal, if_neg beyond, MemState.diagonal, Nat.zero_add, Nat.mod_mod]
  simp only [thrashPages, List.mem_append, List.mem_flatMap, List.mem_map, List.mem_range]
  constructor
  · rintro (⟨i, hi, k, hk, rfl⟩ | ⟨k, hk, rfl⟩)
    · exact ⟨i, by omega, k, hk, by rw [inside i hi k]; rfl⟩
    · exact ⟨s.npages - 1, by omega, k, hk, by rw [wrap k]; rfl⟩
  · rintro ⟨i, hi, k, hk, rfl⟩
    by_cases more : i < s.npages - 1
    · exact Or.inl ⟨i, more, k, hk, by rw [inside i more k]; rfl⟩
    · obtain rfl : i = s.npages - 1 := by omega
      exact Or.inr ⟨k, hk, by rw [wrap k]; rfl⟩

/-- A line taken for a word: the orders of pages and lines do not depend on words. -/
def MemState.byLine (s : MemState) (wide : 1 < s.line) : MemState :=
  { s with ptr := s.line, machine := ⟨s.machine.1, wide⟩ }

theorem MemState.byLine_shape {a : ℕ} (wide : 1 < s.line) (power : s.pagesize = 2 ^ a * s.line) :
    (s.byLine wide).Shape a 0 :=
  ⟨Nat.zero_lt_of_lt wide, by rw [Nat.pow_zero, Nat.one_mul]; rfl, power⟩

/-- The slots in the order of the chase: each pass goes through all pages. -/
def MemState.diagonals (s : MemState) (pages : List ℕ) : List ℕ :=
  gridSlots (fun k i _ => s.diagonal pages k i) (fun _ => 0) s.nlines s.npages

theorem mem_diagonals {x : ℕ} : x ∈ s.diagonals pages ↔
    ∃ k < s.nlines, ∃ i < s.npages, s.diagonal pages k i = x := by
  rw [MemState.diagonals, mem_gridSlots]
  constructor
  · rintro ⟨k, hk, i, hi, _, _, rfl⟩
    exact ⟨k, hk, i, hi, rfl⟩
  · rintro ⟨k, hk, i, hi, rfl⟩
    exact ⟨k, hk, i, hi, 0, le_rfl, rfl⟩

theorem length_diagonals : (s.diagonals pages).length = s.npages * s.nlines := by
  rw [MemState.diagonals, length_gridSlots, List.map_const', List.sum_replicate_nat,
    List.length_range, Nat.zero_add, Nat.mul_one, Nat.mul_comm]

variable {a : ℕ} {wide : 1 < s.line} (shape : (s.byLine wide).Shape a 0) (order : PageOrder s pages)
  (room : s.npages ≤ s.nmpages)
include shape order room

/-- **No slot is visited twice.** In one page the passes visit different lines. -/
theorem diagonal_inj {k k' i i' : ℕ} (hk : k < s.nlines) (hk' : k' < s.nlines)
    (hi : i < s.npages) (hi' : i' < s.npages)
    (same : s.diagonal pages k i = s.diagonal pages k' i') : k = k' ∧ i = i' := by
  have lines : 0 < s.nlines := by omega
  have met : (s.byLine wide).lineSlot pages i ((i + k) % s.nlines) =
      (s.byLine wide).lineSlot pages i' ((i' + k') % s.nlines) := same
  obtain ⟨rfl, turned⟩ := lineSlot_inj shape order (hi.trans_le room) (hi'.trans_le room)
    (Nat.mod_lt _ lines) (Nat.mod_lt _ lines) met
  have cancelled : k ≡ k' [MOD s.nlines] := Nat.ModEq.add_left_cancel' i turned
  exact ⟨cancelled.eq_of_lt_of_lt hk hk', rfl⟩

theorem mem_diagonal {k i : ℕ} (hk : k < s.nlines) (hi : i < s.npages) :
    storeAll (fun _ => none) (thrashPages s pages) (s.diagonal pages k i) =
      some (s.nextDiagonal pages k i) := by
  have positive : 0 < s.npages := by omega
  apply storeAll_of_mem
  · intro w made same
    obtain ⟨i', hi', k', hk', rfl⟩ := (mem_thrashPages positive).mp made
    obtain ⟨rfl, rfl⟩ := diagonal_inj shape order room hk' hk hi' hi same
    rfl
  · exact ⟨_, (mem_thrashPages positive).mpr ⟨i, hi, k, hk, rfl⟩, rfl⟩

/-- The passes close up after as many as a page has lines. -/
theorem diagonals_isCycle (some : 0 < s.npages) :
    IsCycle (storeAll (fun _ => none) (thrashPages s pages)) (s.diagonal pages 0 0)
      (s.diagonals pages) := by
  refine grid_isCycle (fun k i _ => s.diagonal pages k i) shape.nlines_pos some ?_ ?_ ?_ ?_
  · intro k hk i hi j hj
    omega
  · intro k hk i hi
    rw [mem_diagonal shape order room hk (by omega), MemState.nextDiagonal, if_pos hi]
  · intro k hk
    have beyond : ¬s.npages - 1 + 1 < s.npages := by omega
    rw [mem_diagonal shape order room hk (by omega), MemState.nextDiagonal, if_neg beyond]
  · apply nodup_gridSlots
    intro k hk i hi j hj k' hk' i' hi' j' hj' same
    obtain ⟨pass, page⟩ := diagonal_inj shape order room hk hk' hi hi' same
    exact ⟨pass, page, by omega⟩

omit order room in
theorem diagonal_eq (k i : ℕ) : s.diagonal pages k i =
    pages.getD i 0 + bitReverse a ((i + k) % s.nlines) * s.line := by
  have inside : (i + k) % s.nlines < (s.byLine wide).nlines := Nat.mod_lt _ shape.nlines_pos
  exact congrArg (pages.getD i 0 + ·) (shape.lineAt_eq inside)

omit order room in
/-- The chase visits the lines of the pages. -/
theorem mem_diagonals_line {x : ℕ} : x ∈ s.diagonals pages ↔
    ∃ i < s.npages, ∃ j < s.nlines, x = pages.getD i 0 + j * s.line := by
  have lines : s.nlines = 2 ^ a := shape.nlines_eq
  have positive : 0 < s.nlines := shape.nlines_pos
  rw [mem_diagonals]
  constructor
  · rintro ⟨k, hk, i, hi, rfl⟩
    exact ⟨i, hi, _, lines ▸ bitReverse_lt a _, diagonal_eq shape k i⟩
  · rintro ⟨i, hi, j, hj, rfl⟩
    -- the pass that comes to this line when it is in this page
    have turned : (i + (bitReverse a j + (s.nlines - i % s.nlines)) % s.nlines) % s.nlines =
        bitReverse a j := by
      have below := Nat.mod_lt i positive
      have parts := Nat.div_add_mod i s.nlines
      have sum : i + (bitReverse a j + (s.nlines - i % s.nlines)) =
          bitReverse a j + s.nlines * (i / s.nlines + 1) := by
        rw [Nat.mul_succ]
        omega
      rw [Nat.add_mod_mod, sum, Nat.add_mul_mod_self_left]
      exact Nat.mod_eq_of_lt (lines ▸ bitReverse_lt a j)
    refine ⟨(bitReverse a j + (s.nlines - i % s.nlines)) % s.nlines, Nat.mod_lt _ positive,
      i, hi, ?_⟩
    rw [diagonal_eq shape, turned, bitReverse_bitReverse (lines ▸ hj)]

theorem line_dvd_diagonals {x : ℕ} (visited : x ∈ s.diagonals pages) : s.line ∣ x := by
  obtain ⟨i, hi, j, _, rfl⟩ := (mem_diagonals_line shape).mp visited
  have page := order.aligned (order.getD_mem (i := i) (by omega))
  have lines : s.line ∣ s.pagesize := shape.line_dvd_pagesize
  exact Nat.dvd_add (lines.trans page) (Nat.dvd_mul_left _ _)

omit room in
theorem diagonal_div {k i : ℕ} (hi : i < s.nmpages) :
    s.diagonal pages k i / s.pagesize = pages.getD i 0 / s.pagesize := by
  obtain ⟨q, page⟩ := order.aligned (order.getD_mem hi)
  have line : 0 < s.line := shape.line_pos
  have fits : bitReverse a ((i + k) % s.nlines) * s.line < s.pagesize := by
    rw [show s.pagesize = 2 ^ a * s.line from shape.pagesize]
    exact Nat.mul_lt_mul_of_pos_right (bitReverse_lt a _) line
  have positive : 0 < s.pagesize := shape.pagesize_pos
  rw [diagonal_eq shape, page, Nat.mul_add_div positive, Nat.div_eq_of_lt fits,
    Nat.mul_div_cancel_left _ positive, Nat.add_zero]

/-- **Every access is to another page.** -/
theorem page_changes (two : 2 ≤ s.npages) {x y : ℕ} (visited : x ∈ s.diagonals pages)
    (link : storeAll (fun _ => none) (thrashPages s pages) x = some y) :
    x / s.pagesize ≠ y / s.pagesize := by
  obtain ⟨k, hk, i, hi, rfl⟩ := mem_diagonals.mp visited
  rw [mem_diagonal shape order room hk hi] at link
  obtain rfl := Option.some.inj link
  have distinct : ∀ i' < s.npages, i ≠ i' → ∀ k',
      s.diagonal pages k i / s.pagesize ≠ s.diagonal pages k' i' / s.pagesize := by
    intro i' hi' other k' same
    rw [diagonal_div shape order (by omega), diagonal_div shape order (by omega)] at same
    have aligned := order.aligned (order.getD_mem (i := i) (by omega))
    have aligned' := order.aligned (order.getD_mem (i := i') (by omega))
    exact other (order.getD_inj shape.pagesize_pos (by omega) (by omega)
      (Nat.div_left_inj aligned aligned' |>.mp same))
  rw [MemState.nextDiagonal]
  split
  · exact distinct _ (by omega) (by omega) _
  · exact distinct _ (by omega) (by omega) _

end Pages

/-- What `thrash_initialize` is to lay out for whole pages. -/
structure MemState.Thrashes (s : MemState) (pages : List ℕ) (memory : Memory) (start : ℕ)
    (slots : List ℕ) : Prop where
  cycle : IsCycle memory start slots
  count : slots.length = s.npages * (s.pagesize / s.line)
  /-- A slot for each line of the pages that the length takes. -/
  lines : ∀ x, x ∈ slots ↔
    ∃ i < s.npages, ∃ j < s.pagesize / s.line, x = pages.getD i 0 + j * s.line
  /-- If these are all pages, a slot for each line of the buffer. -/
  buffer : s.npages = s.nmpages → ∀ x, x ∈ slots ↔ ∃ m < s.len / s.line, x = m * s.line
  changes : 2 ≤ s.npages → ∀ n x y, walk memory start n = some x →
    walk memory start (n + 1) = some y → x / s.pagesize ≠ y / s.pagesize
  /-- A pointer stored in one slot does not reach into another. -/
  apart : ∀ x ∈ slots, ∀ y ∈ slots, x ≠ y → x + s.ptr ≤ y ∨ y + s.ptr ≤ x

/-- Pages in any order have all lines between them. -/
theorem PageOrder.lines_iff {s : MemState} {pages : List ℕ} {a : ℕ} (order : PageOrder s pages)
    {wide : 1 < s.line} (shape : (s.byLine wide).Shape a 0) (x : ℕ) :
    (∃ i < s.nmpages, ∃ j < s.nlines, x = pages.getD i 0 + j * s.line) ↔
      ∃ m < s.nmpages * s.nlines, x = m * s.line := by
  have pagesize : s.pagesize = s.line * s.nlines := shape.pagesize_eq
  have positive : 0 < s.nlines := shape.nlines_pos
  constructor
  · rintro ⟨i, hi, j, hj, rfl⟩
    obtain ⟨q, hq, page⟩ := List.mem_map.mp ((List.Perm.mem_iff order).mp (order.getD_mem hi))
    rw [List.mem_range] at hq
    refine ⟨q * s.nlines + j, ?_, ?_⟩
    · calc q * s.nlines + j < q * s.nlines + s.nlines := by omega
        _ = (q + 1) * s.nlines := (Nat.succ_mul q s.nlines).symm
        _ ≤ s.nmpages * s.nlines := Nat.mul_le_mul_right _ hq
    · rw [← page, pagesize, Nat.add_mul]
      ring
  · rintro ⟨m, hm, rfl⟩
    have page : m / s.nlines < s.nmpages := Nat.div_lt_of_lt_mul (Nat.mul_comm _ _ ▸ hm)
    obtain ⟨i, hi, place⟩ := order.exists_getD ((List.Perm.mem_iff order).mpr
      (List.mem_map.mpr ⟨m / s.nlines, List.mem_range.mpr page, rfl⟩))
    refine ⟨i, hi, m % s.nlines, Nat.mod_lt _ positive, ?_⟩
    have parts := Nat.div_add_mod m s.nlines
    rw [place, pagesize]
    calc m * s.line = (s.nlines * (m / s.nlines) + m % s.nlines) * s.line := by rw [parts]
      _ = m / s.nlines * (s.line * s.nlines) + m % s.nlines * s.line := by ring

/-- A pointer at a line ends before each later line. -/
theorem line_mul_add_ptr_le {s : MemState} (wide : s.ptr ≤ s.line) {m m' : ℕ} (below : m < m') :
    s.line * m + s.ptr ≤ s.line * m' :=
  calc s.line * m + s.ptr ≤ s.line * m + s.line := Nat.add_le_add_left wide _
    _ = s.line * (m + 1) := (Nat.mul_succ _ _).symm
    _ ≤ s.line * m' := Nat.mul_le_mul_left _ below

/-- **Another page every time, and all of them.** For whole pages of a power of two lines
that are no shorter than a pointer, at least one page and no more than were allocated, in
any order. -/
theorem thrashInitialize_isCycle (s : MemState) (a : ℕ) (power : s.pagesize = 2 ^ a * s.line)
    (wide : s.ptr ≤ s.line) (whole : s.pagesize ∣ s.len)
    (some : 0 < s.len) (within : s.len ≤ s.maxlen) (pages : List ℕ) (order : PageOrder s pages) :
    ∃ mem start slots, thrashInitialize s pages = Option.some (mem, start) ∧
      s.Thrashes pages mem start slots := by
  have words : 1 < s.line := Nat.lt_of_lt_of_le s.machine.2 wide
  have shape : (s.byLine words).Shape a 0 := MemState.byLine_shape words power
  have room : s.npages ≤ s.nmpages := Nat.div_le_div_right (by omega)
  have rest : s.len % s.pagesize = 0 := Nat.mod_eq_zero_of_dvd whole
  have taken : s.npages = s.len / s.pagesize := shape.npages_of_mod rest
  have pagesize : 0 < s.pagesize := shape.pagesize_pos
  have positive : 0 < s.npages := by
    rw [taken]
    exact Nat.div_pos (Nat.le_of_dvd some whole) pagesize
  have start : s.diagonal pages 0 0 = pages.getD 0 0 := by
    rw [diagonal_eq shape, Nat.zero_add, Nat.zero_mod, bitReverse_zero, Nat.zero_mul, Nat.add_zero]
  have made : thrashInitialize s pages =
      Option.some (storeAll (fun _ => none) (thrashPages s pages), s.diagonal pages 0 0) := by
    have order : wordsInitialize (s.pagesize / s.line) s.line = Option.some s.lines :=
      @wordsInitialize_nlines (s.byLine words) a 0 shape
    rw [thrashInitialize, if_neg (by omega), start, order]
    rfl
  have cycle := diagonals_isCycle shape order room positive
  refine ⟨_, _, s.diagonals pages, made, cycle, length_diagonals, fun x => mem_diagonals_line shape,
    fun all x => ?_, fun two n x y here there => ?_, fun x hx y hy other => ?_⟩
  · have lines : s.nmpages * s.nlines = s.len / s.line := by
      have pointers : s.len / s.line =
          s.len / s.pagesize * s.nlines + s.len % s.pagesize / s.line := shape.npointers_eq
      rw [rest, Nat.zero_div, Nat.add_zero] at pointers
      rw [← all, taken, pointers]
    rw [mem_diagonals_line shape, all, order.lines_iff shape, lines]
  · rw [walk_succ, here] at there
    refine page_changes shape order room two ?_ there
    rw [cycle.visits] at here
    exact List.mem_of_getElem? here
  · obtain ⟨m, rfl⟩ := line_dvd_diagonals shape order room hx
    obtain ⟨m', rfl⟩ := line_dvd_diagonals shape order room hy
    -- different multiples of the line are a line apart
    have indices : m ≠ m' := fun same => other (congrArg (s.line * ·) same)
    rcases Nat.lt_or_gt_of_ne indices with below | above
    · exact .inl (line_mul_add_ptr_le wide below)
    · exact .inr (line_mul_add_ptr_le wide above)

/-- Three pages of sixty-four lines. -/
def MemState.threePages : MemState := ⟨12288, 12288, 64, 4096, 1, 8, machine_lp64⟩

/-- Shuffled. -/
theorem thrashInitialize_isCycle_three :
    ∃ mem start slots,
      thrashInitialize .threePages (permutation 3 4096 fun i => i + 1) = some (mem, start) ∧
      MemState.threePages.Thrashes (permutation 3 4096 fun i => i + 1) mem start slots :=
  thrashInitialize_isCycle .threePages 6 (by decide) (by decide) (by decide)
    (by decide) (by decide) _ (permutation_perm _ _ _)

/-! ### Other lengths -/

section Rest

variable (s : MemState)

/-- The `i`-th entry of the order. -/
def MemState.restAt (i : ℕ) : ℕ := (wordOrder (s.len / s.line) s.line).getD i 0

variable {s} {i : ℕ}

theorem mem_thrashRest {w : ℕ × ℕ} : w ∈ thrashRest s ↔
    (∃ i < s.len / s.line - 1, w = (s.restAt i, s.restAt (i + 1))) ∨
      w = (s.restAt (s.len / s.line - 1), 0) := by
  simp only [thrashRest, List.mem_append, List.mem_map, List.mem_range, List.mem_singleton,
    MemState.restAt, eq_comm]

/-- The stores reach no further than the mirrored bits. -/
theorem source_thrashRest (some : 0 < s.len / s.line) {w : ℕ × ℕ} (made : w ∈ thrashRest s) :
    ∃ m < 2 ^ countBits (s.len / s.line) ((s.len / s.line) >>> 1), w.1 = m * s.line := by
  have entry : ∃ i < s.len / s.line, w.1 = s.restAt i := by
    rcases mem_thrashRest.mp made with ⟨i, hi, rfl⟩ | rfl
    · exact ⟨i, by omega, rfl⟩
    · exact ⟨s.len / s.line - 1, by omega, rfl⟩
  obtain ⟨i, hi, source⟩ := entry
  refine ⟨_, bitReverse_lt _ i, ?_⟩
  rw [source, MemState.restAt, getD_wordOrder_of_lt hi]

/-- **A cycle through all slots needs all bits.** -/
theorem two_pow_of_isCycle (line : 0 < s.line) (some : 0 < s.len / s.line) {start : ℕ}
    {slots : List ℕ} (cycle : IsCycle (storeAll (fun _ => none) (thrashRest s)) start slots)
    (all : slots.Perm ((List.range (s.len / s.line)).map (· * s.line))) :
    ∃ width, s.len / s.line = 2 ^ width := by
  refine ⟨countBits (s.len / s.line) ((s.len / s.line) >>> 1), ?_⟩
  -- the last slot is visited, so one of the stores is to it
  have visited : (s.len / s.line - 1) * s.line ∈ slots :=
    all.mem_iff.mpr (List.mem_map.mpr ⟨_, List.mem_range.mpr (by omega), rfl⟩)
  obtain ⟨y, link⟩ := cycle.exists_link visited
  have made : ∃ w ∈ thrashRest s, w.1 = (s.len / s.line - 1) * s.line := by
    by_contra never
    rw [storeAll_of_not_mem fun w hw same => never ⟨w, hw, same⟩] at link
    cases link
  obtain ⟨w, hw, source⟩ := made
  obtain ⟨m, hm, place⟩ := source_thrashRest some hw
  have last : m = s.len / s.line - 1 :=
    Nat.eq_of_mul_eq_mul_right line (place.symm.trans source)
  have most := two_pow_countBits_half_le some
  omega

variable {width : ℕ} (power : s.len / s.line = 2 ^ width)
include power

theorem restAt_eq (inside : i < 2 ^ width) : s.restAt i = bitReverse width i * s.line := by
  rw [MemState.restAt, power, getD_wordOrder inside]

theorem restAt_zero : s.restAt 0 = 0 := by
  rw [restAt_eq power (Nat.two_pow_pos width), bitReverse_zero, Nat.zero_mul]

theorem restAt_inj (line : 0 < s.line) {i' : ℕ} (hi : i < 2 ^ width) (hi' : i' < 2 ^ width)
    (same : s.restAt i = s.restAt i') : i = i' := by
  rw [restAt_eq power hi, restAt_eq power hi'] at same
  exact bitReverse_injOn hi hi' (Nat.eq_of_mul_eq_mul_right line same)

theorem mem_restAt (line : 0 < s.line) (inside : i < 2 ^ width) :
    storeAll (fun _ => none) (thrashRest s) (s.restAt i) =
      some (if i = 2 ^ width - 1 then 0 else s.restAt (i + 1)) := by
  apply storeAll_of_mem
  · intro w made same
    rcases mem_thrashRest.mp made with ⟨i', hi', rfl⟩ | rfl
    · rw [power] at hi'
      obtain rfl := restAt_inj power line (by omega) inside same
      rw [if_neg (by omega)]
    · rw [power] at same
      obtain rfl := restAt_inj power line (by omega) inside same
      rw [if_pos rfl]
  · by_cases more : i < 2 ^ width - 1
    · exact ⟨_, mem_thrashRest.mpr (Or.inl ⟨i, power ▸ more, rfl⟩), rfl⟩
    · obtain rfl : i = 2 ^ width - 1 := by omega
      exact ⟨_, mem_thrashRest.mpr (Or.inr rfl), by rw [power]⟩

/-- With all bits, the jumps are one cycle. -/
theorem rest_isCycle (line : 0 < s.line) :
    IsCycle (storeAll (fun _ => none) (thrashRest s)) 0
      ((List.range (2 ^ width)).map s.restAt) := by
  obtain ⟨n, count⟩ : ∃ n, 2 ^ width = n + 1 :=
    Nat.exists_eq_succ_of_ne_zero (Nat.two_pow_pos width).ne'
  have links : ∀ j < n, storeAll (fun _ => none) (thrashRest s) (s.restAt j) =
      some (s.restAt (j + 1)) := by
    intro j hj
    rw [mem_restAt power line (by omega), if_neg (by omega)]
  have path := Path.range s.restAt links
  rw [← count, restAt_zero power] at path
  refine path.isCycle ?_ ?_
  · rw [mem_restAt power line (by omega), if_pos (by omega)]
  · exact List.Nodup.map_on (fun x hx y hy same => restAt_inj power line
      (List.mem_range.mp hx) (List.mem_range.mp hy) same) List.nodup_range

theorem rest_perm : ((List.range (2 ^ width)).map s.restAt).Perm
    ((List.range (2 ^ width)).map (· * s.line)) := by
  have entries : (List.range (2 ^ width)).map s.restAt =
      ((List.range (2 ^ width)).map (bitReverse width)).map (· * s.line) := by
    rw [List.map_map]
    exact List.map_congr_left fun i hi => restAt_eq power (List.mem_range.mp hi)
  rw [entries]
  exact (map_bitReverse_perm width).map _

end Rest

/-- **Only powers of two.** For a length that is not whole pages and has at least one line
that is no shorter than a pointer, the chain is laid and is from `state->p[0]` a cycle through
all slots of the length if and only if there are a power of two many, less than 2^32, and the
line, where there is more than one, is an `int`. -/
theorem thrashInitialize_rest (s : MemState) (wide : s.ptr ≤ s.line)
    (partly : s.len % s.pagesize ≠ 0) (some : 1 ≤ s.len / s.line) (pages : List ℕ) :
    (∃ mem start slots, thrashInitialize s pages = Option.some (mem, start) ∧
      IsCycle mem start slots ∧ slots.Perm ((List.range (s.len / s.line)).map (· * s.line))) ↔
      ∃ width < 32, s.len / s.line = 2 ^ width ∧ (width = 0 ∨ s.line ≤ intMax) := by
  have line : 0 < s.line := Nat.zero_lt_of_lt (Nat.lt_of_lt_of_le s.machine.2 wide)
  have fits : wordsInitialize (s.len / s.line) s.line =
      Option.some (wordOrder (s.len / s.line) s.line) ↔ _ :=
    wordsInitialize_eq_some_iff some
  rw [thrashInitialize, if_pos partly]
  constructor
  · rintro ⟨mem, start, slots, laid, cycle, all⟩
    obtain ⟨words, made, rest⟩ := Option.bind_eq_some_iff.mp laid
    obtain ⟨rfl, rfl⟩ := Prod.mk.inj (Option.some.inj rest)
    obtain ⟨width, power⟩ := two_pow_of_isCycle line some cycle all
    obtain ⟨small, scale⟩ := fits.mp (eq_wordOrder made ▸ made)
    rw [power] at small scale
    refine ⟨width, (Nat.pow_lt_pow_iff_right (by decide)).mp small, power, ?_⟩
    refine scale.imp_left fun one => ?_
    by_contra more
    exact absurd (Nat.one_lt_two_pow more) (by omega)
  · rintro ⟨width, small, power, scale⟩
    have made := fits.mpr ⟨power ▸ Nat.pow_lt_pow_right (by decide) small, ?_⟩
    · refine ⟨_, _, _, by rw [made]; rfl, rest_isCycle power line, ?_⟩
      rw [power]
      exact rest_perm power
    · refine scale.imp_left fun zero => ?_
      rw [power, zero, Nat.pow_zero]

/-- Half a page of sixty-four lines. -/
def MemState.halfPage : MemState := ⟨2048, 4096, 64, 4096, 1, 8, machine_lp64⟩

/-- Its thirty-two slots are on one cycle. -/
theorem thrashInitialize_rest_half :
    ∃ mem start slots, thrashInitialize .halfPage [0] = some (mem, start) ∧
      IsCycle mem start slots ∧ slots.Perm ((List.range (2048 / 64)).map (· * 64)) :=
  (thrashInitialize_rest .halfPage (by decide) (by decide) (by decide) [0]).mpr
    ⟨5, by decide, by decide, .inr (by decide)⟩

/-- Three quarters of a page of sixty-four lines. -/
def MemState.threeQuarters : MemState := ⟨3072, 4096, 64, 4096, 1, 8, machine_lp64⟩

/-- Its forty-eight slots are not on one cycle. -/
theorem thrashInitialize_rest_three_quarters :
    ¬∃ mem start slots, thrashInitialize .threeQuarters [0] = some (mem, start) ∧
      IsCycle mem start slots ∧ slots.Perm ((List.range (3072 / 64)).map (· * 64)) := by
  rintro ⟨mem, start, slots, laid, cycle, all⟩
  have partly : MemState.threeQuarters.len % MemState.threeQuarters.pagesize ≠ 0 := by decide
  rw [thrashInitialize, if_pos partly] at laid
  obtain ⟨words, _, rest⟩ := Option.bind_eq_some_iff.mp laid
  obtain ⟨rfl, rfl⟩ := Prod.mk.inj (Option.some.inj rest)
  obtain ⟨width, power⟩ := two_pow_of_isCycle (s := .threeQuarters) (by decide) (by decide) cycle
    all
  change 48 = 2 ^ width at power
  rcases Nat.lt_or_ge width 6 with small | large
  · interval_cases width <;> omega
  · have most : 2 ^ 6 ≤ 2 ^ width := Nat.pow_le_pow_right (by decide) large
    omega

end Lmbench
