import Lmbench.Mem.Initialize

/-!
# Probing for the line size

`line_initialize` links the first words of all lines, page after page. To probe
for a line size, `line_test` cuts the chain of each page after as many words as
there are lines of that size, joins the pieces, times the chase, and stores the
old links back. Since the words are visited in bit-reversed order, those before
the cut are spread out evenly over the page.

## Main results

* `left_lineTest` - the memory is left as it was
* `lineTest_isCycle` - the chain that is timed is one cycle
* `lineTest_probes` - with one slot in each line of the size probed for, where the `int`s hold
-/

namespace Lmbench

open Lib

section Model

variable (s : MemState) (pages : List ℕ)

/-- The stores of one pass of the loop over pages of `line_initialize`. -/
def lineLinks (i : ℕ) : List (ℕ × ℕ) :=
  (List.range (s.nlines - 1)).map (fun j => (s.lineSlot pages i j, s.lineSlot pages i (j + 1))) ++
    [(s.lineSlot pages i (s.nlines - 1),
      s.lineSlot pages (if i < s.npages - 1 then i + 1 else 0) 0)]

/-- The chain of `line_initialize`, for the page order that `base_initialize` has drawn. -/
def lineChain : Memory :=
  storeAll (fun _ => none) ((List.range s.npages).flatMap (lineLinks s pages))

/-- The `int`s of `line_initialize`, of which the last is what the warm-up is called with, do not
overflow. -/
def MemState.LineInts : Prop :=
  s.nlines ≤ intMax ∧ s.npages ≤ intMax ∧ s.nlines * s.npages + 100 ≤ intMax

instance : Decidable s.LineInts := inferInstanceAs (Decidable (_ ∧ _))

/-- `line_initialize`. What overflows an `int` has no result. -/
def lineInitialize : Option Memory := do
  -- these are `s.lines`
  let _lines ← wordsInitialize s.nlines s.line
  if s.LineInts then some (lineChain s pages) else none

/-- The stores that join the first `n` lines of the pages. -/
def joinStores (n : ℕ) : List (ℕ × ℕ) :=
  (List.range (s.npages - 1)).map
      (fun i => (s.lineSlot pages i (n - 1), s.lineSlot pages (i + 1) 0)) ++
    [(s.lineSlot pages (s.npages - 1) (n - 1), s.lineSlot pages 0 0)]

/-- The stores that "fixup full path again". -/
def fixupStores (n : ℕ) : List (ℕ × ℕ) :=
  (List.range (s.npages - 1)).map
      (fun i => (s.lineSlot pages i (n - 1), s.lineSlot pages i n)) ++
    [(s.lineSlot pages (s.npages - 1) (n - 1), s.lineSlot pages (s.npages - 1) n)]

/-- The memory while `line_test` times the chase, and when it returns. -/
structure LineTest where
  timed : Memory
  left : Memory

/-- `line_test`, as far as it changes the memory. -/
def lineTest (line : ℕ) (mem : Memory) : LineTest :=
  let nlines := s.pagesize / line
  if nlines < s.nlines then
    let timed := storeAll mem (joinStores s pages nlines)
    ⟨timed, storeAll timed (fixupStores s pages nlines)⟩
  else ⟨mem, mem⟩

/-- `line_find` calls `line_test` for one size after the other. -/
def afterTests (sizes : List ℕ) : Option Memory :=
  (lineInitialize s pages).map fun mem =>
    sizes.foldl (fun mem line => (lineTest s pages line mem).left) mem

end Model

section Stores

/-- With fewer lines to visit than there are, the pieces are joined. -/
theorem timed_of_lt {s : MemState} {line : ℕ} (fewer : s.pagesize / line < s.nlines)
    (pages : List ℕ) (mem : Memory) : (lineTest s pages line mem).timed =
      storeAll mem (joinStores s pages (s.pagesize / line)) :=
  congrArg LineTest.timed (if_pos fewer)

theorem left_of_lt {s : MemState} {line : ℕ} (fewer : s.pagesize / line < s.nlines)
    (pages : List ℕ) (mem : Memory) : (lineTest s pages line mem).left =
      storeAll (lineTest s pages line mem).timed (fixupStores s pages (s.pagesize / line)) := by
  rw [timed_of_lt fewer]
  exact congrArg LineTest.left (if_pos fewer)

/-- Otherwise the chain is timed as it is. -/
theorem lineTest_of_not_lt {s : MemState} {line : ℕ} (all : ¬s.pagesize / line < s.nlines)
    (pages : List ℕ) (mem : Memory) : lineTest s pages line mem = ⟨mem, mem⟩ :=
  if_neg all

variable {s : MemState} {pages : List ℕ} {n : ℕ} {w : ℕ × ℕ} (used : 0 < s.npages)
include used

theorem mem_joinStores : w ∈ joinStores s pages n ↔ ∃ i < s.npages,
    w = (s.lineSlot pages i (n - 1),
      s.lineSlot pages (if i < s.npages - 1 then i + 1 else 0) 0) := by
  simp only [joinStores, List.mem_append, List.mem_map, List.mem_range, List.mem_singleton]
  constructor
  · rintro (⟨i, page, rfl⟩ | rfl)
    · exact ⟨i, by omega, by rw [if_pos page]⟩
    · exact ⟨s.npages - 1, by omega, by rw [if_neg (lt_irrefl _)]⟩
  · rintro ⟨i, page, rfl⟩
    by_cases more : i < s.npages - 1
    · exact .inl ⟨i, more, by rw [if_pos more]⟩
    · obtain rfl : i = s.npages - 1 := by omega
      exact .inr (by rw [if_neg more])

theorem mem_fixupStores : w ∈ fixupStores s pages n ↔ ∃ i < s.npages,
    w = (s.lineSlot pages i (n - 1), s.lineSlot pages i n) := by
  simp only [fixupStores, List.mem_append, List.mem_map, List.mem_range, List.mem_singleton]
  constructor
  · rintro (⟨i, page, rfl⟩ | rfl)
    · exact ⟨i, by omega, rfl⟩
    · exact ⟨s.npages - 1, by omega, rfl⟩
  · rintro ⟨i, page, rfl⟩
    by_cases more : i < s.npages - 1
    · exact .inl ⟨i, more, rfl⟩
    · obtain rfl : i = s.npages - 1 := by omega
      exact .inr rfl

end Stores

/-! ### The full chain -/

section Chain

variable {s : MemState} {a : ℕ} {pages : List ℕ} (shape : s.Shape a 0)
  (order : PageOrder s pages) (room : s.npages ≤ s.nmpages)
include shape order room

/-- Where the full chain goes from line `j` of page `i`. -/
theorem lineChain_lineSlot {i j : ℕ} (page : i < s.npages) (line : j < s.nlines) :
    lineChain s pages (s.lineSlot pages i j) =
      some (if j < s.nlines - 1 then s.lineSlot pages i (j + 1)
        else s.lineSlot pages (if i < s.npages - 1 then i + 1 else 0) 0) := by
  apply storeAll_of_mem
  · -- only the pass over this page stores to this line, and only once
    intro w made same
    obtain ⟨i', page', made⟩ := List.mem_flatMap.mp made
    rw [List.mem_range] at page'
    rcases List.mem_append.mp made with within | across
    · -- a link to the next line
      obtain ⟨j', line', rfl⟩ := List.mem_map.mp within
      rw [List.mem_range] at line'
      obtain ⟨rfl, rfl⟩ := lineSlot_inj shape order (by omega) (by omega) (by omega) line same
      rw [if_pos line']
    · -- the link from the last line to the next page
      obtain rfl := List.mem_singleton.mp across
      obtain ⟨rfl, rfl⟩ := lineSlot_inj shape order (by omega) (by omega) (by omega) line same
      rw [if_neg (lt_irrefl _)]
  · by_cases inside : j < s.nlines - 1
    · refine ⟨(s.lineSlot pages i j, s.lineSlot pages i (j + 1)), ?_, rfl⟩
      refine List.mem_flatMap.mpr ⟨i, List.mem_range.mpr page, List.mem_append_left _ ?_⟩
      exact List.mem_map.mpr ⟨j, List.mem_range.mpr inside, rfl⟩
    · obtain rfl : j = s.nlines - 1 := by omega
      exact ⟨_, List.mem_flatMap.mpr ⟨i, List.mem_range.mpr page,
        List.mem_append_right _ (List.mem_singleton_self _)⟩, rfl⟩

variable (used : 0 < s.npages)
include used

/-! ### The memory is left as it was -/

/-- **The full path is fixed up again.** -/
theorem left_lineTest {line : ℕ} (visited : 0 < s.pagesize / line) :
    (lineTest s pages line (lineChain s pages)).left = lineChain s pages := by
  by_cases fewer : s.pagesize / line < s.nlines
  · rw [left_of_lt fewer, timed_of_lt fewer]
    refine storeAll_restore (fun w made => ?_) fun w made => ?_
    · -- each line that was stored to is stored to again
      obtain ⟨i, page, rfl⟩ := (mem_joinStores used).mp made
      exact ⟨_, (mem_fixupStores used).mpr ⟨i, page, rfl⟩, rfl⟩
    · -- and with what the full chain has there
      obtain ⟨i, page, rfl⟩ := (mem_fixupStores used).mp made
      have next : s.pagesize / line - 1 + 1 = s.pagesize / line := by omega
      rw [lineChain_lineSlot shape order room page (by omega), if_pos (by omega), next]
  · rw [lineTest_of_not_lt fewer]

/-- So are all sizes tested in sequence. -/
theorem foldl_lineTest {sizes : List ℕ} (visited : ∀ line ∈ sizes, 0 < s.pagesize / line) :
    sizes.foldl (fun mem line => (lineTest s pages line mem).left) (lineChain s pages) =
      lineChain s pages := by
  induction sizes with
  | nil => rfl
  | cons line rest ih =>
    rw [List.foldl_cons, left_lineTest shape order room used (visited line List.mem_cons_self)]
    exact ih fun later member => visited later (List.mem_cons_of_mem line member)

/-! ### The chain that is timed -/

/-- The chain of the first `n` lines of each page. -/
theorem timed_lineSlot {line i j : ℕ} (visited : 0 < s.pagesize / line)
    (few : s.pagesize / line ≤ s.nlines) (page : i < s.npages) (inside : j < s.pagesize / line) :
    (lineTest s pages line (lineChain s pages)).timed (s.lineSlot pages i j) =
      some (if j < s.pagesize / line - 1 then s.lineSlot pages i (j + 1)
        else s.lineSlot pages (if i < s.npages - 1 then i + 1 else 0) 0) := by
  by_cases fewer : s.pagesize / line < s.nlines
  · rw [timed_of_lt fewer]
    by_cases last : j < s.pagesize / line - 1
    · -- a link before the cut is not stored to
      rw [if_pos last, storeAll_of_not_mem,
        lineChain_lineSlot shape order room page (by omega), if_pos (by omega)]
      intro w made same
      obtain ⟨i', page', rfl⟩ := (mem_joinStores used).mp made
      have cut := (lineSlot_inj shape order (by omega) (by omega) (by omega) (by omega) same).2
      omega
    · -- the cut: the last line visited is joined to the next page
      obtain rfl : j = s.pagesize / line - 1 := by omega
      rw [if_neg last]
      refine storeAll_of_mem (fun w made same => ?_)
        ⟨_, (mem_joinStores used).mpr ⟨i, page, rfl⟩, rfl⟩
      obtain ⟨i', page', rfl⟩ := (mem_joinStores used).mp made
      obtain ⟨rfl, _⟩ := lineSlot_inj shape order (by omega) (by omega) (by omega) (by omega) same
      rfl
  · -- nothing was joined, and the whole chain is timed
    have all : s.pagesize / line = s.nlines := by omega
    rw [lineTest_of_not_lt fewer]
    rw [all] at inside ⊢
    exact lineChain_lineSlot shape order room page inside

/-- **One cycle**, through the first lines of each page. -/
theorem lineTest_isCycle {line : ℕ} (visited : 0 < s.pagesize / line)
    (few : s.pagesize / line ≤ s.nlines) :
    IsCycle (lineTest s pages line (lineChain s pages)).timed (s.lineSlot pages 0 0)
      (gridSlots (fun _ i j => s.lineSlot pages i j) (fun _ => s.pagesize / line - 1) 1
        s.npages) := by
  refine grid_isCycle (fun _ i j => s.lineSlot pages i j) Nat.one_pos used ?_ ?_ ?_ ?_
  · -- to the next line of the page
    intro _ _ i page j inside
    rw [timed_lineSlot shape order room used visited few page (by omega), if_pos inside]
  · -- to the next page
    intro _ _ i page
    rw [timed_lineSlot shape order room used visited few (by omega) (by omega),
      if_neg (lt_irrefl _), if_pos (by omega)]
  · -- from the last page back to the first
    intro _ _
    rw [timed_lineSlot shape order room used visited few (by omega) (by omega),
      if_neg (lt_irrefl _), if_neg (lt_irrefl _)]
  · -- no line is visited twice
    apply nodup_gridSlots
    intro k hk i page j inside k' hk' i' page' j' inside' same
    obtain ⟨samePage, sameLine⟩ :=
      lineSlot_inj shape order (by omega) (by omega) (by omega) (by omega) same
    exact ⟨by omega, samePage, sameLine⟩

end Chain

/-! ### One slot in each line -/

section Blocks

variable {s : MemState} {a d line : ℕ} (shape : s.Shape a 0) (power : line = 2 ^ d * s.ptr)
include shape power

/-- A page is a power of two lines of each size up to a page. -/
theorem pagesize_eq_mul (small : line ≤ s.pagesize) : d ≤ a ∧ s.pagesize = 2 ^ (a - d) * line := by
  have whole : s.pagesize = 2 ^ a * s.ptr := by
    rw [shape.pagesize, shape.line, Nat.pow_zero, Nat.one_mul]
  have le : d ≤ a := by
    rw [power, whole] at small
    exact (Nat.pow_le_pow_iff_right (by decide)).mp
      (Nat.le_of_mul_le_mul_right small shape.ptr_pos)
  refine ⟨le, ?_⟩
  rw [whole, power, ← Nat.mul_assoc, ← Nat.pow_add, Nat.sub_add_cancel le]

theorem line_size_pos : 0 < line :=
  power ▸ Nat.mul_pos (Nat.two_pow_pos d) shape.ptr_pos

theorem pagesize_div (small : line ≤ s.pagesize) : s.pagesize / line = 2 ^ (a - d) := by
  rw [(pagesize_eq_mul shape power small).2, Nat.mul_div_cancel _ (line_size_pos shape power)]

theorem visited_pos (small : line ≤ s.pagesize) : 0 < s.pagesize / line :=
  Nat.div_pos small (line_size_pos shape power)

theorem visited_le (small : line ≤ s.pagesize) : s.pagesize / line ≤ s.nlines := by
  rw [pagesize_div shape power small, shape.nlines_eq]
  exact Nat.pow_le_pow_right Nat.two_pos (Nat.sub_le a d)

/-- The lines visited are those at the multiples of the size. -/
theorem lineAt_visited (small : line ≤ s.pagesize) {j : ℕ} (visited : j < s.pagesize / line) :
    s.lineAt j = bitReverse (a - d) j * line := by
  have le := (pagesize_eq_mul shape power small).1
  have all : j < s.nlines := visited.trans_le (visited_le shape power small)
  rw [pagesize_div shape power small] at visited
  have spread : a - (a - d) = d := by omega
  rw [shape.lineAt_eq all, bitReverse_of_lt visited (Nat.sub_le a d), spread, shape.line, power,
    Nat.pow_zero, Nat.one_mul, Nat.mul_assoc]

end Blocks

/-- Numbers cut into blocks are in one block each. -/
theorem eq_of_mul_le_of_lt {line q r : ℕ} (lower : q * line ≤ r * line)
    (upper : r * line < (q + 1) * line) : r = q := by
  have positive : 0 < line := by
    rw [Nat.succ_mul] at upper
    omega
  have above := Nat.le_of_mul_le_mul_right lower positive
  have below := Nat.lt_of_mul_lt_mul_right upper
  omega

/-- A block of a page is probed at its first word, and nowhere else. -/
theorem existsUnique_slot {s : MemState} {a d line : ℕ} {pages : List ℕ} (shape : s.Shape a 0)
    (power : line = 2 ^ d * s.ptr) (fits : line ≤ s.pagesize) (room : s.npages ≤ s.nmpages)
    (order : PageOrder s pages) {i q : ℕ} (page : i < s.npages) (block : q < s.pagesize / line) :
    ∃! slot, slot ∈ gridSlots (fun _ i j => s.lineSlot pages i j)
        (fun _ => s.pagesize / line - 1) 1 s.npages ∧
      pages.getD i 0 + q * line ≤ slot ∧ slot < pages.getD i 0 + (q + 1) * line := by
  obtain ⟨_, whole⟩ := pagesize_eq_mul shape power fits
  have lines := pagesize_div shape power fits
  -- pages begin at multiples of the size too
  have aligned : ∀ i < s.npages, ∃ x, pages.getD i 0 = x * 2 ^ (a - d) * line := by
    intro i page
    obtain ⟨x, hx⟩ := order.aligned (order.getD_mem (show i < s.nmpages by omega))
    exact ⟨x, by rw [hx, whole, Nat.mul_comm, Nat.mul_assoc]⟩
  have slot : ∀ i, ∀ j < s.pagesize / line,
      s.lineSlot pages i j = pages.getD i 0 + bitReverse (a - d) j * line := by
    intro i j visited
    rw [MemState.lineSlot, lineAt_visited shape power fits visited]
  obtain ⟨x, hx⟩ := aligned i page
  have mirrored : bitReverse (a - d) q < s.pagesize / line := by
    rw [lines]
    exact bitReverse_lt _ q
  -- block `q` is line `bitReverse q`
  refine ⟨pages.getD i 0 + q * line, ⟨?_, le_rfl, ?_⟩, ?_⟩
  · refine mem_gridSlots.mpr ⟨0, Nat.one_pos, i, page, bitReverse (a - d) q, by omega, ?_⟩
    rw [slot i _ mirrored, bitReverse_bitReverse (lines ▸ block)]
  · have positive := line_size_pos shape power
    rw [Nat.succ_mul]
    omega
  · rintro other ⟨member, lower, upper⟩
    obtain ⟨_, _, i', page', j', inside, rfl⟩ := mem_gridSlots.mp member
    obtain ⟨x', hx'⟩ := aligned i' page'
    -- all slots are multiples of the size, and a block has one
    rw [slot i' j' (by omega), hx', ← Nat.add_mul] at lower upper ⊢
    rw [hx, ← Nat.add_mul] at lower ⊢
    rw [hx, ← Nat.add_mul, ← Nat.add_assoc] at upper
    rw [eq_of_mul_le_of_lt lower upper]

/-- **The chain is laid** exactly if the number of its lines and a hundred is an `int`. -/
theorem lineInitialize_eq {s : MemState} {a b : ℕ} (shape : s.Shape a b) (pages : List ℕ) :
    lineInitialize s pages =
      if s.nlines * s.npages + 100 ≤ intMax then some (lineChain s pages) else none := by
  have ints : s.LineInts ↔ s.nlines * s.npages + 100 ≤ intMax := by
    refine ⟨fun ints => ints.2.2, fun product => ?_⟩
    have page := s.machine.1
    have lines : s.nlines ≤ s.pagesize := Nat.div_le_self _ _
    have pages : s.npages ≤ s.nlines * s.npages := Nat.le_mul_of_pos_left _ shape.nlines_pos
    exact ⟨by omega, by omega, product⟩
  rw [lineInitialize, wordsInitialize_nlines shape]
  simp only [Option.bind_eq_bind, Option.bind_some, ints]

/-- What `line_test` is to do for a line size, after tests of other sizes: the chain that is timed
is one cycle with one slot in each line of the size, and what was in memory is put back. -/
def MemState.Probes (s : MemState) (pages sizes : List ℕ) (line : ℕ) : Prop :=
  ∃ mem, afterTests s pages sizes = some mem ∧
    (∃ slots, IsCycle (lineTest s pages line mem).timed (s.lineSlot pages 0 0) slots ∧
      slots.length = s.npages * (s.pagesize / line) ∧
      ∀ i < s.npages, ∀ q < s.pagesize / line, ∃! slot, slot ∈ slots ∧
        pages.getD i 0 + q * line ≤ slot ∧ slot < pages.getD i 0 + (q + 1) * line) ∧
    (lineTest s pages line mem).left = mem

/-- **One word per candidate line, and the chain put back.** After `line_initialize` with a
line of one word and any tests before it, for a line size of a power of two words and at most
a sixteenth of a page: `line_test` does what it is to do if and only if the number of lines of
all pages and a hundred is an `int`. -/
theorem lineTest_probes (s : MemState) (a d line : ℕ) (shape : s.Shape a 0)
    (within : s.len ≤ s.maxlen) (used : 1 ≤ s.npages) (power : line = 2 ^ d * s.ptr)
    (small : line ≤ s.pagesize / 16) (pages : List ℕ) (order : PageOrder s pages)
    (sizes : List ℕ) (tested : ∀ l ∈ sizes, ∃ e, l = 2 ^ e * s.ptr ∧ l ≤ s.pagesize / 16) :
    s.Probes pages sizes line ↔ s.nlines * s.npages + 100 ≤ intMax := by
  have room : s.npages ≤ s.nmpages := Nat.div_le_div_right (by omega)
  have below : s.pagesize / 16 ≤ s.pagesize := Nat.div_le_self _ _
  have fits : line ≤ s.pagesize := small.trans below
  rw [MemState.Probes, afterTests, lineInitialize_eq shape]
  constructor
  · rintro ⟨mem, laid, _⟩
    by_contra beyond
    rw [if_neg beyond] at laid
    cases laid
  · intro ints
    have counts : ∀ l ∈ sizes, 0 < s.pagesize / l := by
      intro l member
      obtain ⟨e, power', small'⟩ := tested l member
      exact visited_pos shape power' (small'.trans below)
    have before := foldl_lineTest shape order room used counts
    have visited := visited_pos shape power fits
    have few := visited_le shape power fits
    refine ⟨lineChain s pages, by rw [if_pos ints, Option.map_some, before],
      ⟨_, lineTest_isCycle shape order room used visited few, ?_, ?_⟩,
      left_lineTest shape order room used visited⟩
    · rw [length_gridSlots]
      simp [Nat.sub_add_cancel visited]
    · exact fun i page q block => existsUnique_slot shape power fits room order page block

/-- Two pages of thirty-two words. -/
def MemState.twoSmall : MemState := ⟨100, 100, 2, 64, 1, 2, by decide⟩

/-- Lines of two words, after a test of lines of one. -/
theorem lineTest_probes_two :
    MemState.twoSmall.Probes (permutation 2 64 fun i => i + 1) [2] 4 :=
  (lineTest_probes .twoSmall 5 1 4 ⟨by decide, by decide, by decide⟩ le_rfl
    (by decide) (by decide) (by decide) _ (permutation_perm _ _ _) [2]
    fun l member => ⟨0, by rw [List.mem_singleton.mp member]; decide⟩).mpr (by decide)

/-- Sixteen GiB of words of eight bytes. -/
def MemState.sixteenGiB : MemState := ⟨17179869184, 17179869184, 8, 4096, 1, 8, machine_lp64⟩

/-- There the number of lines is no `int`. -/
theorem lineTest_overflows :
    ¬MemState.sixteenGiB.Probes (permutation 4194304 4096 fun i => i + 1) [] 64 := by
  have shape : MemState.sixteenGiB.Shape 9 0 := ⟨by decide, by decide, by decide⟩
  have lines : ¬MemState.sixteenGiB.nlines * MemState.sixteenGiB.npages + 100 ≤ intMax := by
    decide
  rintro ⟨mem, laid, _⟩
  rw [afterTests, lineInitialize_eq shape, if_neg lines] at laid
  cases laid

end Lmbench
