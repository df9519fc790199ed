import Lmbench.Lib.Loops
import Lmbench.Machine
import Lmbench.Mem.Initialize

/-!
# The pointer chain of `tlb_initialize`

`tlb_initialize` allocates its pages one by one, shuffles all but the first,
and links one word of each to one word of the next, going through the words in
their bit-reversed order. Every array is read through its bounds here, and
every remainder through its divisor, so that a run that succeeds has done
nothing undefined.

What `valloc` returns is a parameter. All that is asked of it is that blocks in
use do not overlap.

## Main results

* `shuffle_spec` - the shuffle succeeds, rearranges, and keeps the first page
* `tlbInitialize_isCycle` - one cycle, with one slot in each page
-/

namespace Lmbench

open Lib

/-- Two entries exchanged, both of which there must be. -/
def exchange {α : Type} (l : List α) (i j : ℕ) : Option (List α) :=
  if i < l.length ∧ j < l.length then some (swapAt l i j) else none

/-! ### Allocation -/

/-- A block in use. -/
structure Block where
  base : ℕ
  size : ℕ

/-- Blocks that do not overlap. -/
def Block.Apart (b c : Block) : Prop := b.base + b.size ≤ c.base ∨ c.base + c.size ≤ b.base

instance (b c : Block) : Decidable (b.Apart c) := inferInstanceAs (Decidable (_ ∨ _))

/-- What `valloc` returns for one page and, where that is not aligned to a page, for
two. -/
structure Valloc where
  one : ℕ
  two : ℕ

namespace Valloc

variable (v : Valloc) (pagesize : ℕ)

/-- The block that stays allocated. -/
def block : Block := if v.one % pagesize ≠ 0 then ⟨v.two, 2 * pagesize⟩ else ⟨v.one, pagesize⟩

/-- `pages[i]`. -/
def page : ℕ :=
  if v.one % pagesize ≠ 0 then v.two + (pagesize - v.two % pagesize) else v.one

end Valloc

section Model

variable (s : MemState)

/-- The pages in the order in which they are allocated. -/
def allocatePages (valloc : ℕ → Valloc) (npages : ℕ) : List ℕ :=
  (List.range npages).map fun i => (valloc i).page s.pagesize

/-- What the shuffle changes. -/
structure Shuffle where
  r : UInt32
  pages : List ℕ

/-- One pass of the shuffle, with the next value of `rand`. -/
def shufflePass (rand : UInt32) (f : Shuffle) (i : ℕ) : Option Shuffle :=
  let r := (f.r <<< 1) ^^^ (rand >>> 4)
  do
    let k ← rem r.toNat i
    let pages ← exchange f.pages (k + 1) (i + 1)
    return ⟨r, pages⟩

/-- `for (i = npages - 2; i > 0; --i)`, after the two values that make the first `r`. -/
def shuffle (npages : ℕ) (rand : ℕ → UInt32) (pages : List ℕ) : Option Shuffle :=
  (List.range (npages - 2)).foldlM (fun f t => shufflePass (rand (t + 2)) f (npages - 2 - t))
    ⟨(rand 0 <<< 15) ^^^ rand 1, pages⟩

/-- `pages[i] + lines[i%nlines]`. -/
def tlbSlot (nlines : ℕ) (lines pages : List ℕ) (i : ℕ) : Option ℕ := do
  let page ← pages[i]?
  let k ← rem i nlines
  let line ← lines[k]?
  return page + line

/-- What `tlb_initialize` leaves: `state->pages`, the memory and `state->p[0]`. -/
structure Tlb where
  pages : List ℕ
  mem : Memory
  start : ℕ

/-- `tlb_initialize`. -/
def tlbInitialize (valloc : ℕ → Valloc) (rand : ℕ → UInt32) : Option Tlb :=
  let nlines := s.pagesize / s.ptr
  let npages := s.len / s.pagesize
  do
    let lines ← wordsInitialize nlines s.ptr
    let f ← shuffle npages rand (allocatePages s valloc npages)
    let links ← (List.range (npages - 1)).mapM fun i => do
      let source ← tlbSlot nlines lines f.pages i
      let target ← tlbSlot nlines lines f.pages (i + 1)
      return (source, target)
    -- behind the loop `i` is the number of the last page
    let last ← tlbSlot nlines lines f.pages (npages - 1)
    let page ← f.pages[0]?
    let line ← lines[0]?
    return ⟨f.pages, storeAll (fun _ => none) (links ++ [(last, page + line)]), page + line⟩

end Model

/-! ### The shuffle -/

/-- A pass exchanges two pages, neither of them the first. -/
theorem shufflePass_spec (rand : UInt32) (f : Shuffle) {i : ℕ} (positive : 0 < i)
    (inside : i + 1 < f.pages.length) :
    ∃ f', shufflePass rand f i = some f' ∧ f'.pages.Perm f.pages ∧
      f'.pages[0]? = f.pages[0]? := by
  set r := (f.r <<< 1) ^^^ (rand >>> 4) with drawn
  have below : r.toNat % i < i := Nat.mod_lt _ positive
  have both : r.toNat % i + 1 < f.pages.length ∧ i + 1 < f.pages.length := by omega
  refine ⟨⟨r, swapAt f.pages (r.toNat % i + 1) (i + 1)⟩, ?_, swapAt_perm _ _ _,
    getElem?_swapAt_of_ne (by omega) (by omega)⟩
  simp only [shufflePass, ← drawn, rem_eq positive, exchange, Option.bind_eq_bind, Option.bind_some,
    if_pos both]
  rfl

/-- **The shuffle** draws no remainder by zero and leaves no array, rearranges the pages
and keeps the first in place. -/
theorem shuffle_spec {npages : ℕ} (rand : ℕ → UInt32) {pages : List ℕ}
    (length : pages.length = npages) :
    ∃ f, shuffle npages rand pages = some f ∧ f.pages.Perm pages ∧
      f.pages[0]? = pages[0]? := by
  refine foldlM_range_induction
    (fun _ (f : Shuffle) => f.pages.Perm pages ∧ f.pages[0]? = pages[0]?)
    ⟨.refl _, rfl⟩ fun t pass f ⟨perm, first⟩ => ?_
  -- `i` counts down, and is `npages - 2 - t` in pass `t`
  have inside : npages - 2 - t + 1 < f.pages.length := by
    rw [perm.length_eq, length]
    omega
  obtain ⟨f', drawn, perm', first'⟩ :=
    shufflePass_spec (rand (t + 2)) f (i := npages - 2 - t) (by omega) inside
  exact ⟨f', drawn, perm'.trans perm, first'.trans first⟩

/-! ### The pages do not overlap -/

/-- Pages that do not overlap. -/
def PagesApart (pagesize p q : ℕ) : Prop := p + pagesize ≤ q ∨ q + pagesize ≤ p

theorem PagesApart.symm {pagesize p q : ℕ} (apart : PagesApart pagesize p q) :
    PagesApart pagesize q p := Or.symm apart

/-- The page lies in the block that stays allocated for it. -/
theorem Valloc.page_in_block (v : Valloc) {pagesize : ℕ} (positive : 0 < pagesize) :
    (v.block pagesize).base ≤ v.page pagesize ∧
      v.page pagesize + pagesize ≤ (v.block pagesize).base + (v.block pagesize).size := by
  have below := Nat.mod_lt v.two positive
  unfold Valloc.block Valloc.page
  split
  · simp only
    omega
  · exact ⟨le_rfl, le_rfl⟩

/-- Pages of blocks in use do not overlap, in whatever order. -/
theorem pages_apart {s : MemState} {valloc : ℕ → Valloc} {npages : ℕ} {pages : List ℕ}
    (positive : 0 < s.pagesize)
    (live : ∀ i < npages, ∀ j < npages, i ≠ j →
      ((valloc i).block s.pagesize).Apart ((valloc j).block s.pagesize))
    (perm : pages.Perm (allocatePages s valloc npages)) :
    pages.Pairwise (PagesApart s.pagesize) := by
  -- the relation is symmetric, so the pages may be taken as they were allocated
  refine (perm.pairwise_iff PagesApart.symm).mpr (List.pairwise_map.mpr ?_)
  refine List.nodup_range.pairwise_of_forall_ne fun i hi j hj different => ?_
  rw [List.mem_range] at hi hj
  obtain ⟨lower, upper⟩ := (valloc i).page_in_block positive
  obtain ⟨lower', upper'⟩ := (valloc j).page_in_block positive
  rcases live i hi j hj different with before | after
  · exact .inl (by omega)
  · exact .inr (by omega)

/-! ### The links -/

section Links

variable {s : MemState} {a : ℕ} {pages : List ℕ}

/-- The slot of page `i`. -/
def tlbSlotAt (s : MemState) (pages : List ℕ) (i : ℕ) : ℕ :=
  pages.getD i 0 + (wordOrder (s.pagesize / s.ptr) s.ptr).getD (i % (s.pagesize / s.ptr)) 0

variable (ptr : 0 < s.ptr) (pagesize : s.pagesize = 2 ^ a * s.ptr)
include ptr pagesize

theorem tlb_nlines : s.pagesize / s.ptr = 2 ^ a := by
  rw [pagesize, Nat.mul_div_cancel _ ptr]

/-- There is an order for the lines. -/
theorem tlb_lines : wordsInitialize (s.pagesize / s.ptr) s.ptr =
    some (wordOrder (s.pagesize / s.ptr) s.ptr) := by
  have page := s.machine.1
  have lines : s.pagesize / s.ptr ≤ s.pagesize := Nat.div_le_self _ _
  have word : s.ptr ≤ s.pagesize := by
    rw [pagesize]
    exact Nat.le_mul_of_pos_left _ (Nat.two_pow_pos a)
  have some : 0 < s.pagesize / s.ptr := Nat.div_pos word ptr
  rw [intMax] at page
  refine (wordsInitialize_eq_some_iff some).mpr ⟨by omega, .inr ?_⟩
  rw [intMax]
  omega

/-- Every slot that is asked for is there. -/
theorem tlbSlot_eq {i : ℕ} (inside : i < pages.length) :
    tlbSlot (s.pagesize / s.ptr) (wordOrder (s.pagesize / s.ptr) s.ptr) pages i =
      some (tlbSlotAt s pages i) := by
  have some : 0 < s.pagesize / s.ptr := by
    rw [tlb_nlines ptr pagesize]
    exact Nat.two_pow_pos a
  have line : i % (s.pagesize / s.ptr) < (wordOrder (s.pagesize / s.ptr) s.ptr).length := by
    rw [length_wordOrder]
    exact Nat.mod_lt _ some
  rw [tlbSlot, List.getElem?_eq_getElem inside, rem_eq some, tlbSlotAt,
    List.getD_eq_getElem _ _ inside, List.getD_eq_getElem _ _ line]
  simp only [Option.bind_eq_bind, Option.bind_some, List.getElem?_eq_getElem line]
  rfl

/-- The last link goes to the first word of the first page. -/
theorem tlb_first (some : 0 < pages.length) :
    ∃ page line, pages[0]? = Option.some page ∧
      (wordOrder (s.pagesize / s.ptr) s.ptr)[0]? = Option.some line ∧
      tlbSlotAt s pages 0 = page + line := by
  have line : 0 < (wordOrder (s.pagesize / s.ptr) s.ptr).length := by
    rw [length_wordOrder, tlb_nlines ptr pagesize]
    exact Nat.two_pow_pos a
  refine ⟨_, _, List.getElem?_eq_getElem some, List.getElem?_eq_getElem line, ?_⟩
  rw [tlbSlotAt, Nat.zero_mod, List.getD_eq_getElem _ _ some, List.getD_eq_getElem _ _ line]

/-- The slot of a page lies in it. -/
theorem tlbSlotAt_mem_page (pages : List ℕ) (i : ℕ) : pages.getD i 0 ≤ tlbSlotAt s pages i ∧
    tlbSlotAt s pages i < pages.getD i 0 + s.pagesize := by
  have index : i % 2 ^ a < 2 ^ a := Nat.mod_lt _ (Nat.two_pow_pos a)
  have below : bitReverse a (i % 2 ^ a) * s.ptr < 2 ^ a * s.ptr :=
    Nat.mul_lt_mul_of_pos_right (bitReverse_lt a _) ptr
  rw [tlbSlotAt, tlb_nlines ptr pagesize, getD_wordOrder index]
  exact ⟨Nat.le_add_right _ _, by rw [pagesize]; omega⟩

/-- Pages that do not overlap have no slot of another. -/
theorem eq_of_tlbSlotAt_mem_page (apart : pages.Pairwise (PagesApart s.pagesize)) {i j : ℕ}
    (hi : i < pages.length) (hj : j < pages.length) (lower : pages.getD i 0 ≤ tlbSlotAt s pages j)
    (upper : tlbSlotAt s pages j < pages.getD i 0 + s.pagesize) : j = i := by
  obtain ⟨lower', upper'⟩ := tlbSlotAt_mem_page ptr pagesize pages j
  rw [List.getD_eq_getElem _ _ hi] at lower upper
  rw [List.getD_eq_getElem _ _ hj] at lower' upper'
  -- an address in two pages would be in pages that are apart
  rcases lt_trichotomy i j with less | equal | greater
  · rcases List.pairwise_iff_getElem.mp apart i j hi hj less with before | after <;> omega
  · exact equal.symm
  · rcases List.pairwise_iff_getElem.mp apart j i hj hi greater with before | after <;> omega

/-- So their slots are different. -/
theorem tlbSlotAt_inj (apart : pages.Pairwise (PagesApart s.pagesize)) {i j : ℕ}
    (hi : i < pages.length) (hj : j < pages.length)
    (same : tlbSlotAt s pages i = tlbSlotAt s pages j) : i = j := by
  obtain ⟨lower, upper⟩ := tlbSlotAt_mem_page ptr pagesize pages j
  exact eq_of_tlbSlotAt_mem_page ptr pagesize apart hj hi (same ▸ lower) (same ▸ upper)

/-- **One cycle** through the slots of all pages. -/
theorem tlbSlots_isCycle (apart : pages.Pairwise (PagesApart s.pagesize)) {n : ℕ}
    (length : pages.length = n + 1) :
    IsCycle (storeAll (fun _ => none)
        ((List.range n).map (fun i => (tlbSlotAt s pages i, tlbSlotAt s pages (i + 1))) ++
          [(tlbSlotAt s pages n, tlbSlotAt s pages 0)]))
      (tlbSlotAt s pages 0) ((List.range (n + 1)).map (tlbSlotAt s pages)) := by
  have distinct : ∀ i ≤ n, ∀ j ≤ n, tlbSlotAt s pages i = tlbSlotAt s pages j → i = j :=
    fun i hi j hj same => tlbSlotAt_inj ptr pagesize apart (by omega) (by omega) same
  refine (Path.range (tlbSlotAt s pages) fun i inside => ?_).isCycle ?_ ?_
  · refine storeAll_of_mem (fun w made same => ?_) ⟨(_, tlbSlotAt s pages (i + 1)),
      List.mem_append_left _ (List.mem_map.mpr ⟨i, List.mem_range.mpr inside, rfl⟩), rfl⟩
    rcases List.mem_append.mp made with link | last
    · obtain ⟨j, hj, rfl⟩ := List.mem_map.mp link
      obtain rfl := distinct j (by rw [List.mem_range] at hj; omega) i (by omega) same
      rfl
    · obtain rfl := List.mem_singleton.mp last
      have := distinct n le_rfl i (by omega) same
      omega
  · refine storeAll_of_mem (fun w made same => ?_) ⟨(_, tlbSlotAt s pages 0),
      List.mem_append_right _ (List.mem_singleton_self _), rfl⟩
    rcases List.mem_append.mp made with link | last
    · obtain ⟨j, hj, rfl⟩ := List.mem_map.mp link
      rw [List.mem_range] at hj
      have := distinct j (by omega) n le_rfl same
      omega
    · obtain rfl := List.mem_singleton.mp last
      rfl
  · refine List.Nodup.map_on (fun i hi j hj same => ?_) List.nodup_range
    rw [List.mem_range] at hi hj
    exact distinct i (by omega) j (by omega) same

/-- The loop that stores all links but the last asks for slots that are there. -/
theorem mapM_tlbSlot {n : ℕ} (inside : n < pages.length) :
    ((List.range n).mapM fun i => do
      let source ← tlbSlot (s.pagesize / s.ptr) (wordOrder (s.pagesize / s.ptr) s.ptr) pages i
      let target ←
        tlbSlot (s.pagesize / s.ptr) (wordOrder (s.pagesize / s.ptr) s.ptr) pages (i + 1)
      return (source, target)) =
      some ((List.range n).map fun i => (tlbSlotAt s pages i, tlbSlotAt s pages (i + 1))) := by
  refine mapM_of_forall fun i member => ?_
  rw [List.mem_range] at member
  rw [tlbSlot_eq ptr pagesize (show i < pages.length by omega),
    tlbSlot_eq ptr pagesize (show i + 1 < pages.length by omega)]
  rfl

/-- A page has its slot, and no other. -/
theorem existsUnique_tlbSlot (apart : pages.Pairwise (PagesApart s.pagesize)) {page : ℕ}
    (member : page ∈ pages) :
    ∃! slot, slot ∈ (List.range pages.length).map (tlbSlotAt s pages) ∧
      page ≤ slot ∧ slot < page + s.pagesize := by
  obtain ⟨i, inside, rfl⟩ := List.mem_iff_getElem.mp member
  rw [← List.getD_eq_getElem _ 0 inside]
  refine ⟨tlbSlotAt s pages i, ⟨List.mem_map_of_mem (List.mem_range.mpr inside),
    tlbSlotAt_mem_page ptr pagesize pages i⟩, ?_⟩
  rintro other ⟨visited, lower, upper⟩
  obtain ⟨j, hj, rfl⟩ := List.mem_map.mp visited
  rw [List.mem_range] at hj
  rw [eq_of_tlbSlotAt_mem_page ptr pagesize apart inside hj lower upper]

end Links

/-- **One word in each page.** For every number of pages from one, a page size of a power of
two words, whatever `rand` returns and wherever `valloc` puts blocks that do not overlap:
nothing undefined is done, the pages are those allocated with the first in place, and the chain
from `state->p[0]` is one cycle of as many slots as pages, one in each. -/
theorem tlbInitialize_isCycle (s : MemState) (a : ℕ) (ptr : 0 < s.ptr)
    (pagesize : s.pagesize = 2 ^ a * s.ptr) (used : 1 ≤ s.len / s.pagesize) (valloc : ℕ → Valloc)
    (live : ∀ i < s.len / s.pagesize, ∀ j < s.len / s.pagesize, i ≠ j →
      ((valloc i).block s.pagesize).Apart ((valloc j).block s.pagesize)) (rand : ℕ → UInt32) :
    ∃ t, tlbInitialize s valloc rand = some t ∧
      t.pages.Perm (allocatePages s valloc (s.len / s.pagesize)) ∧
      t.pages[0]? = (allocatePages s valloc (s.len / s.pagesize))[0]? ∧
      ∃ slots, IsCycle t.mem t.start slots ∧ slots.length = s.len / s.pagesize ∧
        ∀ page ∈ t.pages, ∃! slot, slot ∈ slots ∧ page ≤ slot ∧ slot < page + s.pagesize := by
  obtain ⟨n, npages⟩ : ∃ n, s.len / s.pagesize = n + 1 :=
    Nat.exists_eq_succ_of_ne_zero (by omega)
  rw [npages] at live ⊢
  have positive : 0 < s.pagesize := pagesize ▸ Nat.mul_pos (Nat.two_pow_pos a) ptr
  have allocated : (allocatePages s valloc (n + 1)).length = n + 1 := by simp [allocatePages]
  obtain ⟨f, shuffled, perm, first⟩ := shuffle_spec rand allocated
  have length : f.pages.length = n + 1 := by
    rw [perm.length_eq, allocated]
  have apart := pages_apart positive live perm
  have links := mapM_tlbSlot ptr pagesize (show n < f.pages.length by omega)
  have last := tlbSlot_eq ptr pagesize (show n < f.pages.length by omega)
  obtain ⟨page, line, firstPage, firstLine, start⟩ :=
    tlb_first ptr pagesize (show 0 < f.pages.length by omega)
  refine ⟨⟨f.pages, _, tlbSlotAt s f.pages 0⟩, ?_, perm, first, _,
    tlbSlots_isCycle ptr pagesize apart length, by simp, ?_⟩
  · simp only [tlbInitialize, npages, tlb_lines ptr pagesize, shuffled, Option.bind_eq_bind,
      Option.bind_some, Nat.add_sub_cancel, last, firstPage, firstLine, ← start]
    simp only [Option.bind_eq_bind] at links
    rw [links]
    rfl
  · intro page member
    rw [← length]
    exact existsUnique_tlbSlot ptr pagesize apart member

/-- Three pages of four words. -/
def MemState.threeSmall : MemState := ⟨24, 24, 2, 8, 1, 2, machine_eight⟩

/-- `valloc` aligns the first of them only. -/
theorem tlbInitialize_isCycle_three :
    ∃ t, tlbInitialize .threeSmall (fun i => ⟨41 * i, 41 * i + 3⟩) (fun _ => 5) = some t ∧
      t.pages.Perm (allocatePages .threeSmall (fun i => ⟨41 * i, 41 * i + 3⟩) 3) ∧
      t.pages[0]? = (allocatePages .threeSmall (fun i => ⟨41 * i, 41 * i + 3⟩) 3)[0]? ∧
      ∃ slots, IsCycle t.mem t.start slots ∧ slots.length = 3 ∧
        ∀ page ∈ t.pages, ∃! slot, slot ∈ slots ∧ page ≤ slot ∧ slot < page + 8 :=
  tlbInitialize_isCycle .threeSmall 2 (by decide) (by decide) (by decide)
    (fun i => ⟨41 * i, 41 * i + 3⟩) (by decide) fun _ => 5

end Lmbench
