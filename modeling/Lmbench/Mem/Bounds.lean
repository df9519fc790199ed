import Lmbench.Lib.Allocation
import Lmbench.Mem.LineTest
import Lmbench.Mem.Thrash
import Mathlib.Data.Nat.Prime.Basic

/-!
# The chains stay in their block

`base_initialize` allocates two pages more than the longest chain needs: one for the
alignment of the base, and one because the length is rounded up to pages. Here the
four chains are stored with both checks that C leaves out. A store that would not lie
in the block has no result, and neither has an index beyond the end of `pages`,
`lines` or `words`. A division by a share of zero, which stops the program, is taken
to go on.

## Main results

* `inside_of_le` - an offset that is in the block at every alignment
* `memInitializeIn_eq`, `lineInitializeIn_eq`, `thrashInitializeIn_eq` - with the checks the
  chains are the same
* `initialize_inside` - so none of them fails
-/

namespace Lmbench

open Lib

section Model

variable (s : MemState)

/-- `state->base`: the address from `malloc`, moved up to a page. -/
def MemState.base (addr : ℕ) : ℕ :=
  if addr % s.pagesize ≠ 0 then addr + (s.pagesize - addr % s.pagesize) else addr

/-- A pointer at an offset from the base lies in the `maxlen + 2 * pagesize` bytes from `addr`
on. -/
def MemState.Inside (addr slot : ℕ) : Prop :=
  addr ≤ s.base addr + slot ∧ s.base addr + slot + s.ptr ≤ addr + (s.maxlen + 2 * s.pagesize)

instance (addr : ℕ) : DecidablePred (s.Inside addr) := fun _ => inferInstanceAs (Decidable (_ ∧ _))

/-- `words_initialize(max, scale)`, in a block that `bzero` has cleared. -/
def wordsInitializeIn (max scale : ℕ) : Option (List ℕ) :=
  let nbits := countBits max (max >>> 1)
  if 31 < nbits ∨ (1 < max ∧ intMax < scale) then none
  else (List.range max).foldlM (fun words i => put words i
    ((List.range nbits).foldl
      (fun word j => if i.testBit j then word ||| 1 <<< (nbits - j - 1) else word) 0 * scale))
    (List.replicate max 0)

/-- The stores of `stride_initialize`: one at `i - stride` in each pass of the loop over `i`, and
one behind it. -/
def strideStores : List (ℕ × ℕ) :=
  let passes := strided (s.len - s.line) s.line
  passes.map (fun k => (k, k + s.line)) ++ [(s.line * passes.length, 0)]

/-- `stride_initialize`. -/
def strideInitializeIn (addr : ℕ) : Option Memory :=
  storeAllIf (s.Inside addr) (fun _ => none) (strideStores s)

/-- The stores of `thrash_initialize` for a length that is not whole pages. -/
def thrashRestIn : Option (List (ℕ × ℕ)) := do
  let nwords := s.len / s.line
  let words ← wordsInitializeIn nwords s.line
  let links ← (List.range (nwords - 1)).mapM fun i => do
    let cur ← words[i]?
    let next ← words[i + 1]?
    return (cur, next)
  let last ← words[nwords - 1]?
  return links ++ [(last, 0)]

/-- The stores of `thrash_initialize` for whole pages. -/
def thrashPagesIn (pages : List ℕ) : Option (List (ℕ × ℕ)) := do
  let nwords := s.pagesize / s.line
  let words ← wordsInitializeIn nwords s.line
  let links ← (List.range (s.npages - 1)).mapM fun i => do
    let cpage ← pages[i]?
    let npage ← pages[i + 1]?
    (List.range nwords).mapM fun j => do
      let cur ← words[(i + j) % nwords]?
      let next ← words[(i + j + 1) % nwords]?
      return (cpage + cur, npage + next)
  let i := s.npages - 1
  let cpage ← pages[i]?
  let npage ← pages[0]?
  let back ← (List.range nwords).mapM fun j => do
    let cur ← words[(i + j) % nwords]?
    let next ← words[(j + 1) % nwords]?
    return (cpage + cur, npage + next)
  return links.flatten ++ back

/-- `thrash_initialize`. -/
def thrashInitializeIn (addr : ℕ) (pages : List ℕ) : Option (Memory × ℕ) :=
  if s.len % s.pagesize ≠ 0 then do
    let stores ← thrashRestIn s
    let mem ← storeAllIf (s.Inside addr) (fun _ => none) stores
    return (mem, 0)
  else do
    let stores ← thrashPagesIn s pages
    let mem ← storeAllIf (s.Inside addr) (fun _ => none) stores
    let start ← pages[0]?
    return (mem, start)

/-- The stores of one pass of `line_initialize` over the pages. -/
def lineLinksIn (lines pages : List ℕ) (i : ℕ) : Option (List (ℕ × ℕ)) := do
  let page ← pages[i]?
  let links ← (List.range (s.nlines - 1)).mapM fun j => do
    let cur ← lines[j]?
    let next ← lines[j + 1]?
    return (page + cur, page + next)
  let last ← lines[s.nlines - 1]?
  let npage ← pages[if i < s.npages - 1 then i + 1 else 0]?
  let first ← lines[0]?
  return links ++ [(page + last, npage + first)]

/-- `line_initialize`: the memory and `state->p[0]`. -/
def lineInitializeIn (addr : ℕ) (pages : List ℕ) : Option (Memory × ℕ) := do
  let lines ← wordsInitializeIn s.nlines s.line
  let links ← (List.range s.npages).mapM (lineLinksIn s lines pages)
  let mem ← storeAllIf (s.Inside addr) (fun _ => none) links.flatten
  let page ← pages[0]?
  let first ← lines[0]?
  if s.LineInts then return (mem, page + first) else none

/-- The body of the loop over lines of `mem_initialize`. -/
def fillLineIn (words lines : List ℕ) (addr page : ℕ) (f : Fill) : Option Fill := do
  let cur ← lines[f.j]?
  let next ← lines[f.j + 1]?
  let mem ← storeAllIf (s.Inside addr) f.mem (lineStores s (page + cur) (page + next))
  let share := s.npointers / s.width
  let p ← if f.l % share = 0 ∧ f.l / share < 16 then
      (words[f.l / share % s.nwords]?).map fun word =>
        Function.update f.p (f.l / share) (some (page + cur + word))
    else some f.p
  return ⟨f.j + 1, f.l + 1, mem, p⟩

/-- The loop over the lines of a page. -/
def fillPageIn (words lines : List ℕ) (addr page : ℕ) : ℕ → Fill → Option Fill
  | 0, f => some f
  | fuel + 1, f =>
    if f.j < s.nlines - 1 ∧ f.l < s.npointers - 1 then do
      let f ← fillLineIn s words lines addr page f
      fillPageIn words lines addr page fuel f
    else some f

/-- The body of the loop over pages. -/
def fillStepIn (words lines pages : List ℕ) (addr : ℕ) (f : Fill) (i : ℕ) : Option Fill := do
  let page ← pages[i]?
  let f ← fillPageIn s words lines addr page s.nlines { f with j := 0 }
  if i < s.npages - 1 then do
    let npage ← pages[i + 1]?
    let cur ← lines[f.j]?
    let first ← lines[0]?
    let stores ← (List.range s.nwords).mapM fun k => do
      let word ← words[k]?
      return (page + cur + word, npage + first + word)
    let mem ← storeAllIf (s.Inside addr) f.mem stores
    return { f with mem }
  else return f

/-- `mem_initialize`. -/
def memInitializeIn (addr : ℕ) (pages : List ℕ) : Option Fill := do
  let words ← wordsInitializeIn s.nwords s.ptr
  let lines ← wordsInitializeIn s.nlines s.line
  let f ← (List.range s.npages).foldlM (fillStepIn s words lines pages addr)
    ⟨s.nlines - 1, 0, fun _ => none, fun _ => none⟩
  let page ← pages[s.npages - 1]?
  let cur ← lines[f.j]?
  let npage ← pages[0]?
  let first ← lines[0]?
  let stores ← (List.range s.nwords).mapM fun k => do
    let word ← words[k]?
    let next ← words[if k = s.nwords - 1 then 0 else k + 1]?
    return (page + cur + word, npage + first + next)
  let mem ← storeAllIf (s.Inside addr) f.mem stores
  if s.MemInts then return { f with mem } else none

end Model

/-! ### What is allowed -/

theorem getElem?_eq_getD {l : List ℕ} {i : ℕ} (inside : i < l.length) :
    l[i]? = some (l.getD i 0) := by
  rw [List.getElem?_eq_getElem inside, List.getD_eq_getElem _ _ inside]

/-- A loop that looks two entries up in each pass, and stays in the table. -/
theorem mapM_lookups {table : List ℕ} {n : ℕ} (source target : ℕ → ℕ) (link : ℕ → ℕ → ℕ × ℕ)
    (inside : ∀ k < n, source k < table.length ∧ target k < table.length) :
    (List.range n).mapM (fun k => (table[source k]?).bind fun cur =>
        (table[target k]?).bind fun next => (pure (link cur next) : Option (ℕ × ℕ))) =
      some ((List.range n).map fun k =>
        link (table.getD (source k) 0) (table.getD (target k) 0)) := by
  refine mapM_of_forall fun k hk => ?_
  obtain ⟨cur, next⟩ := inside k (List.mem_range.mp hk)
  rw [getElem?_eq_getD cur, Option.bind_some, getElem?_eq_getD next]
  rfl

/-- No index of `words_initialize` is beyond its block. -/
theorem wordsInitializeIn_eq (max scale : ℕ) :
    wordsInitializeIn max scale = wordsInitialize max scale := by
  have filled := foldlM_put (fun i =>
    (List.range (countBits max (max >>> 1))).foldl (fun word j =>
      if i.testBit j then word ||| 1 <<< (countBits max (max >>> 1) - j - 1) else word) 0 * scale)
    (show max ≤ (List.replicate max 0).length by rw [List.length_replicate])
  rw [List.drop_replicate, Nat.sub_self, List.replicate_zero, List.append_nil] at filled
  rw [wordsInitializeIn, wordsInitialize, filled]
  rfl

section Inside

variable {s : MemState} {addr slot : ℕ}

/-- The base is less than a page behind the address. -/
theorem base_lt (positive : 0 < s.pagesize) :
    addr ≤ s.base addr ∧ s.base addr < addr + s.pagesize := by
  have rest := Nat.mod_lt addr positive
  unfold MemState.base
  split <;> omega

/-- It is on a page boundary. -/
theorem pagesize_dvd_base (positive : 0 < s.pagesize) : s.pagesize ∣ s.base addr := by
  have rest := Nat.mod_lt addr positive
  have whole := Nat.div_add_mod addr s.pagesize
  unfold MemState.base
  split
  · refine ⟨addr / s.pagesize + 1, ?_⟩
    rw [Nat.mul_succ]
    omega
  · rename_i aligned
    exact Nat.dvd_of_mod_eq_zero (not_not.mp aligned)

/-- **An offset in `maxlen` and a page more is in the block**, at every alignment. -/
theorem inside_of_le (positive : 0 < s.pagesize) (within : slot + s.ptr ≤ s.maxlen + s.pagesize) :
    s.Inside addr slot := by
  obtain ⟨above, below⟩ : addr ≤ s.base addr ∧ s.base addr < addr + s.pagesize := base_lt positive
  exact ⟨by omega, by omega⟩

end Inside

section Slots

variable {s : MemState} {a b addr i j k page : ℕ} {pages : List ℕ} {f : Fill}

theorem getElem?_lines (inside : j < s.nlines) : s.lines[j]? = some (s.lineAt j) :=
  getElem?_eq_getD (by rw [MemState.lines, length_wordOrder]; exact inside)

theorem getElem?_words (inside : k < s.nwords) : s.words[k]? = some (s.wordAt k) :=
  getElem?_eq_getD (by rw [MemState.words, length_wordOrder]; exact inside)

theorem getElem?_pages (order : PageOrder s pages) (inside : i < s.nmpages) :
    pages[i]? = some (pages.getD i 0) :=
  getElem?_eq_getD (order.length_eq ▸ inside)

/-- The loop that links the words of a line to those of another, with its table of words. -/
theorem mapM_wordStores (s : MemState) (source target : ℕ) :
    (List.range s.nwords).mapM (fun k => (s.words[k]?).bind fun word =>
        (pure (source + word, target + word) : Option (ℕ × ℕ))) =
      some (wordStores s source target) := by
  refine mapM_of_forall fun k hk => ?_
  rw [getElem?_words (List.mem_range.mp hk)]
  rfl

/-- The loop that links them to the next words of the first line. -/
theorem mapM_wrapStores (s : MemState) (source target : ℕ) :
    (List.range s.nwords).mapM (fun k => (s.words[k]?).bind fun word =>
        (s.words[if k = s.nwords - 1 then 0 else k + 1]?).bind fun next =>
          (pure (source + word, target + next) : Option (ℕ × ℕ))) =
      some (wrapStores s source target) := by
  refine mapM_lookups (fun k => k) (fun k => if k = s.nwords - 1 then 0 else k + 1)
    (fun word next => (source + word, target + next)) fun k hk => ?_
  rw [MemState.words, length_wordOrder]
  refine ⟨hk, ?_⟩
  split <;> omega

variable (shape : s.Shape a b)
include shape

/-- A pointer at a word lies in the line. -/
theorem wordAt_add_ptr_le (inside : k < s.nwords) : s.wordAt k + s.ptr ≤ s.line := by
  rw [shape.wordAt_eq inside, shape.line, ← Nat.succ_mul]
  exact Nat.mul_le_mul_right _ (bitReverse_lt b k)

theorem ptr_le_line : s.ptr ≤ s.line := by
  rw [shape.line]
  exact Nat.le_mul_of_pos_left _ (Nat.two_pow_pos b)

variable (order : PageOrder s pages)
include order

/-- A page lies in `maxlen` bytes and a page more. -/
theorem page_add_pagesize_le (member : page ∈ pages) :
    page + s.pagesize ≤ s.maxlen + s.pagesize := by
  obtain ⟨x, inside, rfl⟩ := List.mem_map.mp ((List.Perm.mem_iff order).mp member)
  -- rounding up to pages adds less than one page
  have below := MemState.nmpages_mul_lt shape.pagesize_pos
  have next : (x + 1) * s.pagesize ≤ s.nmpages * s.pagesize :=
    Nat.mul_le_mul_right _ (List.mem_range.mp inside)
  rw [Nat.succ_mul] at next
  exact next.trans below.le

/-- **A pointer in a line of a page is in the block.** -/
theorem inside_line (member : page ∈ pages) (line : j < s.nlines) (within : k + s.ptr ≤ s.line) :
    s.Inside addr (page + s.lineAt j + k) := by
  have top := page_add_pagesize_le shape order member
  have room := shape.lineAt_add_line_le line
  exact inside_of_le shape.pagesize_pos (by omega)

/-- A word of a line is. -/
theorem inside_word (member : page ∈ pages) (line : j < s.nlines) (word : k < s.nwords) :
    s.Inside addr (page + s.lineAt j + s.wordAt k) :=
  inside_line shape order member line (wordAt_add_ptr_le shape word)

theorem inside_lineSlot (page : i < s.nmpages) (line : j < s.nlines) :
    s.Inside addr (s.lineSlot pages i j) :=
  inside_line shape order (order.getD_mem page) line
    (by rw [Nat.zero_add]; exact ptr_le_line shape)

theorem inside_lineStores (member : page ∈ pages) (line : j < s.nlines) (target : ℕ) :
    ∀ w ∈ lineStores s (page + s.lineAt j) target, s.Inside addr w.1 := by
  intro w made
  obtain ⟨k, hk, rfl⟩ := (shape.mem_lineStores).mp made
  exact inside_word shape order member line hk

/-! ### `mem_initialize` -/

/-- One line. -/
theorem fillLineIn_eq (member : page ∈ pages) (line : f.j + 1 < s.nlines) :
    fillLineIn s s.words s.lines addr page f = some (fillLine s page f) := by
  have stores : ∀ w ∈ lineStores s (page + s.lineAt f.j) (page + s.lineAt (f.j + 1)),
      s.Inside addr w.1 := inside_lineStores shape order member (by omega) _
  have word : ∀ x, s.words[x % s.nwords]? = some (s.wordAt (x % s.nwords)) := fun x =>
    getElem?_words (Nat.mod_lt x shape.nwords_pos)
  have cur : s.lines[f.j]? = some (s.lineAt f.j) := getElem?_lines (by omega)
  simp only [fillLineIn, cur, getElem?_lines line, word, storeAllIf_eq stores,
    Option.bind_eq_bind, Option.bind_some, Option.map_some]
  rw [fillLine]
  dsimp only
  split <;> rfl

/-- The lines of a page, with any fuel. -/
theorem fillPageIn_eq (member : page ∈ pages) (line : f.j < s.nlines) (fuel : ℕ) :
    fillPageIn s s.words s.lines addr page fuel f = some (fillPage s page fuel f) ∧
      (fillPage s page fuel f).j < s.nlines := by
  induction fuel generalizing f with
  | zero => exact ⟨rfl, line⟩
  | succ fuel ih =>
    rw [fillPageIn, fillPage]
    split
    · rename_i more
      have next : f.j + 1 < s.nlines := by omega
      rw [fillLineIn_eq shape order member next, Option.bind_eq_bind, Option.bind_some]
      exact ih next
    · exact ⟨rfl, line⟩

/-- A word of a line that is reached from another page. -/
theorem inside_wordStores (member : page ∈ pages) (line : j < s.nlines) (target : ℕ) :
    ∀ w ∈ wordStores s (page + s.lineAt j) target, s.Inside addr w.1 := by
  intro w made
  obtain ⟨k, hk, rfl⟩ := List.mem_map.mp made
  exact inside_word shape order member line (List.mem_range.mp hk)

theorem inside_wrapStores (member : page ∈ pages) (line : j < s.nlines) (target : ℕ) :
    ∀ w ∈ wrapStores s (page + s.lineAt j) target, s.Inside addr w.1 := by
  intro w made
  obtain ⟨k, hk, rfl⟩ := List.mem_map.mp made
  exact inside_word shape order member line (List.mem_range.mp hk)

variable (room : s.npages ≤ s.nmpages)
include room

/-- One page. -/
theorem fillStepIn_eq (f : Fill) (inside : i < s.npages) :
    fillStepIn s s.words s.lines pages addr f i = some (fillStep s pages f i) ∧
      (fillStep s pages f i).j < s.nlines := by
  have here := getElem?_pages order (show i < s.nmpages by omega)
  obtain ⟨filled, line⟩ : fillPageIn s s.words s.lines addr (pages.getD i 0) s.nlines
        { f with j := 0 } = some (fillPage s (pages.getD i 0) s.nlines { f with j := 0 }) ∧
      (fillPage s (pages.getD i 0) s.nlines { f with j := 0 }).j < s.nlines :=
    fillPageIn_eq shape order (order.getD_mem (by omega)) shape.nlines_pos _
  simp only [fillStepIn, here, filled, Option.bind_eq_bind, Option.bind_some]
  -- only the line where the loop stopped matters for the link to the next page
  rw [fillStep]
  dsimp only
  generalize fillPage s (pages.getD i 0) s.nlines { f with j := 0 } = g at line ⊢
  split
  · rename_i more
    have stores : ∀ w ∈ wordStores s (pages.getD i 0 + s.lineAt g.j)
        (pages.getD (i + 1) 0 + s.lineAt 0), s.Inside addr w.1 :=
      inside_wordStores shape order (order.getD_mem (by omega)) line _
    rw [getElem?_pages order (show i + 1 < s.nmpages by omega), getElem?_lines line,
      getElem?_lines shape.nlines_pos]
    simp only [Option.bind_some, mapM_wordStores, storeAllIf_eq stores]
    exact ⟨rfl, line⟩
  · exact ⟨rfl, line⟩

/-- **With the checks the chain of `mem_initialize` is the same.** -/
theorem memInitializeIn_eq (some : 0 < s.npages) :
    memInitializeIn s addr pages = memInitialize s pages := by
  have loop : (List.range s.npages).foldlM (fillStepIn s s.words s.lines pages addr)
      ⟨s.nlines - 1, 0, fun _ => none, fun _ => none⟩ =
        Option.some (fillAll s pages s.npages) := by
    refine foldlM_range_some (fillAll s pages) fun i hi => ?_
    rw [fillAll_succ]
    exact (fillStepIn_eq shape order room _ hi).1
  -- the last pass over a page leaves its last line
  have line : (fillAll s pages s.npages).j < s.nlines := by
    obtain ⟨n, count⟩ : ∃ n, s.npages = n + 1 := Nat.exists_eq_succ_of_ne_zero some.ne'
    rw [count, fillAll_succ]
    exact (@fillStepIn_eq s a b addr n pages shape order room _ (by omega)).2
  have stores : ∀ w ∈ wrapStores s
      (pages.getD (s.npages - 1) 0 + s.lineAt (fillAll s pages s.npages).j)
      (pages.getD 0 0 + s.lineAt 0), s.Inside addr w.1 :=
    inside_wrapStores shape order (order.getD_mem (by omega)) line _
  have words := wordsInitialize_nwords shape
  have lines := wordsInitialize_nlines shape
  simp only [memInitializeIn, memInitialize, wordsInitializeIn_eq, words, lines, loop,
    Option.bind_eq_bind, Option.bind_some,
    getElem?_pages order (show s.npages - 1 < s.nmpages by omega),
    getElem?_pages order (show 0 < s.nmpages by omega), getElem?_lines line,
    getElem?_lines shape.nlines_pos, mapM_wrapStores, storeAllIf_eq stores]
  rfl

/-! ### `line_initialize` -/

/-- The links of one page. -/
theorem lineLinksIn_eq (inside : i < s.npages) :
    lineLinksIn s s.lines pages i = some (lineLinks s pages i) := by
  have next : (if i < s.npages - 1 then i + 1 else 0) < s.nmpages := by
    split <;> omega
  have line := shape.nlines_pos
  have links : (List.range (s.nlines - 1)).mapM (fun j => (s.lines[j]?).bind fun cur =>
      (s.lines[j + 1]?).bind fun next =>
        (pure (pages.getD i 0 + cur, pages.getD i 0 + next) : Option (ℕ × ℕ))) =
      some ((List.range (s.nlines - 1)).map fun j =>
        (s.lineSlot pages i j, s.lineSlot pages i (j + 1))) := by
    refine mapM_lookups (fun j => j) (fun j => j + 1) (fun cur next => (_ + cur, _ + next))
      fun j hj => ?_
    rw [MemState.lines, length_wordOrder]
    omega
  simp only [lineLinksIn, getElem?_pages order (show i < s.nmpages by omega), links,
    getElem?_lines (show s.nlines - 1 < s.nlines by omega), getElem?_pages order next,
    getElem?_lines line, Option.bind_eq_bind, Option.bind_some]
  rfl

/-- **With the checks the chain of `line_initialize` is the same.** -/
theorem lineInitializeIn_eq (some : 0 < s.npages) : lineInitializeIn s addr pages =
    (lineInitialize s pages).map fun mem => (mem, s.lineSlot pages 0 0) := by
  have lines := wordsInitialize_nlines shape
  have links : (List.range s.npages).mapM (lineLinksIn s s.lines pages) =
      Option.some ((List.range s.npages).map (lineLinks s pages)) :=
    mapM_of_forall fun i hi => lineLinksIn_eq shape order room (List.mem_range.mp hi)
  have stores : ∀ w ∈ ((List.range s.npages).map (lineLinks s pages)).flatten,
      s.Inside addr w.1 := by
    intro w made
    obtain ⟨links, page, made⟩ := List.mem_flatten.mp made
    obtain ⟨i, hi, rfl⟩ := List.mem_map.mp page
    have inside : i < s.nmpages := (List.mem_range.mp hi).trans_le room
    have line := shape.nlines_pos
    rcases List.mem_append.mp made with link | last
    · obtain ⟨j, hj, rfl⟩ := List.mem_map.mp link
      rw [List.mem_range] at hj
      exact inside_lineSlot shape order inside (by omega)
    · obtain rfl := List.mem_singleton.mp last
      exact inside_lineSlot shape order inside (by omega)
  simp only [lineInitializeIn, lineInitialize, wordsInitializeIn_eq, lines, links,
    storeAllIf_eq stores, getElem?_pages order (show 0 < s.nmpages by omega),
    getElem?_lines shape.nlines_pos, Option.bind_eq_bind, Option.bind_some]
  split <;> rfl

/-! ### `thrash_initialize` -/

omit order room in
/-- The loop that links two pages. Its places in the table are reduced to the number of lines. -/
theorem mapM_thrashLinks (source target : ℕ → ℕ) (cpage npage : ℕ) :
    (List.range (s.pagesize / s.line)).mapM (fun j =>
        (s.lines[source j % (s.pagesize / s.line)]?).bind fun cur =>
          (s.lines[target j % (s.pagesize / s.line)]?).bind fun next =>
            (pure (cpage + cur, npage + next) : Option (ℕ × ℕ))) =
      some ((List.range (s.pagesize / s.line)).map fun j =>
        (cpage + s.lines.getD (source j % (s.pagesize / s.line)) 0,
          npage + s.lines.getD (target j % (s.pagesize / s.line)) 0)) := by
  have inside : ∀ x, x % (s.pagesize / s.line) < s.lines.length := by
    intro x
    rw [MemState.lines, length_wordOrder]
    exact Nat.mod_lt x shape.nlines_pos
  exact mapM_lookups (fun j => source j % _) (fun j => target j % _)
    (fun cur next => (cpage + cur, npage + next)) fun j _ => ⟨inside _, inside _⟩

theorem thrashPagesIn_eq (some : 0 < s.npages) :
    thrashPagesIn s pages = Option.some (thrashPages s pages) := by
  have words : wordsInitializeIn (s.pagesize / s.line) s.line = Option.some s.lines := by
    rw [wordsInitializeIn_eq]
    exact wordsInitialize_nlines shape
  have links : (List.range (s.npages - 1)).mapM (fun i => (pages[i]?).bind fun cpage =>
      (pages[i + 1]?).bind fun npage => (List.range (s.pagesize / s.line)).mapM fun j =>
        (s.lines[(i + j) % (s.pagesize / s.line)]?).bind fun cur =>
          (s.lines[(i + j + 1) % (s.pagesize / s.line)]?).bind fun next =>
            (pure (cpage + cur, npage + next) : Option (ℕ × ℕ))) =
      Option.some ((List.range (s.npages - 1)).map fun i =>
        (List.range (s.pagesize / s.line)).map fun j =>
          (pages.getD i 0 + s.lines.getD ((i + j) % (s.pagesize / s.line)) 0,
            pages.getD (i + 1) 0 + s.lines.getD ((i + j + 1) % (s.pagesize / s.line)) 0)) := by
    refine mapM_of_forall fun i hi => ?_
    have page : i < s.npages - 1 := List.mem_range.mp hi
    rw [getElem?_pages order (show i < s.nmpages by omega), Option.bind_some,
      getElem?_pages order (show i + 1 < s.nmpages by omega), Option.bind_some]
    exact mapM_thrashLinks shape (fun j => i + j) (fun j => i + j + 1) _ _
  -- the last page is linked to the first
  have back := mapM_thrashLinks shape (fun j => s.npages - 1 + j) (fun j => j + 1)
    (pages.getD (s.npages - 1) 0) (pages.getD 0 0)
  simp only [thrashPagesIn, words, links, back,
    getElem?_pages order (show s.npages - 1 < s.nmpages by omega),
    getElem?_pages order (show 0 < s.nmpages by omega), Option.bind_eq_bind, Option.bind_some]
  rfl

omit shape order room in
theorem thrashRestIn_eq (some : 0 < s.len / s.line)
    (made : wordsInitialize (s.len / s.line) s.line =
      Option.some (wordOrder (s.len / s.line) s.line)) :
    thrashRestIn s = Option.some (thrashRest s) := by
  have words : wordsInitializeIn (s.len / s.line) s.line =
      Option.some (wordOrder (s.len / s.line) s.line) := by rw [wordsInitializeIn_eq, made]
  have table := length_wordOrder (s.len / s.line) s.line
  have links : (List.range (s.len / s.line - 1)).mapM (fun i =>
      ((wordOrder (s.len / s.line) s.line)[i]?).bind fun cur =>
        ((wordOrder (s.len / s.line) s.line)[i + 1]?).bind fun next =>
          (pure (cur, next) : Option (ℕ × ℕ))) = _ :=
    mapM_lookups (fun i => i) (fun i => i + 1) Prod.mk fun i hi => by
      rw [table]
      omega
  have last := getElem?_eq_getD (show s.len / s.line - 1 <
    (wordOrder (s.len / s.line) s.line).length by rw [table]; omega)
  simp only [thrashRestIn, words, links, last, Option.bind_eq_bind, Option.bind_some]
  rfl

/-- **With the checks the chain of `thrash_initialize` is the same.** -/
theorem thrashInitializeIn_eq (some : s.line ≤ s.len) (fits : s.len ≤ s.maxlen)
    (small : s.len < 2 ^ 31) : ∃ t, thrashInitializeIn s addr pages = Option.some t ∧
      thrashInitialize s pages = Option.some t := by
  have positive := shape.line_pos
  have pointers : 0 < s.len / s.line := Nat.div_pos some positive
  have pages' : 0 < s.npages :=
    Nat.div_pos (by have := shape.pagesize_pos; omega) shape.pagesize_pos
  unfold thrashInitializeIn thrashInitialize
  split
  · have stores : ∀ w ∈ thrashRest s, s.Inside addr w.1 := by
      intro w made
      obtain ⟨m, mirrored, source⟩ := source_thrashRest pointers made
      -- the mirrored bits are so few that no number reaches the number of lines
      have below : m < s.len / s.line := mirrored.trans_le (two_pow_countBits_half_le pointers)
      have top : (m + 1) * s.line ≤ s.len :=
        (Nat.mul_le_mul_right _ below).trans (Nat.div_mul_le_self _ _)
      rw [Nat.succ_mul] at top
      have narrow := ptr_le_line shape
      rw [source]
      exact inside_of_le shape.pagesize_pos (by omega)
    have made : wordsInitialize (s.len / s.line) s.line =
        Option.some (wordOrder (s.len / s.line) s.line) := by
      have lines : s.len / s.line ≤ s.len := Nat.div_le_self _ _
      refine (wordsInitialize_eq_some_iff pointers).mpr ⟨by omega, .inr ?_⟩
      rw [intMax]
      omega
    rw [thrashRestIn_eq pointers made, made]
    simp only [Option.bind_eq_bind, Option.bind_some, storeAllIf_eq stores]
    exact ⟨_, rfl, rfl⟩
  · have stores : ∀ w ∈ thrashPages s pages, s.Inside addr w.1 := by
      intro w made
      obtain ⟨i, hi, k, _, rfl⟩ := (mem_thrashPages pages').mp made
      exact inside_lineSlot shape order (hi.trans_le room) (Nat.mod_lt _ shape.nlines_pos)
    have made : wordsInitialize (s.pagesize / s.line) s.line = Option.some s.lines :=
      wordsInitialize_nlines shape
    rw [thrashPagesIn_eq shape order room pages', made]
    simp only [Option.bind_eq_bind, Option.bind_some, storeAllIf_eq stores,
      getElem?_pages order (show 0 < s.nmpages by omega)]
    exact ⟨_, rfl, rfl⟩

/-! ### `stride_initialize` -/

omit order room in
theorem strideInitializeIn_eq (some : s.line ≤ s.len) (fits : s.len ≤ s.maxlen) :
    strideInitializeIn s addr = Option.some (storeAll (fun _ => none) (strideStores s)) := by
  have positive := shape.line_pos
  have narrow := ptr_le_line shape
  have page : s.line ≤ s.pagesize := by
    rw [shape.pagesize]
    exact Nat.le_mul_of_pos_left _ (Nat.two_pow_pos a)
  -- the passes are over multiples of the line below the length
  have passes : (s.len - s.line + s.line - 1) / s.line = (s.len - 1) / s.line := by
    rw [Nat.sub_add_cancel some]
  have whole := Nat.div_mul_le_self (s.len - 1) s.line
  refine storeAllIf_eq fun w made => inside_of_le shape.pagesize_pos ?_
  rcases List.mem_append.mp made with pass | last
  · obtain ⟨k, hk, rfl⟩ := List.mem_map.mp pass
    obtain ⟨m, hm, rfl⟩ := List.mem_map.mp hk
    rw [List.mem_range, passes] at hm
    have below : m * s.line ≤ (s.len - 1) / s.line * s.line := Nat.mul_le_mul_right _ hm.le
    dsimp only
    omega
  · obtain rfl := List.mem_singleton.mp last
    dsimp only
    rw [strided, List.length_map, List.length_range, passes, Nat.mul_comm]
    omega

end Slots

/-! ### All four -/

/-- Line and page sizes that are powers of two of at least a pointer have a shape. -/
theorem exists_shape {s : MemState} (pointer : ∃ c, s.ptr = 2 ^ c) (page : ∃ a, s.pagesize = 2 ^ a)
    (wide : s.ptr ≤ s.line) (divides : s.line ∣ s.pagesize) : ∃ a b, s.Shape a b := by
  obtain ⟨c, ptr⟩ := pointer
  obtain ⟨a, pagesize⟩ := page
  obtain ⟨d, below, line⟩ := (Nat.dvd_prime_pow Nat.prime_two).mp (pagesize ▸ divides)
  have bits : c ≤ d := by
    rw [ptr, line] at wide
    exact (Nat.pow_le_pow_iff_right (by decide)).mp wide
  refine ⟨a - d, d - c, ⟨ptr ▸ Nat.two_pow_pos c, ?_, ?_⟩⟩
  · rw [line, ptr, ← Nat.pow_add, Nat.sub_add_cancel bits]
  · rw [pagesize, line, ← Nat.pow_add, Nat.sub_add_cancel below]

/-- The counts that `mem_initialize` and `line_initialize` keep in an `int` fit, if the page size
does. -/
theorem counts_fit {s : MemState} (positive : 0 < s.line) (some : s.line ≤ s.len)
    (small : s.len < 2 ^ 31) (page : 0 < s.pagesize ∧ s.pagesize < 2 ^ 31) :
    s.nwords < 2 ^ 31 ∧ s.nlines < 2 ^ 31 ∧ s.npages < 2 ^ 31 ∧ s.npointers < 2 ^ 31 := by
  have words : s.nwords ≤ s.line := Nat.div_le_self _ _
  have lines : s.nlines ≤ s.pagesize := Nat.div_le_self _ _
  have pointers : s.npointers ≤ s.len := Nat.div_le_self _ _
  have pages : s.npages ≤ s.len - 1 + 1 :=
    calc (s.len + s.pagesize - 1) / s.pagesize
        = (s.len - 1 + s.pagesize) / s.pagesize := by
          rw [Nat.sub_add_comm (Nat.le_trans positive some)]
      _ = (s.len - 1) / s.pagesize + 1 := Nat.add_div_right _ page.1
      _ ≤ s.len - 1 + 1 := Nat.succ_le_succ (Nat.div_le_self _ _)
  omega

/-- The number of lines that `line_initialize` computes in `int`s fits too. -/
theorem lineInitialize_of_lt {s : MemState} {a b c : ℕ} (shape : s.Shape a b)
    (page : s.pagesize = 2 ^ c) (small : s.len < 2 ^ 31) (wide : s.ptr ≤ s.line)
    (pages : List ℕ) :
    lineInitialize s pages = Option.some (lineChain s pages) := by
  -- the greatest power of two that is an `int`
  have top : s.pagesize ≤ 2 ^ 30 := by
    have int := s.machine.1
    rw [page, intMax] at int
    rw [page]
    refine Nat.pow_le_pow_right (by decide) (Nat.le_of_lt_succ ?_)
    exact (Nat.pow_lt_pow_iff_right (by decide)).mp (Nat.lt_of_le_of_lt int (by decide))
  have lines : s.nlines * s.npages * s.line ≤ s.len + s.pagesize :=
    calc s.nlines * s.npages * s.line = s.nlines * s.line * s.npages := Nat.mul_right_comm _ _ _
      _ ≤ s.pagesize * s.npages := Nat.mul_le_mul_right _ (Nat.div_mul_le_self _ _)
      _ ≤ s.len + s.pagesize - 1 := Nat.mul_div_le _ _
      _ ≤ s.len + s.pagesize := Nat.sub_le _ _
  have halved : s.nlines * s.npages * 2 ≤ s.nlines * s.npages * s.line :=
    Nat.mul_le_mul_left _ (Nat.le_trans s.machine.2 wide)
  rw [lineInitialize_eq shape, if_pos (by rw [intMax]; omega)]

/-- **All stores are in the block.** For every address, page sizes and pointer sizes that are powers
of two, line sizes that divide the page and hold a pointer, lengths from a line up to the greatest
one, below 2^31, and every order that `permutation` draws: with each store checked to lie in the
`maxlen + 2 * pagesize` bytes and each index to be below the length of its table, the four functions
do what they do without checks, and have a result. The counts are `int`s if the page size is
one. -/
theorem initialize_inside (s : MemState) (pointer : ∃ c, s.ptr = 2 ^ c)
    (page : ∃ a, s.pagesize = 2 ^ a) (wide : s.ptr ≤ s.line) (divides : s.line ∣ s.pagesize)
    (some : s.line ≤ s.len) (fits : s.len ≤ s.maxlen) (small : s.maxlen < 2 ^ 31) (r : ℕ → ℕ)
    (addr : ℕ) :
    strideInitializeIn s addr = Option.some (storeAll (fun _ => none) (strideStores s)) ∧
      (∃ t, thrashInitializeIn s addr (permutation s.nmpages s.pagesize r) = Option.some t ∧
        thrashInitialize s (permutation s.nmpages s.pagesize r) = Option.some t) ∧
      (∃ f, memInitializeIn s addr (permutation s.nmpages s.pagesize r) = Option.some f ∧
        memInitialize s (permutation s.nmpages s.pagesize r) = Option.some f) ∧
      (∃ mem, lineInitializeIn s addr (permutation s.nmpages s.pagesize r) =
          Option.some (mem, s.lineSlot (permutation s.nmpages s.pagesize r) 0 0) ∧
        lineInitialize s (permutation s.nmpages s.pagesize r) = Option.some mem) ∧
      (s.pagesize < 2 ^ 31 →
        s.nwords < 2 ^ 31 ∧ s.nlines < 2 ^ 31 ∧ s.npages < 2 ^ 31 ∧ s.npointers < 2 ^ 31) := by
  obtain ⟨a, b, shape⟩ := exists_shape pointer page wide divides
  obtain ⟨c, power⟩ := page
  have order : PageOrder s (permutation s.nmpages s.pagesize r) := permutation_perm _ _ r
  have room : s.npages ≤ s.nmpages := Nat.div_le_div_right (by omega)
  have positive := shape.line_pos
  have pages : 0 < s.npages := Nat.div_pos (by omega) shape.pagesize_pos
  have chain := memInitialize_of_lt shape (by omega) (permutation s.nmpages s.pagesize r)
  have lines := lineInitialize_of_lt shape power (by omega) wide
    (permutation s.nmpages s.pagesize r)
  refine ⟨strideInitializeIn_eq shape some fits,
    thrashInitializeIn_eq shape order room some fits (by omega), ⟨_, ?_, chain⟩, ⟨_, ?_, lines⟩,
    fun int => counts_fit positive some (by omega) ⟨shape.pagesize_pos, int⟩⟩
  · rw [memInitializeIn_eq shape order room pages, chain]
  · rw [lineInitializeIn_eq shape order room pages, lines, Option.map_some]

/-- A length that is no multiple of the line. -/
def MemState.odd : MemState := ⟨200, 300, 32, 128, 1, 8, by decide⟩

/-- At an address that is on no page boundary. -/
theorem initialize_inside_odd :
    strideInitializeIn .odd 1000 = some (storeAll (fun _ => none) (strideStores .odd)) ∧
      (∃ t, thrashInitializeIn .odd 1000 (permutation 3 128 fun i => i + 1) = some t ∧
        thrashInitialize .odd (permutation 3 128 fun i => i + 1) = some t) ∧
      (∃ f, memInitializeIn .odd 1000 (permutation 3 128 fun i => i + 1) = some f ∧
        memInitialize .odd (permutation 3 128 fun i => i + 1) = some f) ∧
      (∃ mem, lineInitializeIn .odd 1000 (permutation 3 128 fun i => i + 1) =
          some (mem, MemState.odd.lineSlot (permutation 3 128 fun i => i + 1) 0 0) ∧
        lineInitialize .odd (permutation 3 128 fun i => i + 1) = some mem) ∧
      (MemState.odd.pagesize < 2 ^ 31 → MemState.odd.nwords < 2 ^ 31 ∧
        MemState.odd.nlines < 2 ^ 31 ∧ MemState.odd.npages < 2 ^ 31 ∧
        MemState.odd.npointers < 2 ^ 31) :=
  initialize_inside .odd ⟨3, rfl⟩ ⟨7, rfl⟩ (by decide) (by decide) (by decide)
    (by decide) (by decide) (fun i => i + 1) 1000

end Lmbench
