import Lmbench.Lib.Store
import Lmbench.Mem.Words
import Mathlib.Tactic.Ring
import Mathlib.Tactic.Positivity

/-!
# The pointer chain of `mem_initialize`

`mem_initialize` threads a chain through all words of all lines of all pages:
first the lines of a page, then the pages, then the words of a line. Four loops
store the links, over two bit-reversed orders and a shuffled one, and a counter
cuts the last page short when the length is not a multiple of the page size.

Addresses are offsets from the page-aligned `state->base`, so a slot is named by
its page, its line and its word.

## Main results

* `mem_slot` - every slot of the chain holds the next one
* `memInitialize_eq` - the chain is laid where the `int`s hold
* `memInitialize_isCycle` - the chain is one cycle, through whole lines
-/

namespace Lmbench

open Lib

/-- The fields of `struct mem_state` that the callers set. `ptr` is
`sizeof(char*)`. The page size is what `getpagesize()` returns, an `int`. -/
structure MemState where
  len : ℕ
  maxlen : ℕ
  line : ℕ
  pagesize : ℕ
  width : ℕ
  ptr : ℕ
  machine : pagesize ≤ intMax ∧ 1 < ptr
deriving DecidableEq, Repr

namespace MemState

/-- Pages of 4096 bytes and pointers of eight. -/
theorem machine_lp64 : 4096 ≤ intMax ∧ 1 < 8 := by decide

/-! Two small machines. -/

theorem machine_sixteen : 16 ≤ intMax ∧ 1 < 2 := by decide

theorem machine_eight : 8 ≤ intMax ∧ 1 < 2 := by decide

variable (s : MemState)

/-! `base_initialize` derives these. -/

def nwords : ℕ := s.line / s.ptr

def nlines : ℕ := s.pagesize / s.line

def npages : ℕ := (s.len + s.pagesize - 1) / s.pagesize

def nmpages : ℕ := (s.maxlen + s.pagesize - 1) / s.pagesize

def npointers : ℕ := s.len / s.line

def words : List ℕ := wordOrder s.nwords s.ptr

def lines : List ℕ := wordOrder s.nlines s.line

/-- `state->lines[j]`. -/
def lineAt (j : ℕ) : ℕ := s.lines.getD j 0

/-- `state->words[k]`. -/
def wordAt (k : ℕ) : ℕ := s.words.getD k 0

end MemState

/-- Offsets from the base that hold a pointer, and where it points. -/
abbrev Memory := ℕ → Option ℕ

/-- What the loops over pages and lines change: `j`, `l`, the memory and the
entries of `state->p`. -/
structure Fill where
  j : ℕ
  l : ℕ
  mem : Memory
  p : ℕ → Option ℕ

section Model

variable (s : MemState)

/-- `for (k = 0; k < bound; k += step)`. -/
def strided (bound step : ℕ) : List ℕ := (List.range ((bound + step - 1) / step)).map (· * step)

/-- The loop that links each word of one line to the same word of another. -/
def lineStores (source target : ℕ) : List (ℕ × ℕ) :=
  (strided s.line s.ptr).map fun k => (source + k, target + k)

/-- The loop that does the same in the order of `words`. -/
def wordStores (source target : ℕ) : List (ℕ × ℕ) :=
  (List.range s.nwords).map fun k => (source + s.wordAt k, target + s.wordAt k)

/-- The loop that links each word to the next word of the first line. -/
def wrapStores (source target : ℕ) : List (ℕ × ℕ) :=
  (List.range s.nwords).map fun k =>
    let nw := if k = s.nwords - 1 then 0 else k + 1
    (source + s.wordAt k, target + s.wordAt nw)

/-- The body of the loop over lines. -/
def fillLine (page : ℕ) (f : Fill) : Fill where
  j := f.j + 1
  l := f.l + 1
  mem := storeAll f.mem (lineStores s (page + s.lineAt f.j) (page + s.lineAt (f.j + 1)))
  p :=
    -- the chain is cut into `width` parts of which `p` has the beginnings
    let share := s.npointers / s.width
    if f.l % share = 0 ∧ f.l / share < 16 then
      Function.update f.p (f.l / share)
        (some (page + s.lineAt f.j + s.wordAt (f.l / share % s.nwords)))
    else f.p

/-- The loop over the lines of a page, of which there are at most as many as there
is fuel. -/
def fillPage (page : ℕ) : ℕ → Fill → Fill
  | 0, f => f
  | fuel + 1, f =>
    if f.j < s.nlines - 1 ∧ f.l < s.npointers - 1 then fillPage page fuel (fillLine s page f) else f

/-- The body of the loop over pages. -/
def fillStep (pages : List ℕ) (f : Fill) (i : ℕ) : Fill :=
  let f := fillPage s (pages.getD i 0) s.nlines { f with j := 0 }
  if i < s.npages - 1 then
    let next := wordStores s (pages.getD i 0 + s.lineAt f.j) (pages.getD (i + 1) 0 + s.lineAt 0)
    { f with mem := storeAll f.mem next }
  else f

/-- Both loops of `mem_initialize`. -/
def fillAll (pages : List ℕ) (n : ℕ) : Fill :=
  (List.range n).foldl (fillStep s pages) ⟨s.nlines - 1, 0, fun _ => none, fun _ => none⟩

/-- The loops of `mem_initialize` and the links back to the beginning. -/
def fillChain (pages : List ℕ) : Fill :=
  let f := fillAll s pages s.npages
  let back := wrapStores s (pages.getD (s.npages - 1) 0 + s.lineAt f.j)
    (pages.getD 0 0 + s.lineAt 0)
  { f with mem := storeAll f.mem back }

/-- The counts that `mem_initialize` keeps in an `int`, and the `int` that the warm-up is called
with, `(nwords * npointers + 100) / 100`, do not overflow. -/
def MemState.MemInts : Prop :=
  s.nlines ≤ intMax ∧ s.npages ≤ intMax ∧ s.npointers ≤ intMax ∧
    s.nwords ≤ intMax ∧ s.nwords * s.npointers + 100 ≤ intMax

instance : Decidable s.MemInts := inferInstanceAs (Decidable (_ ∧ _))

/-- `mem_initialize`, for the page order that `base_initialize` has drawn. What overflows an
`int` has no result. -/
def memInitialize (pages : List ℕ) : Option Fill := do
  -- these are `s.words` and `s.lines`
  let _words ← wordsInitialize s.nwords s.ptr
  let _lines ← wordsInitialize s.nlines s.line
  if s.MemInts then some (fillChain s pages) else none

end Model

/-! ### Addresses -/

/-- Lines of a power of two many words, and pages of a power of two many lines. -/
structure MemState.Shape (s : MemState) (lineBits wordBits : ℕ) : Prop where
  ptr_pos : 0 < s.ptr
  line : s.line = 2 ^ wordBits * s.ptr
  pagesize : s.pagesize = 2 ^ lineBits * s.line

namespace MemState.Shape

variable {s : MemState} {a b : ℕ} (shape : s.Shape a b)
include shape

theorem line_pos : 0 < s.line := by
  rw [shape.line]
  exact Nat.mul_pos (Nat.two_pow_pos b) shape.ptr_pos

theorem pagesize_pos : 0 < s.pagesize := by
  rw [shape.pagesize]
  exact Nat.mul_pos (Nat.two_pow_pos a) shape.line_pos

theorem nwords_eq : s.nwords = 2 ^ b := by
  rw [MemState.nwords, shape.line, Nat.mul_div_cancel _ shape.ptr_pos]

theorem nlines_eq : s.nlines = 2 ^ a := by
  rw [MemState.nlines, shape.pagesize, Nat.mul_div_cancel _ shape.line_pos]

theorem nwords_pos : 0 < s.nwords := by
  rw [shape.nwords_eq]
  exact Nat.two_pow_pos b

theorem nlines_pos : 0 < s.nlines := by
  rw [shape.nlines_eq]
  exact Nat.two_pow_pos a

theorem wordAt_eq {k : ℕ} (inside : k < s.nwords) : s.wordAt k = bitReverse b k * s.ptr := by
  rw [shape.nwords_eq] at inside
  rw [MemState.wordAt, MemState.words, shape.nwords_eq, getD_wordOrder inside]

theorem lineAt_eq {j : ℕ} (inside : j < s.nlines) : s.lineAt j = bitReverse a j * s.line := by
  rw [shape.nlines_eq] at inside
  rw [MemState.lineAt, MemState.lines, shape.nlines_eq, getD_wordOrder inside]

/-- The loop over the bytes of a line stops at each word once. -/
theorem strided_eq : strided s.line s.ptr = (List.range s.nwords).map (· * s.ptr) := by
  have words : (s.line + s.ptr - 1) / s.ptr = s.nwords := by
    rw [shape.nwords_eq, shape.line, Nat.add_sub_assoc shape.ptr_pos, Nat.mul_comm,
      Nat.mul_add_div shape.ptr_pos, Nat.div_eq_of_lt (by have := shape.ptr_pos; omega),
      Nat.add_zero]
  rw [strided, words]

end MemState.Shape

/-! ### What the loops store -/

section Loops

variable (s : MemState)

/-- The stores of the first `n` passes of the loop over the lines of a page. -/
def pageStores (page n : ℕ) : List (ℕ × ℕ) :=
  (List.range n).flatMap fun j => lineStores s (page + s.lineAt j) (page + s.lineAt (j + 1))

/-- The last line used of page `i`: every page but the last is used whole. -/
def MemState.last (i : ℕ) : ℕ :=
  if i < s.npages - 1 then s.nlines - 1
  else min (s.nlines - 1) (s.npointers - 1 - i * (s.nlines - 1))

/-- The stores of one pass of the loop over pages. -/
def stepStores (pages : List ℕ) (i : ℕ) : List (ℕ × ℕ) :=
  pageStores s (pages.getD i 0) (s.last i) ++
    if i < s.npages - 1 then
      wordStores s (pages.getD i 0 + s.lineAt (s.last i)) (pages.getD (i + 1) 0 + s.lineAt 0)
    else []

variable {s} {page fuel i n : ℕ} {pages : List ℕ} {f : Fill}

@[simp] theorem j_fillLine : (fillLine s page f).j = f.j + 1 := rfl

@[simp] theorem l_fillLine : (fillLine s page f).l = f.l + 1 := rfl

@[simp] theorem mem_fillLine : (fillLine s page f).mem =
    storeAll f.mem (lineStores s (page + s.lineAt f.j) (page + s.lineAt (f.j + 1))) := rfl

/-- The loop over lines stops at the last line or when the counter runs out. -/
theorem fillPage_spec (page fuel : ℕ) (enough : s.nlines - 1 ≤ f.j + fuel) :
    let passes := min (s.nlines - 1 - f.j) (s.npointers - 1 - f.l)
    (fillPage s page fuel f).j = f.j + passes ∧ (fillPage s page fuel f).l = f.l + passes ∧
      (fillPage s page fuel f).mem = storeAll f.mem ((List.range passes).flatMap fun d =>
        lineStores s (page + s.lineAt (f.j + d)) (page + s.lineAt (f.j + d + 1))) := by
  -- each pass takes one off both bounds
  induction fuel generalizing f with
  | zero =>
    have none : min (s.nlines - 1 - f.j) (s.npointers - 1 - f.l) = 0 := by omega
    simp [none, fillPage]
  | succ fuel ih =>
    rw [fillPage]
    split
    · rename_i more
      have next : min (s.nlines - 1 - f.j) (s.npointers - 1 - f.l) =
          min (s.nlines - 1 - (f.j + 1)) (s.npointers - 1 - (f.l + 1)) + 1 := by omega
      obtain ⟨j, l, mem⟩ := ih (f := fillLine s page f) (by rw [j_fillLine]; omega)
      simp only [j_fillLine, l_fillLine, mem_fillLine] at j l mem
      refine ⟨by rw [j]; omega, by rw [l]; omega, ?_⟩
      rw [mem, next, List.range_succ_eq_map, List.flatMap_cons, List.flatMap_map, storeAll_append]
      simp [Nat.add_assoc, Nat.add_comm 1]
    · rename_i stop
      have none : min (s.nlines - 1 - f.j) (s.npointers - 1 - f.l) = 0 := by omega
      simp [none]

/-- `state->p[0]` is set in the first pass of all, when the counter is zero. -/
theorem p_fillPage (share : 0 < s.npointers / s.width) (counting : 0 < f.l) :
    (fillPage s page fuel f).p 0 = f.p 0 := by
  induction fuel generalizing f with
  | zero => rfl
  | succ fuel ih =>
    rw [fillPage]
    split
    · rw [ih (by simp), fillLine]
      simp only
      split
      · rename_i marked
        -- a positive multiple of the share marks a later entry
        have least := Nat.le_of_dvd counting (Nat.dvd_of_mod_eq_zero marked.1)
        rw [Function.update_of_ne (Nat.div_pos least share).ne]
      · rfl
    · rfl

theorem p_fillPage_first (share : 0 < s.npointers / s.width) (start : f.l = 0)
    (line : f.j < s.nlines - 1) (pointer : 0 < s.npointers - 1) :
    (fillPage s page (fuel + 1) f).p 0 = some (page + s.lineAt f.j + s.wordAt 0) := by
  rw [fillPage, if_pos ⟨line, by omega⟩, p_fillPage share (by simp)]
  simp [fillLine, start]

/-- One pass over a page, started with the counter where full pages leave it. -/
theorem fillStep_spec (pages : List ℕ) (counted : f.l = i * (s.nlines - 1))
    (whole : i < s.npages - 1 → (i + 1) * (s.nlines - 1) ≤ s.npointers - 1) :
    (fillStep s pages f i).j = s.last i ∧ (fillStep s pages f i).l = f.l + s.last i ∧
      (fillStep s pages f i).mem = storeAll f.mem (stepStores s pages i) := by
  obtain ⟨j, l, mem⟩ := fillPage_spec (s := s) (f := { f with j := 0 }) (pages.getD i 0)
    s.nlines (by simp only; omega)
  have passes : min (s.nlines - 1 - 0) (s.npointers - 1 - f.l) = s.last i := by
    rw [counted, MemState.last, Nat.sub_zero]
    split
    · rename_i full
      have := whole full
      rw [Nat.succ_mul] at this
      omega
    · rfl
  simp only [passes, Nat.zero_add] at j l mem
  simp only [fillStep, stepStores, j]
  split
  · refine ⟨rfl, l, ?_⟩
    rw [storeAll_append, mem]
    rfl
  · refine ⟨j, l, ?_⟩
    rw [List.append_nil, mem]
    rfl

theorem fillAll_succ (pages : List ℕ) (n : ℕ) :
    fillAll s pages (n + 1) = fillStep s pages (fillAll s pages n) n := by
  rw [fillAll, List.range_succ, List.foldl_append]
  rfl

/-- The first `n` passes over pages. -/
theorem fillAll_spec (pages : List ℕ) (within : n ≤ s.npages)
    (whole : ∀ i < s.npages - 1, (i + 1) * (s.nlines - 1) ≤ s.npointers - 1) :
    (n < s.npages → (fillAll s pages n).l = n * (s.nlines - 1)) ∧
      (0 < n → (fillAll s pages n).j = s.last (n - 1)) ∧
      (fillAll s pages n).mem = storeAll (fun _ => none) ((List.range n).flatMap
        (stepStores s pages)) := by
  induction n with
  | zero => simp [fillAll]
  | succ n ih =>
    obtain ⟨l, _, mem⟩ := ih (by omega)
    have counted := l (by omega)
    obtain ⟨j', l', mem'⟩ := fillStep_spec pages counted (whole n)
    rw [fillAll_succ]
    refine ⟨fun more => ?_, fun _ => j', ?_⟩
    · have full : s.last n = s.nlines - 1 := if_pos (by omega)
      rw [l', counted, full, Nat.succ_mul]
    · rw [mem', mem, ← storeAll_append, List.range_succ, List.flatMap_append]
      simp

/-- All stores, in order. -/
def allStores (s : MemState) (pages : List ℕ) : List (ℕ × ℕ) :=
  (List.range s.npages).flatMap (stepStores s pages) ++
    wrapStores s (pages.getD (s.npages - 1) 0 + s.lineAt (s.last (s.npages - 1)))
      (pages.getD 0 0 + s.lineAt 0)

theorem mem_fillChain (some : 0 < s.npages)
    (whole : ∀ i < s.npages - 1, (i + 1) * (s.nlines - 1) ≤ s.npointers - 1) :
    (fillChain s pages).mem = storeAll (fun _ => none) (allStores s pages) := by
  obtain ⟨_, j, mem⟩ := fillAll_spec pages le_rfl whole
  rw [allStores, storeAll_append, ← mem, ← j some]
  rfl

end Loops

/-! ### The links -/

section Links

variable (s : MemState)

/-- The address of word `k` of line `j` of a page, in the orders of the chain. -/
def MemState.address (page j k : ℕ) : ℕ := page + s.lineAt j + s.wordAt k

/-- Line `j` of page `i`. -/
def MemState.lineSlot (pages : List ℕ) (i j : ℕ) : ℕ := pages.getD i 0 + s.lineAt j

/-- Word `k` of line `j` of page `i`. -/
def MemState.slot (pages : List ℕ) (i j k : ℕ) : ℕ := s.address (pages.getD i 0) j k

/-- Where the chain goes from there. -/
def MemState.target (pages : List ℕ) (i j k : ℕ) : ℕ :=
  if j < s.last i then s.slot pages i (j + 1) k
  else if i + 1 < s.npages then s.slot pages (i + 1) 0 k
  else s.slot pages 0 0 ((k + 1) % s.nwords)

theorem slot_eq_add (pages : List ℕ) (i j k : ℕ) :
    s.slot pages i j k = pages.getD i 0 + (s.lineAt j + s.wordAt k) :=
  Nat.add_assoc _ _ _

end Links

theorem add_mul_inj {n a b x y : ℕ} (hx : x < n) (hy : y < n) (same : a * n + x = b * n + y) :
    a = b ∧ x = y := by
  have positive : 0 < n := by omega
  have quotient := congrArg (· / n) same
  simp only [Nat.mul_comm _ n, Nat.mul_add_div positive, Nat.div_eq_of_lt hx,
    Nat.div_eq_of_lt hy, Nat.add_zero] at quotient
  subst quotient
  exact ⟨rfl, by omega⟩

namespace MemState.Shape

variable {s : MemState} {a b : ℕ} (shape : s.Shape a b)
include shape

theorem wordAt_lt {k : ℕ} (inside : k < s.nwords) : s.wordAt k < s.line := by
  rw [shape.wordAt_eq inside, shape.line]
  exact Nat.mul_lt_mul_of_pos_right (bitReverse_lt b k) shape.ptr_pos

theorem lineAt_add_line_le {j : ℕ} (inside : j < s.nlines) : s.lineAt j + s.line ≤ s.pagesize := by
  rw [shape.lineAt_eq inside, shape.pagesize, ← Nat.succ_mul]
  exact Nat.mul_le_mul_right _ (bitReverse_lt a j)

/-- A slot lies in its page. -/
theorem slot_in_page (pages : List ℕ) (i : ℕ) {j k : ℕ} (hj : j < s.nlines) (hk : k < s.nwords) :
    pages.getD i 0 ≤ s.slot pages i j k ∧ s.slot pages i j k < pages.getD i 0 + s.pagesize := by
  have line := shape.lineAt_add_line_le hj
  have word := shape.wordAt_lt hk
  rw [slot_eq_add]
  omega

theorem line_dvd_lineAt {j : ℕ} (inside : j < s.nlines) : s.line ∣ s.lineAt j := by
  rw [shape.lineAt_eq inside]
  exact Nat.dvd_mul_left _ _

theorem wordAt_inj {k k' : ℕ} (hk : k < s.nwords) (hk' : k' < s.nwords)
    (same : s.wordAt k = s.wordAt k') : k = k' := by
  rw [shape.wordAt_eq hk, shape.wordAt_eq hk'] at same
  rw [shape.nwords_eq] at hk hk'
  exact bitReverse_injOn hk hk' (Nat.eq_of_mul_eq_mul_right shape.ptr_pos same)

theorem lineAt_inj {j j' : ℕ} (hj : j < s.nlines) (hj' : j' < s.nlines)
    (same : s.lineAt j = s.lineAt j') : j = j' := by
  rw [shape.lineAt_eq hj, shape.lineAt_eq hj'] at same
  rw [shape.nlines_eq] at hj hj'
  exact bitReverse_injOn hj hj' (Nat.eq_of_mul_eq_mul_right shape.line_pos same)

/-- **Addresses are unique.** -/
theorem address_inj {page page' j j' k k' : ℕ} (aligned : s.pagesize ∣ page)
    (aligned' : s.pagesize ∣ page') (hj : j < s.nlines) (hj' : j' < s.nlines)
    (hk : k < s.nwords) (hk' : k' < s.nwords)
    (same : s.address page j k = s.address page' j' k') : page = page' ∧ j = j' ∧ k = k' := by
  obtain ⟨x, rfl⟩ := aligned
  obtain ⟨x', rfl⟩ := aligned'
  have bound := shape.lineAt_add_line_le hj
  have bound' := shape.lineAt_add_line_le hj'
  have word := shape.wordAt_lt hk
  have word' := shape.wordAt_lt hk'
  simp only [address, Nat.add_assoc, Nat.mul_comm s.pagesize] at same
  obtain ⟨rfl, inner⟩ := add_mul_inj (by omega) (by omega) same
  obtain ⟨y, hy⟩ := shape.line_dvd_lineAt hj
  obtain ⟨y', hy'⟩ := shape.line_dvd_lineAt hj'
  rw [hy, hy', Nat.mul_comm s.line, Nat.mul_comm s.line] at inner
  obtain ⟨rfl, last⟩ := add_mul_inj word word' inner
  exact ⟨rfl, shape.lineAt_inj hj hj' (hy.trans hy'.symm), shape.wordAt_inj hk hk' last⟩

/-- The loop over the bytes of a line and the loop over `words` link the same words. -/
theorem mem_lineStores {source target : ℕ} {w : ℕ × ℕ} :
    w ∈ lineStores s source target ↔
      ∃ k < s.nwords, w = (source + s.wordAt k, target + s.wordAt k) := by
  rw [lineStores, shape.strided_eq, List.map_map, List.mem_map]
  constructor
  · rintro ⟨m, hm, rfl⟩
    rw [List.mem_range, shape.nwords_eq] at hm
    have mirrored : bitReverse b m < s.nwords := shape.nwords_eq ▸ bitReverse_lt b m
    refine ⟨bitReverse b m, mirrored, ?_⟩
    rw [shape.wordAt_eq mirrored, bitReverse_bitReverse hm]
    rfl
  · rintro ⟨k, hk, rfl⟩
    have mirrored : bitReverse b k < s.nwords := shape.nwords_eq ▸ bitReverse_lt b k
    refine ⟨bitReverse b k, List.mem_range.mpr mirrored, ?_⟩
    rw [shape.wordAt_eq hk]
    rfl

/-- All pages but the last are used whole: the counter, which goes up one short of a
page at a time, does not run out before. -/
theorem whole_pages (i : ℕ) (full : i < s.npages - 1) :
    (i + 1) * (s.nlines - 1) ≤ s.npointers - 1 := by
  have covered : (s.npages - 1) * s.pagesize ≤ s.len := by
    have most := Nat.div_mul_le_self (s.len + s.pagesize - 1) s.pagesize
    have positive := shape.pagesize_pos
    rw [Nat.sub_mul, Nat.one_mul]
    change s.npages * s.pagesize ≤ _ at most
    omega
  -- the pages but the last are full of lines, and each takes one less off the counter
  have pointers : (s.npages - 1) * s.nlines ≤ s.npointers := by
    refine (Nat.le_div_iff_mul_le shape.line_pos).mpr ?_
    rw [Nat.mul_assoc, shape.nlines_eq, ← shape.pagesize]
    exact covered
  have passed : (i + 1) * s.nlines ≤ (s.npages - 1) * s.nlines :=
    Nat.mul_le_mul_right _ (by omega)
  have lines : (i + 1) * (s.nlines - 1) + (i + 1) = (i + 1) * s.nlines := by
    rw [← Nat.mul_succ, Nat.succ_eq_add_one, Nat.sub_add_cancel shape.nlines_pos]
  omega

theorem npages_of_whole (whole : s.pagesize ∣ s.len) : s.npages * s.pagesize = s.len := by
  obtain ⟨n, hn⟩ := whole
  have positive := shape.pagesize_pos
  rw [MemState.npages, hn, Nat.add_sub_assoc positive, Nat.mul_add_div positive,
    Nat.div_eq_of_lt (Nat.sub_lt positive Nat.one_pos), Nat.add_zero, Nat.mul_comm]

theorem npointers_of_whole (whole : s.pagesize ∣ s.len) :
    s.npointers = s.npages * s.nlines := by
  rw [MemState.npointers, ← shape.npages_of_whole whole, shape.nlines_eq, shape.pagesize,
    ← Nat.mul_assoc, Nat.mul_div_cancel _ shape.line_pos]

/-- Pages that are all there are all used whole. -/
theorem last_of_whole (whole : s.pagesize ∣ s.len) {i : ℕ} (inside : i < s.npages) :
    s.last i = s.nlines - 1 := by
  have lines := shape.nlines_pos
  have pointers := shape.npointers_of_whole whole
  unfold MemState.last
  split
  · rfl
  · obtain ⟨m, count⟩ : ∃ m, s.npages = m + 1 := Nat.exists_eq_succ_of_ne_zero (by omega)
    obtain rfl : i = m := by omega
    have left : i * (s.nlines - 1) + i = i * s.nlines := by
      rw [← Nat.mul_succ, Nat.succ_eq_add_one, Nat.sub_add_cancel lines]
    rw [count, Nat.succ_mul] at pointers
    omega

theorem last_lt (i : ℕ) : s.last i < s.nlines := by
  have positive := shape.nlines_pos
  unfold MemState.last
  split <;> omega

end MemState.Shape

/-! ### The page order -/

/-- All pages lie in `maxlen` bytes and the page behind them. -/
theorem MemState.nmpages_mul_lt {s : MemState} (positive : 0 < s.pagesize) :
    s.nmpages * s.pagesize < s.maxlen + s.pagesize := by
  have below := Nat.div_mul_le_self (s.maxlen + s.pagesize - 1) s.pagesize
  rw [MemState.nmpages]
  omega

/-- The pages, in some order. -/
def PageOrder (s : MemState) (pages : List ℕ) : Prop :=
  pages.Perm ((List.range s.nmpages).map (· * s.pagesize))

namespace PageOrder

variable {s : MemState} {pages : List ℕ} {i i' : ℕ} (order : PageOrder s pages)
include order

theorem length_eq : pages.length = s.nmpages := by
  rw [List.Perm.length_eq order, List.length_map, List.length_range]

theorem aligned {page : ℕ} (member : page ∈ pages) : s.pagesize ∣ page := by
  obtain ⟨x, _, rfl⟩ := List.mem_map.mp ((List.Perm.mem_iff order).mp member)
  exact Nat.dvd_mul_left _ _

theorem getD_mem (inside : i < s.nmpages) : pages.getD i 0 ∈ pages := by
  rw [← order.length_eq] at inside
  rw [List.getD_eq_getElem _ _ inside]
  exact List.getElem_mem inside

theorem exists_getD {page : ℕ} (member : page ∈ pages) :
    ∃ i < s.nmpages, pages.getD i 0 = page := by
  obtain ⟨i, inside, rfl⟩ := List.mem_iff_getElem.mp member
  exact ⟨i, order.length_eq ▸ inside, List.getD_eq_getElem _ _ inside⟩

theorem getD_inj (positive : 0 < s.pagesize) (hi : i < s.nmpages) (hi' : i' < s.nmpages)
    (same : pages.getD i 0 = pages.getD i' 0) : i = i' := by
  have nodup : pages.Nodup := by
    refine (List.Perm.nodup_iff order).mpr (List.Nodup.map ?_ List.nodup_range)
    exact fun x y => Nat.eq_of_mul_eq_mul_right positive
  rw [← order.length_eq] at hi hi'
  rw [List.getD_eq_getElem _ _ hi, List.getD_eq_getElem _ _ hi'] at same
  exact (List.Nodup.getElem_inj_iff nodup).mp same

end PageOrder

section Chain

variable {s : MemState} {a b : ℕ} {pages : List ℕ} (shape : s.Shape a b)
  (order : PageOrder s pages)
include shape order

/-- **Slots do not overlap.** -/
theorem slot_inj {i i' j j' k k' : ℕ} (hi : i < s.nmpages) (hi' : i' < s.nmpages)
    (hj : j < s.nlines) (hj' : j' < s.nlines) (hk : k < s.nwords) (hk' : k' < s.nwords)
    (same : s.slot pages i j k = s.slot pages i' j' k') : i = i' ∧ j = j' ∧ k = k' := by
  obtain ⟨page, line, word⟩ := shape.address_inj (order.aligned (order.getD_mem hi))
    (order.aligned (order.getD_mem hi')) hj hj' hk hk' same
  exact ⟨order.getD_inj shape.pagesize_pos hi hi' page, line, word⟩

/-- Neither do lines. -/
theorem lineSlot_inj {i i' j j' : ℕ} (hi : i < s.nmpages) (hi' : i' < s.nmpages)
    (hj : j < s.nlines) (hj' : j' < s.nlines)
    (same : s.lineSlot pages i j = s.lineSlot pages i' j') : i = i' ∧ j = j' := by
  have words : s.slot pages i j 0 = s.slot pages i' j' 0 :=
    congrArg (· + s.wordAt 0) same
  obtain ⟨page, line, _⟩ :=
    slot_inj shape order hi hi' hj hj' shape.nwords_pos shape.nwords_pos words
  exact ⟨page, line⟩

variable (room : s.npages ≤ s.nmpages)
include room

omit order room in
/-- Every store links a slot of the chain to its target. -/
theorem store_sound (some : 0 < s.npages) {w : ℕ × ℕ} (made : w ∈ allStores s pages) :
    ∃ i < s.npages, ∃ j ≤ s.last i, ∃ k < s.nwords,
      w = (s.slot pages i j k, s.target pages i j k) := by
  rcases List.mem_append.mp made with inner | wrapped
  · obtain ⟨i, hi, made⟩ := List.mem_flatMap.mp inner
    rw [List.mem_range] at hi
    rcases List.mem_append.mp made with line | page
    · obtain ⟨j, hj, made⟩ := List.mem_flatMap.mp line
      obtain ⟨k, hk, rfl⟩ := shape.mem_lineStores.mp made
      rw [List.mem_range] at hj
      refine ⟨i, hi, j, hj.le, k, hk, ?_⟩
      rw [MemState.target, if_pos hj]
      rfl
    · split at page
      · rename_i more
        obtain ⟨k, hk, rfl⟩ := List.mem_map.mp page
        refine ⟨i, hi, s.last i, le_rfl, k, List.mem_range.mp hk, ?_⟩
        rw [MemState.target, if_neg (lt_irrefl _), if_pos (by omega)]
        rfl
      · cases page
  · obtain ⟨k, hk, rfl⟩ := List.mem_map.mp wrapped
    rw [List.mem_range] at hk
    refine ⟨s.npages - 1, by omega, s.last (s.npages - 1), le_rfl, k, hk, ?_⟩
    -- `nw` wraps where the remainder does
    have next : (if k = s.nwords - 1 then 0 else k + 1) = (k + 1) % s.nwords := by
      split
      · rw [show k + 1 = s.nwords by omega, Nat.mod_self]
      · rw [Nat.mod_eq_of_lt (by omega)]
    have beyond : ¬s.npages - 1 + 1 < s.npages := by omega
    rw [MemState.target, if_neg (lt_irrefl _), if_neg beyond, ← next]
    rfl

omit order room in
/-- Every slot of the chain is stored to. -/
theorem store_complete {i j k : ℕ} (hi : i < s.npages) (hj : j ≤ s.last i) (hk : k < s.nwords) :
    ∃ w ∈ allStores s pages, w.1 = s.slot pages i j k := by
  have passed : ∀ w ∈ stepStores s pages i, w ∈ allStores s pages := fun w made =>
    List.mem_append_left _ (List.mem_flatMap.mpr ⟨i, List.mem_range.mpr hi, made⟩)
  rcases hj.lt_or_eq with inside | rfl
  · refine ⟨(s.slot pages i j k, s.slot pages i (j + 1) k), passed _ ?_, rfl⟩
    apply List.mem_append_left
    exact List.mem_flatMap.mpr ⟨j, List.mem_range.mpr inside,
      shape.mem_lineStores.mpr ⟨k, hk, rfl⟩⟩
  · by_cases more : i < s.npages - 1
    · refine ⟨(s.slot pages i (s.last i) k, s.slot pages (i + 1) 0 k), passed _ ?_, rfl⟩
      apply List.mem_append_right
      rw [if_pos more]
      exact List.mem_map.mpr ⟨k, List.mem_range.mpr hk, rfl⟩
    · obtain rfl : i = s.npages - 1 := by omega
      exact ⟨_, List.mem_append_right _ (List.mem_map.mpr ⟨k, List.mem_range.mpr hk, rfl⟩), rfl⟩

/-- **Every slot of the chain holds its target.** -/
theorem mem_slot {i j k : ℕ} (hi : i < s.npages) (hj : j ≤ s.last i) (hk : k < s.nwords) :
    (fillChain s pages).mem (s.slot pages i j k) = some (s.target pages i j k) := by
  rw [mem_fillChain (by omega) shape.whole_pages]
  apply storeAll_of_mem
  · -- whatever is stored to this slot is its target
    intro w made same
    obtain ⟨i', hi', j', hj', k', hk', rfl⟩ := store_sound shape (by omega) made
    have line := shape.last_lt i
    have line' := shape.last_lt i'
    obtain ⟨rfl, rfl, rfl⟩ := slot_inj shape order (by omega) (by omega)
      (by omega) (by omega) hk' hk same
    rfl
  · exact store_complete shape hi hj hk

theorem nodup_chain :
    (gridSlots (fun k i j => s.slot pages i j k) s.last s.nwords s.npages).Nodup := by
  apply nodup_gridSlots
  intro k hk i hi j hj k' hk' i' hi' j' hj' same
  have line := shape.last_lt i
  have line' := shape.last_lt i'
  obtain ⟨page, line, word⟩ :=
    slot_inj shape order (by omega) (by omega) (by omega) (by omega) hk hk' same
  exact ⟨word, page, line⟩

/-- The chain is the grid of words, pages and lines. -/
theorem chain_isCycle (some : 0 < s.npages) :
    IsCycle (fillChain s pages).mem (s.slot pages 0 0 0)
      (gridSlots (fun k i j => s.slot pages i j k) s.last s.nwords s.npages) := by
  refine grid_isCycle (fun k i j => s.slot pages i j k) shape.nwords_pos some ?_ ?_ ?_
    (nodup_chain shape order room)
  · intro k hk i hi j hj
    rw [mem_slot shape order room hi hj.le hk, MemState.target, if_pos hj]
  · intro k hk i hi
    rw [mem_slot shape order room (by omega) le_rfl hk, MemState.target, if_neg (lt_irrefl _),
      if_pos hi]
  · intro k hk
    have beyond : ¬s.npages - 1 + 1 < s.npages := by omega
    rw [mem_slot shape order room (by omega) le_rfl hk, MemState.target, if_neg (lt_irrefl _),
      if_neg beyond]

omit order room in
/-- The chain begins at the first word of the first line of the first page. -/
theorem p_fillChain (share : 0 < s.npointers / s.width) (some : 0 < s.npages)
    (lines : 2 ≤ s.nlines) (pointers : 2 ≤ s.npointers) :
    (fillChain s pages).p 0 = Option.some (s.slot pages 0 0 0) := by
  have later : ∀ n, n + 1 ≤ s.npages →
      (fillAll s pages (n + 1)).p 0 = Option.some (s.slot pages 0 0 0) := by
    intro n within
    have kept : ∀ f i, (fillStep s pages f i).p 0 =
        (fillPage s (pages.getD i 0) s.nlines { f with j := 0 }).p 0 := by
      intro f i
      simp only [fillStep]
      split <;> rfl
    induction n with
    | zero =>
      obtain ⟨m, fuel⟩ : ∃ m, s.nlines = m + 1 := Nat.exists_eq_succ_of_ne_zero (by omega)
      rw [fillAll_succ, kept, fuel, p_fillPage_first share rfl (by simp only; omega) (by omega)]
      rfl
    | succ n ih =>
      have counted :=
        (fillAll_spec (n := n + 1) pages (by omega) shape.whole_pages).1 within
      have positive : 0 < (n + 1) * (s.nlines - 1) := Nat.mul_pos (by omega) (by omega)
      rw [fillAll_succ, kept, p_fillPage share (by simp only; omega)]
      exact ih (by omega)
  obtain ⟨m, count⟩ : ∃ m, s.npages = m + 1 := Nat.exists_eq_succ_of_ne_zero (by omega)
  have last := later m count.ge
  rw [← count] at last
  exact last

end Chain

/-- The first address of the cache line that a slot is in. -/
def MemState.lineOf (s : MemState) (slot : ℕ) : ℕ := slot / s.line * s.line

theorem MemState.Shape.lineOf_address {s : MemState} {a b page j k : ℕ} (shape : s.Shape a b)
    (aligned : s.pagesize ∣ page) (hj : j < s.nlines) (hk : k < s.nwords) :
    s.lineOf (s.address page j k) = page + s.lineAt j := by
  obtain ⟨x, hx⟩ := (Dvd.intro_left _ shape.pagesize.symm).trans aligned
  obtain ⟨y, hy⟩ := shape.line_dvd_lineAt hj
  rw [MemState.lineOf, MemState.address, hx, hy, ← Nat.mul_add,
    Nat.mul_add_div shape.line_pos, Nat.div_eq_of_lt (shape.wordAt_lt hk), Nat.add_zero,
    Nat.mul_comm]

/-! ### Where the `int`s hold -/

section Ints

variable {s : MemState} {a b : ℕ} (shape : s.Shape a b)
include shape

theorem line_le_pagesize : s.line ≤ s.pagesize := by
  rw [shape.pagesize]
  exact Nat.le_mul_of_pos_left _ (Nat.two_pow_pos a)

/-- The words of a line always have an order. -/
theorem wordsInitialize_nwords : wordsInitialize s.nwords s.ptr = some s.words := by
  have page := s.machine.1
  have line := line_le_pagesize shape
  have words : s.nwords ≤ s.line := Nat.div_le_self _ _
  have word : s.ptr ≤ s.line := by
    rw [shape.line]
    exact Nat.le_mul_of_pos_left _ (Nat.two_pow_pos b)
  rw [intMax] at page
  refine (wordsInitialize_eq_some_iff shape.nwords_pos).mpr ⟨by omega, .inr ?_⟩
  rw [intMax]
  omega

/-- So do the lines of a page. -/
theorem wordsInitialize_nlines : wordsInitialize s.nlines s.line = some s.lines := by
  have page := s.machine.1
  have line := line_le_pagesize shape
  have lines : s.nlines ≤ s.pagesize := Nat.div_le_self _ _
  rw [intMax] at page
  refine (wordsInitialize_eq_some_iff shape.nlines_pos).mpr ⟨by omega, .inr ?_⟩
  rw [intMax]
  omega

/-- The last of the `int`s is the largest. -/
theorem memInts_iff : s.MemInts ↔ s.nwords * s.npointers + 100 ≤ intMax := by
  refine ⟨fun ints => ints.2.2.2.2, fun product => ?_⟩
  have page := s.machine.1
  have line := line_le_pagesize shape
  have lines : s.nlines ≤ s.pagesize := Nat.div_le_self _ _
  have words : s.nwords ≤ s.line := Nat.div_le_self _ _
  have pointers : s.npointers ≤ s.nwords * s.npointers :=
    Nat.le_mul_of_pos_left _ shape.nwords_pos
  -- a page is at least a line
  have pages : s.npages ≤ s.npointers + 1 := by
    have positive := shape.pagesize_pos
    calc (s.len + s.pagesize - 1) / s.pagesize ≤ (s.len + s.pagesize) / s.pagesize :=
          Nat.div_le_div_right (Nat.sub_le _ _)
      _ = s.len / s.pagesize + 1 := Nat.add_div_right _ positive
      _ ≤ s.len / s.line + 1 := Nat.succ_le_succ (Nat.div_le_div_left line shape.line_pos)
  exact ⟨by omega, by omega, by omega, by omega, product⟩

/-- **The chain is laid** exactly if the number of its words and a hundred is an `int`. -/
theorem memInitialize_eq (pages : List ℕ) : memInitialize s pages =
    if s.nwords * s.npointers + 100 ≤ intMax then some (fillChain s pages) else none := by
  rw [memInitialize, wordsInitialize_nwords shape, wordsInitialize_nlines shape]
  simp only [Option.bind_eq_bind, Option.bind_some, memInts_iff shape]

/-- The words of whole lines are those of the length. -/
theorem nwords_mul_npointers (whole : s.line ∣ s.len) : s.nwords * s.npointers = s.len / s.ptr := by
  obtain ⟨n, len⟩ := whole
  have words : s.line = s.nwords * s.ptr := by rw [shape.nwords_eq, shape.line]
  rw [MemState.npointers, len, Nat.mul_div_cancel_left _ shape.line_pos]
  conv_rhs => rw [words, Nat.mul_right_comm, Nat.mul_div_cancel _ shape.ptr_pos]

/-- Lengths below 2^31 are short enough. -/
theorem memInitialize_of_lt (small : s.len < 2 ^ 31) (pages : List ℕ) :
    memInitialize s pages = some (fillChain s pages) := by
  have words : s.nwords * s.npointers * s.ptr ≤ s.len :=
    calc s.nwords * s.npointers * s.ptr = s.nwords * s.ptr * s.npointers := Nat.mul_right_comm _ _ _
      _ ≤ s.line * s.npointers := Nat.mul_le_mul_right _ (Nat.div_mul_le_self _ _)
      _ ≤ s.len := Nat.mul_div_le _ _
  have halved : s.nwords * s.npointers * 2 ≤ s.nwords * s.npointers * s.ptr :=
    Nat.mul_le_mul_left _ s.machine.2
  rw [memInitialize_eq shape, if_pos (by rw [intMax]; omega)]

end Ints

/-- **One single cycle.** For pages of a power of two lines, at least two, of a power of
two words each, and a length of at least two lines that is no more than was allocated,
below 2^31, whatever order `permutation` draws: the chain is laid, and the pointer chase from
`state->p[0]` runs through one list of distinct slots for ever, all of which were stored to,
and with a slot it visits all the words of its line. -/
theorem memInitialize_isCycle (s : MemState) (a b : ℕ) (shape : s.Shape a b)
    (width : s.width = 1) (lines : 2 ≤ s.nlines) (within : s.len ≤ s.maxlen)
    (small : s.maxlen < 2 ^ 31) (pointers : 2 ≤ s.len / s.line) (r : ℕ → ℕ) :
    ∃ f start slots, memInitialize s (permutation s.nmpages s.pagesize r) = some f ∧
      f.p 0 = some start ∧ IsCycle f.mem start slots ∧
      ∀ slot ∈ slots, ∀ word < s.nwords, s.lineOf slot + word * s.ptr ∈ slots := by
  have order : PageOrder s (permutation s.nmpages s.pagesize r) := permutation_perm _ _ r
  have room : s.npages ≤ s.nmpages := Nat.div_le_div_right (by omega)
  have some : 0 < s.npages := by
    have := shape.pagesize_pos
    have nonzero : s.len ≠ 0 := by
      intro zero
      simp [zero] at pointers
    exact Nat.div_pos (by omega) this
  have share : 0 < s.npointers / s.width := by
    rw [width, Nat.div_one]
    exact Nat.lt_of_lt_of_le Nat.two_pos pointers
  refine ⟨_, _, _, memInitialize_of_lt shape (by omega) _,
    p_fillChain shape share some lines pointers, chain_isCycle shape order room some, ?_⟩
  intro slot visited word inside
  obtain ⟨k, hk, i, hi, j, hj, rfl⟩ := mem_gridSlots.mp visited
  have line := shape.last_lt i
  -- the word at this place of the line is the one of the reversed index
  have mirrored : bitReverse b word < s.nwords := shape.nwords_eq ▸ bitReverse_lt b word
  refine mem_gridSlots.mpr ⟨bitReverse b word, mirrored, i, hi, j, hj, ?_⟩
  have aligned := order.aligned (order.getD_mem (i := i) (by omega))
  rw [MemState.slot, MemState.slot, shape.lineOf_address aligned (by omega) hk,
    MemState.address, shape.wordAt_eq mirrored,
    bitReverse_bitReverse (shape.nwords_eq ▸ inside)]

/-- Two and a half pages of four lines of two words. -/
def MemState.partly : MemState := ⟨40, 64, 4, 16, 1, 2, machine_sixteen⟩

/-- Shuffled. -/
theorem memInitialize_isCycle_partly :
    ∃ f start slots, memInitialize .partly (permutation 4 16 fun i => i + 1) = some f ∧
      f.p 0 = some start ∧ IsCycle f.mem start slots ∧
      ∀ slot ∈ slots, ∀ word < 2, MemState.partly.lineOf slot + word * 2 ∈ slots :=
  memInitialize_isCycle .partly 2 1 ⟨by decide, by decide, by decide⟩ rfl (by decide) (by decide)
    (by decide) (by decide) fun i => i + 1

end Lmbench
