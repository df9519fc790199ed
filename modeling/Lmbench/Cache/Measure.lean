import Lmbench.Lib.Transition
import Lmbench.Mem.Initialize

/-!
# The working sets that `measure` times

`cache` lays out one chain through all of its memory and times parts of it:
`measure` links the first pages of the page list, the last of them cut short, into
a cycle of the requested size, and afterwards mends the link that the cut broke.
Between two calls the page optimiser exchanges pages.

Pages are `state->pagesize` bytes, to which the callers set what `getpagesize()`
returns.

## Main results

* `timed_isCycle` - what is linked when timing starts is a cycle of the requested size
* `ready_measure` - the links inside the pages are whole again when `measure` returns
* `measure_exact` - both, over all runs from a chain that was laid
-/

namespace Lmbench

open Lib

/-- What changes in `struct mem_state` after `mem_initialize`: the page list, the
memory and the entries of `p`. -/
structure Chain where
  pages : List ℕ
  mem : Memory
  p : ℕ → Option ℕ

/-- The state in which `mem_initialize` leaves the memory. -/
def Chain.initial (s : MemState) (r : ℕ → ℕ) : Option Chain :=
  let pages := permutation s.nmpages s.pagesize r
  (memInitialize s pages).map fun f => { pages := pages, mem := f.mem, p := f.p }

section Model

variable (s : MemState) (size : ℕ)

/-- `npages` of `measure`. -/
def MemState.pagesOf : ℕ := (size + s.pagesize - 1) / s.pagesize

/-- `nlines` of `measure`: the lines that are used of the last page. -/
def MemState.linesOf : ℕ :=
  if size % s.pagesize ≠ 0 then size % s.pagesize / s.line else s.nlines

/-- The links from page to page and from the last page back to the first. -/
def linkStores (pages : List ℕ) : List (ℕ × ℕ) :=
  ((List.range (s.pagesOf size - 1)).flatMap fun i =>
    wordStores s (pages.getD i 0 + s.lineAt (s.nlines - 1)) (pages.getD (i + 1) 0 + s.lineAt 0)) ++
  (List.range s.nwords).map fun j =>
    (pages.getD (s.pagesOf size - 1) 0 + s.lineAt (s.linesOf size - 1) + s.wordAt j,
      pages.getD 0 0 + s.lineAt 0 + s.wordAt ((j + 1) % s.nwords))

/-- The in-page link that is put back when the last page is not used whole. -/
def mendStores (pages : List ℕ) : List (ℕ × ℕ) :=
  if s.linesOf size < s.nlines then
    wordStores s (pages.getD (s.pagesOf size - 1) 0 + s.lineAt (s.linesOf size - 1))
      (pages.getD (s.pagesOf size - 1) 0 + s.lineAt (s.linesOf size))
  else []

/-- `measure` up to the warm-up and the timing, which only read. -/
def timed (c : Chain) : Chain :=
  { c with
    mem := storeAll c.mem (linkStores s size c.pages)
    p := Function.update c.p 0 (some (c.pages.getD 0 0 + s.lineAt 0 + s.wordAt 0)) }

/-- `measure` as far as it changes the memory. -/
def measure (c : Chain) : Chain :=
  let c := timed s size c
  { c with mem := storeAll c.mem (mendStores s size c.pages) }

/-- The sizes that `measure` is called with: whole lines, no more than there are. -/
structure MemState.Fits : Prop where
  positive : 0 < size
  within : size ≤ s.maxlen
  lines : s.line ∣ size

/-- Timing of a working set starts, or the page list is rearranged. -/
inductive CacheEvent
  | timed (size : ℕ) (c : Chain)
  | rearranged

/-- A step of `cache` on the memory: a call of `measure`, or any rearrangement of
the page list. -/
inductive CacheStep : Chain → CacheEvent → Chain → Prop
  | measure {c : Chain} (size : ℕ) (fits : s.Fits size) :
      CacheStep c (.timed size (timed s size c)) (measure s size c)
  | rearrange {c : Chain} (pages : List ℕ) (perm : pages.Perm c.pages) :
      CacheStep c .rearranged { c with pages := pages }

end Model

/-! ### Sizes -/

namespace MemState

variable {s : MemState} {a b size : ℕ}

/-- A size is some whole pages and a last page that is used in part or whole. -/
theorem exists_split (shape : s.Shape a b) (positive : 0 < size) :
    ∃ q m, 0 < m ∧ m ≤ s.pagesize ∧ size = s.pagesize * q + m ∧ s.pagesOf size = q + 1 ∧
      s.linesOf size = m / s.line := by
  have page := shape.pagesize_pos
  refine ⟨(size - 1) / s.pagesize, (size - 1) % s.pagesize + 1, Nat.succ_pos _,
    Nat.mod_lt _ page, ?_, ?_, ?_⟩
  · have := Nat.div_add_mod (size - 1) s.pagesize
    omega
  · rw [pagesOf, show size + s.pagesize - 1 = (size - 1) + s.pagesize by omega,
      Nat.add_div_right _ page]
  · have split := Nat.div_add_mod (size - 1) s.pagesize
    have small := Nat.mod_lt (size - 1) page
    generalize (size - 1) / s.pagesize = q at split
    generalize (size - 1) % s.pagesize = m at split small
    obtain rfl : size = s.pagesize * q + (m + 1) := by omega
    rw [linesOf, Nat.mul_add_mod]
    by_cases whole : m + 1 = s.pagesize
    · rw [whole, Nat.mod_self]
      rfl
    · rw [Nat.mod_eq_of_lt (by omega), if_pos (Nat.succ_ne_zero m)]

/-- The last line used of page `i` of a working set. -/
def lastOf (s : MemState) (size i : ℕ) : ℕ :=
  if i + 1 < s.pagesOf size then s.nlines - 1 else s.linesOf size - 1

theorem Shape.linesOf_bounds (shape : s.Shape a b) (fits : s.Fits size) :
    0 < s.linesOf size ∧ s.linesOf size ≤ s.nlines := by
  obtain ⟨q, m, positive, small, rfl, _, lines⟩ := exists_split shape fits.positive
  have line : s.line ∣ m := by
    refine (Nat.dvd_add_right ?_).mp fits.lines
    exact (Dvd.intro_left _ shape.pagesize.symm).mul_right q
  rw [lines]
  exact ⟨Nat.div_pos (Nat.le_of_dvd positive line) shape.line_pos,
    Nat.div_le_div_right small⟩

theorem Shape.lastOf_lt (shape : s.Shape a b) (fits : s.Fits size) (i : ℕ) :
    s.lastOf size i < s.nlines := by
  have bounds := shape.linesOf_bounds fits
  unfold lastOf
  split <;> omega

theorem Shape.pagesOf_bounds (shape : s.Shape a b) (fits : s.Fits size) :
    0 < s.pagesOf size ∧ s.pagesOf size ≤ s.nmpages := by
  have positive := fits.positive
  have within := fits.within
  exact ⟨Nat.div_pos (by omega) shape.pagesize_pos, Nat.div_le_div_right (by omega)⟩

/-- The lines of a working set, counted page by page. -/
theorem Shape.sum_lastOf (shape : s.Shape a b) (fits : s.Fits size) :
    s.nwords * ((List.range (s.pagesOf size)).map fun i => s.lastOf size i + 1).sum =
      size / s.ptr := by
  have bounds := shape.linesOf_bounds fits
  have lines := shape.nlines_pos
  obtain ⟨q, m, positive, small, split, pages, last⟩ := exists_split shape fits.positive
  -- all pages but the last count in full
  have counted : ((List.range (s.pagesOf size)).map fun i => s.lastOf size i + 1).sum =
      q * s.nlines + m / s.line := by
    have whole : ((List.range q).map fun i => s.lastOf size i + 1) =
        (List.range q).map fun _ => s.nlines := by
      refine List.map_congr_left fun i hi => ?_
      rw [List.mem_range] at hi
      rw [lastOf, pages, if_pos (by omega), Nat.sub_add_cancel lines]
    rw [pages, List.range_succ, List.map_append, List.sum_append, whole, List.map_const',
      List.sum_replicate_nat, List.length_range]
    simp only [List.map_cons, List.map_nil, List.sum_singleton]
    rw [lastOf, pages, if_neg (by omega), Nat.sub_add_cancel bounds.1, last]
  have line : s.line ∣ m := by
    refine (Nat.dvd_add_right ?_).mp (split ▸ fits.lines)
    exact (Dvd.intro_left _ shape.pagesize.symm).mul_right q
  obtain ⟨n, rfl⟩ := line
  rw [counted, split, Nat.mul_div_cancel_left _ shape.line_pos, shape.nlines_eq, shape.pagesize,
    shape.nwords_eq]
  refine (Nat.div_eq_of_eq_mul_left shape.ptr_pos ?_).symm
  rw [shape.line]
  ring

end MemState

/-! ### What `measure` links -/

/-- What holds of the memory between two calls: the page list is still a list of all
pages, and in every page each line leads to the next. -/
structure Ready (s : MemState) (c : Chain) : Prop where
  order : PageOrder s c.pages
  inPage : ∀ page ∈ c.pages, ∀ j, j + 1 < s.nlines → ∀ k < s.nwords,
    c.mem (s.address page j k) = some (s.address page (j + 1) k)

section Measure

variable {s : MemState} {a b size : ℕ} {c : Chain}

/-- Where the last line used of page `i` leads to. -/
def MemState.exit (s : MemState) (size : ℕ) (pages : List ℕ) (i k : ℕ) : ℕ :=
  if i + 1 < s.pagesOf size then s.slot pages (i + 1) 0 k
  else s.slot pages 0 0 ((k + 1) % s.nwords)

/-- The links of a working set are those out of the last line used of each page. -/
theorem mem_linkStores {pages : List ℕ} (some : 0 < s.pagesOf size) {w : ℕ × ℕ} :
    w ∈ linkStores s size pages ↔ ∃ i < s.pagesOf size, ∃ k < s.nwords,
      w = (s.slot pages i (s.lastOf size i) k, s.exit size pages i k) := by
  have last : s.pagesOf size - 1 + 1 = s.pagesOf size := by omega
  constructor
  · intro made
    rcases List.mem_append.mp made with page | wrapped
    · obtain ⟨i, hi, made⟩ := List.mem_flatMap.mp page
      obtain ⟨k, hk, rfl⟩ := List.mem_map.mp made
      rw [List.mem_range] at hi hk
      refine ⟨i, by omega, k, hk, ?_⟩
      rw [MemState.lastOf, MemState.exit, if_pos (by omega), if_pos (by omega)]
      rfl
    · obtain ⟨k, hk, rfl⟩ := List.mem_map.mp wrapped
      refine ⟨s.pagesOf size - 1, by omega, k, List.mem_range.mp hk, ?_⟩
      rw [MemState.lastOf, MemState.exit, last, if_neg (lt_irrefl _), if_neg (lt_irrefl _)]
      rfl
  · rintro ⟨i, hi, k, hk, rfl⟩
    by_cases more : i + 1 < s.pagesOf size
    · rw [MemState.lastOf, MemState.exit, if_pos more, if_pos more]
      exact List.mem_append_left _ (List.mem_flatMap.mpr
        ⟨i, List.mem_range.mpr (by omega), List.mem_map.mpr ⟨k, List.mem_range.mpr hk, rfl⟩⟩)
    · obtain rfl : i = s.pagesOf size - 1 := by omega
      rw [MemState.lastOf, MemState.exit, if_neg more, if_neg more]
      exact List.mem_append_right _ (List.mem_map.mpr ⟨k, List.mem_range.mpr hk, rfl⟩)

variable (shape : s.Shape a b) (fits : s.Fits size) (ready : Ready s c)
include shape fits ready

/-- Linking a working set changes no other line. -/
theorem mem_timed_of_ne {i j k : ℕ} (hi : i < s.nmpages) (hj : j < s.nlines) (hk : k < s.nwords)
    (other : i < s.pagesOf size → j ≠ s.lastOf size i) :
    (timed s size c).mem (s.slot c.pages i j k) = c.mem (s.slot c.pages i j k) := by
  have bounds := shape.pagesOf_bounds fits
  apply storeAll_of_not_mem
  intro w made same
  obtain ⟨i', hi', k', hk', rfl⟩ := (mem_linkStores bounds.1).mp made
  obtain ⟨rfl, rfl, _⟩ := slot_inj shape ready.order (by omega) hi
    (shape.lastOf_lt fits i') hj hk' hk same
  exact other hi' rfl

theorem mem_timed_lastOf {i k : ℕ} (hi : i < s.pagesOf size) (hk : k < s.nwords) :
    (timed s size c).mem (s.slot c.pages i (s.lastOf size i) k) =
      some (s.exit size c.pages i k) := by
  have bounds := shape.pagesOf_bounds fits
  apply storeAll_of_mem
  · intro w made same
    obtain ⟨i', hi', k', hk', rfl⟩ := (mem_linkStores bounds.1).mp made
    obtain ⟨rfl, _, rfl⟩ := slot_inj shape ready.order (by omega) (by omega)
      (shape.lastOf_lt fits i') (shape.lastOf_lt fits i) hk' hk same
    rfl
  · exact ⟨_, (mem_linkStores bounds.1).mpr ⟨i, hi, k, hk, rfl⟩, rfl⟩

/-- **The working set.** When timing starts, the chain from `p[0]` is one cycle of as
many slots as the size holds pointers, in the first pages of the page list. -/
theorem timed_isCycle :
    ∃ start slots, (timed s size c).p 0 = some start ∧
      IsCycle (timed s size c).mem start slots ∧ slots.length = size / s.ptr ∧
      ∀ slot ∈ slots, ∃ page ∈ c.pages.take (s.pagesOf size),
        page ≤ slot ∧ slot < page + s.pagesize := by
  have bounds := shape.pagesOf_bounds fits
  have length := ready.order.length_eq
  have distinct : (gridSlots (fun k i j => s.slot c.pages i j k) (s.lastOf size) s.nwords
      (s.pagesOf size)).Nodup := by
    apply nodup_gridSlots
    intro k hk i hi j hj k' hk' i' hi' j' hj' same
    have line := shape.lastOf_lt fits i
    have line' := shape.lastOf_lt fits i'
    obtain ⟨page, line, word⟩ := slot_inj shape ready.order (by omega) (by omega) (by omega)
      (by omega) hk hk' same
    exact ⟨word, page, line⟩
  have start : (timed s size c).p 0 = some (s.slot c.pages 0 0 0) := by
    simp [timed, MemState.slot, MemState.address]
  refine ⟨s.slot c.pages 0 0 0, _, start,
    grid_isCycle (fun k i j => s.slot c.pages i j k) shape.nwords_pos bounds.1 ?_ ?_ ?_ distinct,
    ?_, ?_⟩
  · -- the links inside a page are those found
    intro k hk i hi j hj
    have line := shape.lastOf_lt fits i
    rw [mem_timed_of_ne shape fits ready (by omega) (by omega) hk fun _ => by omega]
    exact ready.inPage _ (ready.order.getD_mem (by omega)) j (by omega) k hk
  · intro k hk i hi
    rw [mem_timed_lastOf shape fits ready (by omega) hk, MemState.exit, if_pos hi]
  · intro k hk
    rw [mem_timed_lastOf shape fits ready (by omega) hk, MemState.exit, if_neg (by omega)]
  · rw [length_gridSlots, shape.sum_lastOf fits]
  · intro slot visited
    obtain ⟨k, hk, i, hi, j, hj, rfl⟩ := mem_gridSlots.mp visited
    have line := shape.lastOf_lt fits i
    refine ⟨c.pages.getD i 0, ?_, shape.slot_in_page c.pages i (by omega) hk⟩
    rw [List.getD_eq_getElem _ _ (by omega)]
    exact List.mem_take_iff_getElem.mpr ⟨i, by omega, rfl⟩

/-- **The mended memory.** When `measure` returns, every line of every page leads to the
next again. -/
theorem ready_measure : Ready s (measure s size c) := by
  have bounds := shape.pagesOf_bounds fits
  have used := shape.linesOf_bounds fits
  refine ⟨ready.order, fun page member j hj k hk => ?_⟩
  obtain ⟨i, hi, rfl⟩ := ready.order.exists_getD member
  change storeAll (timed s size c).mem (mendStores s size c.pages) (s.slot c.pages i j k) =
    some (s.slot c.pages i (j + 1) k)
  by_cases cut : i = s.pagesOf size - 1 ∧ j + 1 = s.linesOf size
  · -- the line after which the last page was cut
    obtain ⟨rfl, last⟩ := cut
    apply storeAll_of_mem
    · intro w made same
      rw [mendStores, if_pos (by omega), ← last] at made
      obtain ⟨k', hk', rfl⟩ := List.mem_map.mp made
      rw [List.mem_range] at hk'
      obtain ⟨_, _, rfl⟩ := slot_inj shape ready.order hi hi (by omega) (by omega) hk' hk same
      rfl
    · refine ⟨(s.slot c.pages (s.pagesOf size - 1) j k,
        s.slot c.pages (s.pagesOf size - 1) (j + 1) k), ?_, rfl⟩
      rw [mendStores, if_pos (by omega), ← last]
      exact List.mem_map.mpr ⟨k, List.mem_range.mpr hk, rfl⟩
  · -- any other line was changed neither by linking nor by mending
    have unmended : ∀ w ∈ mendStores s size c.pages, w.1 ≠ s.slot c.pages i j k := by
      intro w made same
      unfold mendStores at made
      split at made
      · obtain ⟨k', hk', rfl⟩ := List.mem_map.mp made
        rw [List.mem_range] at hk'
        obtain ⟨page, line, _⟩ := slot_inj shape ready.order (by omega) hi (by omega)
          (by omega) hk' hk same
        exact cut ⟨page.symm, by omega⟩
      · cases made
    rw [storeAll_of_not_mem unmended, mem_timed_of_ne shape fits ready hi (by omega) hk]
    · exact ready.inPage _ (ready.order.getD_mem hi) j hj k hk
    · intro inside line
      unfold MemState.lastOf at line
      split at line
      · omega
      · exact cut ⟨by omega, by omega⟩

end Measure

/-! ### Whole runs -/

/-- Where the `int`s of `mem_initialize` hold there is a first state. -/
theorem Chain.initial_isSome_iff {s : MemState} {a b : ℕ} (shape : s.Shape a b)
    (whole : s.line ∣ s.len) (r : ℕ → ℕ) :
    (Chain.initial s r).isSome ↔ s.len / s.ptr + 100 ≤ intMax := by
  rw [Chain.initial, memInitialize_eq shape, nwords_mul_npointers shape whole, Option.isSome_map]
  split
  · rename_i ints
    exact iff_of_true rfl ints
  · rename_i beyond
    exact iff_of_false nofun beyond

/-- `mem_initialize` over all of the memory leaves every line linked to the next. -/
theorem ready_initial {s : MemState} {a b : ℕ} (shape : s.Shape a b) (all : s.len = s.maxlen)
    (whole : s.pagesize ∣ s.maxlen) {r : ℕ → ℕ} {c : Chain} (laid : Chain.initial s r = some c) :
    Ready s c := by
  rw [Chain.initial, memInitialize_eq shape] at laid
  split at laid
  · obtain rfl := Option.some.inj laid
    have order : PageOrder s (permutation s.nmpages s.pagesize r) := permutation_perm _ _ r
    have pages : s.npages = s.nmpages := by rw [MemState.npages, MemState.nmpages, all]
    refine ⟨order, fun page member j hj k hk => ?_⟩
    obtain ⟨i, hi, rfl⟩ := order.exists_getD member
    have last : s.last i = s.nlines - 1 := shape.last_of_whole (all ▸ whole) (by omega)
    change (fillChain s _).mem (s.slot _ i j k) = some (s.slot _ i (j + 1) k)
    rw [mem_slot shape order pages.le (by omega) (by omega) hk, MemState.target,
      if_pos (by omega)]
  · cases laid

/-- Calls of `measure` and rearrangements of the page list keep the links inside the pages. -/
theorem ready_step {s : MemState} {a b : ℕ} {c c' : Chain} {e : CacheEvent} (shape : s.Shape a b)
    (ready : Ready s c) (step : CacheStep s c e c') : Ready s c' := by
  cases step with
  | measure size fits => exact ready_measure shape fits ready
  | rearrange pages perm =>
    -- links inside a page do not depend on where it is in the list
    exact ⟨perm.trans ready.order, fun page member => ready.inPage page (perm.mem_iff.mp member)⟩

/-- What `measure` is to do over whole runs of calls of any sizes and rearrangements of the page
list in any order, from the chain that `mem_initialize` lays: whenever timing starts the memory is
one cycle of the size asked for, in as many pages from the front of the page list as it needs, and
whenever a call is over the links inside the pages are the ones that `mem_initialize` stored. -/
def MemState.TimesExactly (s : MemState) (r : ℕ → ℕ) : Prop :=
  ∃ c₀, Chain.initial s r = some c₀ ∧ ∀ past c, Run (CacheStep s) c₀ past c →
    (∀ size t, .timed size t ∈ past →
      ∃ start slots, t.p 0 = some start ∧ IsCycle t.mem start slots ∧
        slots.length = size / s.ptr ∧
        ∀ slot ∈ slots, ∃ page ∈ t.pages.take (s.pagesOf size),
          page ≤ slot ∧ slot < page + s.pagesize) ∧
    ∀ page ∈ c.pages, ∀ j < s.nlines - 1, ∀ k < s.nwords,
      c.mem (page + s.lineAt j + s.wordAt k) = some (page + s.lineAt (j + 1) + s.wordAt k) ∧
        c.mem (page + s.lineAt j + s.wordAt k) = c₀.mem (page + s.lineAt j + s.wordAt k)

/-- **`measure` times the requested working set** in every run, if and only if the words of the
memory and a hundred more are an `int`. -/
theorem measure_exact (s : MemState) (a b : ℕ) (shape : s.Shape a b) (all : s.len = s.maxlen)
    (whole : s.pagesize ∣ s.maxlen) (r : ℕ → ℕ) :
    s.TimesExactly r ↔ s.maxlen / s.ptr + 100 ≤ intMax := by
  have lines : s.line ∣ s.len := all ▸ (Dvd.intro_left _ shape.pagesize.symm).trans whole
  have made := Chain.initial_isSome_iff shape lines r
  rw [all] at made
  constructor
  · rintro ⟨c₀, laid, _⟩
    exact made.mp (by rw [laid]; rfl)
  intro ints
  obtain ⟨c₀, laid⟩ := Option.isSome_iff_exists.mp (made.mpr ints)
  have initial := ready_initial shape all whole laid
  have preserved : ∀ c e c', Ready s c → CacheStep s c e c' → Ready s c' :=
    fun _ _ _ ready step => ready_step shape ready step
  refine ⟨c₀, laid, fun past c run => ⟨?_, ?_⟩⟩
  · intro size t started
    obtain ⟨before, after, rfl⟩ := List.append_of_mem started
    obtain ⟨c₁, c₂, prior, step⟩ := run.exists_step_of_split
    have ready := prior.invariant initial preserved
    cases step with
    | measure size fits => exact timed_isCycle shape fits ready
  · intro page member j hj k hk
    have ready := run.invariant initial preserved
    have first : page ∈ c₀.pages :=
      (List.Perm.mem_iff initial.order).mpr ((List.Perm.mem_iff ready.order).mp member)
    have now := ready.inPage page member j (by omega) k hk
    exact ⟨now, now.trans (initial.inPage page first j (by omega) k hk).symm⟩

/-- Four pages of four lines of two words. -/
def MemState.fourPages : MemState := ⟨64, 64, 4, 16, 1, 2, machine_sixteen⟩

/-- A page and a half, after two pages and a half and in the opposite page order. -/
theorem measure_exact_half :
    ∃ c₀ past c t, Chain.initial .fourPages (fun i => i + 1) = some c₀ ∧
      Run (CacheStep .fourPages) c₀ past c ∧ .timed 24 t ∈ past ∧
      ∃ start slots, t.p 0 = some start ∧ IsCycle t.mem start slots ∧ slots.length = 12 ∧
        ∀ slot ∈ slots, ∃ page ∈ t.pages.take 2, page ≤ slot ∧ slot < page + 16 := by
  have shape : MemState.fourPages.Shape 2 1 := ⟨by decide, by decide, by decide⟩
  obtain ⟨c₀, laid, always⟩ :=
    (measure_exact .fourPages 2 1 shape rfl (by decide) fun i => i + 1).mpr (by decide)
  have start : Run (CacheStep .fourPages) c₀ [] c₀ := .nil
  have larger := start.snoc (.measure 40 ⟨by decide, by decide, by decide⟩)
  have turned := larger.snoc (.rearrange _ (List.reverse_perm _))
  have run := turned.snoc (.measure 24 ⟨by decide, by decide, by decide⟩)
  exact ⟨c₀, _, _, _, laid, run, List.mem_append_right _ List.mem_cons_self,
    (always _ _ run).1 24 _ (List.mem_append_right _ List.mem_cons_self)⟩

/-- Sixteen GiB in pages of sixty-four lines. -/
def MemState.hugeMemory : MemState := ⟨17179869184, 17179869184, 64, 4096, 1, 8, machine_lp64⟩

/-- There the words are more than an `int` counts. -/
theorem measure_overflows : ¬MemState.hugeMemory.TimesExactly fun i => i + 1 := by
  have shape : MemState.hugeMemory.Shape 6 3 := ⟨by decide, by decide, by decide⟩
  have words : ¬MemState.hugeMemory.len / MemState.hugeMemory.ptr + 100 ≤ intMax := by decide
  rintro ⟨c₀, laid, _⟩
  exact words ((Chain.initial_isSome_iff shape (by decide) _).mp (by rw [laid]; rfl))

end Lmbench
