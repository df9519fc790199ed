import Lmbench.Lib.Loops
import Lmbench.Mem.Initialize

/-!
# The parallel streams of `par_mem`

`par_mem` lays one chain and chases it from several places at once. The places
are computed from the arrays of pages, lines and words, without a look at the
chain: the lines are cut into as many equal chunks as there are streams, and
each stream starts at the first line of its chunk, at a word of its own.

## Main results

* `startAt_eq_slot` - a stream starts at a slot of the chain, inside all three arrays
* `parMem_streams` - when the streams are on the cycle and never meet
-/

namespace Lmbench

open Lib

/-- What `par_mem` sets in the state before it lays the chain. -/
def parState (s : MemState) (len : ℕ) : MemState :=
  { s with len := len, maxlen := len, width := 1 }

/-- `state->p[j]` at parallelism level `i`, where each array is read inside its
bounds. -/
def startAt (s : MemState) (pages : List ℕ) (i j : ℕ) : Option ℕ :=
  let nlines := s.len / s.line
  let linesPerChunk := nlines / (i + 1)
  let linesPerPage := s.pagesize / s.line
  let line := j * linesPerChunk
  let word := j * s.nwords / (i + 1)
  do
    let page ← pages[line / linesPerPage]?
    let line ← s.lines[line % linesPerPage]?
    let word ← s.words[word % s.nwords]?
    return page + line + word

/-- The loop over `j`. -/
def startPointers (s : MemState) (pages : List ℕ) (i : ℕ) : Option (List ℕ) :=
  (List.range (i + 1)).mapM (startAt s pages i)

/-- The line of the length at which stream `j` of `i + 1` starts. -/
def startLine (s : MemState) (i j : ℕ) : ℕ := j * (s.len / s.line / (i + 1))

/-- The slot of the grid that is read there. -/
def startSlot (s : MemState) (pages : List ℕ) (i j : ℕ) : ℕ :=
  s.slot pages (startLine s i j / s.nlines) (startLine s i j % s.nlines)
    (j * s.nwords / (i + 1) % s.nwords)

section Start

variable {s : MemState} {a b i j : ℕ} {pages : List ℕ} (shape : s.Shape a b)
  (order : PageOrder s pages)
include shape order

/-- The line and the word are always inside their arrays, the page where there are
enough of them. -/
theorem startAt_eq_slot (page : startLine s i j / s.nlines < s.nmpages) :
    startAt s pages i j = some (startSlot s pages i j) := by
  have line : startLine s i j % s.nlines < s.lines.length := by
    rw [MemState.lines, length_wordOrder]
    exact Nat.mod_lt _ shape.nlines_pos
  have word : j * s.nwords / (i + 1) % s.nwords < s.words.length := by
    rw [MemState.words, length_wordOrder]
    exact Nat.mod_lt _ shape.nwords_pos
  rw [← order.length_eq] at page
  -- the divisors are those of the state, and the reads are inside the arrays
  change (do
    let page ← pages[startLine s i j / s.nlines]?
    let line ← s.lines[startLine s i j % s.nlines]?
    let word ← s.words[j * s.nwords / (i + 1) % s.nwords]?
    return page + line + word) = _
  rw [List.getElem?_eq_getElem page, List.getElem?_eq_getElem line, List.getElem?_eq_getElem word,
    startSlot, MemState.slot, MemState.address, MemState.lineAt, MemState.wordAt,
    List.getD_eq_getElem _ _ page, List.getD_eq_getElem _ _ line, List.getD_eq_getElem _ _ word]
  rfl

/-- Streams that start in different lines start at different slots. -/
theorem startSlot_inj {j' : ℕ} (page : startLine s i j / s.nlines < s.nmpages)
    (page' : startLine s i j' / s.nlines < s.nmpages)
    (same : startSlot s pages i j = startSlot s pages i j') :
    startLine s i j = startLine s i j' := by
  obtain ⟨quotient, remainder, _⟩ := slot_inj shape order page page'
    (Nat.mod_lt _ shape.nlines_pos) (Nat.mod_lt _ shape.nlines_pos)
    (Nat.mod_lt _ shape.nwords_pos) (Nat.mod_lt _ shape.nwords_pos) same
  rw [← Nat.div_add_mod (startLine s i j) s.nlines, quotient, remainder, Nat.div_add_mod]

end Start

/-! ### Lengths that are a power of two many lines -/

section PowerOfTwo

variable {s : MemState} {a b c : ℕ} (shape : s.Shape a b) (len : s.len = 2 ^ c * s.line)
include shape len

theorem npointers_two_pow : s.npointers = 2 ^ c := by
  rw [MemState.npointers, len, Nat.mul_div_cancel _ shape.line_pos]

/-- A length of less than a page is one page, used up to its last line. -/
theorem npages_of_short (short : c < a) : s.npages = 1 := by
  have lines : 2 ^ c < 2 ^ a := Nat.pow_lt_pow_right (by decide) short
  have less : s.len < s.pagesize := by
    rw [len, shape.pagesize]
    exact Nat.mul_lt_mul_of_pos_right lines shape.line_pos
  have some : 0 < s.len := len ▸ Nat.mul_pos (Nat.two_pow_pos c) shape.line_pos
  exact Nat.div_eq_of_lt_le (by omega) (by omega)

/-- A longer one is whole pages. -/
theorem pagesize_dvd_of_long (long : a ≤ c) : s.pagesize ∣ s.len := by
  rw [len, shape.pagesize]
  exact Nat.mul_dvd_mul_right (Nat.pow_dvd_pow 2 long) _

/-- Each of the lines of the length is a line of the chain. -/
theorem line_in_chain {line : ℕ} (inside : line < 2 ^ c) :
    line / s.nlines < s.npages ∧ line % s.nlines ≤ s.last (line / s.nlines) := by
  have lines := shape.nlines_pos
  by_cases short : c < a
  · -- one page, and its last line is the last of the length
    have one := npages_of_short shape len short
    have few : 2 ^ c < s.nlines := by
      rw [shape.nlines_eq]
      exact Nat.pow_lt_pow_right (by decide) short
    have first : line / s.nlines = 0 := Nat.div_eq_of_lt (inside.trans few)
    rw [first, Nat.mod_eq_of_lt (inside.trans few), one, MemState.last, one,
      npointers_two_pow shape len]
    simp only [Nat.sub_self, Nat.not_lt_zero, if_false, Nat.zero_mul]
    omega
  · -- whole pages, of which all lines are used
    have whole := pagesize_dvd_of_long shape len (Nat.le_of_not_lt short)
    have page : line / s.nlines < s.npages := by
      rw [Nat.div_lt_iff_lt_mul lines, ← shape.npointers_of_whole whole,
        npointers_two_pow shape len]
      exact inside
    refine ⟨page, ?_⟩
    rw [shape.last_of_whole whole page]
    have below := Nat.mod_lt line lines
    omega

/-- Each chunk has a line, so different streams start in different lines. -/
theorem startLine_inj {i j j' : ℕ} (chunks : i < 2 ^ c)
    (same : startLine s i j = startLine s i j') : j = j' := by
  have lines : s.len / s.line = 2 ^ c := npointers_two_pow shape len
  -- the lines are multiples of a chunk that is not empty
  rw [startLine, startLine, lines] at same
  exact Nat.eq_of_mul_eq_mul_right (Nat.div_pos chunks (Nat.succ_pos i)) same

/-- The last chunk ends inside the length. -/
theorem startLine_lt {i j : ℕ} (chunks : i < 2 ^ c) (stream : j ≤ i) : startLine s i j < 2 ^ c := by
  have lines : s.len / s.line = 2 ^ c := npointers_two_pow shape len
  have chunk : 0 < 2 ^ c / (i + 1) := Nat.div_pos chunks (Nat.succ_pos i)
  rw [startLine, lines]
  calc j * (2 ^ c / (i + 1)) < (i + 1) * (2 ^ c / (i + 1)) :=
        Nat.mul_lt_mul_of_pos_right (Nat.lt_succ_of_le stream) chunk
    _ ≤ 2 ^ c := Nat.mul_div_le (2 ^ c) (i + 1)

/-- Each stream starts in a line of the chain. -/
theorem startLine_in_chain {i j : ℕ} (chunks : i < 2 ^ c) (stream : j ≤ i) :
    startLine s i j / s.nlines < s.npages ∧
      startLine s i j % s.nlines ≤ s.last (startLine s i j / s.nlines) :=
  line_in_chain shape len (startLine_lt shape len chunks stream)

/-- And at a slot of the chain. -/
theorem startSlot_mem {i j : ℕ} (pages : List ℕ) (chunks : i < 2 ^ c) (stream : j ≤ i) :
    startSlot s pages i j ∈
      gridSlots (fun k i j => s.slot pages i j k) s.last s.nwords s.npages := by
  obtain ⟨page, line⟩ := startLine_in_chain shape len chunks stream
  exact mem_gridSlots.mpr ⟨_, Nat.mod_lt _ shape.nwords_pos, _, page, _, line, rfl⟩

section Order

variable {i j j' : ℕ} {pages : List ℕ} (order : PageOrder s pages) (room : s.npages ≤ s.nmpages)
  (chunks : i < 2 ^ c)
include order room chunks

/-- The loop over `j` stays in the arrays. -/
theorem startPointers_eq : startPointers s pages i =
    some ((List.range (i + 1)).map (startSlot s pages i)) := by
  refine mapM_of_forall fun j stream => startAt_eq_slot shape order ?_
  have below : j ≤ i := Nat.le_of_lt_succ (List.mem_range.mp stream)
  exact (startLine_in_chain shape len chunks below).1.trans_le room

/-- Different streams start at different slots. -/
theorem startSlot_ne (stream : j ≤ i) (stream' : j' ≤ i) (different : j ≠ j') :
    startSlot s pages i j ≠ startSlot s pages i j' := by
  intro same
  have page := (startLine_in_chain shape len chunks stream).1.trans_le room
  have page' := (startLine_in_chain shape len chunks stream').1.trans_le room
  exact different (startLine_inj shape len chunks (startSlot_inj shape order page page' same))

end Order

end PowerOfTwo

/-- What `par_mem` is to do for a length: at each level the start pointers are computed inside the
arrays and are slots of the cycle from `state->p[0]`, and after any number of dereferences they are
defined, on the cycle and pairwise different. -/
def MemState.Streams (s : MemState) (len : ℕ) (pages : List ℕ) : Prop :=
  ∃ f start slots, memInitialize (parState s len) pages = some f ∧ f.p 0 = some start ∧
    IsCycle f.mem start slots ∧
    ∀ i < 16, ∃ starts, startPointers (parState s len) pages i = some starts ∧
      starts.length = i + 1 ∧ (∀ p ∈ starts, p ∈ slots) ∧
      ∀ k, (starts.map fun p => walk f.mem p k).Nodup ∧
        ∀ p ∈ starts, ∃ q ∈ slots, walk f.mem p k = some q

/-- **Parallel streams never merge.** For a power of two line of at most half a power of two
page, a length of a power of two many lines, at least as many as there can be streams, and
every page order: the streams stay apart if and only if the words of the length and a hundred
more are an `int`. -/
theorem parMem_streams (s : MemState) (len a b c : ℕ) (shape : s.Shape a b) (lines : 1 ≤ a)
    (power : len = 2 ^ c * s.line) (enough : 16 * s.line ≤ len) (pages : List ℕ)
    (order : PageOrder (parState s len) pages) :
    s.Streams len pages ↔ len / s.ptr + 100 ≤ intMax := by
  have shape' : (parState s len).Shape a b := ⟨shape.ptr_pos, shape.line, shape.pagesize⟩
  have words : (parState s len).nwords * (parState s len).npointers = len / s.ptr :=
    nwords_mul_npointers shape' (power ▸ Nat.dvd_mul_left _ _)
  rw [MemState.Streams, memInitialize_eq shape', words]
  constructor
  · rintro ⟨f, _, _, laid, _⟩
    by_contra beyond
    rw [if_neg beyond] at laid
    cases laid
  intro ints
  have streams : 16 ≤ 2 ^ c := by
    rw [power] at enough
    exact Nat.le_of_mul_le_mul_right enough shape.line_pos
  have pointers : (parState s len).npointers = 2 ^ c := npointers_two_pow shape' power
  have twoPointers : 2 ≤ (parState s len).npointers := by omega
  have share : 0 < (parState s len).npointers / (parState s len).width :=
    Nat.div_pos (by rw [pointers]; exact Nat.two_pow_pos c) Nat.one_pos
  have twoLines : 2 ≤ (parState s len).nlines := by
    rw [shape'.nlines_eq]
    exact Nat.pow_le_pow_right Nat.two_pos lines
  have page : 0 < (parState s len).npages :=
    Nat.zero_lt_of_lt (line_in_chain shape' power (Nat.two_pow_pos c)).1
  have cycle := chain_isCycle shape' order le_rfl page
  refine ⟨_, _, _, if_pos ints, p_fillChain shape' share page twoLines twoPointers, cycle,
    fun i level => ?_⟩
  have chunks : i < 2 ^ c := by omega
  have onCycle : ∀ p ∈ (List.range (i + 1)).map (startSlot (parState s len) pages i),
      p ∈ gridSlots (fun k i j => (parState s len).slot pages i j k) (parState s len).last
        (parState s len).nwords (parState s len).npages := by
    intro p started
    obtain ⟨j, stream, rfl⟩ := List.mem_map.mp started
    exact startSlot_mem shape' power pages chunks (Nat.le_of_lt_succ (List.mem_range.mp stream))
  refine ⟨_, startPointers_eq shape' power order le_rfl chunks, by simp, onCycle,
    fun k => ⟨?_, fun p started => cycle.exists_walk (onCycle p started) k⟩⟩
  -- streams that meet were one stream
  rw [List.map_map]
  refine List.Nodup.map_on (fun j stream j' stream' meet => ?_) List.nodup_range
  by_contra different
  have apart : startSlot (parState s len) pages i j ≠ startSlot (parState s len) pages i j' :=
    startSlot_ne shape' power order le_rfl chunks (Nat.le_of_lt_succ (List.mem_range.mp stream))
      (Nat.le_of_lt_succ (List.mem_range.mp stream')) different
  exact cycle.walk_ne (onCycle _ (List.mem_map_of_mem stream))
    (onCycle _ (List.mem_map_of_mem stream')) apart k meet

/-- Pages of sixty-four lines of two words. -/
def MemState.shortLines : MemState := ⟨0, 0, 4, 256, 1, 2, by decide⟩

/-- A quarter of a page. -/
theorem parMem_streams_short : MemState.shortLines.Streams 64 (permutation 1 256 fun _ => 0) :=
  (parMem_streams .shortLines 64 6 1 4 ⟨by decide, by decide, by decide⟩ (by decide)
    (by decide) (by decide) _ (permutation_perm _ _ _)).mpr (by decide)

/-- Pages of sixty-four lines of eight words of eight bytes. -/
def MemState.sixtyFourLines : MemState := ⟨0, 0, 64, 4096, 1, 8, machine_lp64⟩

/-- The words of sixteen GiB are more than an `int` counts. -/
theorem parMem_overflows : ¬MemState.sixtyFourLines.Streams 17179869184
    (permutation 4194304 4096 fun i => i + 1) := by
  have shape : (parState .sixtyFourLines 17179869184).Shape 6 3 :=
    ⟨by decide, by decide, by decide⟩
  have words : ¬(parState .sixtyFourLines 17179869184).nwords *
      (parState .sixtyFourLines 17179869184).npointers + 100 ≤ intMax := by decide
  rintro ⟨f, _, _, laid, _⟩
  rw [memInitialize_eq shape, if_neg words] at laid
  cases laid

end Lmbench
