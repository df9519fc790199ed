import Lmbench.Cache.Measure
import Lmbench.Lib.ByteCopy
import Lmbench.Lib.Outcome
import Lmbench.Machine

/-!
# The page optimiser

`collect_sample` looks for pages that collide in the cache and exchanges them for
spare pages: `test_chunk` takes pages out in ever smaller chunks, `fixup_chunk`
replaces the pages of a chunk, and where that has not helped it copies the saved page
list back.

What a call of `measure` returns is unknown: `latency n` is what call number `n` of
the run returns. Arithmetic on it is exact. A call that does something undefined has
a fault instead of a result.

## Main results

* `ends_fixupChunk` - what one call of `fixup_chunk` does with the page list
* `ends_testChunk` - and so `test_chunk`, whose recursion ends
* `ends_collectSample` - a call of `collect_sample` that has a result keeps the pages, where
  all of the list is copied back
-/

namespace Lmbench

open Lib

/-- What has no result. -/
inductive Fault
  /-- the `int` that counts in `pagesort` overflows -/
  | overflow
  /-- a remainder by zero -/
  | division
  /-- `pageset[substitute]` is no spare page -/
  | outside
  /-- the recursion is deeper than the fuel -/
  | depth
deriving DecidableEq

/-- `x % n`. -/
def remainder (x n : ℕ) : Except Fault ℕ := (rem x n).elim (.error .division) .ok

/-- The state of the optimiser: the memory, the static `available_index` and the number of
calls of `measure` made so far. -/
structure Optimiser where
  chain : Chain
  availableIndex : ℕ
  measured : ℕ

namespace Optimiser

/-- `state->pages`. -/
def pages (o : Optimiser) : List ℕ := o.chain.pages

def setPages (o : Optimiser) (pages : List ℕ) : Optimiser :=
  { o with chain := { o.chain with pages := pages } }

/-- `SWAP(pages[i], pages[j])`. -/
def swap (o : Optimiser) (i j : ℕ) : Optimiser := o.setPages (swapAt o.pages i j)

/-- The swaps of a loop, in order. -/
def swaps (o : Optimiser) (pairs : List (ℕ × ℕ)) : Optimiser :=
  pairs.foldl (fun o pair => o.swap pair.1 pair.2) o

/-- A call of `measure`. -/
def timed (s : MemState) (size : ℕ) (o : Optimiser) : Optimiser :=
  { o with chain := measure s size o.chain, measured := o.measured + 1 }

end Optimiser

/-- The variables of `fixup_chunk` that its loops change. -/
structure Locals where
  j : ℕ
  k : ℕ
  swapped : ℕ
  chunkBaseline : ℚ
  latencies : List ℚ
  o : Optimiser

/-- What `test_chunk` and `fixup_chunk` return, and the `*baseline` they leave. -/
structure Tested where
  modified : ℕ
  baseline : ℚ
  o : Optimiser

/-- The variables of `test_chunk`. -/
structure Testing extends Tested where
  nodiffChunkBaseline : ℚ

section Model

variable (dm : DataModel) (s : MemState) (latency : ℕ → ℚ) (fresh : ℕ → ℕ)

/-- The bytes that `fixup_chunk` saves and copies back; the entries are of `size_t`. -/
def savedBytes : ℕ := dm.sizeofInt * s.nmpages

/-- `bcopy` of the page list or the saved one over the other. -/
def bcopyPages (source target : List ℕ) : List ℕ :=
  copyBytes dm.littleEndian dm.sizeofSizeT (savedBytes dm s) source target

/-- The swaps of `remove_chunk`. -/
def mirrored (i chunk npages : ℕ) : List (ℕ × ℕ) :=
  if i + chunk < npages then (List.range chunk).map fun j => (i + j, npages - 1 - j) else []

/-- `remove_chunk`, with what it returns. -/
def removeChunk (i chunk npages len : ℕ) (o : Optimiser) : ℚ × Optimiser :=
  (latency o.measured, ((o.swaps (mirrored i chunk npages)).timed s
    (len - chunk * s.pagesize)).swaps (mirrored i chunk npages))

/-- One comparison of `pagesort`. -/
def sortPair (page slot : ℕ) (f : Locals) (pair : ℕ × ℕ) : Locals :=
  if f.latencies.getD (slot + pair.2) 0 < f.latencies.getD (slot + pair.1) 0 then
    { f with
      latencies := swapAt f.latencies (slot + pair.1) (slot + pair.2)
      o := f.o.swap (page + pair.1) (page + pair.2) }
  else f

/-- The comparisons of `pagesort` of the pages from `page` on and the latencies from `slot`
on. -/
def sortPages (n page slot : ℕ) (f : Locals) : Locals :=
  ((List.range (n - 1)).flatMap fun i =>
    (List.range' (i + 1) (n - (i + 1))).map fun j => (i, j)).foldl (sortPair page slot) f

/-- `pagesort`. For `n = 0` the bound `n - 1` wraps to the largest `size_t`, and the `int` that
counts overflows on the way there. -/
def pagesort (n page slot : ℕ) (f : Locals) : Except Fault Locals :=
  if n = 0 then .error .overflow else .ok (sortPages n page slot f)

/-- The body of the loop that finds the pages to keep. -/
def keepPage (chunk npages : ℕ) (f : Locals) : Locals :=
  let t := latency f.o.measured
  let o := f.o.timed s ((npages - chunk + f.j + 1) * s.pagesize)
  if 995 / 1000 * t ≤ f.chunkBaseline then
    { f with j := f.j + 1, latencies := f.latencies.set f.j t, o := o }
  else
    { f with
      k := f.k - 1
      latencies := f.latencies.set (f.k - 1) t
      o := o.swap (npages - chunk + f.j) (npages - chunk + (f.k - 1)) }

/-- The loop itself; `k - j` goes down by one in each pass. -/
def keepPages (chunk npages : ℕ) : ℕ → Locals → Locals
  | 0, f => f
  | fuel + 1, f =>
    if f.j < f.k then keepPages chunk npages fuel (keepPage s latency chunk npages f) else f

/-- The branch for a chunk that is the whole working set. -/
def keepHalf (chunk npages : ℕ) (f : Locals) : Locals :=
  if npages ≤ chunk ∧ f.j < chunk / 2 then
    { f with
      j := chunk / 2
      chunkBaseline := latency f.o.measured
      o := f.o.timed s ((npages - chunk + chunk / 2 + 1) * s.pagesize) }
  else f

/-- The pages stay ordered by latency: a spare page that is better than the worst one
takes its place. -/
def improvePages (chunk npages spare : ℕ) (t : ℚ) (f : Locals) : Except Fault Locals :=
  if t < f.latencies.getD (chunk - 1) 0 then
    pagesort (chunk - f.j) (npages - chunk + f.j) f.j
      { f with
        latencies := f.latencies.set (chunk - 1) t
        o := f.o.swap (npages - 1) spare }
  else .ok f

/-- The size up to the page that is to be replaced. -/
def subsetLen (chunk npages len j : ℕ) : ℕ :=
  if j = chunk - 1 ∧ len % s.pagesize ≠ 0 then len else (npages - chunk + j + 1) * s.pagesize

/-- The page is kept if its latency is low enough, and the loop goes on. -/
def acceptPage (f : Locals) : Locals :=
  if 995 / 1000 * f.latencies.getD f.j 0 ≤ f.chunkBaseline then
    { f with j := f.j + 1, swapped := f.swapped + 1, k := f.k + 1 }
  else { f with k := f.k + 1 }

/-- `substitute`, an index into `pageset`. -/
def substitute (nsparepages k availableIndex : ℕ) : Except Fault ℕ := do
  let tried ← remainder (k + availableIndex) (dm.subSize nsparepages 1)
  let substitute := dm.subSize (dm.subSize nsparepages 1) tried
  if substitute < nsparepages then .ok substitute else .error .outside

/-- The body of the loop that tries spare pages, from the choice of the page on. -/
def trySubstitute (chunk npages len substitute : ℕ) (f : Locals) : Except Fault Locals := do
  let original := npages - chunk + f.j
  let t := latency f.o.measured
  let o := f.o.swap original (npages + substitute)
  let o := o.timed s (subsetLen s chunk npages len f.j)
  let o := o.swap original (npages + substitute)
  let f ← improvePages chunk npages (npages + substitute) t { f with o := o }
  return acceptPage f

/-- The loop that tries spare pages; `k < 2 * npages` is the fuel. -/
def replacePages (chunk npages len : ℕ) : ℕ → Locals → Except Fault Locals
  | 0, f => .ok f
  | fuel + 1, f =>
    if f.j < chunk then do
      let substitute ← substitute dm (s.nmpages - npages) f.k f.o.availableIndex
      let f ← trySubstitute s latency chunk npages len substitute f
      replacePages chunk npages len fuel f
    else .ok f

/-- The swaps that move a chunk to the end of the working set and back. -/
def moveChunk (i chunk npages : ℕ) : List (ℕ × ℕ) :=
  if i + chunk < npages then (List.range chunk).map fun j => (i + j, npages - chunk + j) else []

/-- `fixup_chunk` up to its first loop. `latencies` is read only where it was set. -/
def startSearch (i chunk npages : ℕ) (chunkBaseline : ℚ) (o : Optimiser) : Locals where
  j := 0
  k := chunk
  swapped := 0
  chunkBaseline := chunkBaseline
  latencies := List.replicate 20 0
  o :=
    let o := o.swaps (moveChunk i chunk npages)
    if s.nmpages - npages ≤ o.availableIndex then { o with availableIndex := 0 } else o

/-- `fixup_chunk` up to the loop that tries spare pages. -/
def keptPages (i chunk npages : ℕ) (chunkBaseline : ℚ) (o : Optimiser) : Except Fault Locals := do
  let f := keepPages s latency chunk npages chunk (startSearch s i chunk npages chunkBaseline o)
  let f ← pagesort (chunk - f.j) (npages - chunk + f.j) f.j f
  return { keepHalf s latency chunk npages f with k := 0 }

/-- `fixup_chunk` up to the new baseline. -/
def searchPages (i chunk npages len : ℕ) (chunkBaseline : ℚ) (o : Optimiser) :
    Except Fault Locals := do
  let f ← keptPages s latency i chunk npages chunkBaseline o
  let f ← replacePages dm s latency chunk npages len (2 * npages) f
  -- the next call goes on with the spare pages behind those that were tried
  let availableIndex ← remainder (f.k + f.o.availableIndex) (dm.subSize (s.nmpages - npages) 1)
  return { f with o.availableIndex := availableIndex }

/-- `fixup_chunk` from the new baseline on. The array for the saved pages contains `fresh`
when it is allocated. -/
def finishFixup (i chunk npages len : ℕ) (baseline : ℚ) (o : Optimiser) (f : Locals) : Tested :=
  let saved := bcopyPages dm s o.pages ((List.range s.nmpages).map fresh)
  if f.swapped ≠ 0 then
    let newBaseline := latency f.o.measured
    let done := f.o.timed s len
    if 999 / 1000 * baseline ≤ newBaseline then
      -- no benefit: the changes are backed out
      { modified := 0
        baseline := baseline
        o := done.setPages (bcopyPages dm s saved done.pages) }
    else
      -- the chunk goes back to the middle of the list
      { modified := f.swapped
        baseline := newBaseline
        o := done.swaps (moveChunk i chunk npages) }
  else { modified := 0, baseline := baseline, o := f.o }

/-- `fixup_chunk`. -/
def fixupChunk (i chunk npages len : ℕ) (baseline chunkBaseline : ℚ) (o : Optimiser) :
    Except Fault Tested :=
  (searchPages dm s latency i chunk npages len chunkBaseline o).map
    (finishFixup dm s latency fresh i chunk npages len baseline o)

/-- The values of `j` and `subchunk` in the loop of `test_chunk`. -/
def pieces (stop : ℕ) : ℕ → ℕ → ℕ → List (ℕ × ℕ)
  | 0, _, _ => []
  | fuel + 1, j, subchunk =>
    if j < stop then
      let subchunk := if stop < j + subchunk then stop - j else subchunk
      (j, subchunk) :: pieces stop fuel (j + subchunk) subchunk
    else []

/-- The latency without some pages is not clearly better. -/
def NoGain (c : Testing) (t : ℚ) : Prop :=
  99 / 100 * c.baseline ≤ t ∨ 999 / 1000 * c.nodiffChunkBaseline ≤ t

instance (c : Testing) (t : ℚ) : Decidable (NoGain c t) := inferInstanceAs (Decidable (_ ∨ _))

/-- The body of the loop of `test_chunk`, which calls it for a part of the chunk. -/
def testPiece (test : ℕ → ℕ → ℚ → ℚ → Optimiser → Except Fault Tested) (npages len : ℕ)
    (c : Testing) (piece : ℕ × ℕ) : Except Fault Testing :=
  let first := removeChunk s latency piece.1 piece.2 npages len c.o
  -- a gain is measured a second time, and the larger latency counts
  if NoGain c first.1 then .ok { c with o := first.2 }
  else
    let second := removeChunk s latency piece.1 piece.2 npages len first.2
    let t := if first.1 < second.1 then second.1 else first.1
    if NoGain c t then .ok { c with o := second.2 }
    else
      (test piece.1 piece.2 c.baseline t second.2).map fun r =>
        if r.modified ≠ 0 then
          { r with modified := 1, nodiffChunkBaseline := c.nodiffChunkBaseline }
        else { r with modified := c.modified, nodiffChunkBaseline := t }

/-- `test_chunk`, with recursion no deeper than the fuel. -/
def testChunk (npages len : ℕ) : ℕ → ℕ → ℕ → ℚ → ℚ → Optimiser → Except Fault Tested
  | 0, _, _, _, _, _ => .error .depth
  | fuel + 1, i, chunk, baseline, chunkBaseline, o =>
    if chunk ≤ 20 ∧ chunk < npages then
      fixupChunk dm s latency fresh i chunk npages len baseline chunkBaseline o
    else
      ((pieces (i + chunk) chunk i ((chunk + 19) / 20)).foldlM
        (testPiece s latency (testChunk npages len fuel) npages len)
        { modified := 0, baseline := baseline, o := o, nodiffChunkBaseline := baseline }).map
          (·.toTested)

/-- The loop of `collect_sample`, of at most eight passes. -/
def sampleLoop (npages len : ℕ) : ℕ → Tested → Except Fault Tested
  | 0, r => .ok r
  | passes + 1, r =>
    if r.modified ≠ 0 then do
      let r ← testChunk dm s latency fresh npages len npages 0 npages r.baseline 0 r.o
      sampleLoop npages len passes r
    else .ok r

/-- `npages` of `collect_sample`, an `int`; a negative one, which is no more than one page
either, is zero here. -/
def MemState.samplePages (len : ℕ) : ℕ :=
  if s.pagesOf len % 2 ^ 32 < 2 ^ 31 then s.pagesOf len % 2 ^ 32 else 0

/-- `collect_sample`: the latency it stores, and the state it leaves. -/
def collectSample (len : ℕ) (o : Optimiser) : Except Fault (ℚ × Optimiser) :=
  let npages := s.samplePages len
  let baseline := latency o.measured
  let o := o.timed s len
  if 1 < npages then
    (sampleLoop dm s latency fresh npages len 8 ⟨1, baseline, o⟩).map fun r => (r.baseline, r.o)
  else .ok (baseline, o)

end Model

/-! ### Loops that only swap -/

section Loops

variable {s : MemState} {latency : ℕ → ℚ} {chunk npages : ℕ} {motive : Locals → Prop}

/-- What holds before the loop that finds the pages to keep, and after each pass of it, holds
behind it. -/
theorem keepPages_induction (fuel : ℕ) {f : Locals} (start : motive f)
    (pass : ∀ g, motive g → g.j < g.k → motive (keepPage s latency chunk npages g)) :
    motive (keepPages s latency chunk npages fuel f) := by
  induction fuel generalizing f with
  | zero => exact start
  | succ fuel ih =>
    rw [keepPages]
    split
    · rename_i more
      exact ih (pass f start more)
    · exact start

end Loops

theorem pages_swaps (o : Optimiser) (pairs : List (ℕ × ℕ)) :
    (o.swaps pairs).pages = swapAll o.pages pairs := by
  induction pairs generalizing o with
  | nil => rfl
  | cons pair rest ih => exact ih _

section Swapped

variable (s : MemState) (latency : ℕ → ℚ)

theorem perm_swaps (o : Optimiser) (pairs : List (ℕ × ℕ)) :
    (o.swaps pairs).pages.Perm o.pages := by
  rw [pages_swaps]
  exact swapAll_perm _ _

theorem perm_removeChunk (i chunk npages len : ℕ) (o : Optimiser) :
    (removeChunk s latency i chunk npages len o).2.pages.Perm o.pages :=
  (perm_swaps _ _).trans (perm_swaps o _)

theorem perm_sortPages (n page slot : ℕ) (f : Locals) :
    (sortPages n page slot f).o.pages.Perm f.o.pages := by
  refine List.foldlRecOn (motive := fun g => g.o.pages.Perm f.o.pages) _ (sortPair page slot)
    (.refl _) fun g sofar pair _ => ?_
  unfold sortPair
  split
  · exact (swapAt_perm _ _ _).trans sofar
  · exact sofar

theorem perm_keepPages (chunk npages fuel : ℕ) (f : Locals) :
    (keepPages s latency chunk npages fuel f).o.pages.Perm f.o.pages := by
  refine keepPages_induction (motive := fun g => g.o.pages.Perm f.o.pages) fuel (.refl _)
    fun g sofar _ => ?_
  unfold keepPage
  dsimp only
  split
  · exact sofar
  · exact (swapAt_perm _ _ _).trans sofar

theorem perm_keepHalf (chunk npages : ℕ) (f : Locals) :
    (keepHalf s latency chunk npages f).o.pages.Perm f.o.pages := by
  unfold keepHalf
  split <;> exact .refl _

theorem perm_startSearch (i chunk npages : ℕ) (chunkBaseline : ℚ) (o : Optimiser) :
    (startSearch s i chunk npages chunkBaseline o).o.pages.Perm o.pages := by
  refine List.Perm.trans (.of_eq ?_) (perm_swaps o (moveChunk i chunk npages))
  unfold startSearch
  dsimp only
  split <;> rfl

end Swapped

/-! ### One call of `fixup_chunk` -/

/-- With two spare pages only the sort of no pages fails. -/
def Allowed (s : MemState) (npages : ℕ) (fault : Fault) : Prop :=
  npages + 2 ≤ s.nmpages → fault = .overflow

/-- The page list is as long as it was, and rearranged if all of it is copied back. -/
structure Kept (dm : DataModel) (s : MemState) (o o' : Optimiser) : Prop where
  length : o'.pages.length = o.pages.length
  perm : dm.sizeofInt = dm.sizeofSizeT → o.pages.length = s.nmpages → o'.pages.Perm o.pages

section Fixup

variable {dm : DataModel} {s : MemState} {latency : ℕ → ℚ} {fresh : ℕ → ℕ} {npages : ℕ}
  {o o' o'' : Optimiser}

theorem subSize_of_le {x y : ℕ} (le : y ≤ x) : dm.subSize x y = x - y := if_pos le

theorem remainder_eq {x n : ℕ} (positive : 0 < n) : remainder x n = .ok (x % n) := by
  rw [remainder, rem_eq positive]
  rfl

/-- **The spare page that is tried.** -/
theorem substitute_eq {nsparepages : ℕ} (two : 2 ≤ nsparepages) (k availableIndex : ℕ) :
    substitute dm nsparepages k availableIndex =
      .ok (nsparepages - 1 - (k + availableIndex) % (nsparepages - 1)) := by
  have below := Nat.mod_lt (k + availableIndex) (show 0 < nsparepages - 1 by omega)
  have inside : nsparepages - 1 - (k + availableIndex) % (nsparepages - 1) < nsparepages := by
    omega
  rw [substitute, subSize_of_le (by omega), remainder_eq (by omega)]
  change (if dm.subSize _ _ < _ then _ else _) = _
  rw [subSize_of_le below.le, if_pos inside]

theorem allowed_pagesort (n page slot : ℕ) (f : Locals) :
    Ends (fun g => g.o.pages.Perm f.o.pages) (Allowed s npages) (pagesort n page slot f) := by
  unfold pagesort
  split
  · exact fun _ => rfl
  · exact perm_sortPages n page slot f

theorem allowed_keptPages (i chunk : ℕ) (chunkBaseline : ℚ) (o : Optimiser) :
    Ends (fun f => f.o.pages.Perm o.pages) (Allowed s npages)
      (keptPages s latency i chunk npages chunkBaseline o) := by
  have kept := (perm_keepPages s latency chunk npages chunk
    (startSearch s i chunk npages chunkBaseline o)).trans
    (perm_startSearch s i chunk npages chunkBaseline o)
  apply (allowed_pagesort _ _ _ _).bind
  intro f sorted
  exact (perm_keepHalf s latency chunk npages f).trans (sorted.trans kept)

theorem allowed_substitute (k availableIndex : ℕ) :
    Ends (fun _ => True) (Allowed s npages)
      (substitute dm (s.nmpages - npages) k availableIndex) := by
  by_cases two : npages + 2 ≤ s.nmpages
  · rw [substitute_eq (by omega)]
    trivial
  · cases substitute dm (s.nmpages - npages) k availableIndex with
    | ok page => trivial
    | error fault => exact fun enough => absurd enough two

theorem allowed_trySubstitute (chunk len page : ℕ) (f : Locals) :
    Ends (fun g => g.o.pages.Perm f.o.pages) (Allowed s npages)
      (trySubstitute s latency chunk npages len page f) := by
  have tried : ∀ original, (((f.o.swap original (npages + page)).timed s
      (subsetLen s chunk npages len f.j)).swap original (npages + page)).pages.Perm f.o.pages :=
    fun _ => (swapAt_perm _ _ _).trans (swapAt_perm _ _ _)
  have improved : ∀ t g, Ends (fun h => h.o.pages.Perm g.o.pages) (Allowed s npages)
      (improvePages chunk npages (npages + page) t g) := by
    intro t g
    unfold improvePages
    split
    · exact (allowed_pagesort _ _ _ _).mono fun h sorted => sorted.trans (swapAt_perm _ _ _)
    · exact List.Perm.refl _
  apply (improved _ _).bind
  intro g exchanged
  have accepted : (acceptPage g).o = g.o := by
    unfold acceptPage
    split <;> rfl
  change (acceptPage g).o.pages.Perm f.o.pages
  rw [accepted]
  exact exchanged.trans (tried _)

theorem allowed_replacePages (chunk len fuel : ℕ) (f : Locals) :
    Ends (fun g => g.o.pages.Perm f.o.pages) (Allowed s npages)
      (replacePages dm s latency chunk npages len fuel f) := by
  induction fuel generalizing f with
  | zero => exact List.Perm.refl _
  | succ fuel ih =>
    rw [replacePages]
    split
    · apply (allowed_substitute _ _).bind
      intro page _
      apply (allowed_trySubstitute chunk len page f).bind
      intro g tried
      exact (ih g).mono fun h later => later.trans tried
    · exact List.Perm.refl _

/-- **Up to the back-out**, `fixup_chunk` only swaps pages. -/
theorem allowed_searchPages (i chunk len : ℕ) (chunkBaseline : ℚ) (o : Optimiser) :
    Ends (fun f => f.o.pages.Perm o.pages) (Allowed s npages)
      (searchPages dm s latency i chunk npages len chunkBaseline o) := by
  apply (allowed_keptPages i chunk chunkBaseline o).bind
  intro f kept
  apply (allowed_replacePages chunk len (2 * npages) f).bind
  intro g replaced
  have last : Ends (fun _ => True) (Allowed s npages)
      (remainder (g.k + g.o.availableIndex) (dm.subSize (s.nmpages - npages) 1)) := by
    by_cases two : npages + 2 ≤ s.nmpages
    · rw [subSize_of_le (by omega), remainder_eq (by omega)]
      trivial
    · cases remainder (g.k + g.o.availableIndex) (dm.subSize (s.nmpages - npages) 1) with
      | ok index => trivial
      | error fault => exact fun enough => absurd enough two
  apply last.bind
  intro index _
  exact replaced.trans kept

namespace Kept

theorem of_perm (perm : o'.pages.Perm o.pages) : Kept dm s o o' := ⟨perm.length_eq, fun _ _ => perm⟩

theorem trans (first : Kept dm s o o') (second : Kept dm s o' o'') : Kept dm s o o'' where
  length := second.length.trans first.length
  perm := fun same stored =>
    (second.perm same (first.length.trans stored)).trans (first.perm same stored)

end Kept

/-- What was saved and is copied back are the pages. -/
theorem bcopyPages_saved {pages found : List ℕ} (stored : pages.length = s.nmpages) :
    bcopyPages dm s (bcopyPages dm s pages ((List.range s.nmpages).map fresh)) found =
      bcopyPages dm s pages found :=
  copyBytes_copyBytes (by simp [stored])

/-- Where `size_t` is no larger than `int`, all of the list is copied back. -/
theorem bcopyPages_of_sizes {pages found : List ℕ} (same : dm.sizeofInt = dm.sizeofSizeT)
    (stored : pages.length = s.nmpages) (length : found.length = pages.length) :
    bcopyPages dm s pages found = pages := by
  have all : savedBytes dm s / dm.sizeofSizeT = s.nmpages := by
    rw [savedBytes, same, Nat.mul_div_cancel_left _ dm.sizeofSizeT_pos]
  have copied := @take_copyBytes dm.littleEndian dm.sizeofSizeT (savedBytes dm s) pages found
    dm.sizeofSizeT_pos length
  rw [all, List.take_of_length_le stored.le, List.take_of_length_le] at copied
  · exact copied
  · rw [length_copyBytes, length, stored]

/-- **One call of `fixup_chunk`.** -/
theorem ends_fixupChunk (i chunk len : ℕ) (baseline chunkBaseline : ℚ) (o : Optimiser) :
    Ends (fun r => Kept dm s o r.o) (Allowed s npages)
      (fixupChunk dm s latency fresh i chunk npages len baseline chunkBaseline o) := by
  apply (allowed_searchPages i chunk len chunkBaseline o).map
  intro f searched
  unfold finishFixup
  dsimp only
  split
  · split
    · -- the list that is copied over is a rearrangement of the saved one
      refine ⟨(length_copyBytes _ _ _ _ _).trans searched.length_eq, fun same stored => ?_⟩
      refine .of_eq ?_
      change bcopyPages dm s _ _ = o.pages
      rw [bcopyPages_saved stored]
      exact bcopyPages_of_sizes same stored searched.length_eq
    · exact .of_perm ((perm_swaps _ _).trans searched)
  · exact .of_perm searched

end Fixup

/-! ### The recursion -/

section Recursion

theorem pieces_bounds {stop fuel j subchunk : ℕ} (positive : 0 < subchunk) {piece : ℕ × ℕ}
    (member : piece ∈ pieces stop fuel j subchunk) : 0 < piece.2 ∧ piece.2 ≤ subchunk := by
  induction fuel generalizing j subchunk with
  | zero => cases member
  | succ fuel ih =>
    rw [pieces] at member
    split at member
    · dsimp only at member
      have shorter : 0 < (if stop < j + subchunk then stop - j else subchunk) ∧
          (if stop < j + subchunk then stop - j else subchunk) ≤ subchunk := by
        split <;> omega
      rcases List.mem_cons.mp member with rfl | later
      · exact shorter
      · obtain ⟨positive', small⟩ := ih shorter.1 later
        exact ⟨positive', small.trans shorter.2⟩
    · cases member

/-- The fuel suffices: the pieces are the whole chunk. -/
theorem sum_pieces {stop fuel j subchunk : ℕ} (positive : 0 < subchunk)
    (enough : stop ≤ j + fuel) :
    ((pieces stop fuel j subchunk).map (·.2)).sum = stop - j := by
  induction fuel generalizing j subchunk with
  | zero =>
    rw [pieces]
    simp
    omega
  | succ fuel ih =>
    rw [pieces]
    split
    · dsimp only
      rw [List.map_cons, List.sum_cons, ih]
      all_goals split <;> omega
    · simp
      omega

variable {dm : DataModel} {s : MemState} {latency : ℕ → ℚ} {fresh : ℕ → ℕ} {npages : ℕ}

/-- The fuel suffices: the loop stops when every page has been tried. -/
theorem keepPages_done (chunk npages fuel : ℕ) (f : Locals) (enough : f.k ≤ f.j + fuel) :
    (keepPages s latency chunk npages fuel f).k ≤ (keepPages s latency chunk npages fuel f).j := by
  induction fuel generalizing f with
  | zero => exact enough
  | succ fuel ih =>
    rw [keepPages]
    split
    · apply ih
      unfold keepPage
      dsimp only
      split <;> dsimp only <;> omega
    · exact not_lt.mp ‹_›

theorem ends_testPiece (latency : ℕ → ℚ)
    {test : ℕ → ℕ → ℚ → ℚ → Optimiser → Except Fault Tested} {piece : ℕ × ℕ}
    (ends : ∀ baseline t o,
      Ends (fun r => Kept dm s o r.o) (Allowed s npages) (test piece.1 piece.2 baseline t o))
    (len : ℕ) (c : Testing) :
    Ends (fun c' => Kept dm s c.o c'.o) (Allowed s npages)
      (testPiece s latency test npages len c piece) := by
  have once := perm_removeChunk s latency piece.1 piece.2 npages len c.o
  unfold testPiece
  generalize removeChunk s latency piece.1 piece.2 npages len c.o = first at once ⊢
  have twice := (perm_removeChunk s latency piece.1 piece.2 npages len first.2).trans once
  dsimp only
  generalize removeChunk s latency piece.1 piece.2 npages len first.2 = second at twice ⊢
  generalize (if first.1 < second.1 then second.1 else first.1) = t
  split
  · exact .of_perm once
  · split
    · exact Kept.of_perm twice
    · apply (ends c.baseline t second.2).map
      intro r kept
      split <;> exact (Kept.of_perm twice).trans kept

/-- **`test_chunk`**, for every chunk of a working set of at least two pages. -/
theorem ends_testChunk (several : 1 < npages) (len fuel i chunk : ℕ) (positive : 0 < chunk)
    (enough : chunk ≤ fuel) (baseline chunkBaseline : ℚ) (o : Optimiser) :
    Ends (fun r => Kept dm s o r.o) (Allowed s npages)
      (testChunk dm s latency fresh npages len fuel i chunk baseline chunkBaseline o) := by
  -- induction on the depth, which goes down with the size of the chunk
  induction fuel generalizing i chunk baseline chunkBaseline o with
  | zero => omega
  | succ fuel ih =>
    rw [testChunk]
    split
    · exact ends_fixupChunk i chunk len baseline chunkBaseline o
    · refine Ends.map (?_ : Ends (fun c : Testing => Kept dm s o c.o) (Allowed s npages) _)
        fun c kept => kept
      refine Ends.foldlM _ (.of_perm (.refl _)) fun c sofar piece member => ?_
      -- the parts of a chunk of two or more pages are smaller than it
      have bounds := pieces_bounds (by omega) member
      have ends := ends_testPiece latency (fun baseline t o =>
        ih piece.1 piece.2 bounds.1 (by omega) baseline t o) len c
      exact ends.mono fun c' later => sofar.trans later

theorem ends_sampleLoop (several : 1 < npages) (len passes : ℕ) (r : Tested) :
    Ends (fun r' => Kept dm s r.o r'.o) (Allowed s npages)
      (sampleLoop dm s latency fresh npages len passes r) := by
  induction passes generalizing r with
  | zero => exact .of_perm (.refl _)
  | succ passes ih =>
    rw [sampleLoop]
    split
    · apply (ends_testChunk several len npages 0 npages (by omega) le_rfl r.baseline 0 r.o).bind
      intro r' early
      exact (ih r').mono fun _ late => early.trans late
    · exact Kept.of_perm (.refl _)

/-- **A call of `collect_sample`** that has a result keeps the pages where all of the list is
copied back, and with two spare pages only the sort of no pages is without a result. -/
theorem ends_collectSample (dm : DataModel) (s : MemState) (latency : ℕ → ℚ) (fresh : ℕ → ℕ)
    (len : ℕ) (o : Optimiser) :
    Ends (fun r => Kept dm s o r.2) (Allowed s (s.samplePages len))
      (collectSample dm s latency fresh len o) := by
  unfold collectSample
  dsimp only
  split
  · rename_i several
    apply (ends_sampleLoop several len 8 _).map
    intro r kept
    exact ⟨kept.length, kept.perm⟩
  · exact Kept.of_perm (.refl _)

end Recursion

/-- Four pages, in order. -/
def Optimiser.fourPages : Optimiser where
  chain := ⟨[0, 16, 32, 48], fun _ => none, fun _ => none⟩
  availableIndex := 0
  measured := 0

/-- Two pages of four. Without one of them `measure` returns 10, and so much less than
the 100 for both that the other is exchanged for a spare page; but in the end it returns
100 again, and the exchange is backed out. -/
def Optimiser.noBenefit (n : ℕ) : ℚ := [100, 10, 10, 90, 5, 100].getD n 100

end Lmbench
