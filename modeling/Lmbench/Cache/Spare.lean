import Lmbench.Cache.Exchange
import Lmbench.Cache.Search

/-!
# The arithmetic of the spare pages

`fixup_chunk` goes through the spare pages by remainders of one less than their number,
all in `size_t`, so that it needs two of them.

How many spare pages there are depends on the sample, and on where the largest length
lies on the grid of samples.

## Main results

* `substitute_of_few` - with fewer than two spare pages no page can be chosen
* `exists_leaf_collectSample` - how `measure` leads `collect_sample` to `fixup_chunk`
* `collectSample_safe_iff` - when no remainder is by zero and no index leaves the spare pages
-/

namespace Lmbench

open Lib

/-- The faults of the arithmetic of the spare pages. -/
def Unsafe (fault : Fault) : Prop := fault = .division ∨ fault = .outside

/-- One spare page makes the divisor zero, and with none there is nothing to choose from. -/
theorem substitute_of_few (dm : DataModel) {nsparepages : ℕ} (few : nsparepages < 2) :
    ∃ fault, Unsafe fault ∧
      ∀ k availableIndex, substitute dm nsparepages k availableIndex = .error fault := by
  obtain rfl | rfl : nsparepages = 1 ∨ nsparepages = 0 := by omega
  · refine ⟨.division, .inl rfl, fun k availableIndex => ?_⟩
    rw [substitute, subSize_of_le le_rfl]
    rfl
  · refine ⟨.outside, .inr rfl, fun k availableIndex => ?_⟩
    -- the difference wraps to the largest `size_t`, and no index is below zero
    have wide : 1 < dm.sizeSpan := Nat.one_lt_two_pow (by have := dm.sizeofSizeT_pos; omega)
    have divisor : 0 < dm.subSize 0 1 := by
      rw [DataModel.subSize, if_neg (Nat.not_succ_le_zero 0)]
      omega
    rw [substitute, remainder_eq divisor]
    rfl

/-! ### What sorting and measuring leave alone -/

/-- All variables but the order of latencies and pages. -/
structure Locals.Alike (f g : Locals) : Prop where
  j : g.j = f.j
  k : g.k = f.k
  swapped : g.swapped = f.swapped
  chunkBaseline : g.chunkBaseline = f.chunkBaseline
  length : g.latencies.length = f.latencies.length
  measured : g.o.measured = f.o.measured
  availableIndex : g.o.availableIndex = f.o.availableIndex

theorem Locals.Alike.refl (f : Locals) : f.Alike f := ⟨rfl, rfl, rfl, rfl, rfl, rfl, rfl⟩

theorem Locals.Alike.trans {f g h : Locals} (first : f.Alike g) (second : g.Alike h) : f.Alike h :=
  ⟨second.j.trans first.j, second.k.trans first.k, second.swapped.trans first.swapped,
    second.chunkBaseline.trans first.chunkBaseline, second.length.trans first.length,
    second.measured.trans first.measured, second.availableIndex.trans first.availableIndex⟩

theorem alike_sortPair (page slot : ℕ) (f : Locals) (pair : ℕ × ℕ) :
    f.Alike (sortPair page slot f pair) := by
  unfold sortPair
  split
  · exact ⟨rfl, rfl, rfl, rfl, length_swapAt _ _ _, rfl, rfl⟩
  · exact .refl f

theorem alike_sortPages (n page slot : ℕ) (f : Locals) : f.Alike (sortPages n page slot f) :=
  List.foldlRecOn (motive := f.Alike) _ (sortPair page slot) (.refl f)
    fun g sofar pair _ => sofar.trans (alike_sortPair page slot g pair)

/-- The comparisons of `pagesort` are inside its range. -/
theorem mem_sortPages_pairs {n : ℕ} {pair : ℕ × ℕ}
    (member : pair ∈ (List.range (n - 1)).flatMap fun i =>
      (List.range' (i + 1) (n - (i + 1))).map fun j => (i, j)) : pair.1 < n ∧ pair.2 < n := by
  obtain ⟨i, hi, inner⟩ := List.mem_flatMap.mp member
  obtain ⟨j, hj, rfl⟩ := List.mem_map.mp inner
  rw [List.mem_range] at hi
  rw [List.mem_range'_1] at hj
  simp only
  omega

/-- What holds of all latencies of the chunk holds of them in every order. -/
theorem sortPages_latencies (property : ℚ → Prop) {chunk n slot : ℕ} (page : ℕ) {f : Locals}
    (within : slot + n ≤ chunk) (stored : chunk ≤ f.latencies.length)
    (every : ∀ m < chunk, property (f.latencies.getD m 0)) :
    ∀ m < chunk, property ((sortPages n page slot f).latencies.getD m 0) := by
  have both : f.Alike (sortPages n page slot f) ∧
      ∀ m < chunk, property ((sortPages n page slot f).latencies.getD m 0) := by
    refine List.foldlRecOn (motive := fun g => f.Alike g ∧
      ∀ m < chunk, property (g.latencies.getD m 0)) _ (sortPair page slot) ⟨.refl f, every⟩ ?_
    rintro g ⟨alike, sofar⟩ pair member
    refine ⟨alike.trans (alike_sortPair page slot g pair), fun m inside => ?_⟩
    obtain ⟨left, right⟩ := mem_sortPages_pairs member
    have length := alike.length
    unfold sortPair
    split
    · -- an entry of the chunk comes from another entry of the chunk
      simp only
      rw [List.getD_eq_getElem?_getD, getElem?_swapAt (by omega) (by omega)]
      split
      · rw [← List.getD_eq_getElem?_getD]
        exact sofar _ (by omega)
      · split
        · rw [← List.getD_eq_getElem?_getD]
          exact sofar _ (by omega)
        · rw [← List.getD_eq_getElem?_getD]
          exact sofar m inside
    · exact sofar m inside
  exact both.2

theorem measured_swaps (o : Optimiser) (pairs : List (ℕ × ℕ)) :
    (o.swaps pairs).measured = o.measured := by
  induction pairs generalizing o with
  | nil => rfl
  | cons pair rest ih => exact ih _

theorem availableIndex_swaps (o : Optimiser) (pairs : List (ℕ × ℕ)) :
    (o.swaps pairs).availableIndex = o.availableIndex := by
  induction pairs generalizing o with
  | nil => rfl
  | cons pair rest ih => exact ih _

section AllBad

variable {s : MemState} {latency : ℕ → ℚ} {chunk npages : ℕ} {bad : ℚ}

theorem measured_startSearch (s : MemState) (i chunk npages : ℕ) (chunkBaseline : ℚ)
    (o : Optimiser) : (startSearch s i chunk npages chunkBaseline o).o.measured = o.measured := by
  rw [← measured_swaps o (moveChunk i chunk npages)]
  unfold startSearch
  dsimp only
  split <;> rfl

/-- `fixup_chunk` goes on with a chunk of only part of the working set if it keeps some but not
all of its pages. -/
theorem keptPages_eq (s : MemState) (latency : ℕ → ℚ) (part : chunk < npages) (i : ℕ)
    (chunkBaseline : ℚ) (o : Optimiser) {f : Locals} (kept : keepPages s latency chunk npages chunk
      (startSearch s i chunk npages chunkBaseline o) = f) (more : f.j < chunk) :
    keptPages s latency i chunk npages chunkBaseline o =
      .ok { sortPages (chunk - f.j) (npages - chunk + f.j) f.j f with k := 0 } := by
  have whole : ∀ g, keepHalf s latency chunk npages g = g := fun g => if_neg fun both => by omega
  have sorted : pagesort (chunk - f.j) (npages - chunk + f.j) f.j f =
      .ok (sortPages (chunk - f.j) (npages - chunk + f.j) f.j f) := if_neg (by omega)
  unfold keptPages
  simp only [kept, sorted, whole]
  rfl

/-- If it keeps all of them, `pagesort` is called for no pages. -/
theorem keptPages_of_all (s : MemState) (latency : ℕ → ℚ) (i : ℕ) (chunkBaseline : ℚ)
    (o : Optimiser) (all : chunk ≤ (keepPages s latency chunk npages chunk
      (startSearch s i chunk npages chunkBaseline o)).j) :
    keptPages s latency i chunk npages chunkBaseline o = .error .overflow := by
  unfold keptPages
  simp only [pagesort, if_pos (Nat.sub_eq_zero_of_le all)]
  rfl

/-- No page was kept so far, and those discarded had one latency. -/
structure AllBad (chunk : ℕ) (bad : ℚ) (f : Locals) : Prop where
  j : f.j = 0
  below : f.k ≤ chunk
  length : f.latencies.length = 20
  above : 995 / 1000 * bad > f.chunkBaseline
  latencies : ∀ m, f.k ≤ m → m < chunk → f.latencies.getD m 0 = bad

theorem keepPage_allBad (s : MemState) (npages : ℕ) (small : chunk ≤ 20) {f : Locals}
    (all : AllBad chunk bad f) (more : 0 < f.k) (returned : latency f.o.measured = bad) :
    AllBad chunk bad (keepPage s latency chunk npages f) ∧
      (keepPage s latency chunk npages f).k + 1 = f.k ∧
      (keepPage s latency chunk npages f).o.measured = f.o.measured + 1 := by
  have discarded : ¬995 / 1000 * latency f.o.measured ≤ f.chunkBaseline := by
    rw [returned]
    exact not_le.mpr all.above
  unfold keepPage
  simp only [if_neg discarded]
  refine ⟨⟨all.j, ?_, ?_, all.above, ?_⟩, ?_, rfl⟩
  · have := all.below
    simp only
    omega
  · simpa using all.length
  · intro m lower upper
    simp only at lower ⊢
    have inside := all.length
    by_cases here : m = f.k - 1
    · subst here
      rw [List.getD_eq_getElem?_getD, List.getElem?_set_self (by omega), returned]
      rfl
    · rw [List.getD_eq_getElem?_getD, List.getElem?_set_ne (by omega),
        ← List.getD_eq_getElem?_getD]
      exact all.latencies m (by omega) upper
  · omega

/-- The loop that keeps pages then discards the whole chunk. -/
theorem keepPages_allBad (s : MemState) (latency : ℕ → ℚ) (npages : ℕ) (small : chunk ≤ 20)
    {f : Locals} (all : AllBad chunk bad f) (fuel : ℕ) (enough : f.k ≤ fuel)
    (returned : ∀ n < f.k, latency (f.o.measured + n) = bad) :
    AllBad chunk bad (keepPages s latency chunk npages fuel f) ∧
      (keepPages s latency chunk npages fuel f).k = 0 ∧
      (keepPages s latency chunk npages fuel f).o.measured = f.o.measured + f.k := by
  induction fuel generalizing f with
  | zero =>
    obtain none : f.k = 0 := by omega
    exact ⟨all, none, by rw [none]; rfl⟩
  | succ fuel ih =>
    rw [keepPages]
    split
    · rename_i more
      rw [all.j] at more
      obtain ⟨after, k, measured⟩ := keepPage_allBad s npages small all more
        (returned 0 more)
      obtain ⟨after', k', measured'⟩ := ih after (by omega) fun n before => by
        rw [measured, Nat.add_assoc, Nat.add_comm 1]
        exact returned (n + 1) (by omega)
      exact ⟨after', k', by omega⟩
    · rename_i none
      rw [all.j] at none
      exact ⟨all, by omega, by omega⟩

/-- `fixup_chunk` then comes to the loop that tries spare pages with nothing kept. -/
theorem keptPages_allBad (s : MemState) (latency : ℕ → ℚ) (positive : 0 < chunk)
    (small : chunk ≤ 20) (part : chunk < npages) (i : ℕ) {chunkBaseline : ℚ}
    (above : 995 / 1000 * bad > chunkBaseline) (o : Optimiser)
    (returned : ∀ n < chunk, latency (o.measured + n) = bad) :
    ∃ f, keptPages s latency i chunk npages chunkBaseline o = .ok f ∧ AllBad chunk bad f ∧
      f.k = 0 ∧ f.o.measured = o.measured + chunk := by
  have started : AllBad chunk bad (startSearch s i chunk npages chunkBaseline o) :=
    ⟨rfl, le_rfl, List.length_replicate, above, fun _ lower upper => absurd upper lower.not_gt⟩
  have measured := measured_startSearch s i chunk npages chunkBaseline o
  obtain ⟨discarded, none, after⟩ := keepPages_allBad s latency npages small started
    chunk le_rfl fun n inside => by
      rw [measured]
      exact returned n inside
  have kept := keptPages_eq s latency part i chunkBaseline o rfl (discarded.j.trans_lt positive)
  generalize keepPages s latency chunk npages chunk (startSearch s i chunk npages chunkBaseline o) =
    f at discarded none after kept
  have sorted := alike_sortPages (chunk - f.j) (npages - chunk + f.j) f.j f
  have within : f.j + (chunk - f.j) ≤ chunk := by
    rw [discarded.j]
    omega
  have latencies := sortPages_latencies (· = bad) (npages - chunk + f.j) within
    (by rw [discarded.length]; exact small) fun m inside => discarded.latencies m (by omega) inside
  refine ⟨_, kept, ⟨sorted.j.trans discarded.j, Nat.zero_le _,
    sorted.length.trans discarded.length, ?_, fun m _ inside => latencies m inside⟩, rfl, ?_⟩
  · rw [sorted.chunkBaseline]
    exact discarded.above
  · rw [sorted.measured, after, measured]
    rfl

end AllBad

/-! ### From `collect_sample` to `fixup_chunk` -/

/-- The latencies of a run in which `measure` returns a low one in some calls. -/
def lowWhere (low : ℕ → Prop) [DecidablePred low] (n : ℕ) : ℚ := if low n then 1 else 100

theorem lowWhere_pos (low : ℕ → Prop) [DecidablePred low] (n : ℕ) : 0 < lowWhere low n := by
  unfold lowWhere
  split <;> norm_num

/-- A test has changed nothing, and from now on `measure` always returns the high latency. -/
structure Settled (latency : ℕ → ℚ) (npages : ℕ) (property : List ℕ → Prop) (r : Tested) :
    Prop where
  modified : r.modified = 0
  baseline : r.baseline = 100
  high : ∀ n, r.o.measured ≤ n → latency n = 100
  pages : property r.o.pages
  stored : npages ≤ r.o.pages.length

section Leaf

variable {s : MemState} {latency : ℕ → ℚ} {npages : ℕ} {property : List ℕ → Prop}
  {allowed : Fault → Prop} {test : ℕ → ℕ → ℚ → ℚ → Optimiser → Except Fault Tested}

theorem measured_removeChunk (s : MemState) (latency : ℕ → ℚ) (i chunk npages len : ℕ)
    (o : Optimiser) :
    (removeChunk s latency i chunk npages len o).2.measured = o.measured + 1 := by
  unfold removeChunk
  rw [measured_swaps, Optimiser.timed, measured_swaps]

theorem availableIndex_removeChunk (s : MemState) (latency : ℕ → ℚ) (i chunk npages len : ℕ)
    (o : Optimiser) :
    (removeChunk s latency i chunk npages len o).2.availableIndex = o.availableIndex := by
  unfold removeChunk
  rw [availableIndex_swaps, Optimiser.timed, availableIndex_swaps]

/-- A part whose removal pays twice is tested. -/
theorem testPiece_of_gain {len i part : ℕ} {o : Optimiser} (stored : npages ≤ o.pages.length)
    (first : latency o.measured = 1) (second : latency (o.measured + 1) = 1)
    (tested : ∀ o' : Optimiser, o'.pages = o.pages → o'.availableIndex = o.availableIndex →
      o'.measured = o.measured + 2 →
      Ends (Settled latency npages property) allowed (test i part 100 1 o')) :
    Ends (fun c => Settled latency npages property c.toTested) allowed
      (testPiece s latency test npages len ⟨⟨0, 100, o⟩, 100⟩ (i, part)) := by
  have gain : ¬NoGain ⟨⟨0, 100, o⟩, 100⟩ 1 := by
    unfold NoGain
    norm_num
  have once : (removeChunk s latency i part npages len o).1 = 1 := first
  have measured := measured_removeChunk s latency i part npages len o
  have index := availableIndex_removeChunk s latency i part npages len o
  have pages := pages_removeChunk s latency i part npages len o stored
  unfold testPiece
  simp only
  generalize removeChunk s latency i part npages len o = r at once measured index pages ⊢
  have twice : (removeChunk s latency i part npages len r.2).1 = 1 := by
    change latency r.2.measured = 1
    rw [measured, second]
  have measured' := measured_removeChunk s latency i part npages len r.2
  have index' := availableIndex_removeChunk s latency i part npages len r.2
  have pages' := pages_removeChunk s latency i part npages len r.2 (by rwa [pages])
  generalize removeChunk s latency i part npages len r.2 = r' at twice measured' index' pages' ⊢
  rw [once, twice, if_neg (lt_irrefl _), if_neg gain, if_neg gain]
  apply (tested r'.2 (pages'.trans pages) (index'.trans index) (by omega)).map
  intro t settled
  rw [if_neg (not_not.mpr settled.modified)]
  exact ⟨rfl, settled.baseline, settled.high, settled.pages, settled.stored⟩

/-- From then on no removal pays. -/
theorem testPiece_settled {len : ℕ} {c : Testing} (settled : Settled latency npages property
    c.toTested) (piece : ℕ × ℕ) :
    Ends (fun c' => Settled latency npages property c'.toTested) allowed
      (testPiece s latency test npages len c piece) := by
  have none : NoGain c (removeChunk s latency piece.1 piece.2 npages len c.o).1 := by
    left
    rw [settled.baseline, removeChunk, settled.high _ le_rfl]
    norm_num
  have measured := measured_removeChunk s latency piece.1 piece.2 npages len c.o
  have pages := pages_removeChunk s latency piece.1 piece.2 npages len c.o settled.stored
  unfold testPiece
  simp only [if_pos none]
  refine ⟨settled.modified, settled.baseline, fun n after => settled.high n ?_, ?_, ?_⟩
  · simp only [measured] at after
    omega
  · simp only [pages]
    exact settled.pages
  · simp only [pages]
    exact settled.stored

/-- The first part of a chunk begins where the chunk does. -/
theorem pieces_eq_cons (i : ℕ) {chunk : ℕ} (positive : 0 < chunk) :
    ∃ rest, pieces (i + chunk) chunk i ((chunk + 19) / 20) = (i, (chunk + 19) / 20) :: rest := by
  obtain ⟨fuel, rfl⟩ : ∃ fuel, chunk = fuel + 1 := Nat.exists_eq_succ_of_ne_zero positive.ne'
  have whole : ¬i + (fuel + 1) < i + (fuel + 1 + 19) / 20 := by omega
  rw [pieces, if_pos (by omega)]
  simp only [if_neg whole]
  exact ⟨_, rfl⟩

/-- **The way down.** If the first parts of the first parts of the working set pay, `test_chunk`
calls `fixup_chunk` for the first pages of it; and if that changes nothing and nothing pays from
then on, it does no more. -/
theorem exists_leaf_testChunk (dm : DataModel) (s : MemState) (fresh : ℕ → ℕ) {chunk npages : ℕ}
    (several : 1 < npages) (len fuel : ℕ) (positive : 0 < chunk) (enough : chunk ≤ fuel)
    (fits : chunk = npages ∨ 2 * chunk ≤ npages) :
    ∃ depth part, 0 < part ∧ part ≤ 20 ∧ 2 * part ≤ npages ∧
      ∀ (latency : ℕ → ℚ) (property : List ℕ → Prop) (allowed : Fault → Prop) (o : Optimiser)
        (chunkBaseline : ℚ), npages ≤ o.pages.length → (chunk < npages → chunkBaseline = 1) →
        (∀ n < depth, latency (o.measured + n) = 1) →
        (∀ o' : Optimiser, o'.pages = o.pages → o'.availableIndex = o.availableIndex →
          o'.measured = o.measured + depth →
          Ends (Settled latency npages property) allowed
            (fixupChunk dm s latency fresh 0 part npages len 100 1 o')) →
        Ends (Settled latency npages property) allowed
          (testChunk dm s latency fresh npages len fuel 0 chunk 100 chunkBaseline o) := by
  -- two calls of `measure` for each level of the recursion
  induction fuel generalizing chunk with
  | zero => omega
  | succ fuel ih =>
    by_cases last : chunk ≤ 20 ∧ chunk < npages
    · refine ⟨0, chunk, positive, last.1, by omega, ?_⟩
      intro latency property allowed o chunkBaseline _ low _ leaf
      rw [testChunk, if_pos last, low last.2]
      exact leaf o rfl rfl rfl
    · obtain ⟨depth, part, positive', small, twice, deeper⟩ :=
        @ih ((chunk + 19) / 20) (by omega) (by omega) (by omega)
      refine ⟨depth + 2, part, positive', small, twice, ?_⟩
      intro latency property allowed o chunkBaseline stored _ early leaf
      -- the first part of the chunk is tested
      obtain ⟨rest, parts⟩ := pieces_eq_cons 0 positive
      rw [testChunk, if_neg last, parts, List.foldlM_cons]
      have first : Ends (fun c => Settled latency npages property c.toTested) allowed
          (testPiece s latency (testChunk dm s latency fresh npages len fuel) npages len
            ⟨⟨0, 100, o⟩, 100⟩ (0, (chunk + 19) / 20)) := by
        refine testPiece_of_gain stored (early 0 (by omega)) (early 1 (by omega)) ?_
        intro o' pages index measured
        refine deeper latency property allowed o' 1 (by rwa [pages]) (fun _ => rfl)
          (fun n before => ?_) fun o'' pages' index' measured' => ?_
        · rw [measured, Nat.add_assoc, Nat.add_comm 2]
          exact early (n + 2) (by omega)
        · exact leaf o'' (pages'.trans pages) (index'.trans index) (by omega)
      refine Ends.map (?_ : Ends (fun c : Testing => Settled latency npages property c.toTested)
        allowed _) fun c settled => settled
      apply first.bind
      intro c settled
      exact Ends.foldlM rest settled fun c settled piece _ => testPiece_settled settled piece

/-- So does `collect_sample`. -/
theorem exists_leaf_collectSample (dm : DataModel) (s : MemState) (fresh : ℕ → ℕ) (len : ℕ)
    (several : 1 < s.samplePages len) :
    ∃ depth part, 0 < part ∧ part ≤ 20 ∧ 2 * part ≤ s.samplePages len ∧
      ∀ (latency : ℕ → ℚ) (property : List ℕ → Prop) (allowed : Fault → Prop) (o : Optimiser),
        s.samplePages len ≤ o.pages.length → latency o.measured = 100 →
        (∀ n < depth, latency (o.measured + 1 + n) = 1) →
        (∀ o' : Optimiser, o'.pages = o.pages → o'.availableIndex = o.availableIndex →
          o'.measured = o.measured + 1 + depth →
          Ends (Settled latency (s.samplePages len) property) allowed
            (fixupChunk dm s latency fresh 0 part (s.samplePages len) len 100 1 o')) →
        Ends (fun r => property r.2.pages) allowed (collectSample dm s latency fresh len o) := by
  obtain ⟨depth, part, positive, small, twice, leads⟩ := exists_leaf_testChunk dm s fresh several
    len (s.samplePages len) (show 0 < s.samplePages len by omega) le_rfl (.inl rfl)
  refine ⟨depth, part, positive, small, twice, ?_⟩
  intro latency property allowed o stored baseline early leaf
  unfold collectSample
  simp only [if_pos several, baseline]
  refine Ends.map (?_ : Ends (fun r : Tested => property r.o.pages) allowed _) fun r kept => kept
  rw [sampleLoop, if_pos Nat.one_ne_zero]
  apply (leads latency property allowed (o.timed s len) 0 stored (fun short => by omega)
    early leaf).bind
  intro r settled
  -- the loop stops behind a test without changes
  rw [sampleLoop, if_neg (not_not.mpr settled.modified)]
  exact settled.pages

end Leaf

/-! ### The loop that tries spare pages -/

section Tried

variable {dm : DataModel} {s : MemState} {latency : ℕ → ℚ} {chunk npages len : ℕ}

/-- A spare page is measured in the place of another, and both are back in their own when the
latencies are compared. -/
theorem exists_trySubstitute_eq (s : MemState) (latency : ℕ → ℚ) (chunk npages len page : ℕ)
    (f : Locals) :
    ∃ o : Optimiser, o.pages = f.o.pages ∧ o.measured = f.o.measured + 1 ∧
      trySubstitute s latency chunk npages len page f =
        (improvePages chunk npages (npages + page) (latency f.o.measured) { f with o := o }).map
          acceptPage := by
  refine ⟨((f.o.swap (npages - chunk + f.j) (npages + page)).timed s
    (subsetLen s chunk npages len f.j)).swap (npages - chunk + f.j) (npages + page),
    swapAt_swapAt _ _ _, rfl, ?_⟩
  unfold trySubstitute
  dsimp only
  cases improvePages chunk npages (npages + page) (latency f.o.measured) _ <;> rfl

/-- A pass of the loop. -/
theorem replacePages_of_ok {page fuel : ℕ} {f g : Locals} (more : f.j < chunk)
    (chosen : substitute dm (s.nmpages - npages) f.k f.o.availableIndex = .ok page)
    (tried : trySubstitute s latency chunk npages len page f = .ok g) :
    replacePages dm s latency chunk npages len (fuel + 1) f =
      replacePages dm s latency chunk npages len fuel g := by
  rw [replacePages, if_pos more, chosen]
  change (trySubstitute s latency chunk npages len page f >>= _) = _
  rw [tried]
  rfl

/-- `fixup_chunk` comes to the new baseline where there are two spare pages. -/
theorem searchPages_of_ok (two : npages + 2 ≤ s.nmpages) {i : ℕ} {chunkBaseline : ℚ}
    {o : Optimiser} {f g : Locals}
    (kept : keptPages s latency i chunk npages chunkBaseline o = .ok f)
    (run : replacePages dm s latency chunk npages len (2 * npages) f = .ok g) :
    searchPages dm s latency i chunk npages len chunkBaseline o =
      .ok { g with o.availableIndex :=
        (g.k + g.o.availableIndex) % (s.nmpages - npages - 1) } := by
  have divisor : dm.subSize (s.nmpages - npages) 1 = s.nmpages - npages - 1 :=
    subSize_of_le (by omega)
  rw [searchPages, kept]
  change (replacePages dm s latency chunk npages len (2 * npages) f >>= _) = _
  rw [run, divisor]
  change (remainder _ _ >>= _) = _
  rw [remainder_eq (by omega)]
  rfl

end Tried

/-! ### With fewer than two spare pages -/

section Few

variable {dm : DataModel} {s : MemState} {chunk npages : ℕ}

/-- A call that has kept no page of its chunk then fails. -/
theorem fixupChunk_of_few (latency : ℕ → ℚ) (fresh : ℕ → ℕ) {fault : Fault}
    (fails : ∀ k availableIndex,
      substitute dm (s.nmpages - npages) k availableIndex = .error fault)
    {bad chunkBaseline : ℚ} (positive : 0 < chunk) (small : chunk ≤ 20) (part : chunk < npages)
    (above : 995 / 1000 * bad > chunkBaseline) (i len : ℕ) (baseline : ℚ) (o : Optimiser)
    (returned : ∀ n < chunk, latency (o.measured + n) = bad) :
    fixupChunk dm s latency fresh i chunk npages len baseline chunkBaseline o = .error fault := by
  obtain ⟨f, kept, all, _⟩ := keptPages_allBad s latency positive small part i above o returned
  -- the first pass of the loop that tries spare pages fails
  obtain ⟨fuel, more⟩ : ∃ fuel, 2 * npages = fuel + 1 := Nat.exists_eq_succ_of_ne_zero (by omega)
  have stopped : replacePages dm s latency chunk npages len (2 * npages) f = .error fault := by
    rw [more, replacePages, if_pos (all.j.trans_lt positive), fails]
    rfl
  rw [fixupChunk, searchPages, kept]
  change Except.map _ (replacePages dm s latency chunk npages len (2 * npages) f >>= _) = _
  rw [stopped]
  rfl

/-- Without two spare pages there are latencies with which a call fails. -/
theorem collectSample_of_few (dm : DataModel) (fresh : ℕ → ℕ) (len : ℕ)
    (few : s.nmpages < s.samplePages len + 2) (several : 1 < s.samplePages len) (o : Optimiser)
    (stored : s.samplePages len ≤ o.pages.length) :
    ∃ latency : ℕ → ℚ, (∀ n, 0 < latency n) ∧
      ∃ fault, Unsafe fault ∧ collectSample dm s latency fresh len o = .error fault := by
  obtain ⟨fault, risk, fails⟩ := substitute_of_few dm
    (show s.nmpages - s.samplePages len < 2 by omega)
  obtain ⟨depth, part, positive, small, twice, leads⟩ :=
    exists_leaf_collectSample dm s fresh len several
  -- every part that is taken out pays, and no page that is put back does
  let low (n : ℕ) : Prop := o.measured < n ∧ n < o.measured + 1 + depth
  have late : ∀ n, o.measured + 1 + depth ≤ n → lowWhere low n = 100 :=
    fun n after => if_neg fun inside => by omega
  have failed : Ends (fun _ => False) (· = fault)
      (collectSample dm s (lowWhere low) fresh len o) := by
    refine (leads (lowWhere low) (fun _ => False) (· = fault) o stored
      (if_neg fun inside => by omega) (fun n before => if_pos ⟨by omega, by omega⟩)
      fun o' _ _ measured => ?_).mono fun _ never => never
    have above : 995 / 1000 * (100 : ℚ) > 1 := by norm_num
    rw [fixupChunk_of_few (lowWhere low) fresh fails positive small (by omega) above]
    · rfl
    · exact fun n _ => late _ (by omega)
  refine ⟨lowWhere low, lowWhere_pos low, fault, risk, ?_⟩
  cases result : collectSample dm s (lowWhere low) fresh len o with
  | ok r => exact (failed.of_ok result).elim
  | error fault' => rw [failed.of_error result]

end Few

/-! ### The samples -/

/-- The lengths that `collect_data` lays out: four at a time, at a distance that is then
doubled. -/
def sampleLens (maxlen : ℕ) : ℕ → ℕ → ℕ → List ℕ
  | 0, _, _ => []
  | fuel + 1, len, incr =>
    if len ≤ maxlen then
      ((List.range 4).map (len + · * incr)).filter (· ≤ maxlen) ++
        sampleLens maxlen fuel (len + 4 * incr) (2 * incr)
    else []

/-- Those of `collect_data(512, ...)`. -/
def sampleGrid (maxlen : ℕ) : List ℕ := sampleLens maxlen (maxlen + 1) 512 (512 / 4)

/-- The data points when the first and the last of `samples` have been measured. -/
def measuredEnds (samples : ℕ) (first last : ℚ) (i : ℕ) : CacheResult :=
  if i = 0 then ⟨first, -1, -1⟩ else if i = samples - 1 then ⟨last, -1, -1⟩ else ⟨-1, -1, -1⟩

/-- Some search through the samples of this largest length collects the one of this length. -/
def Collectable (maxlen len : ℕ) : Prop :=
  ∃ i first last sampled c, 0 < first ∧ 0 < last ∧ (sampleGrid maxlen)[i]? = some len ∧
    search sampled (sampleGrid maxlen).length 0 ((sampleGrid maxlen).length - 1)
      ⟨measuredEnds (sampleGrid maxlen).length first last, 0, []⟩ = some c ∧
    i ∈ collected c.events

/-- **When the spare-page arithmetic is safe.** For every largest length and every sample,
whatever the page list and `available_index` are: in no call of `collect_sample`, with whatever
latencies, does `fixup_chunk` divide by zero or leave the spare pages, if and only if the largest
length has at least two pages more than the sample, or the sample is one page. -/
theorem collectSample_safe_iff (dm : DataModel) (s : MemState) (fresh : ℕ → ℕ) (len : ℕ)
    (o : Optimiser) (stored : s.samplePages len ≤ o.pages.length) :
    (∀ latency : ℕ → ℚ, (∀ n, 0 ≤ latency n) →
        ∀ fault, collectSample dm s latency fresh len o = .error fault → ¬Unsafe fault) ↔
      s.samplePages len ≤ 1 ∨ s.samplePages len + 2 ≤ s.nmpages := by
  constructor
  · intro safe
    by_contra neither
    obtain ⟨several, few⟩ := not_or.mp neither
    obtain ⟨latency, positive, fault, risk, failed⟩ :=
      collectSample_of_few dm fresh len (not_le.mp few) (not_le.mp several) o stored
    exact safe latency (fun n => (positive n).le) fault failed risk
  · rintro (one | two) latency - fault failed
    · have returned : collectSample dm s latency fresh len o = .ok _ := if_neg (not_lt.mpr one)
      rw [returned] at failed
      cases failed
    -- the only other fault is the sort of no pages
    have overflow := (ends_collectSample dm s latency fresh len o).of_error failed two
    rw [overflow]
    rintro (division | outside)
    · cases division
    · cases outside

/-- Two of four pages. -/
theorem collectSample_safe_iff_fourPages :
    MemState.fourPages.samplePages 32 + 2 = MemState.fourPages.nmpages ∧
      ∀ latency : ℕ → ℚ, (∀ n, 0 ≤ latency n) → ∀ fault,
        collectSample .ilp32 .fourPages latency (fun _ => 7) 32 .fourPages = .error fault →
          ¬Unsafe fault :=
  ⟨by decide, (collectSample_safe_iff .ilp32 .fourPages (fun _ => 7) 32 .fourPages
    (by decide)).mpr (.inr (by decide))⟩

/-- Sixteen kilobytes in pages of four. -/
def MemState.sixteenK : MemState := ⟨16384, 16384, 64, 4096, 1, 8, machine_lp64⟩

/-- A search whose samples all have half of the last latency collects the last but two. -/
theorem collectable_12288 : Collectable 16384 12288 := by
  have length : (sampleGrid 16384).length = 21 := by decide +kernel
  have executed : (search (fun _ => 1) 21 0 20 ⟨measuredEnds 21 1 2, 0, []⟩).map
      (fun c => collected c.events) = some [10, 15, 17, 18, 19] := by
    decide +kernel
  obtain ⟨c, returned, samples⟩ := Option.map_eq_some_iff.mp executed
  refine ⟨18, 1, 2, fun _ => 1, c, by norm_num, by norm_num, by decide +kernel, ?_, ?_⟩
  · rw [length]
    exact returned
  · rw [samples]
    decide

/-- **The slip.** With `-M 16k` and pages of 4096 bytes the sample of 12288 bytes leaves one spare
page, and `fixup_chunk` divides by zero. -/
theorem collectSample_unsafe :
    ¬∀ (dm : DataModel) (s : MemState) (len : ℕ) (latency : ℕ → ℚ) (fresh : ℕ → ℕ)
      (o : Optimiser) (fault : Fault), Collectable s.maxlen len → len < s.maxlen →
      1 < s.pagesOf len → o.pages.length = s.nmpages →
      collectSample dm s latency fresh len o = .error fault → ¬Unsafe fault := by
  intro always
  have few : MemState.sixteenK.nmpages < MemState.sixteenK.samplePages 12288 + 2 := by decide
  obtain ⟨latency, _, fault, risk, failed⟩ := collectSample_of_few .lp64 (fun _ => 7) 12288 few
    (by decide) .fourPages (by decide)
  exact always .lp64 .sixteenK 12288 latency (fun _ => 7) .fourPages fault
    collectable_12288 (by decide) (by decide) (by decide) failed risk

end Lmbench
