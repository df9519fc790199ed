import Lmbench.Cache.Spare

/-!
# Pages that the optimiser loses

`fixup_chunk` saves the page list, and copies it back, with the size of an `int` for each
entry of type `size_t`. Where the two differ only the first half of the list is restored,
and a page that was exchanged for a spare page from the other half is lost.

## Main results

* `not_perm_bcopyPages` - a list that is restored in part after such an exchange
* `fixupChunk_loses` - latencies that lead `fixup_chunk` to the exchange and back
* `collectSample_perm_iff` - when `collect_sample` rearranges the page list
-/

namespace Lmbench

open Lib

section Rearranging

variable (dm : DataModel) (s : MemState) (len : ℕ) (chain : Chain)

/-- Whatever latencies `measure` returns, and whatever spare page is the next: every call of
`collect_sample` that has a result leaves a rearrangement of the page list. -/
def RearrangesOnReturn : Prop :=
  ∀ latency : ℕ → ℚ, (∀ n, 0 ≤ latency n) → ∀ (fresh : ℕ → ℕ) (availableIndex measured : ℕ)
    (sample : ℚ) (o : Optimiser),
    collectSample dm s latency fresh len ⟨chain, availableIndex, measured⟩ = .ok (sample, o) →
      o.pages.Perm chain.pages

/-- And every call has a result. -/
def Rearranges : Prop :=
  ∀ latency : ℕ → ℚ, (∀ n, 0 ≤ latency n) → ∀ (fresh : ℕ → ℕ) (availableIndex measured : ℕ),
    ∃ sample o, collectSample dm s latency fresh len ⟨chain, availableIndex, measured⟩ =
      .ok (sample, o) ∧ o.pages.Perm chain.pages

end Rearranging

/-! ### A chunk that is kept whole -/

section Whole

variable {dm : DataModel} {s : MemState} {latency : ℕ → ℚ} {fresh : ℕ → ℕ} {chunk npages : ℕ}

/-- Latencies that are all low keep every page. -/
theorem keepPages_of_low (s : MemState) (chunk npages fuel : ℕ) {f : Locals}
    (low : ∀ n, f.o.measured ≤ n → 995 / 1000 * latency n ≤ f.chunkBaseline)
    (enough : f.k ≤ f.j + fuel) : f.k ≤ (keepPages s latency chunk npages fuel f).j := by
  induction fuel generalizing f with
  | zero => exact enough
  | succ fuel ih =>
    rw [keepPages]
    split
    · have kept : keepPage s latency chunk npages f = { f with
          j := f.j + 1
          latencies := f.latencies.set f.j (latency f.o.measured)
          o := f.o.timed s ((npages - chunk + f.j + 1) * s.pagesize) } :=
        if_pos (low _ le_rfl)
      rw [kept]
      refine ih (f := { f with
        j := f.j + 1
        latencies := f.latencies.set f.j (latency f.o.measured)
        o := f.o.timed s ((npages - chunk + f.j + 1) * s.pagesize) })
        (fun n after => low n ((Nat.le_succ f.o.measured).trans after)) ?_
      simp only
      omega
    · exact not_lt.mp ‹_›

theorem fixupChunk_of_low (i chunk npages len : ℕ) (baseline chunkBaseline : ℚ) (o : Optimiser)
    (low : ∀ n, o.measured ≤ n → 995 / 1000 * latency n ≤ chunkBaseline) :
    fixupChunk dm s latency fresh i chunk npages len baseline chunkBaseline o =
      .error .overflow := by
  have all : chunk ≤ (keepPages s latency chunk npages chunk
      (startSearch s i chunk npages chunkBaseline o)).j := by
    refine keepPages_of_low (f := startSearch s i chunk npages chunkBaseline o) s chunk npages
      chunk (fun n after => low n ?_) (Nat.zero_add chunk).ge
    rwa [measured_startSearch] at after
  rw [fixupChunk, searchPages, keptPages_of_all s latency i chunkBaseline o all]
  rfl

/-- Where every part that is taken out pays, and every page that is put back is kept,
`pagesort` is called for no pages. -/
theorem exists_collectSample_overflows (dm : DataModel) (s : MemState) (fresh : ℕ → ℕ) (len : ℕ)
    (several : 1 < s.samplePages len) (o : Optimiser)
    (stored : s.samplePages len ≤ o.pages.length) :
    ∃ latency : ℕ → ℚ, (∀ n, 0 ≤ latency n) ∧
      collectSample dm s latency fresh len o = .error .overflow := by
  obtain ⟨depth, part, _, _, _, leads⟩ := exists_leaf_collectSample dm s fresh len several
  have low : ∀ n, o.measured < n → lowWhere (o.measured < ·) n = 1 := fun n after => if_pos after
  have failed := leads (lowWhere (o.measured < ·)) (fun _ => False) (· = .overflow) o stored
    (if_neg (lt_irrefl _)) (fun n _ => low _ (by omega)) fun o' _ _ measured => by
      rw [fixupChunk_of_low]
      · rfl
      · intro n after
        rw [low n (by omega)]
        norm_num
  refine ⟨lowWhere (o.measured < ·), fun n => (lowWhere_pos _ n).le, ?_⟩
  cases result : collectSample dm s (lowWhere (o.measured < ·)) fresh len o with
  | ok r => exact (failed.of_ok result).elim
  | error fault => rw [failed.of_error result]

end Whole

/-! ### A page that is exchanged and lost -/

section Lost

variable {dm : DataModel} {s : MemState} {latency : ℕ → ℚ} {fresh : ℕ → ℕ} {chunk npages : ℕ}

/-- The page list with the chunk at the end of the working set, and its last page exchanged for
the last of all. -/
def tradedPages (s : MemState) (chunk npages : ℕ) (pages : List ℕ) : List ℕ :=
  swapAt (swapAll pages (moveChunk 0 chunk npages)) (npages - 1) (s.nmpages - 1)

/-- **Half of the list restored.** The last page of the chunk is in its place again, and still
the last of all. -/
theorem not_perm_bcopyPages {pages : List ℕ} (half : 2 * dm.sizeofInt = dm.sizeofSizeT)
    (positive : 0 < chunk) (twice : 2 * chunk ≤ npages) (two : npages + 2 ≤ s.nmpages)
    (stored : pages.length = s.nmpages) (nodup : pages.Nodup) :
    ¬(bcopyPages dm s pages (tradedPages s chunk npages pages)).Perm pages := by
  intro perm
  have wide := dm.four_le_int
  have length : (tradedPages s chunk npages pages).length = pages.length := by
    simp [tradedPages]
  -- the last entry is not reached by the copy
  have reach : savedBytes dm s ≤ dm.sizeofSizeT * (s.nmpages - 1) := by
    rw [savedBytes, ← half, Nat.mul_comm 2, Nat.mul_assoc]
    exact Nat.mul_le_mul_left _ (by omega)
  have last : (bcopyPages dm s pages (tradedPages s chunk npages pages))[s.nmpages - 1]? =
      pages[chunk - 1]? := by
    rw [bcopyPages, getElem?_copyBytes_of_le dm.sizeofSizeT_pos reach, tradedPages,
      getElem?_swapAt_right (by rw [length_swapAll]; omega) (by rw [length_swapAll]; omega),
      getElem?_moveChunk (by omega) (by omega), if_neg (by omega), if_pos (by omega)]
    have period : (npages - 1 - 0) % (npages - chunk - 0) = chunk - 1 := by
      rw [Nat.mod_eq_sub_mod (by omega), Nat.mod_eq_of_lt (by omega)]
      omega
    rw [period, Nat.zero_add]
  -- the entry of the chunk is copied
  have copied : (bcopyPages dm s pages (tradedPages s chunk npages pages))[chunk - 1]? =
      pages[chunk - 1]? := by
    have whole : chunk - 1 < savedBytes dm s / dm.sizeofSizeT := by
      rw [savedBytes, ← half, Nat.mul_comm 2, Nat.mul_div_mul_left _ _ (by omega)]
      omega
    have taken := @take_copyBytes dm.littleEndian dm.sizeofSizeT (savedBytes dm s) pages
      (tradedPages s chunk npages pages) dm.sizeofSizeT_pos length
    rw [bcopyPages, ← List.getElem?_take_of_lt whole, taken, List.getElem?_take_of_lt whole]
  have inside : chunk - 1 <
      (bcopyPages dm s pages (tradedPages s chunk npages pages)).length := by
    rw [perm.length_eq]
    omega
  have same := (List.getElem?_inj inside (perm.nodup_iff.mpr nodup)).mp (copied.trans last.symm)
  omega

/-- The pages of the chunk so far have all been kept. -/
structure Keeping (chunk : ℕ) (o : Optimiser) (f : Locals) : Prop where
  k : f.k = chunk
  below : f.j < chunk
  swapped : f.swapped = 0
  chunkBaseline : f.chunkBaseline = 1
  length : f.latencies.length = 20
  pages : f.o.pages = o.pages
  availableIndex : f.o.availableIndex = o.availableIndex
  measured : f.o.measured = o.measured + f.j

/-- All of them but the last, which had a high latency. -/
structure LastBad (chunk : ℕ) (o : Optimiser) (f : Locals) : Prop where
  j : f.j = chunk - 1
  k : f.k = chunk - 1
  swapped : f.swapped = 0
  chunkBaseline : f.chunkBaseline = 1
  length : f.latencies.length = 20
  worst : f.latencies.getD (chunk - 1) 0 = 100
  pages : f.o.pages = o.pages
  availableIndex : f.o.availableIndex = o.availableIndex
  measured : f.o.measured = o.measured + chunk

theorem keepPage_keeping (s : MemState) (npages : ℕ) {o : Optimiser} {f : Locals}
    (keeping : Keeping chunk o f) (more : f.j + 1 < chunk)
    (low : latency (o.measured + f.j) = 1) :
    Keeping chunk o (keepPage s latency chunk npages f) ∧
      (keepPage s latency chunk npages f).j = f.j + 1 := by
  have kept : 995 / 1000 * latency f.o.measured ≤ f.chunkBaseline := by
    rw [keeping.measured, low, keeping.chunkBaseline]
    norm_num
  rw [keepPage, if_pos kept]
  refine ⟨⟨keeping.k, more, keeping.swapped, keeping.chunkBaseline, ?_, keeping.pages,
    keeping.availableIndex, ?_⟩, rfl⟩
  · rw [List.length_set, keeping.length]
  · exact congrArg (· + 1) keeping.measured

/-- The last page is exchanged with itself. -/
theorem keepPage_lastBad (s : MemState) (npages : ℕ) (small : chunk ≤ 20) {o : Optimiser}
    {f : Locals} (keeping : Keeping chunk o f) (last : f.j + 1 = chunk)
    (high : latency (o.measured + f.j) = 100) :
    LastBad chunk o (keepPage s latency chunk npages f) := by
  have discarded : ¬995 / 1000 * latency f.o.measured ≤ f.chunkBaseline := by
    rw [keeping.measured, high, keeping.chunkBaseline]
    norm_num
  have k : f.k - 1 = f.j := by
    rw [keeping.k]
    omega
  have slot : chunk - 1 = f.j := by omega
  have length := keeping.length
  rw [keepPage, if_neg discarded, k]
  refine ⟨slot.symm, slot.symm, keeping.swapped, keeping.chunkBaseline, ?_, ?_, ?_,
    keeping.availableIndex, ?_⟩
  · rw [List.length_set, length]
  · rw [slot, List.getD_eq_getElem?_getD, List.getElem?_set_self (by omega), keeping.measured, high]
    rfl
  · exact (swapAt_self _ _).trans keeping.pages
  · change f.o.measured + 1 = o.measured + chunk
    rw [keeping.measured]
    omega

theorem keepPages_lastBad (latency : ℕ → ℚ) (s : MemState) (npages fuel : ℕ) (small : chunk ≤ 20)
    {o : Optimiser} {f : Locals} (keeping : Keeping chunk o f) (enough : chunk ≤ f.j + fuel)
    (low : ∀ n, n + 1 < chunk → latency (o.measured + n) = 1)
    (high : latency (o.measured + (chunk - 1)) = 100) :
    LastBad chunk o (keepPages s latency chunk npages fuel f) := by
  have below := keeping.below
  induction fuel generalizing f with
  | zero => omega
  | succ fuel ih =>
    rw [keepPages, if_pos (by rw [keeping.k]; exact below)]
    by_cases more : f.j + 1 < chunk
    · obtain ⟨keeping', j⟩ := keepPage_keeping s npages keeping more (low f.j more)
      exact ih keeping' (by omega) keeping'.below
    · have last : f.j + 1 = chunk := by omega
      have slot : chunk - 1 = f.j := by omega
      have bad := keepPage_lastBad s npages small keeping last (slot ▸ high)
      -- nothing is left, so the loop ends here
      cases fuel with
      | zero => exact bad
      | succ fuel =>
        rw [keepPages, if_neg (by rw [bad.j, bad.k]; exact lt_irrefl _)]
        exact bad

/-- `fixup_chunk` then comes to the loop that tries spare pages with the last page of the chunk
to replace. -/
theorem keptPages_lastBad (s : MemState) (positive : 0 < chunk) (small : chunk ≤ 20)
    (part : chunk < npages) {o : Optimiser} (first : o.availableIndex = 0)
    (low : ∀ n, n + 1 < chunk → latency (o.measured + n) = 1)
    (high : latency (o.measured + (chunk - 1)) = 100) :
    ∃ f, keptPages s latency 0 chunk npages 1 o = .ok { f with k := 0 } ∧
      LastBad chunk (o.swaps (moveChunk 0 chunk npages)) f := by
  have index : (startSearch s 0 chunk npages 1 o).o.availableIndex = 0 := by
    unfold startSearch
    dsimp only
    split
    · rfl
    · rw [availableIndex_swaps, first]
  have measured := measured_swaps o (moveChunk 0 chunk npages)
  have started : Keeping chunk (o.swaps (moveChunk 0 chunk npages))
      (startSearch s 0 chunk npages 1 o) :=
    { k := rfl
      below := positive
      swapped := rfl
      chunkBaseline := rfl
      length := List.length_replicate
      pages := by rw [pages_startSearch, pages_swaps]
      availableIndex := by rw [index, availableIndex_swaps, first]
      measured := by rw [measured_startSearch, measured]; rfl }
  have bad := keepPages_lastBad latency s npages chunk small started (Nat.zero_add chunk).ge
    (by rwa [measured]) (by rwa [measured])
  refine ⟨_, ?_, bad⟩
  -- one page is sorted already
  rw [keptPages_eq s latency part 0 1 o rfl (by rw [bad.j]; omega)]
  generalize keepPages s latency chunk npages chunk (startSearch s 0 chunk npages 1 o) = f at bad ⊢
  have alone : chunk - f.j = 1 := by
    rw [bad.j]
    omega
  rw [alone]
  rfl

/-- The first spare page that is tried is the last of all pages, and it is accepted. -/
theorem trySubstitute_accepts (s : MemState) (npages : ℕ) (positive : 0 < chunk)
    (small : chunk ≤ 20) (len page : ℕ) {o : Optimiser} {f : Locals} (bad : LastBad chunk o f)
    (low : latency (o.measured + chunk) = 1) :
    ∃ g, trySubstitute s latency chunk npages len page { f with k := 0 } = .ok g ∧
      g.j = chunk ∧ g.swapped = 1 ∧ g.k = 1 ∧ g.o.measured = o.measured + chunk + 1 ∧
      g.o.pages = swapAt o.pages (npages - 1) (npages + page) := by
  have length := bad.length
  obtain ⟨o', same, once, tried⟩ :=
    exists_trySubstitute_eq s latency chunk npages len page { f with k := 0 }
  have pages : o'.pages = o.pages := same.trans bad.pages
  have measured : o'.measured = o.measured + chunk + 1 := once.trans (congrArg (· + 1) bad.measured)
  rw [tried]
  simp only [bad.measured, low]
  have alone : chunk - f.j = 1 := by
    rw [bad.j]
    omega
  rw [improvePages, if_pos (by simp only [bad.worst]; norm_num), alone, pagesort,
    if_neg Nat.one_ne_zero]
  -- one page is sorted already, and its latency is low enough
  have good : 995 / 1000 * (f.latencies.set (chunk - 1) 1).getD f.j 0 ≤ f.chunkBaseline := by
    rw [bad.j, List.getD_eq_getElem?_getD, List.getElem?_set_self (by omega), bad.chunkBaseline]
    norm_num
  refine ⟨{ f with
    j := f.j + 1
    swapped := f.swapped + 1
    k := 1
    latencies := f.latencies.set (chunk - 1) 1
    o := o'.swap (npages - 1) (npages + page) }, congrArg Except.ok (if_pos good), ?_, ?_, rfl,
    measured, ?_⟩
  · simp only [bad.j]
    omega
  · simp only [bad.swapped]
  · exact congrArg (swapAt · (npages - 1) (npages + page)) pages

/-- **A page that is lost.** All pages of the chunk but the last one are kept, and that is
exchanged for the last page of all; but in the end there is no benefit. -/
theorem fixupChunk_loses (latency : ℕ → ℚ) (dm : DataModel) (s : MemState) (fresh : ℕ → ℕ)
    (positive : 0 < chunk) (small : chunk ≤ 20) (part : chunk < npages)
    (two : npages + 2 ≤ s.nmpages) (len : ℕ)
    {o : Optimiser} (stored : o.pages.length = s.nmpages) (first : o.availableIndex = 0)
    (kept : ∀ n, n + 1 < chunk → latency (o.measured + n) = 1)
    (discarded : latency (o.measured + (chunk - 1)) = 100)
    (accepted : latency (o.measured + chunk) = 1)
    (late : ∀ n, o.measured + chunk < n → latency n = 100) :
    ∃ t, fixupChunk dm s latency fresh 0 chunk npages len 100 1 o = .ok t ∧
      Settled latency npages (· = bcopyPages dm s o.pages (tradedPages s chunk npages o.pages)) t
      := by
  obtain ⟨f, returned, bad⟩ := keptPages_lastBad s positive small part first kept discarded
  have index : f.o.availableIndex = 0 := by
    rw [bad.availableIndex, availableIndex_swaps, first]
  have measured := measured_swaps o (moveChunk 0 chunk npages)
  obtain ⟨g, tried, j, swapped, k, measured', pages⟩ := trySubstitute_accepts s npages positive
    small len (s.nmpages - npages - 1) bad (by rwa [measured])
  have last : npages + (s.nmpages - npages - 1) = s.nmpages - 1 := by omega
  rw [pages_swaps, last] at pages
  rw [measured] at measured'
  -- one pass of the loop that tries spare pages
  have chosen : substitute dm (s.nmpages - npages) 0 f.o.availableIndex =
      .ok (s.nmpages - npages - 1) := by
    rw [substitute_eq (by omega), index]
    simp only [Nat.zero_add, Nat.zero_mod, Nat.sub_zero]
  obtain ⟨fuel, more⟩ : ∃ fuel, 2 * npages = fuel + 1 := Nat.exists_eq_succ_of_ne_zero (by omega)
  have run : replacePages dm s latency chunk npages len (2 * npages) { f with k := 0 } = .ok g := by
    rw [more, replacePages_of_ok (by simp only [bad.j]; omega) chosen tried]
    cases fuel with
    | zero => rfl
    | succ fuel => rw [replacePages, if_neg (by omega)]
  -- the new baseline is no better than the old one
  have none : 999 / 1000 * (100 : ℚ) ≤ latency g.o.measured := by
    rw [late _ (by omega)]
    norm_num
  have restored : bcopyPages dm s (bcopyPages dm s o.pages ((List.range s.nmpages).map fresh))
      g.o.pages = bcopyPages dm s o.pages (tradedPages s chunk npages o.pages) := by
    rw [bcopyPages_saved stored, pages]
    rfl
  rw [fixupChunk, searchPages_of_ok two returned run]
  refine ⟨_, congrArg Except.ok ((if_pos ?_).trans (if_pos none)), ?_⟩
  · simp only [swapped]
    exact Nat.one_ne_zero
  · refine ⟨rfl, rfl, fun n after => late n ?_, restored, ?_⟩
    · have later : g.o.measured + 1 ≤ n := after
      omega
    · change npages ≤ (bcopyPages dm s _ g.o.pages).length
      rw [restored, bcopyPages, length_copyBytes, tradedPages, length_swapAt, length_swapAll]
      omega

end Lost

/-- Where half of the list is copied back, there are latencies with which a call of
`collect_sample` loses a page. -/
theorem exists_collectSample_loses (dm : DataModel) (s : MemState) (fresh : ℕ → ℕ) (len : ℕ)
    (half : 2 * dm.sizeofInt = dm.sizeofSizeT) (several : 1 < s.samplePages len)
    (two : s.samplePages len + 2 ≤ s.nmpages) (o : Optimiser) (stored : o.pages.length = s.nmpages)
    (nodup : o.pages.Nodup) (first : o.availableIndex = 0) :
    ∃ latency : ℕ → ℚ, (∀ n, 0 ≤ latency n) ∧ ∃ sample o',
      collectSample dm s latency fresh len o = .ok (sample, o') ∧ ¬o'.pages.Perm o.pages := by
  obtain ⟨depth, part, positive, small, twice, leads⟩ :=
    exists_leaf_collectSample dm s fresh len several
  -- low latencies but for the baseline, one page of the chunk and all that comes later
  let low (n : ℕ) : Prop := o.measured < n ∧ n ≤ o.measured + 1 + depth + part ∧
    n ≠ o.measured + depth + part
  have high : ∀ n, ¬low n → lowWhere low n = 100 := fun n bad => if_neg bad
  have good : ∀ n, low n → lowWhere low n = 1 := fun n good => if_pos good
  have lost := leads (lowWhere low) (¬·.Perm o.pages) (fun _ => False) o (by omega)
    (high _ fun bad => by omega) (fun n before => good _ ⟨by omega, by omega, by omega⟩)
    fun o' pages index measured => by
      obtain ⟨t, returned, settled⟩ := fixupChunk_loses (lowWhere low) dm s fresh positive small
        (show part < s.samplePages len by omega) two len (by rwa [pages])
        (index.trans first) (fun n inside => good _ ⟨by omega, by omega, by omega⟩)
        (high _ fun bad => by omega) (good _ ⟨by omega, by omega, by omega⟩)
        fun n after => high _ fun bad => by omega
      rw [returned]
      refine ⟨settled.modified, settled.baseline, settled.high, ?_, settled.stored⟩
      rw [settled.pages, pages]
      exact not_perm_bcopyPages half positive twice two stored nodup
  refine ⟨lowWhere low, fun n => (lowWhere_pos low n).le, ?_⟩
  cases result : collectSample dm s (lowWhere low) fresh len o with
  | ok r => exact ⟨r.1, r.2, rfl, lost.of_ok result⟩
  | error fault => exact (lost.of_error result).elim

/-- **When `collect_sample` loses no page**, with two spare pages. Every call of it has a result
and leaves a rearrangement of the page list if and only if the sample has one page; and every
call that has a result leaves one if and only if it has, or `size_t` is no wider than `int`. -/
theorem collectSample_perm_iff (dm : DataModel) (s : MemState) (len : ℕ) (chain : Chain)
    (built : dm.sizeofInt = dm.sizeofSizeT ∨ 2 * dm.sizeofInt = dm.sizeofSizeT)
    (two : s.samplePages len + 2 ≤ s.nmpages) (stored : chain.pages.length = s.nmpages)
    (nodup : chain.pages.Nodup) :
    (Rearranges dm s len chain ↔ s.samplePages len ≤ 1) ∧
      (RearrangesOnReturn dm s len chain ↔
        dm.sizeofInt = dm.sizeofSizeT ∨ s.samplePages len ≤ 1) := by
  have single : s.samplePages len ≤ 1 → Rearranges dm s len chain := by
    intro one latency _ fresh availableIndex measured
    refine ⟨_, _, if_neg (not_lt.mpr one), ?_⟩
    exact List.Perm.refl chain.pages
  refine ⟨⟨fun always => ?_, single⟩, fun always => ?_, ?_⟩
  · by_contra several
    obtain ⟨latency, nonneg, failed⟩ := exists_collectSample_overflows dm s (fun _ => 0) len
      (not_le.mp several) ⟨chain, 0, 0⟩ (show _ ≤ chain.pages.length by omega)
    obtain ⟨sample, o, returned, _⟩ := always latency nonneg (fun _ => 0) 0 0
    rw [failed] at returned
    cases returned
  · by_contra other
    obtain ⟨wider, several⟩ := not_or.mp other
    obtain ⟨latency, nonneg, sample, o, returned, lost⟩ := exists_collectSample_loses dm s
      (fun _ => 0) len (built.resolve_left wider) (not_le.mp several) two ⟨chain, 0, 0⟩ stored
      nodup rfl
    exact lost (always latency nonneg (fun _ => 0) 0 0 sample o returned)
  · rintro (same | one) latency nonneg fresh availableIndex measured sample o returned
    · exact ((ends_collectSample dm s latency fresh len _).of_ok returned).perm same stored
    · obtain ⟨sample', o', returned', perm⟩ :=
        single one latency nonneg fresh availableIndex measured
      rw [returned] at returned'
      cases returned'
      exact perm

/-- On the 32-bit target a call for two pages of four loses none, if it returns. -/
theorem collectSample_perm_iff_fourPages :
    ¬Rearranges .ilp32 .fourPages 32 ⟨[0, 16, 32, 48], fun _ => none, fun _ => none⟩ ∧
      RearrangesOnReturn .ilp32 .fourPages 32
        ⟨[0, 16, 32, 48], fun _ => none, fun _ => none⟩ :=
  have both := collectSample_perm_iff .ilp32 .fourPages 32
    ⟨[0, 16, 32, 48], fun _ => none, fun _ => none⟩ (.inl rfl) (by decide) rfl (by decide)
  ⟨fun always => absurd (both.1.mp always) (by decide), both.2.mpr (.inl rfl)⟩

/-- **The slip.** With 8 bytes for a `size_t` and 4 for an `int`, half of the page list
is copied back: the page at 48 is lost, and the one at 0 is there twice. -/
theorem collectSample_loses_page :
    ∃ sample o', collectSample .lp64 .fourPages Optimiser.noBenefit (fun _ => 7) 32 .fourPages =
        .ok (sample, o') ∧
      o'.pages = [0, 16, 32, 0] ∧ ¬o'.pages.Perm Optimiser.fourPages.pages := by
  have executed : (collectSample .lp64 .fourPages Optimiser.noBenefit (fun _ => 7) 32
      .fourPages).toOption.map (fun r => r.2.pages) = some [0, 16, 32, 0] := by
    decide +kernel
  obtain ⟨⟨sample, o'⟩, returned, pages⟩ := Option.map_eq_some_iff.mp executed
  refine ⟨sample, o', eq_ok_of_toOption returned, pages, ?_⟩
  rw [show o'.pages = [0, 16, 32, 0] from pages]
  decide

end Lmbench
