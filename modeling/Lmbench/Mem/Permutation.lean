import Lmbench.Lib.Allocation
import Lmbench.Machine
import Lmbench.Mem.Initialize

/-!
# `permutation`

`permutation` fills an array with multiples of `scale` and exchanges each entry with
one that a running seed chooses. The seed is a `size_t` that survives the call: it is
shifted, so that bits are lost, and mixed with `rand()`, and it is drawn anew when it
is zero. Which entry is chosen does not matter for what the array holds in the end.

An access outside the block that `malloc` has returned has no result here. The size of the block
is the product of `max` and the size of an entry, on `size_t`.

## Main results

* `permutation_of_room` - the shuffle is the one of `Lmbench.permutation`, for the
  remainders of the seeds
* `permutation_permutes_iff` - every multiple once, if and only if the size of the block is a
  `size_t`; and every page of the buffer once
-/

namespace Lmbench.Seeded

open Lib

variable {dm : DataModel}

section Model

/-- `size_t`. -/
abbrev SizeT (dm : DataModel) := BitVec (8 * dm.sizeofSizeT)

/-- `int`. -/
abbrev CInt (dm : DataModel) := BitVec (8 * dm.sizeofInt)

/-- What `rand()` returns in each call, and the two process numbers. -/
structure Process (dm : DataModel) where
  rand : ℕ → CInt dm
  pid : CInt dm
  ppid : CInt dm

/-- The static `r`, and the number of calls of `rand()` so far. -/
structure Seed (dm : DataModel) where
  r : SizeT dm
  calls : ℕ

variable (p : Process dm)

/-- `if (r == 0) r = (getpid()<<6) ^ getppid() ^ rand() ^ (rand()<<10);` -/
def Process.seed (s : Seed dm) : Seed dm :=
  if s.r = 0 then
    ⟨(p.pid <<< 6 ^^^ p.ppid ^^^ p.rand s.calls ^^^ p.rand (s.calls + 1) <<< 10).signExtend _,
      s.calls + 2⟩
  else s

/-- `r = (r << 1) ^ rand();` -/
def Process.next (s : Seed dm) : Seed dm :=
  ⟨s.r <<< 1 ^^^ (p.rand s.calls).signExtend _, s.calls + 1⟩

/-- The body of the first loop. -/
def fillEntry (scale : SizeT dm) (result : List (SizeT dm)) (i : ℕ) :
    Option (List (SizeT dm)) :=
  put result i (BitVec.ofNat _ i * scale)

/-- The body of the second loop. -/
def shuffleEntry (max : SizeT dm) (s : Seed dm × List (SizeT dm)) (i : ℕ) :
    Option (Seed dm × List (SizeT dm)) := do
  let seed := p.next s.1
  let o := (seed.r % max).toNat
  let v ← s.2[o]?
  let x ← s.2[i]?
  let result ← put s.2 o x
  let result ← put result i v
  return (seed, result)

/-- What `permutation` returns, which may be `NULL`, and the seed that it leaves. -/
structure Returned (dm : DataModel) where
  result : Option (List (SizeT dm))
  seed : Seed dm

/-- `malloc(max * sizeof(size_t))`, of memory that holds `fresh`. The product wraps. -/
def mallocEntries (max : SizeT dm) (fresh : ℕ → SizeT dm) : List (SizeT dm) :=
  let bytes := max * BitVec.ofNat _ dm.sizeofSizeT
  (List.range (bytes.toNat / dm.sizeofSizeT)).map fresh

/-- `permutation(max, scale)`, for what is in the memory that `malloc` returns, if it does not
return `NULL`, and what is in the static `r`. -/
def permutation (fresh : Option (ℕ → SizeT dm)) (max scale : SizeT dm) (static : Seed dm) :
    Option (Returned dm) :=
  match fresh with
  | none => some ⟨none, static⟩
  | some fresh => do
    let result ← (List.range max.toNat).foldlM (fillEntry scale) (mallocEntries max fresh)
    let s ← (List.range max.toNat).foldlM (shuffleEntry p max) (p.seed static, result)
    return ⟨some s.2, s.1⟩

/-- `nmpages`, as `base_initialize` computes it. -/
def nmpages (dm : DataModel) (s : MemState) : SizeT dm :=
  (BitVec.ofNat _ s.maxlen + BitVec.ofNat _ s.pagesize - 1) / BitVec.ofNat _ s.pagesize

end Model

/-! ### The two loops -/

section Loops

variable {p : Process dm} {max scale : SizeT dm} {static : Seed dm}

/-- The multiples that the first loop stores. -/
def multiples (scale : SizeT dm) (n : ℕ) : List (SizeT dm) :=
  (List.range n).map fun i => BitVec.ofNat _ i * scale

@[simp] theorem length_multiples (scale : SizeT dm) (n : ℕ) : (multiples scale n).length = n := by
  rw [multiples, List.length_map, List.length_range]

/-- The first loop fills the front of the block. -/
theorem foldlM_fillEntry {block : List (SizeT dm)} {n : ℕ} (room : n ≤ block.length) :
    (List.range n).foldlM (fillEntry scale) block = some (multiples scale n ++ block.drop n) :=
  foldlM_put _ room

/-- The seed before pass `i` of the second loop. -/
def Process.seedAt (p : Process dm) (static : Seed dm) : ℕ → Seed dm
  | 0 => p.seed static
  | i + 1 => p.next (p.seedAt static i)

/-- The entries before pass `n` of the second loop. -/
def shuffled (p : Process dm) (static : Seed dm) (max scale : SizeT dm) (n : ℕ) :
    List (SizeT dm) :=
  (List.range n).foldl
    (fun result i => swapAt result ((p.seedAt static (i + 1)).r % max).toNat i)
    (multiples scale max.toNat)

theorem shuffled_perm (n : ℕ) :
    (shuffled p static max scale n).Perm (multiples scale max.toNat) :=
  perm_foldl (fun l i _ => swapAt_perm l _ i) _

@[simp] theorem length_shuffled (n : ℕ) :
    (shuffled p static max scale n).length = max.toNat := by
  rw [(shuffled_perm n).length_eq, length_multiples]

/-- **No index is `max` or above**, and what is stored is an exchange. -/
theorem shuffleEntry_append {front : List (SizeT dm)} (length : front.length = max.toNat)
    (rest : List (SizeT dm)) (seed : Seed dm) {i : ℕ} (inside : i < max.toNat) :
    shuffleEntry p max (seed, front ++ rest) i =
      some (p.next seed, swapAt front ((p.next seed).r % max).toNat i ++ rest) := by
  have chosen : ((p.next seed).r % max).toNat < front.length := by
    rw [length, BitVec.toNat_umod]
    exact Nat.mod_lt _ (by omega)
  have here : i < front.length := by omega
  have still : i < (front.set ((p.next seed).r % max).toNat front[i]).length := by
    rw [List.length_set]
    exact here
  -- the second store is into what the first has left
  have first := put_append chosen rest front[i]
  have second := put_append still rest front[((p.next seed).r % max).toNat]
  rw [swapAt_eq chosen here]
  simp only [shuffleEntry, List.getElem?_append_left chosen, List.getElem?_append_left here,
    List.getElem?_eq_getElem chosen, List.getElem?_eq_getElem here, Option.bind_eq_bind,
    Option.bind_some, first, second]
  rfl

/-- The second loop shuffles the front. -/
theorem foldlM_shuffleEntry (rest : List (SizeT dm)) :
    (List.range max.toNat).foldlM (shuffleEntry p max)
        (p.seed static, multiples scale max.toNat ++ rest) =
      some (p.seedAt static max.toNat, shuffled p static max scale max.toNat ++ rest) := by
  refine foldlM_range_some
    (fun n => (p.seedAt static n, shuffled p static max scale n ++ rest)) fun i hi => ?_
  rw [shuffleEntry_append (length_shuffled i) rest _ hi]
  congr 3
  rw [shuffled, shuffled, List.range_succ, List.foldl_append]
  rfl

/-- The block has as many entries as its size in bytes, which may have been cut down, allows. -/
theorem length_mallocEntries (max : SizeT dm) (fresh : ℕ → SizeT dm) :
    (mallocEntries max fresh).length =
      max.toNat * dm.sizeofSizeT % dm.sizeSpan / dm.sizeofSizeT := by
  have entry : (BitVec.ofNat (8 * dm.sizeofSizeT) dm.sizeofSizeT).toNat = dm.sizeofSizeT := by
    rw [BitVec.toNat_ofNat]
    refine Nat.mod_eq_of_lt (Nat.lt_two_pow_self.trans_le ?_)
    exact Nat.pow_le_pow_right (by decide) (Nat.le_mul_of_pos_left _ (by decide))
  rw [mallocEntries, List.length_map, List.length_range, BitVec.toNat_mul, entry]
  rfl

/-- It has an entry for each index if the size is a `size_t`. -/
theorem length_mallocEntries_of_fits (fresh : ℕ → SizeT dm)
    (fits : max.toNat * dm.sizeofSizeT < dm.sizeSpan) :
    (mallocEntries max fresh).length = max.toNat := by
  rw [length_mallocEntries, Nat.mod_eq_of_lt fits, Nat.mul_div_cancel _ dm.sizeofSizeT_pos]

/-- Elsewhere it is too short. -/
theorem length_mallocEntries_lt (fresh : ℕ → SizeT dm)
    (wraps : dm.sizeSpan ≤ max.toNat * dm.sizeofSizeT) :
    (mallocEntries max fresh).length < max.toNat := by
  rw [length_mallocEntries, Nat.div_lt_iff_lt_mul dm.sizeofSizeT_pos]
  exact (Nat.mod_lt _ (Nat.two_pow_pos _)).trans_le wraps

/-- What is returned in a block that has an entry for each index. -/
theorem permutation_of_room (fresh : ℕ → SizeT dm)
    (fits : max.toNat * dm.sizeofSizeT < dm.sizeSpan) :
    permutation p (some fresh) max scale static =
      some ⟨some (shuffled p static max scale max.toNat), p.seedAt static max.toNat⟩ := by
  have length := length_mallocEntries_of_fits fresh fits
  unfold permutation
  dsimp only
  rw [foldlM_fillEntry length.ge, List.drop_of_length_le length.le, Option.bind_eq_bind,
    Option.bind_some, foldlM_shuffleEntry, List.append_nil]
  rfl

/-- In another the first loop leaves the block. -/
theorem permutation_of_no_room (fresh : ℕ → SizeT dm)
    (wraps : dm.sizeSpan ≤ max.toNat * dm.sizeofSizeT) :
    permutation p (some fresh) max scale static = none := by
  have left : (List.range max.toNat).foldlM (fillEntry scale) (mallocEntries max fresh) = none :=
    foldlM_put_of_short _ (length_mallocEntries_lt fresh wraps)
  unfold permutation
  dsimp only
  rw [left]
  rfl

/-- A product that fits is not cut down. -/
theorem map_multiples (fits : max.toNat * scale.toNat < dm.sizeSpan) :
    (multiples scale max.toNat).map BitVec.toNat =
      (List.range max.toNat).map (· * scale.toNat) := by
  rw [multiples, List.map_map]
  refine List.map_congr_left fun i member => ?_
  have below : i < max.toNat := List.mem_range.mp member
  have index : i < 2 ^ (8 * dm.sizeofSizeT) := below.trans max.isLt
  have product : i * scale.toNat < 2 ^ (8 * dm.sizeofSizeT) :=
    Nat.lt_of_le_of_lt (Nat.mul_le_mul_right _ below.le) fits
  rw [Function.comp_apply, BitVec.toNat_mul, BitVec.toNat_ofNat, Nat.mod_eq_of_lt index,
    Nat.mod_eq_of_lt product]

/-- **The seeded shuffle is the shuffle** by the seeds after each shift. -/
theorem map_shuffled (fits : max.toNat * scale.toNat < dm.sizeSpan) :
    (shuffled p static max scale max.toNat).map BitVec.toNat =
      Lmbench.permutation max.toNat scale.toNat
        fun i => (p.seedAt static (i + 1)).r.toNat := by
  rw [Lmbench.permutation, ← map_multiples fits, shuffled]
  refine (List.foldl_hom (List.map BitVec.toNat) fun l i => ?_).symm
  rw [map_swapAt, BitVec.toNat_umod]

end Loops

/-! ### What the array holds -/

/-- The multiples of `scale` below `max` times `scale`, each of them once. -/
structure Permutes (max scale : ℕ) (result : List ℕ) : Prop where
  perm : result.Perm ((List.range max).map (· * scale))
  once : 0 < scale → ∀ k < max, result.count (k * scale) = 1

theorem permutes_of_perm {max scale : ℕ} {result : List ℕ}
    (perm : result.Perm ((List.range max).map (· * scale))) : Permutes max scale result := by
  refine ⟨perm, fun positive k below => ?_⟩
  have injective : Function.Injective (· * scale) := fun a b same =>
    Nat.eq_of_mul_eq_mul_right positive same
  have nodup : ((List.range max).map (· * scale)).Nodup := List.nodup_range.map injective
  rw [perm.count_eq]
  exact List.count_eq_one_of_mem nodup (List.mem_map_of_mem (List.mem_range.mpr below))

section Pages

variable {s : MemState}

/-- The pages of the buffer, as an array that lists each once: every byte is in the page of one
entry. -/
structure PagesOnce (s : MemState) (pages : List ℕ) : Prop where
  order : PageOrder s pages
  covered : ∀ byte < s.maxlen, ∃ i < s.nmpages,
    (pages.getD i 0 ≤ byte ∧ byte < pages.getD i 0 + s.pagesize) ∧
      ∀ j < s.nmpages, pages.getD j 0 ≤ byte → byte < pages.getD j 0 + s.pagesize → j = i

/-- A page order has each byte in one page. -/
theorem pagesOnce_of_order (positive : 0 < s.pagesize) {pages : List ℕ}
    (order : PageOrder s pages) : PagesOnce s pages := by
  refine ⟨order, fun byte inside => ?_⟩
  have page : byte / s.pagesize < s.nmpages := by
    rw [MemState.nmpages, Nat.div_lt_iff_lt_mul positive]
    have whole := Nat.lt_div_mul_add positive (a := s.maxlen + s.pagesize - 1)
    omega
  have below := Nat.div_mul_le_self byte s.pagesize
  have above := Nat.lt_div_mul_add positive (a := byte)
  have member : byte / s.pagesize * s.pagesize ∈ pages :=
    (List.Perm.mem_iff order).mpr (List.mem_map_of_mem (List.mem_range.mpr page))
  obtain ⟨i, hi, here⟩ := List.mem_iff_getElem.mp member
  have entry : pages.getD i 0 = byte / s.pagesize * s.pagesize := by
    rw [List.getD_eq_getElem _ _ hi, here]
  refine ⟨i, order.length_eq ▸ hi, ⟨by omega, by omega⟩, fun j hj low high => ?_⟩
  refine order.getD_inj positive hj (order.length_eq ▸ hi) ?_
  -- a multiple of the page size less than a page below the byte is its page
  obtain ⟨q, multiple⟩ := order.aligned (order.getD_mem hj)
  have same : byte / s.pagesize = q := by
    rw [multiple] at low high
    refine Nat.div_eq_of_lt_le ?_ ?_
    · rw [Nat.mul_comm]
      exact low
    · rw [Nat.succ_mul, Nat.mul_comm]
      exact high
  rw [multiple, entry, same, Nat.mul_comm]

/-- The number of pages is computed without wrapping. -/
theorem toNat_nmpages (fits : s.maxlen + 2 * s.pagesize < dm.sizeSpan)
    (positive : 0 < s.pagesize) : (nmpages dm s).toNat = s.nmpages := by
  have span : dm.sizeSpan = 2 ^ (8 * dm.sizeofSizeT) := rfl
  have maxlen : (BitVec.ofNat (8 * dm.sizeofSizeT) s.maxlen).toNat = s.maxlen := by
    rw [BitVec.toNat_ofNat, Nat.mod_eq_of_lt (by omega)]
  have pagesize : (BitVec.ofNat (8 * dm.sizeofSizeT) s.pagesize).toNat = s.pagesize := by
    rw [BitVec.toNat_ofNat, Nat.mod_eq_of_lt (by omega)]
  have one : (1 : SizeT dm).toNat = 1 := by
    change (BitVec.ofNat (8 * dm.sizeofSizeT) 1).toNat = 1
    rw [BitVec.toNat_ofNat, Nat.mod_eq_of_lt (by omega)]
  have sum : (BitVec.ofNat (8 * dm.sizeofSizeT) s.maxlen +
      BitVec.ofNat (8 * dm.sizeofSizeT) s.pagesize).toNat = s.maxlen + s.pagesize := by
    rw [BitVec.toNat_add, maxlen, pagesize, Nat.mod_eq_of_lt (by omega)]
  have below : (1 : SizeT dm) ≤ BitVec.ofNat (8 * dm.sizeofSizeT) s.maxlen +
      BitVec.ofNat (8 * dm.sizeofSizeT) s.pagesize := by
    rw [BitVec.le_def, one, sum]
    omega
  rw [nmpages, BitVec.toNat_udiv, BitVec.toNat_sub_of_le below, sum, one, pagesize,
    MemState.nmpages]

end Pages

/-- **Every entry once.** For all numbers from `rand()` and all seeds, and all `max` and `scale`
with a product that is a `size_t`: no access leaves the block, so no index is `max` or above, and
the array that is returned holds every multiple once, if and only if the size of the array is a
`size_t`, too. It is for pages that are no smaller than a `size_t`: the array of `base_initialize`
lists every page of the buffer once. -/
theorem permutation_permutes_iff (dm : DataModel) (p : Process dm) (static : Seed dm)
    (fresh : ℕ → SizeT dm) :
    (∀ max scale : SizeT dm, max.toNat * scale.toNat < dm.sizeSpan →
      ((∃ result seed, permutation p (some fresh) max scale static = some ⟨some result, seed⟩ ∧
          Permutes max.toNat scale.toNat (result.map BitVec.toNat)) ↔
        max.toNat * dm.sizeofSizeT < dm.sizeSpan)) ∧
    ∀ s : MemState, dm.sizeofSizeT ≤ s.pagesize → s.maxlen + 2 * s.pagesize < dm.sizeSpan →
      ∃ pages seed,
        permutation p (some fresh) (nmpages dm s) (BitVec.ofNat _ s.pagesize) static =
          some ⟨some pages, seed⟩ ∧ PagesOnce s (pages.map BitVec.toNat) := by
  have returns : ∀ max scale : SizeT dm, max.toNat * scale.toNat < dm.sizeSpan →
      max.toNat * dm.sizeofSizeT < dm.sizeSpan → ∃ result seed,
        permutation p (some fresh) max scale static = some ⟨some result, seed⟩ ∧
          (result.map BitVec.toNat).Perm ((List.range max.toNat).map (· * scale.toNat)) := by
    intro max scale fits room
    refine ⟨_, _, permutation_of_room fresh room, ?_⟩
    rw [map_shuffled fits]
    exact permutation_perm _ _ _
  refine ⟨fun max scale fits => ⟨?_, fun room => ?_⟩, fun s wide fits => ?_⟩
  · rintro ⟨result, seed, returned, _⟩
    refine not_le.mp fun wraps => ?_
    rw [permutation_of_no_room fresh wraps] at returned
    cases returned
  · obtain ⟨result, seed, returned, perm⟩ := returns max scale fits room
    exact ⟨result, seed, returned, permutes_of_perm perm⟩
  · have positive := Nat.lt_of_lt_of_le dm.sizeofSizeT_pos wide
    have count := toNat_nmpages fits positive
    have scale : (BitVec.ofNat (8 * dm.sizeofSizeT) s.pagesize).toNat = s.pagesize := by
      rw [BitVec.toNat_ofNat]
      exact Nat.mod_eq_of_lt (Nat.lt_of_le_of_lt (by omega) fits)
    have pages := MemState.nmpages_mul_lt positive
    have entries : s.nmpages * dm.sizeofSizeT ≤ s.nmpages * s.pagesize :=
      Nat.mul_le_mul_left _ wide
    obtain ⟨result, seed, returned, perm⟩ := returns (nmpages dm s)
      (BitVec.ofNat _ s.pagesize) (by rw [count, scale]; omega) (by rw [count]; omega)
    rw [count, scale] at perm
    exact ⟨result, seed, returned, pagesOnce_of_order positive perm⟩

/-- Three pages on a 32-bit target, with a seed that is drawn from the process numbers. -/
theorem permutation_permutes_iff_three : ∃ result seed,
    permutation ⟨fun k => BitVec.ofNat _ (7 * k + 5), 1234, 1200⟩ (some fun _ => 0) 3 4096 ⟨0, 0⟩ =
      some (⟨some result, seed⟩ : Returned .ilp32) ∧
        Permutes (3 : SizeT .ilp32).toNat (4096 : SizeT .ilp32).toNat
          (result.map BitVec.toNat) :=
  ((permutation_permutes_iff .ilp32 ⟨fun k => BitVec.ofNat _ (7 * k + 5), 1234, 1200⟩ ⟨0, 0⟩
    fun _ => 0).1 3 4096 (by decide)).mpr (by decide)

/-- With 2^30 entries of four bytes each nothing is allocated. -/
theorem permutation_overflows :
    ¬∀ (dm : DataModel) (p : Process dm) (static : Seed dm) (fresh : ℕ → SizeT dm)
      (max scale : SizeT dm), 0 < max.toNat → max.toNat * scale.toNat < dm.sizeSpan →
        ∃ result seed, permutation p (some fresh) max scale static = some ⟨some result, seed⟩ ∧
          Permutes max.toNat scale.toNat (result.map BitVec.toNat) := by
  intro always
  obtain ⟨result, seed, returned, _⟩ := always .ilp32 ⟨fun _ => 0, 0, 0⟩ ⟨0, 0⟩ (fun _ => 0)
    (BitVec.ofNat _ 1073741824) (BitVec.ofNat _ 1) (by decide) (by decide)
  rw [permutation_of_no_room _ (by decide)] at returned
  cases returned

end Lmbench.Seeded
