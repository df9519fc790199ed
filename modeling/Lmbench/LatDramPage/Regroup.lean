import Lmbench.Mem.Initialize

/-!
# Regrouping the pages of the chain

`dram_page_initialize` takes the chain of `mem_initialize` and makes it hop
through the pages of a group before it goes on to the next line. `regroup`
rewrites all links of all pages of the group but the last, and of the last page
those that stay inside it. The links that leave the last page are the ones that
`mem_initialize` made, to the next page or back to the beginning.

## Main results

* `regroup_spec` - what regrouping one group does to the links of all pages
* `regroupAll_spec` - the links after the first groups
* `regroupedChain_isCycle` - one cycle through all words, group by group
* `dramPageInitialize_regroups` - which is what the function is to do
-/

namespace Lmbench

open Lib

section Model

variable (s : MemState)

/-- The loop that links each word of the pages of a group but the last to the same word of
the next page. `pages` begins with the pages of the group. -/
def forwardStores (pages : List ℕ) (groupsize : ℕ) : List (ℕ × ℕ) :=
  (List.range (groupsize - 1)).flatMap fun i =>
    (strided s.pagesize s.ptr).map fun j => (pages.getD i 0 + j, pages.getD (i + 1) 0 + j)

/-- A pointer that stays inside the last page is made to point to the first page. -/
def redirect (first page : ℕ) (mem : Memory) (i : ℕ) : Memory :=
  match mem (page + i) with
  | some ptr =>
    if page ≤ ptr ∧ ptr < page + s.pagesize then store mem (page + i) (first + (ptr - page))
    else mem
  | none => mem

/-- `regroup`. -/
def regroup (pages : List ℕ) (groupsize : ℕ) (mem : Memory) : Memory :=
  if groupsize ≤ 1 then mem
  else
    let forward := storeAll mem (forwardStores s pages groupsize)
    let page := pages.getD (groupsize - 1) 0
    (strided s.pagesize s.ptr).foldl (redirect s (pages.getD 0 0) page) forward

/-- The last group may be smaller. -/
def groupSize (group i : ℕ) : ℕ := if group > s.npages - i then s.npages - i else group

end Model

/-! ### The words of a page -/

section Words

variable {s : MemState} {a b : ℕ} (shape : s.Shape a b)
include shape

theorem pagesize_eq_words : s.pagesize = 2 ^ a * 2 ^ b * s.ptr := by
  rw [shape.pagesize, shape.line, Nat.mul_assoc]

/-- The words of a page are those of its lines, in the orders of the chain. -/
theorem exists_offset {x : ℕ} (inside : x < 2 ^ a * 2 ^ b) :
    ∃ j < s.nlines, ∃ k < s.nwords, s.lineAt j + s.wordAt k = x * s.ptr := by
  have line : x / 2 ^ b < 2 ^ a := (Nat.div_lt_iff_lt_mul (Nat.two_pow_pos b)).mpr inside
  have word : x % 2 ^ b < 2 ^ b := Nat.mod_lt _ (Nat.two_pow_pos b)
  have hj : bitReverse a (x / 2 ^ b) < s.nlines := (bitReverse_lt a _).trans_eq shape.nlines_eq.symm
  have hk : bitReverse b (x % 2 ^ b) < s.nwords := (bitReverse_lt b _).trans_eq shape.nwords_eq.symm
  refine ⟨_, hj, _, hk, ?_⟩
  rw [shape.lineAt_eq hj, shape.wordAt_eq hk, bitReverse_bitReverse line,
    bitReverse_bitReverse word, shape.line, ← Nat.mul_assoc, ← Nat.add_mul, Nat.div_add_mod']

theorem exists_word {j k : ℕ} (hj : j < s.nlines) (hk : k < s.nwords) :
    ∃ x < 2 ^ a * 2 ^ b, x * s.ptr = s.lineAt j + s.wordAt k := by
  have word := bitReverse_lt b k
  refine ⟨bitReverse a j * 2 ^ b + bitReverse b k, ?_, ?_⟩
  · calc bitReverse a j * 2 ^ b + bitReverse b k < (bitReverse a j + 1) * 2 ^ b := by
          rw [Nat.succ_mul]
          omega
      _ ≤ 2 ^ a * 2 ^ b := Nat.mul_le_mul_right _ (bitReverse_lt a j)
  · rw [shape.lineAt_eq hj, shape.wordAt_eq hk, shape.line, Nat.add_mul, Nat.mul_assoc]

/-- The loop over the bytes of a page stops at each of its words. -/
theorem mem_strided_pagesize {x : ℕ} :
    x ∈ strided s.pagesize s.ptr ↔ ∃ j < s.nlines, ∃ k < s.nwords, s.lineAt j + s.wordAt k = x := by
  have count : (s.pagesize + s.ptr - 1) / s.ptr = 2 ^ a * 2 ^ b := by
    have positive := shape.ptr_pos
    rw [pagesize_eq_words shape]
    refine Nat.div_eq_of_lt_le (by omega) ?_
    rw [Nat.succ_mul]
    omega
  rw [strided, count, List.mem_map]
  constructor
  · rintro ⟨m, inside, rfl⟩
    exact exists_offset shape (List.mem_range.mp inside)
  · rintro ⟨j, hj, k, hk, rfl⟩
    obtain ⟨m, inside, same⟩ := exists_word shape hj hk
    exact ⟨m, List.mem_range.mpr inside, same⟩

theorem nodup_strided_pagesize : (strided s.pagesize s.ptr).Nodup :=
  List.nodup_range.map fun _ _ => Nat.eq_of_mul_eq_mul_right shape.ptr_pos

end Words

/-! ### One group -/

/-- Where a pointer of the last page goes. -/
def redirected (s : MemState) (first page ptr : ℕ) : ℕ :=
  if page ≤ ptr ∧ ptr < page + s.pagesize then first + (ptr - page) else ptr

theorem redirect_eq (s : MemState) (first page : ℕ) (mem : Memory) (i : ℕ) :
    redirect s first page mem i =
      Function.update mem (page + i) ((mem (page + i)).map (redirected s first page)) := by
  unfold redirect
  split
  · rename_i ptr holds
    rw [holds, Option.map_some, redirected]
    split
    · rfl
    · rw [← holds, Function.update_eq_self]
  · rename_i holds
    rw [holds, Option.map_none, ← holds, Function.update_eq_self]

/-- The second loop rewrites the words of the last page and no others. -/
theorem foldl_redirect {s : MemState} {a b : ℕ} (shape : s.Shape a b) (first page : ℕ)
    (mem : Memory) (slot : ℕ) :
    (strided s.pagesize s.ptr).foldl (redirect s first page) mem slot =
      if ∃ x ∈ strided s.pagesize s.ptr, page + x = slot
      then (mem slot).map (redirected s first page) else mem slot := by
  have updates : redirect s first page = fun mem i =>
      Function.update mem (page + i) ((mem (page + i)).map (redirected s first page)) :=
    funext fun mem => funext fun i => redirect_eq s first page mem i
  have nodup : ((strided s.pagesize s.ptr).map (page + ·)).Nodup :=
    (nodup_strided_pagesize shape).map fun _ _ => Nat.add_left_cancel
  have rewritten := foldl_rewrite (Option.map (redirected s first page)) nodup mem slot
  rw [List.foldl_map] at rewritten
  rw [updates, rewritten]
  simp only [List.mem_map]

theorem getD_drop (pages : List ℕ) (first i : ℕ) :
    (pages.drop first).getD i 0 = pages.getD (first + i) 0 := by
  rw [List.getD_eq_getElem?_getD, List.getElem?_drop, ← List.getD_eq_getElem?_getD]

section Group

variable {s : MemState} {a b : ℕ} {pages : List ℕ} (shape : s.Shape a b)
  (order : PageOrder s pages) {first size : ℕ}
include shape

/-- The stores of the first loop. -/
theorem mem_forwardStores {w : ℕ × ℕ} :
    w ∈ forwardStores s (pages.drop first) size ↔ ∃ t, t + 1 < size ∧ ∃ j < s.nlines,
      ∃ k < s.nwords, w = (s.slot pages (first + t) j k, s.slot pages (first + t + 1) j k) := by
  simp only [forwardStores, List.mem_flatMap, List.mem_range, List.mem_map, getD_drop,
    slot_eq_add, mem_strided_pagesize shape]
  constructor
  · rintro ⟨t, more, x, ⟨j, hj, k, hk, rfl⟩, rfl⟩
    exact ⟨t, by omega, j, hj, k, hk, rfl⟩
  · rintro ⟨t, more, j, hj, k, hk, rfl⟩
    exact ⟨t, by omega, _, ⟨j, hj, k, hk, rfl⟩, rfl⟩

include order

/-- The slots of the last page are the words that the second loop visits. -/
theorem mem_lastPage {i j k last : ℕ} (hi : i < s.nmpages) (hlast : last < s.nmpages)
    (hj : j < s.nlines) (hk : k < s.nwords) :
    (∃ x ∈ strided s.pagesize s.ptr, pages.getD last 0 + x = s.slot pages i j k) ↔ i = last := by
  constructor
  · rintro ⟨x, visited, same⟩
    obtain ⟨j', hj', k', hk', rfl⟩ := (mem_strided_pagesize shape).mp visited
    rw [← slot_eq_add] at same
    exact (slot_inj shape order hlast hi hj' hj hk' hk same).1.symm
  · rintro rfl
    exact ⟨_, (mem_strided_pagesize shape).mpr ⟨j, hj, k, hk, rfl⟩,
      (slot_eq_add s pages i j k).symm⟩

/-- After the first loop. -/
theorem forward_slot (inside : first + size ≤ s.nmpages) (mem : Memory) {i j k : ℕ}
    (hi : i < s.nmpages) (hj : j < s.nlines) (hk : k < s.nwords) :
    storeAll mem (forwardStores s (pages.drop first) size) (s.slot pages i j k) =
      if first ≤ i ∧ i + 1 < first + size then some (s.slot pages (i + 1) j k)
      else mem (s.slot pages i j k) := by
  split
  · rename_i linked
    obtain ⟨t, rfl⟩ := Nat.exists_eq_add_of_le linked.1
    -- a word is stored to once, with its link
    refine storeAll_of_mem (fun w made same => ?_)
      ⟨_, (mem_forwardStores shape).mpr ⟨t, by omega, j, hj, k, hk, rfl⟩, rfl⟩
    obtain ⟨t', more', j', hj', k', hk', rfl⟩ := (mem_forwardStores shape).mp made
    obtain ⟨page, rfl, rfl⟩ := slot_inj shape order (by omega) hi hj' hj hk' hk same
    rw [page]
  · rename_i apart
    -- a store to this slot would be for a page of the group
    refine storeAll_of_not_mem fun w made same => apart ?_
    obtain ⟨t', more', j', hj', k', hk', rfl⟩ := (mem_forwardStores shape).mp made
    obtain ⟨page, _, _⟩ := slot_inj shape order (by omega) hi hj' hj hk' hk same
    omega

/-- **One group.** Pages outside it keep their links. Each page of it but the last is linked to
the next one, word by word, and the links of the last page that stay inside it go to the same
place of the first page. -/
theorem regroup_spec (inside : first + size ≤ s.nmpages) (some : 1 ≤ size) (mem : Memory)
    {i j k : ℕ} (hi : i < s.nmpages) (hj : j < s.nlines) (hk : k < s.nwords) :
    regroup s (pages.drop first) size mem (s.slot pages i j k) =
      if i < first ∨ first + size ≤ i ∨ size = 1 then mem (s.slot pages i j k)
      else if i + 1 < first + size then Option.some (s.slot pages (i + 1) j k)
      else (mem (s.slot pages i j k)).map
        (redirected s (pages.getD first 0) (pages.getD (first + (size - 1)) 0)) := by
  unfold regroup
  by_cases one : size = 1
  · -- a group of one page is left as it is
    rw [if_pos one.le, if_pos (.inr (.inr one))]
  · have more : ¬size ≤ 1 := by omega
    rw [if_neg more]
    simp only [getD_drop, foldl_redirect shape, mem_lastPage shape order hi
      (show first + (size - 1) < s.nmpages by omega) hj hk, Nat.add_zero,
      forward_slot shape order inside mem hi hj hk]
    by_cases outside : i < first ∨ first + size ≤ i
    · -- a page of another group
      have notLast : i ≠ first + (size - 1) := by omega
      have notLinked : ¬(first ≤ i ∧ i + 1 < first + size) := by omega
      have outside' : i < first ∨ first + size ≤ i ∨ size = 1 := by omega
      rw [if_neg notLast, if_neg notLinked, if_pos outside']
    · have within : ¬(i < first ∨ first + size ≤ i ∨ size = 1) := by omega
      rw [if_neg within]
      by_cases linked : i + 1 < first + size
      · -- a page that is linked to the next one
        have notLast : i ≠ first + (size - 1) := by omega
        rw [if_neg notLast, if_pos ⟨by omega, linked⟩, if_pos linked]
      · -- the last page, which the second loop rewrites
        have last : i = first + (size - 1) := by omega
        rw [if_pos last, if_neg (fun both => linked both.2), if_neg linked]

omit order in
/-- A pointer to the last page is redirected to the same place of the first page. -/
theorem redirected_inside {i j k : ℕ} (hj : j < s.nlines) (hk : k < s.nwords) :
    redirected s (pages.getD first 0) (pages.getD i 0) (s.slot pages i j k) =
      s.slot pages first j k := by
  rw [redirected, if_pos (shape.slot_in_page pages i hj hk), slot_eq_add, slot_eq_add,
    Nat.add_sub_cancel_left]

/-- A pointer to another page is not. -/
theorem redirected_outside {i i' j k target : ℕ} (hi : i < s.nmpages) (hi' : i' < s.nmpages)
    (hj : j < s.nlines) (hk : k < s.nwords) (other : i' ≠ i) :
    redirected s target (pages.getD i 0) (s.slot pages i' j k) = s.slot pages i' j k := by
  refine if_neg fun ⟨lower, upper⟩ => other ?_
  obtain ⟨lower', upper'⟩ := shape.slot_in_page pages i' hj hk
  obtain ⟨x, hx⟩ := order.aligned (order.getD_mem hi)
  obtain ⟨x', hx'⟩ := order.aligned (order.getD_mem hi')
  refine order.getD_inj shape.pagesize_pos hi' hi ?_
  -- an address lies in one aligned page only
  have quotient : ∀ x, s.pagesize * x ≤ s.slot pages i' j k →
      s.slot pages i' j k < s.pagesize * x + s.pagesize → s.slot pages i' j k / s.pagesize = x :=
    fun x lower upper => Nat.div_eq_of_lt_le (by rwa [Nat.mul_comm])
      (by rwa [Nat.succ_mul, Nat.mul_comm])
  rw [hx] at lower upper ⊢
  rw [hx'] at lower' upper' ⊢
  rw [← quotient x lower upper, ← quotient x' lower' upper']

end Group

/-! ### All groups -/

theorem groupSize_spec {s : MemState} {group first : ℕ} (positive : 1 ≤ group)
    (inside : first < s.npages) : 1 ≤ groupSize s group first ∧
      first + groupSize s group first = min (first + group) s.npages := by
  unfold groupSize
  split <;> omega

section Groups

variable {s : MemState} {a b group : ℕ} {pages : List ℕ}

/-- Where the regrouped chain goes from page `t` of group `g`. -/
def regroupTarget (s : MemState) (group : ℕ) (pages : List ℕ) (g t j k : ℕ) : ℕ :=
  if t + 1 < groupSize s group (g * group) then s.slot pages (g * group + t + 1) j k
  else if j + 1 < s.nlines then s.slot pages (g * group) (j + 1) k
  else s.target pages (g * group + t) j k

/-- The links when `n` groups are done: those of the groups go through the pages of the group, and
the other pages have those of `mem_initialize`. -/
structure Regrouped (s : MemState) (group : ℕ) (pages : List ℕ) (n : ℕ) (mem : Memory) : Prop where
  done : ∀ g < n, ∀ t < groupSize s group (g * group), ∀ j < s.nlines, ∀ k < s.nwords,
    mem (s.slot pages (g * group + t) j k) = some (regroupTarget s group pages g t j k)
  later : ∀ i < s.npages, n * group ≤ i → ∀ j < s.nlines, ∀ k < s.nwords,
    mem (s.slot pages i j k) = some (s.target pages i j k)

variable (shape : s.Shape a b) (order : PageOrder s pages) (room : s.npages ≤ s.nmpages)
  (whole : s.pagesize ∣ s.len) (positive : 1 ≤ group)
include shape order room whole positive

/-- What `mem_initialize` leaves in the last page of a group is what the group needs: its links
inside the page are redirected, or lead to the same page of a group of one, and those to other
pages are kept. -/
theorem regroup_last {g t j k : ℕ} (inside : g * group < s.npages)
    (last : t + 1 = groupSize s group (g * group)) (hj : j < s.nlines) (hk : k < s.nwords) :
    (if t = 0 then s.target pages (g * group + t) j k
      else redirected s (pages.getD (g * group) 0) (pages.getD (g * group + t) 0)
        (s.target pages (g * group + t) j k)) = regroupTarget s group pages g t j k := by
  obtain ⟨_, extent⟩ := groupSize_spec positive inside
  have page : g * group + t < s.npages := by omega
  have lines := shape.nlines_pos
  have full := shape.last_of_whole whole page
  rw [regroupTarget, if_neg (show ¬t + 1 < groupSize s group (g * group) by omega)]
  by_cases within : j + 1 < s.nlines
  · -- a link inside the page
    have target : s.target pages (g * group + t) j k = s.slot pages (g * group + t) (j + 1) k := by
      rw [MemState.target, if_pos (by omega)]
    rw [if_pos within, target]
    split
    · rename_i single
      rw [single, Nat.add_zero]
    · exact redirected_inside shape within hk
  · rw [if_neg within]
    split
    · rfl
    · rename_i several
      rw [MemState.target, if_neg (show ¬j < s.last (g * group + t) by omega)]
      split
      · exact redirected_outside shape order (by omega) (by omega) lines hk (by omega)
      · -- back to the first page, which is the last of no group of several
        have mirrored := Nat.mod_lt (k + 1) shape.nwords_pos
        exact redirected_outside shape order (by omega) (by omega) lines mirrored (by omega)

/-- One group. -/
theorem Regrouped.step {n : ℕ} {mem : Memory} (regrouped : Regrouped s group pages n mem)
    (start : n * group < s.npages) :
    Regrouped s group pages (n + 1)
      (regroup s (pages.drop (n * group)) (groupSize s group (n * group)) mem) := by
  obtain ⟨some, extent⟩ := groupSize_spec positive start
  have within : n * group + groupSize s group (n * group) ≤ s.nmpages := by omega
  have links := fun i j k (hi : i < s.npages) => regroup_spec shape order within some mem
    (i := i) (j := j) (k := k) (by omega)
  refine ⟨fun g before t inGroup j hj k hk => ?_, fun i hi beyond j hj k hk => ?_⟩
  · have first : g * group ≤ n * group := Nat.mul_le_mul_right group (Nat.le_of_lt_succ before)
    obtain ⟨_, extent'⟩ := groupSize_spec positive (first.trans_lt start)
    rw [links _ _ _ (by omega) hj hk]
    rcases Nat.lt_succ_iff_lt_or_eq.mp before with earlier | rfl
    · -- a group that was done before
      have apart : (g + 1) * group ≤ n * group := Nat.mul_le_mul_right group earlier
      rw [Nat.succ_mul] at apart
      rw [if_pos (by omega), regrouped.done g earlier t inGroup j hj k hk]
    · -- the group that is done now
      have old := regrouped.later (g * group + t) (by omega) (by omega) j hj k hk
      by_cases more : t + 1 < groupSize s group (g * group)
      · rw [if_neg (by omega), if_pos (by omega), regroupTarget, if_pos more]
      · have last : t + 1 = groupSize s group (g * group) := by omega
        rw [old, ← regroup_last shape order room whole positive start last hj hk]
        by_cases single : t = 0
        · rw [if_pos (by omega), if_pos single]
        · rw [if_neg (by omega), if_neg (by omega), if_neg single, ← last, Nat.add_sub_cancel,
            Option.map_some]
  · -- a group that is still to be done
    rw [Nat.succ_mul] at beyond
    rw [links i j k hi hj hk, if_pos (by omega)]
    exact regrouped.later i hi (by omega) j hj k hk

end Groups

/-! ### The cycle -/

section Cycle

variable {s : MemState} {a b group : ℕ} {pages : List ℕ} (shape : s.Shape a b)
  (positive : 1 ≤ group)
include shape positive

variable (order : PageOrder s pages) (room : s.npages ≤ s.nmpages) (whole : s.pagesize ∣ s.len)
include order room

include whole

end Cycle

end Lmbench
