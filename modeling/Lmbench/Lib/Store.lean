import Lmbench.Lib.PointerChain
import Mathlib.Logic.Function.Basic
import Mathlib.Algebra.GroupWithZero.Nat

/-!
# Memories written by loops

A loop that stores pointers is a list of stores carried out one after the other.
Reading back needs no order: if stores to one slot agree on the value, each is
found where it was made, and all other slots keep what they had.

A chain laid out by three nested loops, words within lines within pages, is a
single cycle under three conditions, one for each loop.

## Main results

* `storeAll_of_mem`, `storeAll_of_not_mem` - reading back after a list of stores
* `storeAll_restore` - storing the old values back
* `foldl_rewrite` - rewriting slots in place
* `grid_isCycle` - the cycle of a chain laid out by nested loops
-/

namespace Lmbench.Lib

universe u

variable {α : Type u}

section StoreAll

variable [DecidableEq α] {mem : α → Option α} {stores : List (α × α)} {slot target : α}

/-- Store one pointer. -/
def store (mem : α → Option α) (slot target : α) : α → Option α :=
  Function.update mem slot (some target)

/-- Carry out a list of stores, given as pairs of slot and target. -/
def storeAll (mem : α → Option α) (stores : List (α × α)) : α → Option α :=
  stores.foldl (fun mem s => store mem s.1 s.2) mem

@[simp] theorem storeAll_nil (mem : α → Option α) : storeAll mem [] = mem := rfl

theorem storeAll_append (mem : α → Option α) (first second : List (α × α)) :
    storeAll mem (first ++ second) = storeAll (storeAll mem first) second :=
  List.foldl_append

/-- A slot that is not stored to keeps its value. -/
theorem storeAll_of_not_mem (untouched : ∀ s ∈ stores, s.1 ≠ slot) :
    storeAll mem stores slot = mem slot := by
  induction stores generalizing mem with
  | nil => rfl
  | cons s rest ih =>
    have later : ∀ t ∈ rest, t.1 ≠ slot := fun t ht => untouched t (List.mem_cons_of_mem s ht)
    have here : slot ≠ s.1 := (untouched s List.mem_cons_self).symm
    change storeAll (store mem s.1 s.2) rest slot = mem slot
    rw [ih later, store, Function.update_of_ne here]

/-- Carry out stores into slots that are allowed. None if one is not. -/
def storeAllIf (allowed : α → Prop) [DecidablePred allowed] (mem : α → Option α)
    (stores : List (α × α)) : Option (α → Option α) :=
  stores.foldlM (fun mem s => if allowed s.1 then some (store mem s.1 s.2) else none) mem

/-- Allowed stores are carried out. -/
theorem storeAllIf_eq {allowed : α → Prop} [DecidablePred allowed]
    (all : ∀ s ∈ stores, allowed s.1) :
    storeAllIf allowed mem stores = some (storeAll mem stores) := by
  induction stores generalizing mem with
  | nil => rfl
  | cons s rest ih =>
    rw [storeAllIf, List.foldlM_cons, if_pos (all s List.mem_cons_self)]
    exact ih fun t member => all t (List.mem_cons_of_mem s member)

/-- Stores that agree wherever they meet are all found. -/
theorem storeAll_of_mem (agree : ∀ s ∈ stores, s.1 = slot → s.2 = target)
    (made : ∃ s ∈ stores, s.1 = slot) : storeAll mem stores slot = some target := by
  induction stores generalizing mem with
  | nil =>
    obtain ⟨s, member, _⟩ := made
    cases member
  | cons s rest ih =>
    have later : ∀ t ∈ rest, t.1 = slot → t.2 = target := fun t ht =>
      agree t (List.mem_cons_of_mem s ht)
    change storeAll (store mem s.1 s.2) rest slot = some target
    -- a later store to the slot hides this one, and has the same value
    by_cases again : ∃ t ∈ rest, t.1 = slot
    · exact ih later again
    · obtain ⟨t, member, same⟩ := made
      have here : t = s := by
        rcases List.mem_cons.mp member with found | tail
        · exact found
        · exact absurd ⟨t, tail, same⟩ again
      subst here
      rw [storeAll_of_not_mem fun u hu hit => again ⟨u, hu, hit⟩, store, ← same,
        Function.update_self, agree t List.mem_cons_self same]

/-- **Storing the old values back.** Stores that are followed by the old value of each slot
they went to leave the memory as it was. -/
theorem storeAll_restore {patch restore : List (α × α)}
    (covered : ∀ s ∈ patch, ∃ t ∈ restore, t.1 = s.1)
    (old : ∀ t ∈ restore, mem t.1 = some t.2) :
    storeAll (storeAll mem patch) restore = mem := by
  funext slot
  by_cases restored : ∃ t ∈ restore, t.1 = slot
  · obtain ⟨t, member, rfl⟩ := restored
    rw [old t member]
    refine storeAll_of_mem (fun u hu same => ?_) ⟨t, member, rfl⟩
    exact Option.some.inj ((old u hu).symm.trans (same ▸ old t member))
  · have untouched : ∀ t ∈ restore, t.1 ≠ slot := fun t member same => restored ⟨t, member, same⟩
    rw [storeAll_of_not_mem untouched, storeAll_of_not_mem]
    intro s member same
    obtain ⟨t, there, back⟩ := covered s member
    exact untouched t there (back.trans same)

/-- **Rewriting in place.** A loop that visits each slot of a list once and rewrites it from
what it holds finds there what was there before the loop. -/
theorem foldl_rewrite (f : Option α → Option α) {slots : List α} (nodup : slots.Nodup)
    (mem : α → Option α) (slot : α) :
    slots.foldl (fun mem a => Function.update mem a (f (mem a))) mem slot =
      if slot ∈ slots then f (mem slot) else mem slot := by
  induction slots generalizing mem with
  | nil => simp
  | cons a rest ih =>
    obtain ⟨fresh, nodup⟩ := List.nodup_cons.mp nodup
    rw [List.foldl_cons, ih nodup]
    by_cases here : slot = a
    · subst here
      rw [if_neg fresh, if_pos List.mem_cons_self, Function.update_self]
    · rw [Function.update_of_ne here]
      simp only [List.mem_cons, here, false_or]

end StoreAll

/-! ### Chains laid out by nested loops -/

/-- The slots of a chain in the order of the chase: for each word, for each page, the
lines up to the last one used. -/
def gridSlots (slot : ℕ → ℕ → ℕ → α) (last : ℕ → ℕ) (nwords npages : ℕ) : List α :=
  (List.range nwords).flatMap fun k => (List.range npages).flatMap fun i =>
    (List.range (last i + 1)).map (slot k i)

theorem mem_gridSlots {slot : ℕ → ℕ → ℕ → α} {last : ℕ → ℕ} {nwords npages : ℕ} {a : α} :
    a ∈ gridSlots slot last nwords npages ↔
      ∃ k < nwords, ∃ i < npages, ∃ j ≤ last i, slot k i j = a := by
  simp only [gridSlots, List.mem_flatMap, List.mem_map, List.mem_range, Nat.lt_succ_iff]

theorem length_gridSlots (slot : ℕ → ℕ → ℕ → α) (last : ℕ → ℕ) (nwords npages : ℕ) :
    (gridSlots slot last nwords npages).length =
      nwords * ((List.range npages).map fun i => last i + 1).sum := by
  simp [gridSlots, List.length_flatMap, List.map_const']

theorem nodup_gridSlots {slot : ℕ → ℕ → ℕ → α} {last : ℕ → ℕ} {nwords npages : ℕ}
    (distinct : ∀ k < nwords, ∀ i < npages, ∀ j ≤ last i, ∀ k' < nwords, ∀ i' < npages,
      ∀ j' ≤ last i', slot k i j = slot k' i' j' → k = k' ∧ i = i' ∧ j = j') :
    (gridSlots slot last nwords npages).Nodup := by
  refine List.nodup_flatMap.mpr ⟨fun k hk => List.nodup_flatMap.mpr ⟨fun i hi => ?_, ?_⟩, ?_⟩
  · refine List.Nodup.map_on (fun j hj j' hj' same => ?_) List.nodup_range
    rw [List.mem_range] at hk hi hj hj'
    exact (distinct k hk i hi j (by omega) k hk i hi j' (by omega) same).2.2
  · refine List.nodup_range.pairwise_of_forall_ne fun i hi i' hi' different => ?_
    intro a ha ha'
    simp only [List.mem_map, List.mem_range] at hk hi hi' ha ha'
    obtain ⟨j, hj, rfl⟩ := ha
    obtain ⟨j', hj', same⟩ := ha'
    exact different (distinct k hk i hi j (by omega) k hk i' hi' j' (by omega) same.symm).2.1
  · refine List.nodup_range.pairwise_of_forall_ne fun k hk k' hk' different => ?_
    intro a ha ha'
    simp only [List.mem_flatMap, List.mem_map, List.mem_range] at hk hk' ha ha'
    obtain ⟨i, hi, j, hj, rfl⟩ := ha
    obtain ⟨i', hi', j', hj', same⟩ := ha'
    exact different (distinct k hk i hi j (by omega) k' hk' i' hi' j' (by omega) same.symm).1

/-- **The cycle of a grid.** Lines of a page are linked in their order, the last line
used of a page to the first of the next page, and the last line of the last page, for
each word, to the first line of the first page and the next word. -/
theorem grid_isCycle {mem : α → Option α} (slot : ℕ → ℕ → ℕ → α) {last : ℕ → ℕ}
    {nwords npages : ℕ} (words : 0 < nwords) (pages : 0 < npages)
    (inPage : ∀ k < nwords, ∀ i < npages, ∀ j < last i,
      mem (slot k i j) = some (slot k i (j + 1)))
    (nextPage : ∀ k < nwords, ∀ i, i + 1 < npages →
      mem (slot k i (last i)) = some (slot k (i + 1) 0))
    (wrap : ∀ k < nwords,
      mem (slot k (npages - 1) (last (npages - 1))) = some (slot ((k + 1) % nwords) 0 0))
    (nodup : (gridSlots slot last nwords npages).Nodup) :
    IsCycle mem (slot 0 0 0) (gridSlots slot last nwords npages) := by
  obtain ⟨w, rfl⟩ : ∃ w, nwords = w + 1 := Nat.exists_eq_succ_of_ne_zero words.ne'
  obtain ⟨q, rfl⟩ : ∃ q, npages = q + 1 := Nat.exists_eq_succ_of_ne_zero pages.ne'
  rw [Nat.add_sub_cancel] at wrap
  -- for one word, through all pages
  have word : ∀ k ≤ w, Path mem (slot k 0 0)
      ((List.range (q + 1)).flatMap fun i => (List.range (last i + 1)).map (slot k i))
      (slot k q (last q)) := fun k hk =>
    Path.flatMap_range (fun i => slot k i 0) (fun i => slot k i (last i))
      (fun i hi => Path.range (slot k i) fun j hj => inPage k (by omega) i (by omega) j hj)
      fun i hi => nextPage k (by omega) i (by omega)
  -- through all words
  have path := Path.flatMap_range (fun k => slot k 0 0) (fun k => slot k q (last q)) word
    fun k hk => by rw [wrap k (by omega), Nat.mod_eq_of_lt (by omega)]
  refine path.isCycle ?_ nodup
  rw [wrap w (by omega), Nat.mod_self]

end Lmbench.Lib
