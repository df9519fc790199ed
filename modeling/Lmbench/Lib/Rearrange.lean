import Mathlib.Data.List.Nodup
import Mathlib.Data.List.Perm.Basic

/-!
# Rearranging an array by swaps

Code that shuffles or sorts an array exchanges two entries at a time. Whatever
decides which two, the array stays a rearrangement of what it was.

Two loops of swaps are followed entry by entry. One exchanges a range with its
mirror image, the other with the range a fixed distance further on; either may
overlap the range it exchanges with.

## Main results

* `swapAt_perm` - a swap rearranges
* `getElem?_swapAt`, `swapAt_swapAt` - what a swap leaves where, and its inverse
* `perm_foldl` - so does a loop all of whose passes rearrange
* `getElem?_swapMirror`, `swapMirror_swapMirror` - exchanging with the mirror image, and back
* `getElem?_swapShift` - exchanging with a range further on
* `slice_perm` - entries in an interval as a rearrangement of others
-/

namespace Lmbench.Lib

universe u v

variable {α : Type u} {β : Type v}

/-- Exchange the entries `i` and `j`; nothing happens outside the array. -/
def swapAt (l : List α) (i j : ℕ) : List α :=
  match l[i]?, l[j]? with
  | some a, some b => (l.set i b).set j a
  | _, _ => l

@[simp] theorem length_swapAt (l : List α) (i j : ℕ) : (swapAt l i j).length = l.length := by
  unfold swapAt
  split <;> simp

/-- **A swap rearranges.** -/
theorem swapAt_perm (l : List α) (i j : ℕ) : (swapAt l i j).Perm l := by
  unfold swapAt
  split
  · rename_i a b here there
    obtain ⟨inside, rfl⟩ := List.getElem?_eq_some_iff.mp here
    obtain ⟨inside', rfl⟩ := List.getElem?_eq_some_iff.mp there
    exact List.set_set_perm inside inside'
  · exact .refl l

/-- Inside the array the entries are exchanged. -/
theorem swapAt_eq {l : List α} {i j : ℕ} (hi : i < l.length) (hj : j < l.length) :
    swapAt l i j = (l.set i l[j]).set j l[i] := by
  unfold swapAt
  rw [List.getElem?_eq_getElem hi, List.getElem?_eq_getElem hj]

theorem getElem?_swapAt_right {l : List α} {i j : ℕ} (hi : i < l.length) (hj : j < l.length) :
    (swapAt l i j)[j]? = l[i]? := by
  rw [swapAt_eq hi hj, List.getElem?_set_self (by simpa using hj), List.getElem?_eq_getElem hi]

/-- Exchanging goes with a change of the entries. -/
theorem map_swapAt (f : α → β) (l : List α) (i j : ℕ) :
    (swapAt l i j).map f = swapAt (l.map f) i j := by
  unfold swapAt
  rw [List.getElem?_map, List.getElem?_map]
  cases l[i]? with
  | none => rfl
  | some a =>
    cases l[j]? with
    | none => rfl
    | some b => simp [List.map_set]

theorem getElem?_swapAt_left {l : List α} {i j : ℕ} (hi : i < l.length) (hj : j < l.length) :
    (swapAt l i j)[i]? = l[j]? := by
  rw [swapAt_eq hi hj]
  by_cases same : j = i
  · subst same
    rw [List.getElem?_set_self (by simpa using hi), List.getElem?_eq_getElem hi]
  · rw [List.getElem?_set_ne same, List.getElem?_set_self hi, List.getElem?_eq_getElem hj]

/-- All others stay. -/
theorem getElem?_swapAt_of_ne {l : List α} {i j k : ℕ} (hi : k ≠ i) (hj : k ≠ j) :
    (swapAt l i j)[k]? = l[k]? := by
  unfold swapAt
  split
  · rw [List.getElem?_set_ne hj.symm, List.getElem?_set_ne hi.symm]
  · rfl

theorem swapAt_self (l : List α) (i : ℕ) : swapAt l i i = l := by
  unfold swapAt
  split
  · rename_i a b here there
    obtain ⟨inside, rfl⟩ := List.getElem?_eq_some_iff.mp here
    obtain ⟨_, rfl⟩ := List.getElem?_eq_some_iff.mp there
    rw [List.set_getElem_self, List.set_getElem_self]
  · rfl

/-- The same swap again undoes it. -/
theorem swapAt_swapAt (l : List α) (i j : ℕ) : swapAt (swapAt l i j) i j = l := by
  by_cases inside : i < l.length ∧ j < l.length
  · obtain ⟨hi, hj⟩ := inside
    refine List.ext_getElem? fun k => ?_
    by_cases left : k = i
    · rw [left, getElem?_swapAt_left (by simpa using hi) (by simpa using hj),
        getElem?_swapAt_right hi hj]
    · by_cases right : k = j
      · rw [right, getElem?_swapAt_right (by simpa using hi) (by simpa using hj),
          getElem?_swapAt_left hi hj]
      · rw [getElem?_swapAt_of_ne left right, getElem?_swapAt_of_ne left right]
  · have same : swapAt l i j = l := by
      unfold swapAt
      split
      · rename_i a b here there
        exact absurd ⟨(List.getElem?_eq_some_iff.mp here).1, (List.getElem?_eq_some_iff.mp there).1⟩
          inside
      · rfl
    rw [same, same]

/-- A loop whose passes rearrange rearranges. -/
theorem perm_foldl {f : List α → β → List α} {steps : List β}
    (rearranges : ∀ l, ∀ b ∈ steps, (f l b).Perm l) (l : List α) :
    (steps.foldl f l).Perm l :=
  List.foldlRecOn (motive := (·.Perm l)) steps f (.refl l) fun l' sofar b mem =>
    (rearranges l' b mem).trans sofar

/-! ### Loops of swaps -/

/-- The swaps of a loop, in order. -/
def swapAll (l : List α) (pairs : List (ℕ × ℕ)) : List α :=
  pairs.foldl (fun l pair => swapAt l pair.1 pair.2) l

theorem swapAll_perm (l : List α) (pairs : List (ℕ × ℕ)) : (swapAll l pairs).Perm l :=
  perm_foldl (fun l pair _ => swapAt_perm l pair.1 pair.2) l

@[simp] theorem length_swapAll (l : List α) (pairs : List (ℕ × ℕ)) :
    (swapAll l pairs).length = l.length :=
  (swapAll_perm l pairs).length_eq

theorem getElem?_swapAt {l : List α} {i j : ℕ} (hi : i < l.length) (hj : j < l.length) (k : ℕ) :
    (swapAt l i j)[k]? = if k = i then l[j]? else if k = j then l[i]? else l[k]? := by
  split
  · rename_i left
    rw [left, getElem?_swapAt_left hi hj]
  · rename_i notLeft
    split
    · rename_i right
      rw [right, getElem?_swapAt_right hi hj]
    · rename_i notRight
      exact getElem?_swapAt_of_ne notLeft notRight

theorem swapAll_range_succ (l : List α) (f : ℕ → ℕ × ℕ) (n : ℕ) :
    swapAll l ((List.range (n + 1)).map f) =
      swapAt (swapAll l ((List.range n).map f)) (f n).1 (f n).2 := by
  rw [swapAll, List.range_succ, List.map_append, List.foldl_append]
  rfl

/-- Exchange `n` entries from `i` up with `n` entries from `t` down. -/
def swapMirror (l : List α) (i t n : ℕ) : List α :=
  swapAll l ((List.range n).map fun j => (i + j, t - j))

/-- **A range and its mirror image.** Entries in one of them and not in the other are
reflected; those in both are exchanged twice, and stay. -/
theorem getElem?_swapMirror {l : List α} {i t n : ℕ} (fits : i + n ≤ t + 1) (inside : t < l.length)
    (x : ℕ) : (swapMirror l i t n)[x]? =
      if (i ≤ x ∧ x < i + n) ↔ (t < x + n ∧ x ≤ t) then l[x]? else l[i + t - x]? := by
  unfold swapMirror
  induction n generalizing x with
  | zero =>
    have neither : (i ≤ x ∧ x < i + 0) ↔ (t < x + 0 ∧ x ≤ t) := by omega
    rw [if_pos neither]
    rfl
  | succ n ih =>
    rw [swapAll_range_succ, getElem?_swapAt (by rw [length_swapAll]; omega)
      (by rw [length_swapAll]; omega)]
    simp only [ih (by omega)]
    by_cases left : x = i + n
    · -- the pass puts the reflection of `i + n` here, or what it is exchanged with a second time
      subst left
      rw [if_pos rfl]
      by_cases again : t - n < i + n
      · have back : i + t - (t - n) = i + n := by omega
        rw [if_neg (by omega), if_pos (by omega), back]
      · have image : i + t - (i + n) = t - n := by omega
        by_cases middle : t - n = i + n
        · rw [if_pos (by omega), if_pos (by omega), middle]
        · rw [if_pos (by omega), if_neg (by omega), image]
    · rw [if_neg left]
      by_cases right : x = t - n
      · subst right
        rw [if_pos rfl]
        by_cases again : t - n < i + n
        · have back : i + t - (i + n) = t - n := by omega
          rw [if_neg (by omega), if_pos (by omega), back]
        · have back : i + t - (t - n) = i + n := by omega
          rw [if_pos (by omega), if_neg (by omega), back]
      · rw [if_neg right]
        have same : ((i ≤ x ∧ x < i + n) ↔ (t < x + n ∧ x ≤ t)) ↔
            ((i ≤ x ∧ x < i + (n + 1)) ↔ (t < x + (n + 1) ∧ x ≤ t)) := by omega
        simp only [same]

@[simp] theorem length_swapMirror (l : List α) (i t n : ℕ) :
    (swapMirror l i t n).length = l.length :=
  length_swapAll l _

/-- **The same loop again undoes it.** -/
theorem swapMirror_swapMirror {l : List α} {i t n : ℕ} (fits : i + n ≤ t + 1)
    (inside : t < l.length) : swapMirror (swapMirror l i t n) i t n = l := by
  refine List.ext_getElem? fun x => ?_
  rw [getElem?_swapMirror fits (by rw [length_swapMirror]; exact inside)]
  simp only [getElem?_swapMirror fits inside]
  by_cases stays : (i ≤ x ∧ x < i + n) ↔ (t < x + n ∧ x ≤ t)
  · rw [if_pos stays, if_pos stays]
  · -- the reflection moves too, and back
    have back : i + t - (i + t - x) = x := by omega
    rw [if_neg stays, if_neg (by omega), back]

/-- Exchange `n` entries from `i` up with those at distance `d`. -/
def swapShift (l : List α) (i d n : ℕ) : List α :=
  swapAll l ((List.range n).map fun j => (i + j, i + d + j))

/-- **A range and one further on.** The range gets the entries at the distance. What is
pushed on from it fills the rest with copies of the period that the distance is. -/
theorem getElem?_swapShift {l : List α} {i d n : ℕ} (apart : 0 < d)
    (fits : i + d + n ≤ l.length) (x : ℕ) : (swapShift l i d n)[x]? =
      if i ≤ x ∧ x < i + n then l[x + d]?
      else if i + n ≤ x ∧ x < i + d + n then l[i + (x - i) % d]? else l[x]? := by
  unfold swapShift
  induction n generalizing x with
  | zero =>
    rw [if_neg (by omega)]
    split
    · rename_i near
      have same : i + (x - i) % d = x := by
        rw [Nat.mod_eq_of_lt (by omega)]
        omega
      rw [same]
      rfl
    · rfl
  | succ n ih =>
    rw [swapAll_range_succ, getElem?_swapAt (by rw [length_swapAll]; omega)
      (by rw [length_swapAll]; omega)]
    simp only [ih (by omega)]
    by_cases here : x = i + n
    · -- the entry at the distance has not been moved before
      have far : i + n + d = i + d + n := by omega
      subst here
      rw [if_pos rfl, if_neg (by omega), if_neg (by omega), if_pos (by omega), far]
    · rw [if_neg here]
      by_cases there : x = i + d + n
      · -- it gets what was pushed to `i + n`
        have pushed : (i + d + n - i) % d = (i + n - i) % d := by
          rw [show i + d + n - i = i + n - i + d by omega, Nat.add_mod_right]
        subst there
        rw [if_pos rfl, if_neg (by omega), if_pos (by omega), if_neg (by omega), if_pos (by omega),
          pushed]
      · rw [if_neg there]
        have range : (i ≤ x ∧ x < i + n) ↔ (i ≤ x ∧ x < i + (n + 1)) := by omega
        have rest : ¬(i ≤ x ∧ x < i + n) → ((i + n ≤ x ∧ x < i + d + n) ↔
            (i + (n + 1) ≤ x ∧ x < i + d + (n + 1))) := by omega
        simp only [← range]
        split
        · rfl
        · rename_i outside
          simp only [rest outside]

/-! ### Slices -/

/-- `n` entries from `a` on. -/
def slice (l : List α) (a n : ℕ) : List α := (l.drop a).take n

theorem slice_eq (l : List α) (a n : ℕ) : slice l a n = (List.range' a n).filterMap (l[·]?) := by
  unfold slice
  induction n generalizing a with
  | zero => rfl
  | succ n ih =>
    rw [List.range'_succ, List.filterMap_cons, ← ih]
    by_cases inside : a < l.length
    · rw [List.getElem?_eq_getElem inside, List.drop_eq_getElem_cons inside, List.take_succ_cons]
    · rw [List.getElem?_eq_none (by omega), List.drop_of_length_le (by omega),
        List.drop_of_length_le (by omega), List.take_nil, List.take_nil]

theorem mem_slice {l : List α} {a n : ℕ} {v : α} :
    v ∈ slice l a n ↔ ∃ x, a ≤ x ∧ x < a + n ∧ l[x]? = some v := by
  simp only [slice_eq, List.mem_filterMap, List.mem_range'_1, and_assoc]

/-- **Entries of an interval as a rearrangement.** If the entries of one list in an interval
are those of another at places of its own, the interval is a rearrangement of any list of
the same places. -/
theorem slice_perm {after before : List α} {a n : ℕ} (place : ℕ → ℕ) {places : List ℕ}
    (moved : ∀ x, a ≤ x → x < a + n → after[x]? = before[place x]?)
    (injective : ∀ x, a ≤ x → x < a + n → ∀ y, a ≤ y → y < a + n → place x = place y → x = y)
    (nodup : places.Nodup) (image : ∀ y, (∃ x, a ≤ x ∧ x < a + n ∧ place x = y) ↔ y ∈ places) :
    (slice after a n).Perm (places.filterMap (before[·]?)) := by
  have read : slice after a n = ((List.range' a n).map place).filterMap (before[·]?) := by
    rw [slice_eq, List.filterMap_map]
    refine List.filterMap_congr fun x member => ?_
    obtain ⟨lower, upper⟩ := List.mem_range'_1.mp member
    exact moved x lower upper
  have distinct : ((List.range' a n).map place).Nodup := by
    refine List.Nodup.map_on (fun x hx y hy same => ?_) List.nodup_range'
    obtain ⟨lower, upper⟩ := List.mem_range'_1.mp hx
    obtain ⟨lower', upper'⟩ := List.mem_range'_1.mp hy
    exact injective x lower upper y lower' upper' same
  rw [read]
  refine List.Perm.filterMap _ ((List.perm_ext_iff_of_nodup distinct nodup).mpr fun y => ?_)
  rw [← image]
  simp only [List.mem_map, List.mem_range'_1, and_assoc]

end Lmbench.Lib
