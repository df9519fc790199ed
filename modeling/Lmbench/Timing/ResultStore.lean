import Lmbench.Timing.Results
import Mathlib.Algebra.Order.Field.Rat
import Mathlib.Data.List.Induction
import Mathlib.Data.Rat.Cast.Order

/-!
# Result sets in place

A `result_t` is allocated with room for so many entries, and `insertsort` makes room for
a new one by moving those behind it. The room is not checked.

## Main results

* `ResultSlots.insertsort_eq` - in place, where there is room, `insertsort` is insertion into
  the list of entries
* `insertCalls_isSome_iff` - without room it writes behind the slots
* `insertAll_sorted`, `coe_insertAll_filter` - the entries are a sorted bag
* `insertCalls_spec` - both for every sequence of calls, with the minimum that is reported
-/

namespace Lmbench

/-- `u/(double)n`. -/
def ValueT.quotient (x : ValueT) : ℚ := x.u / x.n

/-- A `result_t` in memory: the field `N` and the slots allocated for `v`, with whatever is
stored in them. -/
structure ResultSlots where
  N : ℕ
  v : List ValueT

/-- `v[i] = x`, if there is such a slot. -/
def setSlot (v : List ValueT) (i : ℕ) (x : ValueT) : Option (List ValueT) :=
  if i < v.length then some (v.set i x) else none

/-- `for (j = r->N; j > i; --j) r->v[j] = r->v[j - 1];` -/
def shiftSlots (i : ℕ) : ℕ → List ValueT → Option (List ValueT)
  | 0, v => some v
  | j + 1, v =>
    if i < j + 1 then do
      let x ← v[j]?
      let v ← setSlot v (j + 1) x
      shiftSlots i j v
    else some v

namespace ResultSlots

/-- `insertinit(r)`. -/
def insertinit (r : ResultSlots) : ResultSlots := { r with N := 0 }

/-- `insertsort(u, n, r)`. -/
def insertsort (u n : ℕ) (r : ResultSlots) : Option ResultSlots :=
  if u = 0 then some r
  else do
    let x : ValueT := ⟨u, n⟩
    -- where no entry is faster the loop is left with `i` behind the last, and nothing is moved
    let i := (r.v.take r.N).findIdx fun y => x.slower y
    let v ← shiftSlots i r.N r.v
    let v ← setSlot v i x
    return ⟨r.N + 1, v⟩

/-- The entries in use. -/
def contents (r : ResultSlots) : ResultT := ⟨r.v.take r.N⟩

end ResultSlots

/-- A sequence of calls of `insertsort`. -/
def insertCalls (calls : List ValueT) (r : ResultSlots) : Option ResultSlots :=
  calls.foldlM (fun r x => r.insertsort x.u x.n) r

/-! ### Insertion in place -/

/-- The new entry goes in front of the first that is faster. -/
theorem insertEntry_eq (x : ValueT) (l : List ValueT) :
    insertEntry x l = l.take (l.findIdx fun y => x.slower y) ++
      x :: l.drop (l.findIdx fun y => x.slower y) := by
  induction l with
  | nil => rfl
  | cons y rest ih =>
    rw [insertEntry, List.findIdx_cons]
    cases x.slower y with
    | true => rfl
    | false =>
      simp only [Bool.false_eq_true, if_false, cond_false, List.take_succ_cons, List.drop_succ_cons,
        List.cons_append]
      rw [ih]

theorem setSlot_append (front rest : List ValueT) (y x : ValueT) :
    setSlot (front ++ y :: rest) front.length x = some (front ++ x :: rest) := by
  have inside : front.length < (front ++ y :: rest).length := by simp
  rw [setSlot, if_pos inside, List.set_append_right _ _ le_rfl, Nat.sub_self, List.set_cons_zero]

/-- Moving leaves a slot free at `i`, and takes the one behind the entries. -/
theorem shiftSlots_append (front moved rest : List ValueT) (y : ValueT) :
    ∃ hole, shiftSlots front.length (front.length + moved.length) (front ++ moved ++ y :: rest) =
      some (front ++ hole :: (moved ++ rest)) := by
  -- the entries are moved from the last to the first
  induction moved using List.reverseRecOn generalizing y rest with
  | nil =>
    refine ⟨y, ?_⟩
    rw [List.append_nil, List.length_nil, Nat.add_zero, List.nil_append]
    cases front.length with
    | zero => rfl
    | succ n => exact if_neg (lt_irrefl _)
  | append_singleton moved z ih =>
    have place : (front ++ (moved ++ [z]) ++ y :: rest)[front.length + moved.length]? = some z := by
      rw [List.append_assoc, List.append_assoc, ← List.append_assoc front,
        List.getElem?_append_right (by rw [List.length_append])]
      simp
    have stored : setSlot (front ++ (moved ++ [z]) ++ y :: rest)
        (front.length + moved.length + 1) z = some (front ++ moved ++ z :: z :: rest) := by
      have := setSlot_append (front ++ (moved ++ [z])) rest y z
      rw [List.length_append, List.length_append, List.length_singleton, ← Nat.add_assoc] at this
      rw [this]
      simp only [List.append_assoc, List.cons_append, List.nil_append]
    obtain ⟨hole, shifted⟩ := ih (z :: rest) z
    refine ⟨hole, ?_⟩
    rw [List.length_append, List.length_singleton, ← Nat.add_assoc, shiftSlots,
      if_pos (by omega), place]
    simp only [Option.bind_eq_bind, Option.bind_some]
    rw [stored]
    simp only [Option.bind_some]
    rw [shifted, List.append_assoc moved]
    rfl

namespace ResultSlots

variable {r : ResultSlots}

/-- **In place, where there is room, `insertsort` is insertion into the entries.** -/
theorem insertsort_eq (u n : ℕ) (room : r.N < r.v.length) :
    ∃ r', r.insertsort u n = some r' ∧ r'.contents = Lmbench.insertsort u n r.contents ∧
      r'.N = r.N + (if u = 0 then 0 else 1) ∧ r'.v.length = r.v.length := by
  by_cases zero : u = 0
  · exact ⟨r, if_pos zero, (if_pos zero).symm, by rw [if_pos zero, Nat.add_zero], rfl⟩
  · rw [insertsort, Lmbench.insertsort, if_neg zero, if_neg zero]
    set i := (r.v.take r.N).findIdx fun y => (⟨u, n⟩ : ValueT).slower y with scan
    have length : (r.v.take r.N).length = r.N := List.length_take_of_le room.le
    have within : i ≤ r.N := length ▸ List.findIdx_le_length
    -- the entries before `i`, those from `i` on, the first slot that is free and the others
    obtain ⟨y, rest, spare⟩ : ∃ y rest, r.v.drop r.N = y :: rest :=
      List.exists_cons_of_length_pos (by rw [List.length_drop]; omega)
    have front : ((r.v.take r.N).take i).length = i := List.length_take_of_le (by omega)
    have moved : ((r.v.take r.N).drop i).length = r.N - i := by rw [List.length_drop, length]
    have split : r.v = (r.v.take r.N).take i ++ (r.v.take r.N).drop i ++ y :: rest := by
      rw [List.take_append_drop, ← spare, List.take_append_drop]
    obtain ⟨hole, shifted⟩ := shiftSlots_append ((r.v.take r.N).take i) ((r.v.take r.N).drop i)
      rest y
    rw [← split, front, moved, Nat.add_sub_of_le within] at shifted
    have set := setSlot_append ((r.v.take r.N).take i) ((r.v.take r.N).drop i ++ rest) hole ⟨u, n⟩
    rw [front] at set
    refine ⟨⟨r.N + 1, (r.v.take r.N).take i ++ ⟨u, n⟩ :: ((r.v.take r.N).drop i ++ rest)⟩, ?_, ?_,
      ?_, ?_⟩
    · change (shiftSlots i r.N r.v).bind (fun v => (setSlot v i ⟨u, n⟩).bind fun v =>
        some (⟨r.N + 1, v⟩ : ResultSlots)) = _
      rw [shifted, Option.bind_some, set, Option.bind_some]
    · have entries : ((r.v.take r.N).take i ++ (⟨u, n⟩ : ValueT) :: (r.v.take r.N).drop i).length =
          r.N + 1 := by
        rw [List.length_append, List.length_cons, front, moved]
        omega
      rw [contents, contents, insertEntry_eq, ← scan]
      simp only
      rw [← List.cons_append, ← List.append_assoc, List.take_left' entries]
    · rw [if_neg zero]
    · have whole := congrArg List.length split
      simp only [List.length_append, List.length_cons] at whole ⊢
      omega

/-- Where there is no room, `insertsort` writes behind the slots. -/
theorem insertsort_full {u : ℕ} (nonzero : u ≠ 0) (n : ℕ) (full : r.N = r.v.length) :
    r.insertsort u n = none := by
  rw [insertsort, if_neg nonzero]
  change (shiftSlots ((r.v.take r.N).findIdx _) r.N r.v).bind (fun v =>
    (setSlot v ((r.v.take r.N).findIdx _) ⟨u, n⟩).bind fun v => some (⟨r.N + 1, v⟩ : ResultSlots)) =
      none
  have within : (r.v.take r.N).findIdx (fun y => (⟨u, n⟩ : ValueT).slower y) ≤ r.N :=
    List.findIdx_le_length.trans (List.length_take_le _ _)
  generalize (r.v.take r.N).findIdx _ = i at within ⊢
  rcases within.lt_or_eq with before | rfl
  · -- the last entry is moved behind the slots
    obtain ⟨j, last⟩ : ∃ j, r.N = j + 1 := ⟨r.N - 1, by omega⟩
    have inside : j < r.v.length := by omega
    rw [last, shiftSlots, if_pos (by omega), List.getElem?_eq_getElem inside]
    simp only [Option.bind_eq_bind, Option.bind_some]
    rw [setSlot, if_neg (by omega)]
    rfl
  · have kept : shiftSlots r.N r.N r.v = some r.v := by
      cases r.N with
      | zero => rfl
      | succ n => exact if_neg (lt_irrefl _)
    rw [kept, Option.bind_some, setSlot, if_neg (by omega)]
    rfl

end ResultSlots

/-- Calls that fit file their measurements as insertion into the entries does. -/
theorem insertCalls_eq (calls : List ValueT) {r : ResultSlots}
    (fits : r.N + (calls.filter (·.u ≠ 0)).length ≤ r.v.length) :
    ∃ r', insertCalls calls r = some r' ∧ r'.contents = insertAll calls r.contents := by
  induction calls generalizing r with
  | nil => exact ⟨r, rfl, rfl⟩
  | cons x rest ih =>
    have step : ∃ r', r.insertsort x.u x.n = some r' ∧
        r'.contents = insertsort x.u x.n r.contents ∧
        r'.N + (rest.filter (·.u ≠ 0)).length ≤ r'.v.length := by
      by_cases zero : x.u = 0
      · refine ⟨r, if_pos zero, (if_pos zero).symm, ?_⟩
        rwa [List.filter_cons_of_neg (by simpa using zero)] at fits
      · rw [List.filter_cons_of_pos (by simpa using zero), List.length_cons] at fits
        obtain ⟨r', returned, contents, count, length⟩ :=
          r.insertsort_eq x.u x.n (by omega)
        rw [if_neg zero] at count
        exact ⟨r', returned, contents, by omega⟩
    obtain ⟨r', returned, contents, room⟩ := step
    obtain ⟨r'', finished, merged⟩ := ih room
    refine ⟨r'', ?_, ?_⟩
    · rw [insertCalls, List.foldlM_cons, returned]
      exact finished
    · rw [merged, contents]
      rfl

/-- **Calls that fit are those that stay in the slots.** -/
theorem insertCalls_isSome_iff (calls : List ValueT) {r : ResultSlots}
    (stored : r.N ≤ r.v.length) :
    (insertCalls calls r).isSome ↔ r.N + (calls.filter (·.u ≠ 0)).length ≤ r.v.length := by
  constructor
  · intro returned
    induction calls generalizing r with
    | nil => exact stored
    | cons x rest ih =>
      rw [insertCalls, List.foldlM_cons] at returned
      by_cases zero : x.u = 0
      · rw [List.filter_cons_of_neg (by simpa using zero)]
        rw [ResultSlots.insertsort, if_pos zero] at returned
        exact ih stored returned
      · rw [List.filter_cons_of_pos (by simpa using zero), List.length_cons]
        rcases stored.lt_or_eq with room | full
        · obtain ⟨r', filed, -, count, length⟩ := r.insertsort_eq x.u x.n room
          rw [filed] at returned
          rw [if_neg zero] at count
          have later := ih (by omega) returned
          omega
        · -- the first entry that does not fit is written behind the slots
          rw [ResultSlots.insertsort_full zero x.n full] at returned
          cases returned
  · intro fits
    obtain ⟨r', returned, -⟩ := insertCalls_eq calls fits
    rw [returned]
    rfl

/-! ### A sorted bag -/

/-- The entries are those that were filed, but for times of zero. -/
theorem coe_insertAll_filter (calls : List ValueT) (merged : ResultT) :
    ((insertAll calls merged).v : Multiset ValueT) =
      (calls.filter (·.u ≠ 0) : Multiset ValueT) + (merged.v : Multiset ValueT) := by
  induction calls generalizing merged with
  | nil => simp [insertAll]
  | cons x rest ih =>
    have tail := ih (insertsort x.u x.n merged)
    rw [coe_insertsort] at tail
    by_cases zero : x.u = 0
    · rw [if_pos zero] at tail
      rw [List.filter_cons_of_neg (by simpa using zero)]
      exact tail
    · rw [if_neg zero] at tail
      rw [List.filter_cons_of_pos (by simpa using zero), ← Multiset.cons_coe, Multiset.cons_add,
        ← Multiset.add_cons]
      exact tail

/-- Between entries with counts the comparison is that of the quotients. -/
theorem ValueT.slower_iff {x y : ValueT} (hx : 1 ≤ x.n) (hy : 1 ≤ y.n) :
    x.slower y ↔ y.quotient < x.quotient := by
  have xn : (0 : ℚ) < x.n := by exact_mod_cast hx
  have yn : (0 : ℚ) < y.n := by exact_mod_cast hy
  rw [quotient, quotient, div_lt_div_iff₀ yn xn, slower, decide_eq_true_eq, gt_iff_lt]
  exact_mod_cast Iff.rfl

namespace ResultT

/-- Biggest to smallest, all with counts. -/
structure Sorted (r : ResultT) : Prop where
  counts : ∀ x ∈ r.v, 1 ≤ x.n
  order : r.v.Pairwise fun x y => y.quotient ≤ x.quotient

end ResultT

theorem insertEntry_order {x : ValueT} {l : List ValueT} (hx : 1 ≤ x.n)
    (counts : ∀ y ∈ l, 1 ≤ y.n) (order : l.Pairwise fun x y => y.quotient ≤ x.quotient) :
    (insertEntry x l).Pairwise fun x y => y.quotient ≤ x.quotient := by
  induction l with
  | nil => exact List.pairwise_singleton _ _
  | cons y rest ih =>
    obtain ⟨first, others⟩ := List.pairwise_cons.mp order
    have hy : 1 ≤ y.n := counts y List.mem_cons_self
    rw [insertEntry]
    by_cases slower : x.slower y
    · rw [if_pos slower, List.pairwise_cons]
      have less := (ValueT.slower_iff hx hy).mp slower
      refine ⟨fun z member => ?_, order⟩
      rcases List.mem_cons.mp member with rfl | later
      · exact less.le
      · exact (first z later).trans less.le
    · rw [if_neg slower, List.pairwise_cons]
      have most := not_lt.mp (mt (ValueT.slower_iff hx hy).mpr slower)
      refine ⟨fun z member => ?_, ih (fun z hz => counts z (List.mem_cons_of_mem y hz)) others⟩
      rcases List.mem_cons.mp ((insertEntry_perm x rest).mem_iff.mp member) with rfl | later
      · exact most
      · exact first z later

theorem ResultT.Sorted.insertsort {r : ResultT} (sorted : r.Sorted) {u n : ℕ} (count : 1 ≤ n) :
    (insertsort u n r).Sorted := by
  rw [Lmbench.insertsort]
  split
  · exact sorted
  · refine ⟨fun x member => ?_, insertEntry_order count sorted.counts sorted.order⟩
    rcases List.mem_cons.mp ((insertEntry_perm _ _).mem_iff.mp member) with rfl | old
    · exact count
    · exact sorted.counts x old

theorem insertAll_sorted {calls : List ValueT} (counts : ∀ x ∈ calls, 1 ≤ x.n) {merged : ResultT}
    (sorted : merged.Sorted) : (insertAll calls merged).Sorted := by
  induction calls generalizing merged with
  | nil => exact sorted
  | cons x rest ih =>
    exact ih (fun y hy => counts y (List.mem_cons_of_mem x hy))
      (sorted.insertsort (counts x List.mem_cons_self))

/-! ### What is reported -/

/-- The count and the time that are stored are those of a measurement of least quotient, or
those that stand for none. -/
def Globals.StoresLeast (g : Globals) (measurements : List ValueT) : Prop :=
  (measurements = [] → g.regs.getN = 1 ∧ g.regs.gettime = 0) ∧
    (measurements ≠ [] → ∃ x ∈ measurements, g.regs.getN = x.n ∧ g.regs.gettime = x.u ∧
      ∀ y ∈ measurements, x.quotient ≤ y.quotient)

/-- The last entry of a sorted set is the least. -/
theorem Globals.saveMinimum_storesLeast {g : Globals} (sorted : g.results.Sorted)
    (words : ∀ x ∈ g.results.v, x.u < 2 ^ 64) : g.saveMinimum.StoresLeast g.results.v := by
  constructor
  · intro empty
    rw [saveMinimum_empty (List.length_eq_zero_iff.mpr empty)]
    exact ⟨rfl, gettime_report g 0 1⟩
  · intro nonempty
    have last := List.getLast_mem nonempty
    refine ⟨g.results.v.getLast nonempty, last, ?_, ?_, fun y member => ?_⟩
    · simp only [saveMinimum, List.getLast?_eq_some_getLast nonempty, getN_report]
    · simp only [saveMinimum, List.getLast?_eq_some_getLast nonempty]
      rw [gettime_report, Nat.mod_eq_of_lt (words _ last)]
    · have order := sorted.order
      rw [← List.dropLast_append_getLast nonempty] at order member
      rcases List.mem_append.mp member with before | same
      · exact (List.pairwise_append.mp order).2.2 y before _ (List.mem_singleton_self _)
      · rw [List.mem_singleton.mp same]

theorem Globals.StoresLeast.of_perm {g : Globals} {l l' : List ValueT} (least : g.StoresLeast l)
    (perm : l.Perm l') : g.StoresLeast l' := by
  refine ⟨fun empty => least.1 ?_, fun nonempty => ?_⟩
  · rw [empty] at perm
    exact perm.eq_nil
  · obtain ⟨x, member, count, time, lowest⟩ := least.2 fun empty => nonempty (by
      rw [empty] at perm
      exact perm.symm.eq_nil)
    exact ⟨x, perm.mem_iff.mp member, count, time, fun y hy => lowest y (perm.mem_iff.mpr hy)⟩

/-- **The result store is a sorted bag.** After whatever calls of `insertsort` with a count of at
least 1 that fit the slots: nothing was written behind the slots, the entries are ordered from
slow to fast and are the measurements that took time, each as often as it was filed, and
`set_results` and `save_minimum` store the fastest of them. -/
theorem insertCalls_spec (calls : List ValueT) (counts : ∀ x ∈ calls, 1 ≤ x.n)
    (words : ∀ x ∈ calls, x.u < 2 ^ 64) (r : ResultSlots)
    (fits : (calls.filter (·.u ≠ 0)).length ≤ r.v.length) (g : Globals) :
    ∃ r', insertCalls calls r.insertinit = some r' ∧
      r'.contents.v.Pairwise (fun x y => y.quotient ≤ x.quotient) ∧
      (r'.contents.v : Multiset ValueT) = (calls.filter (·.u ≠ 0) : Multiset ValueT) ∧
      (g.setResults r'.contents).saveMinimum.StoresLeast (calls.filter (·.u ≠ 0)) := by
  obtain ⟨r', returned, contents⟩ := insertCalls_eq calls (r := r.insertinit)
    ((Nat.zero_add _).trans_le fits)
  have empty : r.insertinit.contents = insertinit := rfl
  have sorted : r'.contents.Sorted := by
    rw [contents, empty]
    refine insertAll_sorted counts ⟨fun x member => ?_, List.Pairwise.nil⟩
    exact absurd member List.not_mem_nil
  have bag : (r'.contents.v : Multiset ValueT) = (calls.filter (·.u ≠ 0) : Multiset ValueT) := by
    rw [contents, empty, coe_insertAll_filter, insertinit, Multiset.coe_nil,
      Multiset.add_zero]
  have perm := Multiset.coe_eq_coe.mp bag
  have least := (g.setResults r'.contents).saveMinimum_storesLeast
    (by rwa [Globals.results_setResults]) (by
      rw [Globals.results_setResults]
      exact fun x member => words x (List.mem_of_mem_filter (perm.mem_iff.mp member)))
  rw [Globals.results_setResults] at least
  exact ⟨r', returned, sorted.order, bag, least.of_perm perm⟩

/-- Three measurements of different counts, and one that took no time. -/
theorem insertCalls_spec_four :
    ∃ r', insertCalls [⟨20, 2⟩, ⟨0, 5⟩, ⟨12, 1⟩, ⟨9, 3⟩]
        (⟨7, List.replicate 3 ⟨0, 0⟩⟩ : ResultSlots).insertinit = some r' ∧
      r'.contents.v.Pairwise (fun x y => y.quotient ≤ x.quotient) ∧
      (r'.contents.v : Multiset ValueT) = ([⟨20, 2⟩, ⟨12, 1⟩, ⟨9, 3⟩] : List ValueT) ∧
      (Globals.initial.setResults r'.contents).saveMinimum.StoresLeast
        [⟨20, 2⟩, ⟨12, 1⟩, ⟨9, 3⟩] :=
  insertCalls_spec [⟨20, 2⟩, ⟨0, 5⟩, ⟨12, 1⟩, ⟨9, 3⟩] (by decide) (by decide)
    ⟨7, List.replicate 3 ⟨0, 0⟩⟩ (by decide) .initial

end Lmbench
