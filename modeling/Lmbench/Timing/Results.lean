import Lmbench.Timing.Clock
import Mathlib.Data.Multiset.AddSub
import Mathlib.Data.List.Perm.Basic

/-!
# Result sets

`insertsort` files one measurement into a `result_t`, slowest iteration first,
and drops measurements of zero time. `set_results`, `save_minimum` and
`save_median` choose the pair that is reported from the set the global
`results` points to; an empty set is reported as time 0 with count 1.

## Main results

* `coe_insertsort` - as a multiset, insertion adds exactly the measurement
* `ResultT.Positive.insertsort` - no entry of a result set has time zero
* `saveMinimum_empty`, `saveMedian_empty` - what is reported when nothing was measured
-/

namespace Lmbench

/-- `TRIES`. -/
def tries : ℕ := 11

/-- `value_t`: the elapsed time `u` of `n` iterations. -/
structure ValueT where
  u : ℕ
  n : ℕ
deriving DecidableEq, Repr

/-- `result_t`: the `N` entries in use. -/
structure ResultT where
  v : List ValueT
deriving DecidableEq, Repr

namespace ResultT

/-- The field `N`. -/
def N (r : ResultT) : ℕ := r.v.length

end ResultT

/-- `insertinit(r)`. -/
def insertinit : ResultT := ⟨[]⟩

/-- `u/(double)n > v.u/(double)v.n`, cross-multiplied. For nonzero times this is
also what the comparison gives when a count is zero and the quotient infinite. -/
def ValueT.slower (x y : ValueT) : Bool := x.u * y.n > y.u * x.n

/-- The scan of `insertsort`: stop at the first faster entry and shift the rest. -/
def insertEntry (x : ValueT) : List ValueT → List ValueT
  | [] => [x]
  -- an entry that is as slow stays in front
  | y :: rest => if x.slower y then x :: y :: rest else y :: insertEntry x rest

/-- `insertsort(u, n, r)`: biggest to smallest. -/
def insertsort (u n : ℕ) (r : ResultT) : ResultT :=
  -- a measurement of no time is dropped
  if u = 0 then r else ⟨insertEntry ⟨u, n⟩ r.v⟩

/-- `sizeof_result(repetitions)`, for a header of `header` bytes before the
entries and entries of `entry` bytes. -/
def sizeofResult (header entry repetitions : ℕ) : ℕ :=
  if repetitions ≤ tries then header + tries * entry
  else header + tries * entry + (repetitions - tries) * entry

theorem insertEntry_perm (x : ValueT) (l : List ValueT) : (insertEntry x l).Perm (x :: l) := by
  induction l with
  | nil => exact .refl _
  | cons y rest ih =>
    unfold insertEntry
    split
    · exact .refl _
    · exact (ih.cons y).trans (.swap x y rest)

/-- Insertion adds the measurement, and nothing else, unless its time is zero. -/
theorem coe_insertsort (u n : ℕ) (r : ResultT) :
    ((insertsort u n r).v : Multiset ValueT) =
      if u = 0 then (r.v : Multiset ValueT) else ⟨u, n⟩ ::ₘ (r.v : Multiset ValueT) := by
  unfold insertsort
  split
  · rfl
  · exact Multiset.coe_eq_coe.mpr (insertEntry_perm _ _)

theorem N_insertsort_le (u n : ℕ) (r : ResultT) : (insertsort u n r).N ≤ r.N + 1 := by
  unfold insertsort ResultT.N
  split
  · omega
  · simp [(insertEntry_perm _ _).length_eq]

namespace ResultT

/-- No entry has time zero. -/
def Positive (r : ResultT) : Prop := ∀ x ∈ r.v, x.u ≠ 0

theorem Positive.insertinit : Positive insertinit := by simp [Positive, Lmbench.insertinit]

theorem Positive.insertsort {r : ResultT} (positive : r.Positive) (u n : ℕ) :
    (insertsort u n r).Positive := by
  unfold Lmbench.insertsort
  split
  · exact positive
  · rename_i nonzero
    intro x hx
    rcases List.mem_cons.mp ((insertEntry_perm _ _).mem_iff.mp hx) with rfl | old
    · exact nonzero
    · exact positive x old

end ResultT

/-- The merge loop of `benchmp_parent`: file every entry of one child's set. -/
def insertAll (entries : List ValueT) (merged : ResultT) : ResultT :=
  entries.foldl (fun acc x => insertsort x.u x.n acc) merged

theorem ResultT.Positive.insertAll {merged : ResultT} (positive : merged.Positive)
    (entries : List ValueT) : (insertAll entries merged).Positive := by
  induction entries generalizing merged with
  | nil => exact positive
  | cons x rest ih => exact ih (positive.insertsort x.u x.n)

/-- Merging entries of nonzero time adds them all. -/
theorem coe_insertAll {entries : List ValueT} (nonzero : ∀ x ∈ entries, x.u ≠ 0)
    (merged : ResultT) :
    ((insertAll entries merged).v : Multiset ValueT) =
      (entries : Multiset ValueT) + (merged.v : Multiset ValueT) := by
  induction entries generalizing merged with
  | nil => simp [insertAll]
  | cons x rest ih =>
    have head : x.u ≠ 0 := nonzero x (by simp)
    have tail := ih (fun y hy => nonzero y (by simp [hy])) (insertsort x.u x.n merged)
    rw [coe_insertsort, if_neg head] at tail
    rw [← Multiset.cons_coe, Multiset.cons_add, ← Multiset.add_cons]
    exact tail

/-- The globals of the timing library that outlive a measurement: the registers
and the set that `results` points to. -/
structure Globals where
  regs : Registers
  results : ResultT
deriving DecidableEq, Repr

namespace Globals

/-- Before the first measurement `results` points to the empty `_results`. -/
def initial : Globals := ⟨.zero, insertinit⟩

/-- `save_n(n); settime(u)`. -/
def report (g : Globals) (u n : ℕ) : Globals := { g with regs := (g.regs.saveN n).settime u }

/-- `save_minimum()`. -/
def saveMinimum (g : Globals) : Globals :=
  -- the entries are sorted, fastest last
  match g.results.v.getLast? with
  | none => g.report 0 1
  | some x => g.report x.u x.n

/-- `save_median()`. The sums are `uint64`. -/
def saveMedian (g : Globals) : Globals :=
  let i := g.results.N / 2
  let at' (j : ℕ) : ValueT := g.results.v.getD j ⟨0, 1⟩
  if g.results.N = 0 then g.report 0 1
  else if g.results.N % 2 = 1 then g.report (at' i).u (at' i).n
  -- an even number: the mean of the two in the middle
  else g.report (((at' i).u + (at' (i - 1)).u) % 2 ^ 64 / 2)
    (((at' i).n + (at' (i - 1)).n) % 2 ^ 64 / 2)

/-- `set_results(r)`. -/
def setResults (g : Globals) (r : ResultT) : Globals := { g with results := r }.saveMedian

@[simp] theorem results_report (g : Globals) (u n : ℕ) : (g.report u n).results = g.results := rfl

@[simp] theorem getN_report (g : Globals) (u n : ℕ) : (g.report u n).regs.getN = n := rfl

theorem gettime_report (g : Globals) (u n : ℕ) :
    (g.report u n).regs.gettime = u % 2 ^ 64 :=
  Registers.gettime_settime_mod _ _

@[simp] theorem results_saveMinimum (g : Globals) : g.saveMinimum.results = g.results := by
  unfold saveMinimum
  split <;> rfl

@[simp] theorem results_saveMedian (g : Globals) : g.saveMedian.results = g.results := by
  simp only [saveMedian]
  split_ifs <;> rfl

@[simp] theorem results_setResults (g : Globals) (r : ResultT) : (g.setResults r).results = r :=
  results_saveMedian _

theorem saveMinimum_empty {g : Globals} (empty : g.results.N = 0) :
    g.saveMinimum = g.report 0 1 := by
  have none : g.results.v = [] := List.length_eq_zero_iff.mp empty
  simp [saveMinimum, none]

theorem saveMedian_empty {g : Globals} (empty : g.results.N = 0) :
    g.saveMedian = g.report 0 1 :=
  if_pos empty

/-- A nonempty set reports a nonzero time as its minimum. -/
theorem gettime_saveMinimum_ne_zero {g : Globals} (nonempty : g.results.N ≠ 0)
    (positive : g.results.Positive) (fits : ∀ x ∈ g.results.v, x.u < 2 ^ 64) :
    g.saveMinimum.regs.gettime ≠ 0 := by
  have some : g.results.v ≠ [] := fun nil => nonempty (by simp [ResultT.N, nil])
  have member := List.getLast_mem some
  simp only [saveMinimum, List.getLast?_eq_some_getLast some]
  rw [gettime_report, Nat.mod_eq_of_lt (fits _ member)]
  exact positive _ member

end Globals

end Lmbench
