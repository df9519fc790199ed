import Lmbench.Lib.LeastMode
import Lmbench.Mhz.Compute

/-!
# `mode` of `mhz`

`mode` sorts its values, rounds them to integers and keeps the length of the last
run of equal integers beside that of the longest. Rounding does not change the
order, so equal integers come one after the other, and a run is all there is of its
integer.

## Main results

* `Scanned.step` - what one pass of the loop keeps
* `mode_leastMode` - the result is the least of the most frequent integers
-/

namespace Lmbench.Mhz

open Lib

/-- `(int)(value + 0.5)`. -/
def rounded (value : ℚ) : ℤ := truncate (value + 1 / 2)

section Rounding

variable {v w : ℚ}

theorem rounded_of_nonneg (nonneg : 0 ≤ v) : rounded v = ⌊v + 1 / 2⌋ :=
  truncate_of_nonneg (by linarith)

/-- Rounding keeps the order. -/
theorem rounded_le (nonneg : 0 ≤ v) (below : v ≤ w) : rounded v ≤ rounded w := by
  rw [rounded_of_nonneg nonneg, rounded_of_nonneg (nonneg.trans below)]
  exact Int.floor_le_floor (by linarith)

/-- The conversion does not leave `int`. -/
theorem rounded_fits (nonneg : 0 ≤ v) (small : v < 2 ^ 31 - 1) :
    0 ≤ rounded v ∧ rounded v < 2 ^ 31 := by
  rw [rounded_of_nonneg nonneg]
  constructor
  · exact Int.floor_nonneg.mpr (by linarith)
  · refine Int.floor_lt.mpr ?_
    push_cast
    linarith

end Rounding

/-- The counters of `mode` after the rounded values `l` in ascending order: the mode and its
frequency, and the same for the last value. -/
structure Scanned (l : List ℤ) (s : Mode) : Prop where
  mode : LeastMode l s.mode
  n_mode : s.n_mode = l.count s.mode
  last : ∀ x ∈ l, x ≤ s.curr
  n_curr : s.n_curr = l.count s.curr

namespace Scanned

variable {l : List ℤ} {s : Mode}

theorem first (v : ℤ) : Scanned [v] ⟨v, 1, v, 1⟩ where
  mode := LeastMode.singleton v
  n_mode := List.count_singleton_self.symm
  last _ member := (List.mem_singleton.mp member).le
  n_curr := List.count_singleton_self.symm

/-- The reset leaves the frequency of the value that is read. -/
theorem count_next (scanned : Scanned l s) {v : ℤ} (next : s.curr ≤ v) :
    (if s.curr ≠ v then 0 else s.n_curr) = l.count v := by
  split
  · rename_i other
    have above : s.curr < v := lt_of_le_of_ne next other
    exact (List.count_eq_zero.mpr (LeastMode.not_mem_of_lt scanned.last above)).symm
  · rename_i same
    rw [scanned.n_curr, not_not.mp same]

/-- **One pass of the loop.** -/
theorem step (scanned : Scanned l s) {value : ℚ} (next : s.curr ≤ rounded value) :
    Scanned (l ++ [rounded value]) (modeStep s value) := by
  have count := scanned.count_next next
  have last : ∀ x ∈ l, x ≤ rounded value := fun x member => (scanned.last x member).trans next
  have lasts : ∀ x ∈ l ++ [rounded value], x ≤ rounded value := by
    intro x member
    rcases List.mem_append.mp member with before | here
    · exact last x before
    · exact (List.mem_singleton.mp here).le
  have run : (l ++ [rounded value]).count (rounded value) = l.count (rounded value) + 1 :=
    LeastMode.count_append_self
  have eq : modeStep s value = if l.count (rounded value) + 1 > s.n_mode
      then ⟨rounded value, l.count (rounded value) + 1, rounded value,
        l.count (rounded value) + 1⟩
      else ⟨s.mode, s.n_mode, rounded value, l.count (rounded value) + 1⟩ := by
    rw [← count]
    rfl
  rw [eq, scanned.n_mode]
  -- an equally long run does not replace the mode, which is the lesser integer
  split
  · rename_i longer
    exact ⟨scanned.mode.append longer, run.symm, lasts, run.symm⟩
  · rename_i shorter
    obtain ⟨mode, kept⟩ := scanned.mode.append_le last (Nat.le_of_not_lt shorter)
    exact ⟨mode, kept.symm, lasts, run.symm⟩

/-- The last value becomes the current one. -/
theorem curr_modeStep (s : Mode) (value : ℚ) : (modeStep s value).curr = rounded value := by
  unfold modeStep rounded
  dsimp only
  rw [apply_ite Mode.curr]
  exact ite_self _

/-- **The loop.** By induction on the values that are left. -/
theorem run (scanned : Scanned l s) {rest : List ℚ} (nonneg : ∀ v ∈ rest, 0 ≤ v)
    (ascending : rest.Pairwise (· ≤ ·)) (next : ∀ v ∈ rest, s.curr ≤ rounded v) :
    Scanned (l ++ rest.map rounded) (rest.foldl modeStep s) := by
  induction rest generalizing l s with
  | nil =>
    rw [List.map_nil, List.append_nil]
    exact scanned
  | cons v rest ih =>
    obtain ⟨above, later⟩ := List.pairwise_cons.mp ascending
    rw [List.foldl_cons, List.map_cons, List.append_cons]
    refine ih (scanned.step (next v List.mem_cons_self))
      (fun w member => nonneg w (List.mem_cons_of_mem _ member)) later fun w member => ?_
    rw [curr_modeStep]
    exact rounded_le (nonneg v List.mem_cons_self) (above w member)

end Scanned

/-- **`mode` of sorted values.** -/
theorem scanned_sorted {first : ℚ} {rest : List ℚ} (nonneg : ∀ v ∈ first :: rest, 0 ≤ v)
    (ascending : (first :: rest).Pairwise (· ≤ ·)) :
    Scanned ((first :: rest).map rounded)
      (rest.foldl modeStep ⟨rounded first, 1, rounded first, 1⟩) := by
  obtain ⟨above, later⟩ := List.pairwise_cons.mp ascending
  exact (Scanned.first (rounded first)).run
    (fun v member => nonneg v (List.mem_cons_of_mem _ member)) later
    fun v member => rounded_le (nonneg first List.mem_cons_self) (above v member)

/-- **The most frequent value.** For all of the first `n ≥ 1` values in `[0, 2^31 - 1)`, no
conversion overflows, and the result is the least of the integers that most of the values round
to. -/
theorem mode_leastMode (values : List ℚ) (n : ℕ) (some : 1 ≤ n) (inside : n ≤ values.length)
    (range : ∀ v ∈ values.take n, 0 ≤ v ∧ v < 2 ^ 31 - 1) :
    (∀ v ∈ values.take n, 0 ≤ rounded v ∧ rounded v < 2 ^ 31) ∧
      LeastMode ((values.take n).map rounded) (mode values n).1 := by
  refine ⟨fun v member => rounded_fits (range v member).1 (range v member).2, ?_⟩
  have rearranged : (sorted (values.take n)).Perm (values.take n) :=
    List.perm_insertionSort _ _
  have length : (sorted (values.take n)).length = n := by
    rw [rearranged.length_eq, List.length_take_of_le inside]
  have ascending : (sorted (values.take n)).Pairwise (· ≤ ·) :=
    List.pairwise_insertionSort _ _
  have front : (sorted (values.take n) ++ values.drop n).take n = sorted (values.take n) := by
    rw [List.take_append_of_le_length length.ge, List.take_of_length_le length.le]
  have nonneg : ∀ v ∈ sorted (values.take n), 0 ≤ v := fun v member =>
    (range v (rearranged.mem_iff.mp member)).1
  -- sorting leaves what is behind the first `n` values, and the loop does not get there
  have result : (mode values n).1 = ((sorted (values.take n)).tail.foldl modeStep
      ⟨rounded ((sorted (values.take n)).getD 0 0), 1,
        rounded ((sorted (values.take n)).getD 0 0), 1⟩).mode := by
    rw [← List.getD_append _ (values.drop n) 0 0 (by omega)]
    change (((sorted (values.take n) ++ values.drop n).take n).tail.foldl modeStep _).mode = _
    rw [front]
    rfl
  obtain ⟨first, rest, split⟩ := List.exists_cons_of_ne_nil
    (List.ne_nil_of_length_pos (by omega : 0 < (sorted (values.take n)).length))
  refine LeastMode.perm ?_ (rearranged.map rounded)
  rw [result]
  rw [split] at nonneg ascending ⊢
  exact (scanned_sorted nonneg ascending).mode

/-- Two values each round to nine and to three. -/
theorem mode_leastMode_four : (∀ v ∈ ([9, 3, 10 / 3, 26 / 3] : List ℚ).take 4,
    0 ≤ rounded v ∧ rounded v < 2 ^ 31) ∧
      LeastMode ((([9, 3, 10 / 3, 26 / 3] : List ℚ).take 4).map rounded)
        (mode [9, 3, 10 / 3, 26 / 3] 4).1 :=
  mode_leastMode [9, 3, 10 / 3, 26 / 3] 4 (by decide) (by decide) (by norm_num)

end Lmbench.Mhz
