import Lmbench.Lib.Transition
import Mathlib.Logic.Function.Basic

/-!
# Processes that run side by side

Processes that share nothing take their steps in any order. What one of them does in a run of all
is then a run of it alone, so an invariant of the single process holds of each of them.

## Main results

* `Run.own` - the steps of one process in a run of all
* `Run.alone` - a run of one process, while the others wait
-/

namespace Lmbench.Lib

universe u v w

variable {ι : Type u} [DecidableEq ι] {σ : Type v} {ε : Type w}

/-- One process takes a step. -/
def Interleaved (step : σ → ε → σ → Prop) (s : ι → σ) (l : ι × ε) (t : ι → σ) : Prop :=
  ∃ x, step (s l.1) l.2 x ∧ t = Function.update s l.1 x

/-- The labels of process `i`. -/
def own (i : ι) (past : List (ι × ε)) : List ε :=
  past.filterMap fun l => if l.1 = i then some l.2 else none

variable {step : σ → ε → σ → Prop} {start s : ι → σ} {past : List (ι × ε)} {i j : ι} {e : ε}

@[simp] theorem own_nil : own i ([] : List (ι × ε)) = [] := rfl

theorem own_append_self : own i (past ++ [(i, e)]) = own i past ++ [e] := by
  simp [own]

theorem own_append_of_ne (other : j ≠ i) : own i (past ++ [(j, e)]) = own i past := by
  simp [own, other]

theorem mem_own : e ∈ own i past ↔ (i, e) ∈ past := by
  rw [own, List.mem_filterMap]
  constructor
  · rintro ⟨⟨j, e'⟩, member, same⟩
    dsimp only at same
    split_ifs at same with mine
    · cases mine
      cases same
      exact member
  · intro member
    exact ⟨(i, e), member, if_pos rfl⟩

/-- What one process does in a run of all is a run of it. -/
theorem Run.own (run : Run (Interleaved step) start past s) (i : ι) :
    Run step (start i) (own i past) (s i) := by
  induction run with
  | nil => exact .nil
  | @snoc past s t l _ taken ih =>
    obtain ⟨j, e⟩ := l
    obtain ⟨x, taken, rfl⟩ := taken
    by_cases mine : j = i
    · subst mine
      rw [own_append_self, Function.update_self]
      exact ih.snoc taken
    · rw [own_append_of_ne mine, Function.update_of_ne (Ne.symm mine)]
      exact ih

/-- One process may run while the others wait. -/
theorem Run.alone (start : ι → σ) (i : ι) {events : List ε} {x : σ}
    (run : Run step (start i) events x) :
    Run (Interleaved step) start (events.map (i, ·)) (Function.update start i x) := by
  induction run with
  | nil =>
    rw [Function.update_eq_self]
    exact .nil
  | @snoc events x y e _ taken ih =>
    rw [List.map_append]
    refine ih.snoc ⟨y, ?_, ?_⟩
    · rw [Function.update_self]
      exact taken
    · rw [Function.update_idem]

theorem own_map (i : ι) (events : List ε) : own i (events.map (i, ·)) = events := by
  rw [own, List.filterMap_map]
  convert List.filterMap_some
  simp

end Lmbench.Lib
