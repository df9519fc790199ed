import Lmbench.Lib.PointerChain
import Mathlib.Dynamics.PeriodicPts.Defs
import Mathlib.Data.Set.Finite.Range
import Mathlib.Data.Set.Finite.Basic
import Mathlib.Tactic.Positivity
import Mathlib.Tactic.Ring
import Mathlib.Tactic.Linarith

/-!
# Finding a cycle with two chasers

One chaser moves in each round and the other in every second one. On a cycle they are
apart until the first has gone once around, so meeting before it is back at the start
shows that it will never be back; and on finitely many slots they do meet.

## Main results

* `iterate_ne_of_lt` - no meeting within the first round on a cycle
* `exists_meeting` - a meeting, whatever the chain looks like
* `isCycle_iff` - the slots of a cycle are the first iterates up to the period
-/

namespace Lmbench.Lib.CycleDetection

open Function

variable {α : Type*} {f : α → α} {s : α} {i : ℕ}

/-- **No false alarm.** -/
theorem iterate_ne_of_lt (positive : 0 < i) (below : i < minimalPeriod f s) (c : ℕ) :
    f^[c + i] s ≠ f^[c + i / 2] s := by
  intro meet
  have period : 0 < minimalPeriod f s := by omega
  rw [← iterate_mod_minimalPeriod_eq (n := c + i),
    ← iterate_mod_minimalPeriod_eq (n := c + i / 2)] at meet
  have same := (iterate_eq_iterate_iff_of_lt_minimalPeriod (Nat.mod_lt _ period)
    (Nat.mod_lt _ period)).mp meet
  -- the first is ahead by a multiple of the period, and by less than one
  have multiple : minimalPeriod f s ∣ i - i / 2 := by
    have lead := (Nat.modEq_iff_dvd' (by omega : c + i / 2 ≤ c + i)).mp same.symm
    rwa [Nat.add_sub_add_left] at lead
  have small := Nat.le_of_dvd (by omega) multiple
  omega

/-- What has come twice comes again in the same distance. -/
theorem iterate_add_mul {m d : ℕ} (again : f^[m + d] s = f^[m] s) (k n : ℕ) :
    f^[m + n + k * d] s = f^[m + n] s := by
  induction k with
  | zero => rw [Nat.zero_mul, Nat.add_zero]
  | succ k ih =>
    have split : m + n + (k + 1) * d = k * d + n + (m + d) := by ring
    have split' : m + n + k * d = k * d + n + m := by ring
    rw [split, iterate_add_apply, again, ← iterate_add_apply, ← split', ih]

/-- **The chasers meet** if the chain has finitely many slots. -/
theorem exists_meeting (finite : (Set.range fun n => f^[n] s).Finite) (c : ℕ) :
    ∃ i, 0 < i ∧ f^[c + i] s = f^[c + i / 2] s := by
  obtain ⟨m, n, below, same⟩ : ∃ m n, m < n ∧ f^[m] s = f^[n] s := by
    obtain ⟨m, -, n, -, different, same⟩ := Set.infinite_univ.exists_ne_map_eq_of_mapsTo
      (fun n _ => Set.mem_range_self n) finite
    rcases Nat.lt_or_gt_of_ne different with below | above
    · exact ⟨m, n, below, same⟩
    · exact ⟨n, m, above, same.symm⟩
  obtain ⟨d, rfl⟩ := Nat.exists_eq_add_of_lt below
  -- far enough behind `m`, ahead by a multiple of the distance
  refine ⟨2 * ((m + 1) * (d + 1)), by positivity, ?_⟩
  have half : 2 * ((m + 1) * (d + 1)) / 2 = (m + 1) * (d + 1) := Nat.mul_div_cancel_left _ two_pos
  have room : m ≤ (m + 1) * (d + 1) := by nlinarith
  obtain ⟨r, reach⟩ := Nat.exists_eq_add_of_le (room.trans (Nat.le_add_left _ c))
  have ahead : c + 2 * ((m + 1) * (d + 1)) = m + r + (m + 1) * (d + 1) := by omega
  rw [half, ahead, reach]
  exact iterate_add_mul same.symm (m + 1) r

section Cycle

variable {mem : α → Option α} {slots : List α}

theorem walk_eq_iterate (links : ∀ n, mem (f^[n] s) = some (f^[n + 1] s)) (n : ℕ) :
    walk mem s n = some (f^[n] s) := by
  induction n with
  | zero => rfl
  | succ n ih => rw [walk_succ, ih, Option.bind_some, links]

/-- The slots of a cycle are the iterates up to the period. -/
theorem isCycle_iff (links : ∀ n, mem (f^[n] s) = some (f^[n + 1] s)) :
    IsCycle mem s slots ↔
      0 < minimalPeriod f s ∧ slots = (List.range (minimalPeriod f s)).map fun n => f^[n] s := by
  constructor
  · intro cycle
    have visits : ∀ n, slots[n % slots.length]? = some (f^[n] s) := fun n =>
      (cycle.visits n).symm.trans (walk_eq_iterate links n)
    have back : IsPeriodicPt f slots.length s := by
      have last := visits slots.length
      have first := visits 0
      rw [Nat.mod_self] at last
      rw [Nat.zero_mod] at first
      exact Option.some.inj (last.symm.trans first)
    have period := back.minimalPeriod_pos cycle.length_pos
    have same : slots.length = minimalPeriod f s := by
      apply le_antisymm _ (back.minimalPeriod_le cycle.length_pos)
      -- a shorter period would repeat the first slot
      by_contra longer
      have here := visits (minimalPeriod f s)
      have first := visits 0
      rw [Nat.mod_eq_of_lt (by omega), iterate_minimalPeriod] at here
      rw [Nat.zero_mod] at first
      have repeated := (List.getElem?_inj (by omega) cycle.nodup).mp (here.trans first.symm)
      omega
    refine ⟨period, ?_⟩
    apply List.ext_getElem?
    intro n
    by_cases inside : n < slots.length
    · have here := visits n
      rw [Nat.mod_eq_of_lt inside] at here
      rw [here, List.getElem?_map, List.getElem?_range (by omega)]
      rfl
    · rw [List.getElem?_eq_none (by omega), List.getElem?_eq_none (by simp; omega)]
  · rintro ⟨period, rfl⟩
    refine ⟨?_, ?_, ?_⟩
    · simp
      omega
    · apply List.Nodup.map_on _ List.nodup_range
      intro m hm n hn same
      rw [List.mem_range] at hm hn
      exact (iterate_eq_iterate_iff_of_lt_minimalPeriod hm hn).mp same
    · intro n
      rw [walk_eq_iterate links, List.length_map, List.length_range, List.getElem?_map,
        List.getElem?_range (Nat.mod_lt _ period), Option.map_some, iterate_mod_minimalPeriod_eq]

end Cycle

end Lmbench.Lib.CycleDetection
