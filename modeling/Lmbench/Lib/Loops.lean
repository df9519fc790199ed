import Mathlib.Data.List.Range

/-!
# Counting loops

A loop over `0, ..., n - 1` that may stop early, or never does, followed by the
value it has before each pass.

## Main results

* `foldlM_range_some` - a loop whose passes all succeed
* `foldlM_range_induction` - the invariant rule
* `foldlM_range_simulation` - two loops that keep step
* `mapM_of_forall` - a loop whose passes each deliver one value
* `foldlM_flatMap` - two loops as one
-/

namespace Lmbench.Lib

universe u

variable {α β γ : Type u}

/-- A loop whose passes all succeed goes through the values before each pass. -/
theorem foldlM_range_some {f : β → ℕ → Option β} (value : ℕ → β) {n : ℕ}
    (pass : ∀ i < n, f (value i) i = some (value (i + 1))) :
    (List.range n).foldlM f (value 0) = some (value n) := by
  induction n with
  | zero => rfl
  | succ n ih =>
    rw [List.range_succ, List.foldlM_append, ih fun i hi => pass i (by omega)]
    change (some (value n)).bind (fun b => [n].foldlM f b) = _
    rw [Option.bind_some, List.foldlM_cons, pass n (by omega)]
    rfl

/-- A loop that can stop early does not, and keeps its invariant, if each pass from the
invariant does. -/
theorem foldlM_range_induction {f : β → ℕ → Option β} {start : β} {n : ℕ} (motive : ℕ → β → Prop)
    (first : motive 0 start)
    (pass : ∀ i < n, ∀ b, motive i b → ∃ b', f b i = some b' ∧ motive (i + 1) b') :
    ∃ b, (List.range n).foldlM f start = some b ∧ motive n b := by
  induction n with
  | zero => exact ⟨start, rfl, first⟩
  | succ n ih =>
    obtain ⟨b, before, kept⟩ := ih fun i hi => pass i (by omega)
    obtain ⟨b', last, after⟩ := pass n (by omega) b kept
    refine ⟨b', ?_, after⟩
    rw [List.range_succ, List.foldlM_append, before]
    change (some b).bind (fun b => [n].foldlM f b) = _
    rw [Option.bind_some, List.foldlM_cons, last]
    rfl

/-- Two loops that can stop early do not, and stay related, if each pair of passes from related
values does. -/
theorem foldlM_range_simulation {f : β → ℕ → Option β} {g : γ → ℕ → Option γ} {b : β} {c : γ}
    {n : ℕ} (rel : β → γ → Prop) (first : rel b c)
    (pass : ∀ i < n, ∀ b c, rel b c → ∃ b' c', f b i = some b' ∧ g c i = some c' ∧ rel b' c') :
    ∃ b' c', (List.range n).foldlM f b = some b' ∧ (List.range n).foldlM g c = some c' ∧
      rel b' c' := by
  induction n with
  | zero => exact ⟨b, c, rfl, rfl, first⟩
  | succ n ih =>
    obtain ⟨b', c', left, right, related⟩ := ih fun i hi => pass i (by omega)
    obtain ⟨b'', c'', left', right', related'⟩ := pass n (by omega) b' c' related
    refine ⟨b'', c'', ?_, ?_, related'⟩
    · rw [List.range_succ, List.foldlM_append, left]
      change (f b' n).bind some = _
      rw [left', Option.bind_some]
    · rw [List.range_succ, List.foldlM_append, right]
      change (g c' n).bind some = _
      rw [right', Option.bind_some]

/-- A loop that delivers a value in each pass delivers them all. -/
theorem mapM_of_forall {f : α → Option β} {g : α → β} {l : List α}
    (each : ∀ x ∈ l, f x = some (g x)) : l.mapM f = some (l.map g) := by
  induction l with
  | nil => rfl
  | cons x rest ih =>
    have later := ih fun y member => each y (List.mem_cons_of_mem x member)
    rw [List.mapM_cons, each x List.mem_cons_self, later]
    rfl

/-- Only the passes that are made matter. -/
theorem foldlM_range_congr {f g : β → ℕ → Option β} {n : ℕ} (same : ∀ i < n, ∀ b, f b i = g b i)
    (start : β) : (List.range n).foldlM f start = (List.range n).foldlM g start := by
  induction n with
  | zero => rfl
  | succ n ih =>
    have last : ∀ b, f b n = g b n := same n (Nat.lt_succ_self n)
    rw [List.range_succ, List.foldlM_append, List.foldlM_append,
      ih fun i hi => same i (Nat.lt_succ_of_lt hi)]
    simp only [List.foldlM_cons, List.foldlM_nil, last]

/-- A loop in a loop goes through the rows one after the other. -/
theorem foldlM_flatMap {f : β → γ → Option β} {row : α → List γ} (l : List α) (start : β) :
    (l.flatMap row).foldlM f start = l.foldlM (fun b x => (row x).foldlM f b) start := by
  induction l generalizing start with
  | nil => rfl
  | cons x rest ih =>
    rw [List.flatMap_cons, List.foldlM_append, List.foldlM_cons]
    exact congrArg _ (funext fun b => ih b)

end Lmbench.Lib
