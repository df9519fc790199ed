import Mathlib.Data.List.Infix

/-!
# Labelled runs and their invariants

A run of a labelled step relation is kept together with the list of labels it
has emitted, oldest first. An invariant may therefore speak about the current
state alone or about the whole past, and both kinds are established by the same
one-step argument.

## Main results

* `Run.invariant` - a state property that every step keeps holds at the end of every run
* `Run.invariant_history` - the same for a property of the past and the state
* `Run.exists_step_of_split` - every label of a run was emitted by a step of it
-/

namespace Lmbench.Lib

universe u v

/-- `Run step start past s`: from `start` the system reaches `s` and emits the
labels `past`, oldest first. -/
inductive Run {σ : Type u} {ε : Type v} (step : σ → ε → σ → Prop) (start : σ) :
    List ε → σ → Prop
  | nil : Run step start [] start
  | snoc {past : List ε} {s t : σ} {e : ε} :
      Run step start past s → step s e t → Run step start (past ++ [e]) t

namespace Run

variable {σ : Type u} {ε : Type v} {step : σ → ε → σ → Prop} {start s t : σ} {past : List ε}

/-- **Invariant rule.** A property of the start that every step preserves holds
wherever a run ends. -/
theorem invariant {inv : σ → Prop} (initial : inv start)
    (preserved : ∀ s e t, inv s → step s e t → inv t) (run : Run step start past s) :
    inv s := by
  induction run with
  | nil => exact initial
  | snoc _ taken ih => exact preserved _ _ _ ih taken

/-- Invariant rule for properties that mention the labels emitted so far. The
step also knows that it starts from a reached state. -/
theorem invariant_history {inv : List ε → σ → Prop} (initial : inv [] start)
    (preserved : ∀ past s e t, Run step start past s → inv past s → step s e t →
      inv (past ++ [e]) t)
    (run : Run step start past s) : inv past s := by
  induction run with
  | nil => exact initial
  | snoc before taken ih => exact preserved _ _ _ _ before ih taken

/-- The last step of a run. -/
theorem exists_of_append_singleton {e : ε} (run : Run step start (past ++ [e]) t) :
    ∃ s, Run step start past s ∧ step s e t := by
  generalize whole : past ++ [e] = labels at run
  cases run with
  | nil => simp at whole
  | @snoc _ s _ last prior taken =>
    obtain ⟨rfl, same⟩ := List.append_inj' whole rfl
    obtain rfl : e = last := by simpa using same
    exact ⟨s, prior, taken⟩

/-- A run falls apart at each of its labels. -/
theorem split {before after : List ε} {e : ε} (run : Run step start (before ++ e :: after) s) :
    ∃ s₁ s₂, Run step start before s₁ ∧ step s₁ e s₂ ∧ Run step s₂ after s := by
  generalize whole : before ++ e :: after = labels at run
  induction run generalizing after with
  | nil => simp at whole
  | @snoc past s₁ s₂ last prior taken ih =>
    rcases List.eq_nil_or_concat after with rfl | ⟨init, tail, rfl⟩
    · obtain ⟨rfl, same⟩ := List.append_inj' whole rfl
      obtain rfl : e = last := by simpa using same
      exact ⟨s₁, s₂, prior, taken, .nil⟩
    · have cut : (before ++ e :: init) ++ [tail] = past ++ [last] := by
        simpa using whole
      obtain ⟨t₁, t₂, first, step, rest⟩ := ih (List.append_inj' cut rfl).1
      obtain rfl : tail = last := by simpa using (List.append_inj' cut rfl).2
      exact ⟨t₁, t₂, first, step, by simpa using rest.snoc taken⟩

/-- A label in the middle of a run was emitted by a step out of the state that
the labels before it lead to. -/
theorem exists_step_of_split {before after : List ε} {e : ε}
    (run : Run step start (before ++ e :: after) s) :
    ∃ s₁ s₂, Run step start before s₁ ∧ step s₁ e s₂ := by
  obtain ⟨s₁, s₂, first, taken, _⟩ := run.split
  exact ⟨s₁, s₂, first, taken⟩

/-- A run is a run of every relation that allows its steps. -/
theorem mono {step' : σ → ε → σ → Prop} (allowed : ∀ s e t, step s e t → step' s e t)
    (run : Run step start past s) : Run step' start past s := by
  induction run with
  | nil => exact .nil
  | snoc _ taken ih => exact ih.snoc (allowed _ _ _ taken)

/-- Every step of a run starts from a state with the invariant. -/
theorem restrict {inv : σ → Prop} (initial : inv start)
    (preserved : ∀ s e t, inv s → step s e t → inv t) (run : Run step start past s) :
    Run (fun s e t => inv s ∧ step s e t) start past s := by
  induction run with
  | nil => exact .nil
  | snoc before taken ih => exact ih.snoc ⟨before.invariant initial preserved, taken⟩

/-- One more run from where the first one ended. -/
theorem trans {later : List ε} (first : Run step start past s) (second : Run step s later t) :
    Run step start (past ++ later) t := by
  induction second with
  | nil => simpa using first
  | snoc _ taken ih => simpa [← List.append_assoc] using ih.snoc taken

/-- Where every reached state has a step, there are runs of every length. -/
theorem exists_length (proceeds : ∀ past s, Run step start past s → ∃ e t, step s e t) (n : ℕ) :
    ∃ past s, Run step start past s ∧ past.length = n := by
  induction n with
  | zero => exact ⟨[], start, .nil, rfl⟩
  | succ n ih =>
    obtain ⟨past, s, run, length⟩ := ih
    obtain ⟨e, t, taken⟩ := proceeds past s run
    exact ⟨past ++ [e], t, run.snoc taken, by simp [length]⟩

end Run

end Lmbench.Lib
