import Mathlib.Logic.Basic

/-!
# Calls that may fail

A call of a function that may fail has a result or a fault. What is known of it is one
condition for each of the two; these conditions follow the calls of a program, one after
the other.

## Main results

* `Ends.bind`, `Ends.map` - a call that goes on with the result of another
* `Ends.foldlM` - a loop each of whose passes may fail
-/

namespace Lmbench.Lib

universe u v w

variable {ε : Type u} {α : Type v} {β : Type v} {γ : Type w}

/-- The result satisfies `post`, or the fault is among those allowed. -/
def Ends (post : α → Prop) (allowed : ε → Prop) : Except ε α → Prop
  | .ok a => post a
  | .error fault => allowed fault

namespace Ends

variable {post post' : α → Prop} {allowed : ε → Prop} {x : Except ε α}

@[simp] theorem ok_iff {a : α} : Ends post allowed (.ok a) ↔ post a := Iff.rfl

@[simp] theorem error_iff {fault : ε} : Ends post allowed (.error fault) ↔ allowed fault := Iff.rfl

/-- A call that has a result satisfies `post`. -/
theorem of_ok {a : α} (ends : Ends post allowed x) (returned : x = .ok a) : post a := by
  subst returned
  exact ends

theorem of_error {fault : ε} (ends : Ends post allowed x) (failed : x = .error fault) :
    allowed fault := by
  subst failed
  exact ends

theorem mono (ends : Ends post allowed x) (weaker : ∀ a, post a → post' a) :
    Ends post' allowed x := by
  cases x with
  | ok a => exact weaker a ends
  | error fault => exact ends

/-- **Going on with the result.** -/
theorem bind {goal : β → Prop} {f : α → Except ε β} (ends : Ends post allowed x)
    (next : ∀ a, post a → Ends goal allowed (f a)) : Ends goal allowed (x >>= f) := by
  cases x with
  | ok a => exact next a ends
  | error fault => exact ends

theorem map {goal : β → Prop} {f : α → β} (ends : Ends post allowed x)
    (next : ∀ a, post a → goal (f a)) : Ends goal allowed (x.map f) := by
  cases x with
  | ok a => exact next a ends
  | error fault => exact ends

/-- **A loop** whose passes keep what holds before it. -/
theorem foldlM {f : α → γ → Except ε α} (steps : List γ) {a : α} (start : post a)
    (pass : ∀ a, post a → ∀ c ∈ steps, Ends post allowed (f a c)) :
    Ends post allowed (steps.foldlM f a) := by
  induction steps generalizing a with
  | nil => exact start
  | cons c rest ih =>
    rw [List.foldlM_cons]
    apply (pass a start c List.mem_cons_self).bind
    intro b kept
    exact ih kept fun b kept c later => pass b kept c (List.mem_cons_of_mem _ later)

end Ends

theorem eq_ok_of_toOption {x : Except ε α} {a : α} (returned : x.toOption = some a) :
    x = .ok a := by
  cases x with
  | ok b => exact congrArg Except.ok (Option.some.inj returned)
  | error fault => cases returned

end Lmbench.Lib
