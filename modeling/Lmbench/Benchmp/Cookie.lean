import Lmbench.Benchmp.Interval

/-!
# The cookie of the cleanup callback

`benchmp_interval` passes `state->cookie` to the cleanup function at all three of
its calls. The two signal handlers pass the address of the child's own state
instead, which the cleanup functions then cast to the state of the benchmark.

## Main results

* `cleanup_arg` - where the second argument of a cleanup call comes from
* `cleanup_cookie` - as long as no handler of the child runs, it is the cookie
* `cleanup_cookie_broken` - a SIGTERM to a measuring child
-/

namespace Lmbench.Benchmp

open Lib

/-- The step runs a handler of the child that will call the cleanup function:
the arrival of a signal set to such a handler, or a SIGTERM that was received
before the child's handler was installed. -/
def EntersHandler (p : Params) (c : Child) : Event → Prop
  | .signal signo => p.hasCleanup = true ∧ c.disposition signo = .child
  | _ => p.hasCleanup = true ∧ c.pc = .arm ∧ c.sigtermReceived = true

/-- The child is not about to call the cleanup function from a handler. -/
def Child.OutsideHandler (c : Child) : Prop := ∀ code, c.pc ≠ .handler code

variable {p : Params} {c c' : Child} {e : Event}

/-- A cleanup call passes the cookie, or it is made by a handler and passes the
address of the child's state. -/
theorem cleanup_arg {iterations cookie : ℕ}
    (step : Step p c (.call .cleanup iterations cookie) c') :
    cookie = p.cookie ∨ (∃ code, c.pc = .handler code) ∧ cookie = p.stateAddr := by
  cases step with
  | own quiet =>
    generalize made : Event.call .cleanup iterations cookie = e at quiet
    cases quiet.move with
    | handler here => exact .inr ⟨⟨_, here⟩, by simpa using (Event.call.inj made).2.2⟩
    | account | finish | enter | begin =>
      -- the callback may be NULL, and then nothing is called
      unfold callIf at made
      split at made
      · exact .inl (Event.call.inj made).2.2
      · cases made
    | orphaned => exact .inl (Event.call.inj made).2.2
    | _ => cases made

theorem outsideHandler_move (avoids : ¬EntersHandler p c e) (move : Move p c e c') :
    c'.OutsideHandler := by
  intro code
  cases move with
  | armReceived here received =>
    have absent : ¬p.hasCleanup = true := fun present => avoids ⟨present, here, received⟩
    simp [Child.enterSigterm, absent]
  | _ => exact nofun

/-- A child that has received no signal runs no handler by itself. -/
theorem not_entersHandler_of_move (unreceived : c.sigtermReceived = false)
    (move : Move p c e c') : ¬EntersHandler p c e := by
  intro enters
  cases e with
  | signal signo =>
    generalize made : Event.signal signo = e at move
    cases move with
    | account | finish | enter | begin =>
      unfold callIf at made
      split at made <;> cases made
    | _ => cases made
  | _ => exact Bool.noConfusion (unreceived.symm.trans enters.2.2)

theorem outsideHandler_step (outside : c.OutsideHandler) (avoids : ¬EntersHandler p c e)
    (step : Step p c e c') : c'.OutsideHandler := by
  cases step with
  | own quiet => exact outsideHandler_move avoids quiet.move
  | signal signo delivered =>
    intro code there
    rcases deliver_cases delivered with ⟨_, _, present, setting⟩ | ⟨_, exiting⟩ | ⟨_, exited⟩ |
      ⟨_, _, rfl⟩
    · exact avoids ⟨present, setting⟩
    · exact Pc.noConfusion (exiting.symm.trans there)
    · exact Pc.noConfusion (exited.symm.trans there)
    · exact outside code there

/-- **The cookie reaches the cleanup function.** In a run, with or without
signals, in which no handler of the child runs its cleanup, every cleanup call
passes the cookie given to `benchmp`. -/
theorem cleanup_cookie (p : Params) (past : List Event) (c : Child)
    (run : Run (fun c e c' => ¬EntersHandler p c e ∧ Step p c e c') (initial p) past c)
    (iterations cookie : ℕ) (called : .call .cleanup iterations cookie ∈ past) :
    cookie = p.cookie := by
  obtain ⟨before, after, rfl⟩ := List.append_of_mem called
  obtain ⟨s, t, prior, _, step⟩ := run.exists_step_of_split
  have outside : s.OutsideHandler := prior.invariant (fun _ => Pc.noConfusion)
    fun _ _ _ outside step => outsideHandler_step outside step.1 step.2
  rcases cleanup_arg step with passed | ⟨⟨code, there⟩, _⟩
  · exact passed
  · exact absurd there (outside code)

/-- The cleanup call of the first measurement of a single child. -/
theorem cleanup_cookie_single : ∃ past c,
    Run (fun c e c' => ¬EntersHandler .single c e ∧ Step .single c e c') (initial .single) past c ∧
      .call .cleanup 1 4096 ∈ past ∧
      ∀ iterations cookie, .call .cleanup iterations cookie ∈ past → cookie = 4096 := by
  have executed : (execute .single (List.replicate 13 (answer 1000000)) (initial .single)).map
      (fun ended => ended.1) = some firstMeasurement := by
    decide +kernel
  obtain ⟨⟨past, c⟩, ended, events⟩ := Option.map_eq_some_iff.mp executed
  have quiet : Run (fun c e c' => c.sigtermReceived = false ∧ QuietStep .single c e c')
      (initial .single) past c :=
    (run_of_execute .nil ended).restrict rfl fun _ _ _ quiet step => quiet_move quiet step.move
  have called : Event.call .cleanup 1 4096 ∈ past := by
    rw [show past = firstMeasurement from events]
    decide
  have avoids : Run (fun c e c' => ¬EntersHandler .single c e ∧ Step .single c e c')
      (initial .single) past c := by
    refine quiet.mono ?_
    rintro c e c' ⟨unreceived, step⟩
    exact ⟨not_entersHandler_of_move unreceived step.move, .own step⟩
  exact ⟨past, c, avoids, called, cleanup_cookie .single past c avoids⟩

/-- **The slip.** A SIGTERM behind the first benchmark call: the handler passes the
address of the state, 8192, to a cleanup function that expects the cookie 4096. -/
theorem cleanup_cookie_broken :
    ∃ past c iterations cookie, Run (Step .single) (initial .single) past c ∧
      .call .cleanup iterations cookie ∈ past ∧ cookie ≠ Params.single.cookie := by
  have executed : ((execute .single (List.replicate 10 (answer 700)) (initial .single)).bind
      fun ended => (deliver .single ended.2 .sigterm).bind fun c =>
        (advance .single c (answer 0)).map fun stepped => stepped.1) =
          some (.call .cleanup 0 8192) := by
    decide +kernel
  obtain ⟨⟨past, c₁⟩, ended, signalled⟩ := Option.bind_eq_some_iff.mp executed
  obtain ⟨c₂, delivered, handled⟩ := Option.bind_eq_some_iff.mp signalled
  obtain ⟨⟨e, c₃⟩, stepped, rfl⟩ := Option.map_eq_some_iff.mp handled
  have before : Run (Step .single) (initial .single) past c₁ :=
    (run_of_execute .nil ended).mono fun _ _ _ => .own
  have entered := before.snoc (.signal .sigterm delivered)
  exact ⟨_, c₃, 0, 8192, entered.snoc (.own ⟨answer 0, stepped⟩), by simp, by decide⟩

end Lmbench.Benchmp
