import Lmbench.Benchmp.Bracketing

/-!
# How a benchmark is used

To the functions of a benchmark, a child of `benchmp` is the sequence of the calls it
makes. That sequence is a path of a small automaton: `initialize(0)`, then rounds of
`initialize(k)`, `benchmark(k)` and `cleanup(k)`, and `cleanup(0)` at the end. A state that
the functions work on is followed along the automaton, so that what each function relies
on and leaves behind is shown for one call at a time.

## Main definitions

* `Usage`, `Usage.Step` - the automaton
* `Keeps` - what functions must do for an assertion at each of its states

## Main results

* `use_move`, `usage_of_run` - a child moves as the automaton does
* `keeps_history_of_run`, `keeps_of_run`, `keeps_of_run_positive` - functions that keep an
  assertion never fail
-/

namespace Lmbench.Benchmp

open Lib

/-- How far the calls have come; `ready` and `used` are before and behind a benchmark. -/
inductive Usage
  | fresh
  | idle
  | ready (k : ℕ)
  | used (k : ℕ)
  | done
deriving DecidableEq, Repr

/-- The calls, with the counts that are `good`. -/
inductive Usage.Step (good : ℕ → Prop) : Usage → Call → Usage → Prop
  | first : Usage.Step good .fresh (.initializeF, 0) .idle
  | prepare {k : ℕ} : good k → Usage.Step good .idle (.initializeF, k) (.ready k)
  | work (k : ℕ) : Usage.Step good (.ready k) (.benchmark, k) (.used k)
  | clear (k : ℕ) : Usage.Step good (.used k) (.cleanup, k) .idle
  | last : Usage.Step good .idle (.cleanup, 0) .done

/-- Where a child is in the automaton. -/
def Child.use (p : Params) (c : Child) : Usage :=
  match c.pc with
  | .enter => .fresh
  | .interval => if c.needWarmup then .idle else .used (c.count p)
  | .stopped k _ => .used k
  | .start k | .running k => .ready k
  | .takeExit | .exiting _ | .exited _ => .done
  | _ => .idle

/-- A state is followed along the automaton: from a state with the assertion for where the
automaton is, each call succeeds and gives one with the assertion for where it goes. -/
def Keeps {σ : Type*} (good : ℕ → Prop) (act : Call → σ → Option σ)
    (holds : Usage → σ → Prop) : Prop :=
  ∀ ⦃u call u' s⦄, Usage.Step good u call u' → holds u s →
    ∃ s', act call s = some s' ∧ holds u' s'

/-- What is done to a state by all calls of a run. -/
def actAll {σ : Type*} (act : Call → σ → Option σ) (past : List Event) (s : σ) : Option σ :=
  (callsOf past).foldlM (fun s call => act call s) s

/-- The iterations that the calls ask for. -/
def iterationsOf (calls : List Call) : ℕ :=
  (calls.map fun
    | (.benchmark, iterations) => iterations
    | _ => 0).sum

theorem iterationsOf_append (calls : List Call) (call : Call) :
    iterationsOf (calls ++ [call]) = iterationsOf calls + iterationsOf [call] := by
  simp [iterationsOf]

variable {p : Params} {c c' : Child} {e : Event} {past : List Event} {good : ℕ → Prop}
  {σ : Type} {act : Call → σ → Option σ} {holds : Usage → σ → Prop} {s s' : σ}

/-- The counts that a child hands out are good. -/
def Deals (good : ℕ → Prop) (c : Child) : Prop := ∀ k, c.pc = .begin k → good k

/-- Where a child is when no signal has arrived. -/
structure Undisturbed (p : Params) (c : Child) : Prop where
  placed : c.Placed p
  quiet : c.sigtermReceived = false
  unhandled : ∀ code, c.pc ≠ .handler code

theorem undisturbed_initial (p : Params) : Undisturbed p (initial p) where
  placed := placed_initial p
  quiet := rfl
  unhandled := by
    intro code here
    cases here

theorem undisturbed_move (before : Undisturbed p c) (move : Move p c e c') :
    Undisturbed p c' where
  placed := placed_move before.placed move
  quiet := quiet_move before.quiet move
  unhandled := by
    have unhandled := before.unhandled
    have quiet := before.quiet
    cases move with
    | armReceived here received => simp [quiet] at received
    | sendMore | sendLast => simp
    | _ => simp_all

/-- A child moves as the automaton does, or makes no call and the automaton stays. -/
theorem use_move (hasInitialize : p.hasInitialize = true) (hasCleanup : p.hasCleanup = true)
    (undisturbed : Undisturbed p c) (deals : Deals good c) (move : Move p c e c') :
    (callsOf [e] = [] ∧ c'.use p = c.use p) ∨
      ∃ call, callsOf [e] = [call] ∧ Usage.Step good (c.use p) call (c'.use p) := by
  have placed := undisturbed.placed
  cases move with
  | enter here =>
    refine .inr ⟨_, callsOf_callIf hasInitialize _ _, ?_⟩
    simpa [Child.use, here] using Usage.Step.first
  | armReceived here received => simp [undisturbed.quiet] at received
  | account here =>
    refine .inr ⟨_, callsOf_callIf hasCleanup _ _, ?_⟩
    simpa [Child.use, here] using Usage.Step.clear _
  | orphaned here =>
    refine .inr ⟨_, callsOf_call _ _ _, ?_⟩
    simpa [Child.use, here] using Usage.Step.last
  | finish here =>
    refine .inr ⟨_, callsOf_callIf hasCleanup _ _, ?_⟩
    simpa [Child.use, here] using Usage.Step.last
  | begin here =>
    refine .inr ⟨_, callsOf_callIf hasInitialize _ _, ?_⟩
    simpa [Child.use, here] using Usage.Step.prepare (deals _ here)
  | @run iterations here =>
    refine .inr ⟨_, callsOf_call _ _ _, ?_⟩
    -- the count is still the one that the state names
    simp only [Child.Placed, here] at placed
    have before : c.use p = .ready iterations := by simp [Child.use, here]
    have after : Child.use p { c with pc := .interval } = .used iterations := by
      simp only [Child.use, placed.2]
      rw [placed.1]
      rfl
    rw [before, after]
    exact .work iterations
  | handler here => exact absurd here (undisturbed.unhandled _)
  | stop here warm elapsed => exact .inl ⟨rfl, by simp [Child.use, here, warm]⟩
  | firstCall here warm => exact .inl ⟨rfl, by simp [Child.use, here, warm]⟩
  | arm here received =>
    simp only [Child.Placed, here] at placed
    exact .inl ⟨rfl, by simp [Child.use, here, Child.armSigterm, placed.1]⟩
  | _ => exact .inl ⟨rfl, by simp_all [Child.use]⟩

/-- **The calls of a child are a path of the automaton.** -/
theorem usage_of_run (hasInitialize : p.hasInitialize = true) (hasCleanup : p.hasCleanup = true)
    (run : Run (fun c e c' => Deals good c ∧ QuietStep p c e c') (initial p) past c) :
    Run (Usage.Step good) .fresh (callsOf past) (c.use p) := by
  have followed : Undisturbed p c ∧ Run (Usage.Step good) .fresh (callsOf past) (c.use p) := by
    apply run.invariant_history
    · exact ⟨undisturbed_initial p, .nil⟩
    · rintro past c e c' - ⟨undisturbed, before⟩ ⟨deals, step⟩
      refine ⟨undisturbed_move undisturbed step.move, ?_⟩
      rw [callsOf_snoc]
      rcases use_move hasInitialize hasCleanup undisturbed deals step.move with stays | moves
      · rw [stays.1, stays.2, List.append_nil]
        exact before
      · obtain ⟨call, calls, moved⟩ := moves
        rw [calls]
        exact before.snoc moved
  exact followed.2

theorem actAll_nil : actAll act [] s = some s := rfl

theorem actAll_snoc_of_none (silent : callsOf [e] = []) :
    actAll act (past ++ [e]) s = actAll act past s := by
  rw [actAll, callsOf_snoc, silent, List.append_nil, actAll]

theorem actAll_snoc_of_call {call : Call} (calls : callsOf [e] = [call]) :
    actAll act (past ++ [e]) s = (actAll act past s).bind (act call) := by
  rw [actAll, callsOf_snoc, calls, List.foldlM_append]
  cases before : (callsOf past).foldlM (fun s call => act call s) s with
  | none => simp [actAll, before]
  | some s' => simp [actAll, before]

/-- The same for an assertion that also speaks about the calls so far. -/
def KeepsHistory (good : ℕ → Prop) (act : Call → σ → Option σ)
    (holds : List Call → Usage → σ → Prop) : Prop :=
  ∀ ⦃calls u call u' s⦄, Usage.Step good u call u' → holds calls u s →
    ∃ s', act call s = some s' ∧ holds (calls ++ [call]) u' s'

/-- **Functions that keep an assertion never fail**, and it holds wherever a run ends. -/
theorem keeps_history_of_run {holds : List Call → Usage → σ → Prop}
    (hasInitialize : p.hasInitialize = true) (hasCleanup : p.hasCleanup = true)
    (keeps : KeepsHistory good act holds) (start : holds [] .fresh s)
    (run : Run (fun c e c' => Deals good c ∧ QuietStep p c e c') (initial p) past c) :
    ∃ s', actAll act past s = some s' ∧ holds (callsOf past) (c.use p) s' := by
  have followed : Undisturbed p c ∧
      ∃ s', actAll act past s = some s' ∧ holds (callsOf past) (c.use p) s' := by
    apply run.invariant_history
    · exact ⟨undisturbed_initial p, s, actAll_nil, start⟩
    · rintro past c e c' - ⟨undisturbed, s', before, held⟩ ⟨deals, step⟩
      refine ⟨undisturbed_move undisturbed step.move, ?_⟩
      rw [callsOf_snoc]
      rcases use_move hasInitialize hasCleanup undisturbed deals step.move with stays | moves
      · obtain ⟨silent, same⟩ := stays
        refine ⟨s', by rw [actAll_snoc_of_none silent, before], ?_⟩
        rw [silent, List.append_nil, same]
        exact held
      · obtain ⟨call, calls, moved⟩ := moves
        obtain ⟨s'', acted, holds'⟩ := keeps moved held
        refine ⟨s'', by rw [actAll_snoc_of_call calls, before, Option.bind_some, acted], ?_⟩
        rw [calls]
        exact holds'
  exact followed.2

/-- The same for an assertion about the state alone. -/
theorem keeps_of_run (hasInitialize : p.hasInitialize = true) (hasCleanup : p.hasCleanup = true)
    (keeps : Keeps good act holds) (start : holds .fresh s)
    (run : Run (fun c e c' => Deals good c ∧ QuietStep p c e c') (initial p) past c) :
    ∃ s', actAll act past s = some s' ∧ holds (c.use p) s' := by
  have keeps' : KeepsHistory good act fun _ => holds := fun _ _ _ _ _ step held => keeps step held
  exact keeps_history_of_run hasInitialize hasCleanup keeps' start run

/-- The counts are positive in runs in which re-tuning keeps them positive. -/
theorem deals_of_run (hasInitialize : p.hasInitialize = true)
    (hasCleanup : p.hasCleanup = true) (ran : 1 ≤ p.iterations) (batch : 1 ≤ p.iterationsBatch)
    (run : Run (fun c e c' => RetuneKeeps p c ∧ QuietStep p c e c') (initial p) past c) :
    Run (fun c e c' => Deals (1 ≤ ·) c ∧ QuietStep p c e c') (initial p) past c := by
  have followed : Ordered p past c ∧
      Run (fun c e c' => Deals (1 ≤ ·) c ∧ QuietStep p c e c') (initial p) past c := by
    apply run.invariant_history
    · exact ⟨ordered_initial p ran, .nil⟩
    · rintro past c e c' - ⟨ordered, before⟩ ⟨kept, step⟩
      refine ⟨ordered_move hasInitialize hasCleanup batch ordered kept step.move, ?_⟩
      apply before.snoc
      refine ⟨?_, step⟩
      intro k here
      have placed := ordered.placed
      simp only [Child.Placed, here] at placed
      rw [placed.1]
      exact one_le_count batch ordered.positive
  exact followed.2

/-- The same for functions that rely on positive counts. -/
theorem keeps_of_run_positive (hasInitialize : p.hasInitialize = true)
    (hasCleanup : p.hasCleanup = true) (ran : 1 ≤ p.iterations) (batch : 1 ≤ p.iterationsBatch)
    (keeps : Keeps (1 ≤ ·) act holds) (start : holds .fresh s)
    (run : Run (fun c e c' => RetuneKeeps p c ∧ QuietStep p c e c') (initial p) past c) :
    ∃ s', actAll act past s = some s' ∧ holds (c.use p) s' :=
  keeps_of_run hasInitialize hasCleanup keeps start
    (deals_of_run hasInitialize hasCleanup ran batch run)

end Lmbench.Benchmp
