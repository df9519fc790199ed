import Lmbench.Benchmp.Child
import Lmbench.Benchmp.Outcome

/-!
# Ending a child of `benchmp` by SIGTERM

`benchmp` ends children that do not end by themselves with SIGTERM. A child
catches it with `benchmp_child_sigterm`, which runs the cleanup function and
exits; before that handler is there, the one that it inherits from the parent
only sets a flag, which the child looks at behind the installation. A child whose
parent had a handler for SIGTERM before `benchmp` installs that one instead.

Nothing ever takes `benchmp_sigterm` out of the parent again. So the handler that
a second `benchmp` of the same program finds is the one of the first, and so does
the call with several children behind its own baseline run: their children catch
SIGTERM with a function that sets a flag nobody reads any more.

## Main definitions

* `EndsSoon`, `EndsWithin` - how long a child may go on, in general and behind a SIGTERM
* `Attempt.handlers` - what a call leaves the signals set to
* `attemptsOf` - all measurements that a program has begun

## Main results

* `endsWithin_four` - with the child's own handler it ends in four steps of its own
* `not_endsWithin` - with any other handler it may warm up for ever
* `sigterm_ends_iff` - which children SIGTERM ends
-/

namespace Lmbench.Benchmp

open Lib

/-- The step is one of the child itself. -/
def Event.isOwn : Event → Bool
  | .signal _ => false
  | _ => true

/-- The steps that a child has made itself. -/
def ownSteps (events : List Event) : ℕ := events.countP Event.isOwn

/-- Nobody else takes part in the step: the child neither reads from its parent nor
writes to it, and does not ask for it. -/
def Event.isAlone : Event → Bool
  | .tau | .call _ _ _ | .exit _ => true
  | _ => false

/-- The child has not exited. -/
def Alive (c : Child) : Prop := ∀ n, c.pc ≠ .exited n

/-- In at most `n` steps of its own, without a call of the benchmark function, the
child exits: until then it has a next step that it makes alone. -/
def EndsSoon (p : Params) (c : Child) (n : ℕ) : Prop :=
  ∀ later c', Run (Step p) c later c' →
    ownSteps later ≤ n ∧ (∀ iterations cookie, .call .benchmark iterations cookie ∉ later) ∧
      (Alive c' → ∃ e t, QuietStep p c' e t ∧ e.isAlone = true)

/-- Behind a SIGTERM, whenever it arrives, a child exits in at most `n` steps of its
own. -/
def EndsWithin (p : Params) (n : ℕ) : Prop :=
  ∀ before c, Run (Step p) (initial p) (before ++ [.signal .sigterm]) c → EndsSoon p c n

theorem ownSteps_append (events : List Event) (e : Event) :
    ownSteps (events ++ [e]) = ownSteps events + if e.isOwn then 1 else 0 := by
  simp [ownSteps, List.countP_append, List.countP_singleton]

variable {p : Params} {c c' : Child} {e : Event}

/-! ### With the child's own handler -/

/-- The child is about to exit, or in a handler that will, and SIGCHLD does not
send it back into one. -/
structure Leaving (p : Params) (c : Child) : Prop where
  way : (∃ code, c.pc = .handler code) ∨ (∃ code, c.pc = .exiting code) ∨
    ∃ code, c.pc = .exited code
  once : p.hasCleanup = true → c.sigchld ≠ .child

/-- SIGTERM neither ends the child nor runs its handler. -/
def Deaf (c : Child) : Prop := c.sigterm ≠ .dfl ∧ c.sigterm ≠ .child

/-- The child has not installed its handler for SIGTERM. -/
def Unarmed (c : Child) : Prop := c.sigterm = .parent ∧ (c.pc = .enter ∨ c.pc = .arm)

/-- Where a child stands that installs its own handler for SIGTERM. -/
inductive Guarded (p : Params) (c : Child) : Prop
  | unarmed : Unarmed c → Guarded p c
  | armed : c.sigterm = .child → Guarded p c
  | leaving : Deaf c → Leaving p c → Guarded p c
  | gone (code : ℕ) : c.pc = .exited code → Guarded p c

/-- The child will end. -/
inductive Doomed (p : Params) (c : Child) : Prop
  | unarmed : Unarmed c → c.sigtermReceived = true → Doomed p c
  | leaving : Deaf c → Leaving p c → Doomed p c

/-- The number of steps that a doomed child has left. -/
def Child.left (c : Child) : ℕ :=
  match c.pc with
  | .enter => 4
  | .arm => 3
  | .handler _ => 2
  | .exiting _ => 1
  | _ => 0

theorem leaving_enterSigterm (c : Child) : Leaving p (c.enterSigterm p) := by
  unfold Child.enterSigterm
  split
  · refine ⟨.inl ⟨0, rfl⟩, fun _ => ?_⟩
    dsimp only
    split
    · decide
    · assumption
  · rename_i absent
    exact ⟨.inr (.inl ⟨0, rfl⟩), fun present => absurd present absent⟩

theorem deaf_enterSigterm (c : Child) : Deaf (c.enterSigterm p) := by
  unfold Child.enterSigterm
  split <;> exact ⟨nofun, nofun⟩

theorem leaving_enterSigchld (c : Child) : Leaving p (c.enterSigchld p) := by
  unfold Child.enterSigchld
  split
  · exact ⟨.inl ⟨1, rfl⟩, fun _ => nofun⟩
  · rename_i absent
    exact ⟨.inr (.inl ⟨1, rfl⟩), fun present => absurd present absent⟩

theorem sigterm_enterSigchld (c : Child) : (c.enterSigchld p).sigterm = c.sigterm := by
  unfold Child.enterSigchld
  split <;> rfl

theorem deaf_enterSigchld (deaf : Deaf c) : Deaf (c.enterSigchld p) := by
  rw [Deaf, sigterm_enterSigchld]
  exact deaf

theorem Unarmed.deaf (unarmed : Unarmed c) : Deaf c := by simp [Deaf, unarmed.1]

theorem Doomed.deaf (doomed : Doomed p c) : Deaf c := by
  cases doomed with
  | unarmed unarmed _ => exact unarmed.deaf
  | leaving deaf _ => exact deaf

theorem left_le_two_of_leaving (leaving : Leaving p c) : c.left ≤ 2 := by
  rcases leaving.way with ⟨_, here⟩ | ⟨_, here⟩ | ⟨_, here⟩ <;> simp [Child.left, here]

theorem Doomed.left_le_four (doomed : Doomed p c) : c.left ≤ 4 := by
  cases doomed with
  | unarmed unarmed _ => rcases unarmed.2 with here | here <;> simp [Child.left, here]
  | leaving _ leaving => exact (left_le_two_of_leaving leaving).trans (by decide)

theorem isOwn_callIf (present : Bool) (callback : Callback) (iterations : ℕ) :
    (callIf p present callback iterations).isOwn = true := by
  cases present <;> rfl

theorem isOwn_of_move (move : Move p c e c') : e.isOwn = true := by
  cases move with
  | enter | account | finish | begin => exact isOwn_callIf _ _ _
  | _ => rfl

/-- What a step of a doomed child costs. -/
structure Spends (p : Params) (c : Child) (e : Event) (c' : Child) : Prop where
  doomed : Doomed p c'
  left : c'.left + (if e.isOwn then 1 else 0) ≤ c.left
  idle : ∀ iterations cookie, e ≠ .call .benchmark iterations cookie

theorem callIf_ne_benchmark {present : Bool} {callback : Callback} {iterations : ℕ}
    (other : callback ≠ .benchmark) (k cookie : ℕ) :
    callIf p present callback iterations ≠ .call .benchmark k cookie := by
  intro same
  cases present
  · cases same
  · exact other (Event.call.inj same).1

/-- On its way out a child runs the rest of its handler and exits. -/
theorem spends_of_leaving (deaf : Deaf c) (leaving : Leaving p c) (move : Move p c e c') :
    Spends p c e c' := by
  rcases leaving with ⟨way, once⟩
  cases move with
  | handler here =>
    exact ⟨.leaving deaf ⟨.inr (.inl ⟨_, rfl⟩), once⟩, by simp [Child.left, here, Event.isOwn],
      nofun⟩
  | exit here =>
    exact ⟨.leaving deaf ⟨.inr (.inr ⟨_, rfl⟩), once⟩, by simp [Child.left, here, Event.isOwn],
      nofun⟩
  | _ => simp_all

/-- A doomed child goes straight for its exit. -/
theorem spends_of_move (doomed : Doomed p c) (move : Move p c e c') : Spends p c e c' := by
  cases doomed with
  | unarmed unarmed received =>
    rcases unarmed with ⟨inherited, way⟩
    cases move with
    | enter here =>
      refine ⟨.unarmed ⟨inherited, .inr rfl⟩ received, ?_, callIf_ne_benchmark (by decide)⟩
      simp [Child.left, here, isOwn_callIf]
    | armReceived here _ =>
      have leaving := leaving_enterSigterm (p := p) (c.armSigterm p)
      refine ⟨.leaving (deaf_enterSigterm _) leaving, ?_, nofun⟩
      have two := left_le_two_of_leaving leaving
      simp only [Child.left, here, Event.isOwn, if_true] at two ⊢
      omega
    | arm here unreceived => simp [received] at unreceived
    | _ => simp_all
  | leaving deaf leaving => exact spends_of_leaving deaf leaving move

/-- What the arrival of a signal does to a child, one case for each setting. -/
inductive Arrival (p : Params) (c : Child) : Signal → Child → Prop
  | killed : c.sigterm = .dfl → Arrival p c .sigterm { c with pc := .exited 15 }
  | caught : c.sigterm = .child → Arrival p c .sigterm (c.enterSigterm p)
  | flagged : c.sigterm = .parent → Arrival p c .sigterm { c with sigtermReceived := true }
  | childDied : c.sigchld = .child → Arrival p c .sigchld (c.enterSigchld p)
  | reset : c.sigchld = .parent → Arrival p c .sigchld { c with sigchld := .dfl }
  | ignored {signo : Signal} : c.disposition signo ≠ .child → c.disposition signo ≠ .parent →
      Arrival p c signo c

theorem arrival_of_deliver {signo : Signal} (delivered : deliver p c signo = some c') :
    Arrival p c signo c' := by
  unfold deliver at delivered
  split at delivered <;> rename_i setting
  · cases delivered
  · obtain rfl := Option.some.inj delivered
    exact .killed setting
  · obtain rfl := Option.some.inj delivered
    exact .caught setting
  · obtain rfl := Option.some.inj delivered
    exact .flagged setting
  · obtain rfl := Option.some.inj delivered
    exact .childDied setting
  · obtain rfl := Option.some.inj delivered
    exact .reset setting
  · rename_i signo _ _ _ _ _ _ _ _
    obtain rfl := Option.some.inj delivered
    refine .ignored (fun own => ?_) fun inherited => ?_ <;> cases signo <;> simp_all

/-- Signals do not bring a doomed child back. -/
theorem spends_of_deliver {signo : Signal} (doomed : Doomed p c) (alive : ∀ n, c.pc ≠ .exited n)
    (delivered : deliver p c signo = some c') : Spends p c (.signal signo) c' := by
  cases arrival_of_deliver delivered with
  | killed setting => exact absurd setting doomed.deaf.1
  | caught setting => exact absurd setting doomed.deaf.2
  | ignored => exact ⟨doomed, le_rfl, nofun⟩
  | flagged setting =>
    refine ⟨?_, le_rfl, nofun⟩
    cases doomed with
    | unarmed unarmed _ => exact .unarmed unarmed rfl
    | leaving deaf leaving => exact .leaving deaf ⟨leaving.way, leaving.once⟩
  | reset setting =>
    refine ⟨?_, le_rfl, nofun⟩
    cases doomed with
    | unarmed unarmed received => exact .unarmed unarmed received
    | leaving deaf leaving => exact .leaving deaf ⟨leaving.way, fun _ => nofun⟩
  | childDied setting =>
    have entered := leaving_enterSigchld (p := p) c
    refine ⟨.leaving (deaf_enterSigchld doomed.deaf) entered, ?_, nofun⟩
    -- the handler is shorter than what an unarmed child has left
    cases doomed with
    | unarmed unarmed _ =>
      have two := left_le_two_of_leaving entered
      rcases unarmed.2 with here | here <;> simp [Child.left, here, Event.isOwn] at two ⊢ <;> omega
    | leaving _ leaving =>
      have absent : ¬p.hasCleanup = true := fun present => leaving.once present setting
      simp only [Child.enterSigchld, if_neg absent]
      rcases leaving.way with ⟨_, here⟩ | ⟨_, here⟩ | ⟨n, here⟩
      · simp [Child.left, here, Event.isOwn]
      · simp [Child.left, here, Event.isOwn]
      · exact absurd here (alive n)

theorem alive_of_deliver {signo : Signal} (delivered : deliver p c signo = some c') (n : ℕ) :
    c.pc ≠ .exited n := by
  intro here
  simp [deliver, here] at delivered

theorem spends_of_step (doomed : Doomed p c) (step : Step p c e c') : Spends p c e c' := by
  cases step with
  | own quiet => exact spends_of_move doomed quiet.move
  | signal signo delivered => exact spends_of_deliver doomed (alive_of_deliver delivered) delivered

/-- The run of a doomed child is over after the steps it has left. -/
theorem ownSteps_of_doomed {later : List Event} (doomed : Doomed p c)
    (run : Run (Step p) c later c') :
    Doomed p c' ∧ c'.left + ownSteps later ≤ c.left ∧
      ∀ iterations cookie, .call .benchmark iterations cookie ∉ later := by
  apply run.invariant_history
  · exact ⟨doomed, le_rfl, fun _ _ => List.not_mem_nil⟩
  · intro past s e t _ before step
    obtain ⟨doomed, spent, idle⟩ := before
    have spends := spends_of_step doomed step
    refine ⟨spends.doomed, ?_, fun k cookie called => ?_⟩
    · rw [ownSteps_append]
      have left := spends.left
      omega
    · rcases List.mem_append.mp called with old | new
      · exact idle k cookie old
      · exact spends.idle k cookie (List.mem_singleton.mp new).symm

/-- A doomed child can always go on: it waits for nothing. -/
theorem exists_step_of_doomed (doomed : Doomed p c) (alive : Alive c) :
    ∃ e d, QuietStep p c e d ∧ e.isAlone = true := by
  have ran : ∃ e d, advance p c ⟨0, false, false, 0⟩ = some (e, d) ∧ e.isAlone = true := by
    cases doomed with
    | unarmed unarmed received =>
      rcases unarmed.2 with here | here
      · refine ⟨_, _, by rw [advance, here], ?_⟩
        unfold callIf
        split <;> rfl
      · exact ⟨.tau, _, by simp only [advance, here, Child.armSigterm, received, if_true]; rfl,
          rfl⟩
    | leaving _ leaving =>
      rcases leaving.way with ⟨_, here⟩ | ⟨_, here⟩ | ⟨n, here⟩
      · exact ⟨.call .cleanup 0 p.stateAddr, _, by rw [advance, here], rfl⟩
      · exact ⟨.exit _, _, by rw [advance, here], rfl⟩
      · exact absurd here (alive n)
  obtain ⟨e, d, ran, alone⟩ := ran
  exact ⟨e, d, ⟨_, ran⟩, alone⟩

theorem endsSoon_of_doomed (doomed : Doomed p c) : EndsSoon p c 4 := by
  intro later c' run
  obtain ⟨still, spent, idle⟩ := ownSteps_of_doomed doomed run
  have four := doomed.left_le_four
  exact ⟨by omega, idle, exists_step_of_doomed still⟩

/-- The child installs its own handler for SIGTERM. -/
def Params.Guards (p : Params) : Prop := p.savedSigterm = .dfl ∨ p.savedSigterm = .child

theorem sigterm_armSigterm (guards : p.Guards) (c : Child) :
    (c.armSigterm p).sigterm = .child := by
  unfold Child.armSigterm
  rcases guards with saved | saved <;> simp [saved]

@[simp] theorem Child.retune_sigterm (c : Child) (result : ℚ) (wild : ℕ) :
    (c.retune p result wild).sigterm = c.sigterm := by
  obtain ⟨_, _, same, _⟩ := c.retune_cases (p := p) result wild
  rw [same]

theorem guarded_of_move (guards : p.Guards) (guarded : Guarded p c) (move : Move p c e c') :
    Guarded p c' := by
  cases guarded with
  | unarmed unarmed =>
    rcases unarmed with ⟨inherited, way⟩
    cases move with
    | enter here => exact .unarmed ⟨inherited, .inr rfl⟩
    | arm here _ => exact .armed (sigterm_armSigterm guards c)
    | armReceived here _ =>
      exact .leaving (deaf_enterSigterm _) (leaving_enterSigterm _)
    | _ => simp_all
  | armed armed =>
    cases move with
    | arm here _ => exact .armed (sigterm_armSigterm guards c)
    | armReceived here _ =>
      exact .leaving (deaf_enterSigterm _) (leaving_enterSigterm _)
    | keepTiming | coolDown => exact .armed (by simpa using armed)
    | _ => exact .armed armed
  | leaving deaf leaving =>
    cases (spends_of_leaving deaf leaving move).doomed with
    | unarmed unarmed _ => exact .unarmed unarmed
    | leaving deaf leaving => exact .leaving deaf leaving
  | gone n here => cases move <;> simp_all

theorem guarded_of_deliver {signo : Signal} (guarded : Guarded p c)
    (delivered : deliver p c signo = some c') : Guarded p c' := by
  cases arrival_of_deliver delivered with
  | killed => exact .gone 15 rfl
  | caught => exact .leaving (deaf_enterSigterm _) (leaving_enterSigterm _)
  | ignored => exact guarded
  | flagged =>
    cases guarded with
    | unarmed unarmed => exact .unarmed unarmed
    | armed armed => exact .armed armed
    | leaving deaf leaving => exact .leaving deaf ⟨leaving.way, leaving.once⟩
    | gone n here => exact .gone n here
  | reset =>
    cases guarded with
    | unarmed unarmed => exact .unarmed unarmed
    | armed armed => exact .armed armed
    | leaving deaf leaving => exact .leaving deaf ⟨leaving.way, fun _ => nofun⟩
    | gone n here => exact .gone n here
  | childDied =>
    cases guarded with
    | unarmed unarmed =>
      exact .leaving (deaf_enterSigchld unarmed.deaf) (leaving_enterSigchld c)
    | armed armed => exact .armed (by rwa [sigterm_enterSigchld])
    | leaving deaf _ =>
      exact .leaving (deaf_enterSigchld deaf) (leaving_enterSigchld c)
    | gone n here => exact absurd here (alive_of_deliver delivered n)

theorem guarded_of_run (guards : p.Guards) {past : List Event}
    (run : Run (Step p) (initial p) past c) : Guarded p c := by
  apply run.invariant
  · exact .unarmed ⟨rfl, .inl rfl⟩
  · intro s e t guarded step
    cases step with
    | own quiet => exact guarded_of_move guards guarded quiet.move
    | signal signo delivered => exact guarded_of_deliver guarded delivered

/-- SIGTERM dooms a guarded child. -/
theorem doomed_of_sigterm (guarded : Guarded p c) (delivered : deliver p c .sigterm = some c') :
    Doomed p c' := by
  cases arrival_of_deliver delivered with
  | killed setting =>
    cases guarded with
    | unarmed unarmed => simp [unarmed.1] at setting
    | armed armed => simp [armed] at setting
    | leaving deaf _ => exact absurd setting deaf.1
    | gone n here => exact absurd here (alive_of_deliver delivered n)
  | caught => exact .leaving (deaf_enterSigterm _) (leaving_enterSigterm _)
  | flagged setting =>
    cases guarded with
    | unarmed unarmed => exact .unarmed unarmed rfl
    | armed armed => simp [armed] at setting
    | leaving deaf leaving => exact .leaving deaf ⟨leaving.way, leaving.once⟩
    | gone n here => exact absurd here (alive_of_deliver delivered n)
  | ignored foreign other =>
    cases guarded with
    | unarmed unarmed => exact absurd unarmed.1 other
    | armed armed => exact absurd armed foreign
    | leaving deaf leaving => exact .leaving deaf leaving
    | gone n here => exact absurd here (alive_of_deliver delivered n)

/-- **A child with its own handler ends.** Wherever SIGTERM finds it, it calls at
most `initialize(0)` once more, passes the installation, and runs its cleanup and
exits. -/
theorem endsWithin_four (guards : p.Guards) : EndsWithin p 4 := by
  intro before c run
  obtain ⟨s, prior, step⟩ := run.exists_of_append_singleton
  refine endsSoon_of_doomed ?_
  cases step with
  | own quiet => exact Bool.noConfusion (isOwn_of_move quiet.move)
  | signal _ delivered => exact doomed_of_sigterm (guarded_of_run guards prior) delivered

/-! ### With any other handler -/

/-- The child is in the loop that it runs until the start signal comes. -/
def WarmingUp (c : Child) : Prop :=
  c.state = .warmup ∧
    match c.pc with
    | .interval | .stopped _ _ | .ppid _ | .switch _ | .reportReady _ | .begin _ | .start _
    | .running _ => True
    | _ => False

/-- While the parent lives and sends nothing, the warmup goes on. -/
theorem exists_step_of_warmingUp (warming : WarmingUp c) :
    ∃ e t, QuietStep p c e t ∧ WarmingUp t := by
  obtain ⟨state, here⟩ := warming
  obtain ⟨e, t, ran, kept⟩ : ∃ e t, advance p c ⟨0, false, false, 0⟩ = some (e, t) ∧
      WarmingUp t := by
    unfold advance
    split at here
    case h_1 there | h_5 there =>
      -- before the first 'ready' another way is taken
      rw [there]
      cases warm : c.needWarmup <;> exact ⟨_, _, rfl, state, trivial⟩
    case h_4 there => simp [there, state, WarmingUp]
    case h_9 => exact here.elim
    all_goals
      rename_i there
      rw [there]
      exact ⟨_, _, rfl, state, trivial⟩
  exact ⟨e, t, ⟨_, ran⟩, kept⟩

/-- A warming child takes any number of steps of its own. -/
theorem exists_warmup (warming : WarmingUp c) (n : ℕ) :
    ∃ past t, Run (QuietStep p) c past t ∧ past.length = n := by
  have proceeds : ∀ past s, Run (fun s e t => QuietStep p s e t ∧ WarmingUp t) c past s →
      ∃ e t, QuietStep p s e t ∧ WarmingUp t := by
    intro past s run
    have kept : WarmingUp s := run.invariant warming fun _ _ _ _ step => step.2
    exact exists_step_of_warmingUp kept
  obtain ⟨past, t, run, length⟩ := Run.exists_length proceeds n
  exact ⟨past, t, run.mono fun _ _ _ => And.left, length⟩

theorem ownSteps_of_quiet {past : List Event} (run : Run (QuietStep p) c past c') :
    ownSteps past = past.length := by
  apply run.invariant_history
  · rfl
  · intro past s e t _ counted step
    rw [ownSteps_append, counted, isOwn_of_move step.move, List.length_append]
    rfl

/-- **A child with another handler goes on.** The SIGTERM comes when the child has
installed what it found, and the parent sends no start signal. -/
theorem not_endsWithin (foreign : ¬p.Guards) (n : ℕ) : ¬EndsWithin p n := by
  intro ends
  -- the child behind the installation, before and after the SIGTERM
  set armed : Child := { (initial p).armSigterm p with pc := .interval } with atInterval
  have setting : armed.sigterm = p.savedSigterm := by
    simp only [Params.Guards, not_or] at foreign
    simp [atInterval, Child.armSigterm, foreign.1]
  have start : Run (Step p) (initial p) ([] ++ [_] ++ [.tau]) armed :=
    (Run.nil.snoc (.own ⟨⟨0, false, false, 0⟩, rfl⟩)).snoc (.own ⟨⟨0, false, false, 0⟩, rfl⟩)
  obtain ⟨c, delivered, warming⟩ : ∃ c, deliver p armed .sigterm = some c ∧ WarmingUp c := by
    have found : deliver p armed .sigterm = some armed ∨
        deliver p armed .sigterm = some { armed with sigtermReceived := true } := by
      simp only [Params.Guards, not_or] at foreign
      have here : armed.pc = .interval := rfl
      cases saved : p.savedSigterm <;> simp_all [deliver, Child.disposition]
    rcases found with found | found
    · exact ⟨_, found, rfl, trivial⟩
    · exact ⟨_, found, rfl, trivial⟩
  obtain ⟨past, t, onward, length⟩ := exists_warmup (p := p) warming (n + 1)
  have signalled := start.snoc (.signal .sigterm delivered)
  have bound := (ends _ c signalled past t (onward.mono fun _ _ _ => .own)).1
  rw [ownSteps_of_quiet onward] at bound
  omega

/-- SIGTERM ends a child, sooner or later, only with the child's own handler. -/
theorem endsWithin_iff : (∃ n, EndsWithin p n) ↔ p.Guards := by
  constructor
  · rintro ⟨n, ends⟩
    by_contra foreign
    exact not_endsWithin foreign n ends
  · exact fun guards => ⟨4, endsWithin_four guards⟩

/-! ### What the calls of a program find -/

/-- The settings of the two signals in the program that calls `benchmp`. -/
structure Handlers where
  sigterm : Disposition
  sigchld : Disposition
deriving DecidableEq, Repr

/-- What `benchmp` leaves behind, from the creation of the pipes on. Both handlers
are installed before `pids` is allocated; all later exits reset SIGCHLD alone. -/
def Attempt.handlers (attempt : Attempt) (h : Handlers) : Handlers :=
  if !attempt.pipes then h
  else if !attempt.pids then { sigterm := .parent, sigchld := .parent }
  else { sigterm := .parent, sigchld := .dfl }

/-- The settings behind a sequence of attempts, in a program that was started with
the defaults. -/
def handlersAfter (attempts : List Attempt) : Handlers :=
  attempts.foldl (fun h attempt => attempt.handlers h) { sigterm := .dfl, sigchld := .dfl }

/-- The globals with which `benchmp` goes on behind its baseline run. -/
def Invocation.baselineGlobals (call : Invocation) (g : Globals) : Globals :=
  (benchmpControl call.baseline ((g.report 0 1).report 0 1)).2

/-- The call gets to its own measurement. -/
def Invocation.Proceeds (call : Invocation) (g : Globals) : Prop :=
  1 < call.parallel → (call.baselineGlobals g).regs.gettime ≠ 0

/-- What a call attempts before its own measurement. -/
def Invocation.preliminary (call : Invocation) : List Attempt :=
  if 1 < call.parallel then [call.baseline] else []

instance (call : Invocation) (g : Globals) : Decidable (call.Proceeds g) := by
  unfold Invocation.Proceeds
  infer_instance

/-- All attempts of a sequence of calls. -/
def attemptsFrom (g : Globals) : List Invocation → List Attempt
  | [] => []
  | call :: rest =>
    call.preliminary ++ (if call.Proceeds g then [call.own] else []) ++
      attemptsFrom (benchmp call g).2 rest

/-- The attempts of a program so far. -/
def attemptsOf (history : List Invocation) : List Attempt := attemptsFrom .initial history

/-- Only an attempt without pipes leaves the setting of SIGTERM as it is. -/
theorem handlersAfter_sigterm (attempts : List Attempt) :
    (handlersAfter attempts).sigterm =
      if ∀ a ∈ attempts, a.pipes = false then .dfl else .parent := by
  induction attempts using List.reverseRecOn with
  | nil => rfl
  | append_singleton attempts a ih =>
    have last : handlersAfter (attempts ++ [a]) = a.handlers (handlersAfter attempts) := by
      simp [handlersAfter]
    rw [last]
    unfold Attempt.handlers
    cases pipes : a.pipes with
    | false => simpa [or_imp, forall_and, pipes] using ih
    | true => cases a.pids <;> simp [or_imp, forall_and, pipes]

/-- A call with several children gets to its own measurement over the handlers
that its baseline run has left. -/
theorem baseline_pipes_of_proceeds {call : Invocation} {g : Globals} (several : 1 < call.parallel)
    (proceeds : call.Proceeds g) : call.baseline.pipes = true := by
  by_contra broken
  have absent : call.baseline.pipes = false := by simpa using broken
  have same : call.baselineGlobals g = (g.report 0 1).report 0 1 := by
    simp only [Invocation.baselineGlobals, benchmpControl, absent, Bool.not_false, if_true]
  have silent := (noResult_report (g.report 0 1)).1
  rw [← same] at silent
  exact proceeds several silent

/-- **Which children SIGTERM ends.** Take a call of `benchmp`, after any history of
calls in a program started with the default handlers, that gets to its own
measurement. Its children end on every SIGTERM if and only if there is one child
only and no call before has got past the creation of its pipes; then they end in
four steps. Otherwise no bound holds. -/
theorem sigterm_ends_iff (history : List Invocation) (call : Invocation) (p : Params)
    (proceeds : call.Proceeds (after history))
    (inherits : p.savedSigterm =
      (handlersAfter (attemptsOf history ++ call.preliminary)).sigterm) :
    ((∃ n, EndsWithin p n) ↔
        call.parallel ≤ 1 ∧ ∀ a ∈ attemptsOf history, a.pipes = false) ∧
      ((∃ n, EndsWithin p n) → EndsWithin p 4) := by
  refine ⟨?_, fun ends => endsWithin_four (endsWithin_iff.mp ends)⟩
  rw [endsWithin_iff, Params.Guards, inherits, handlersAfter_sigterm]
  by_cases several : 1 < call.parallel
  · -- the baseline run is an earlier call
    have pipes := baseline_pipes_of_proceeds several proceeds
    have found : ¬∀ a ∈ attemptsOf history ++ call.preliminary, a.pipes = false := by
      intro broken
      have absent := broken call.baseline (by simp [Invocation.preliminary, several])
      simp [pipes] at absent
    rw [if_neg found]
    simp [not_le.mpr several]
  · have alone : call.preliminary = [] := if_neg several
    rw [alone, List.append_nil]
    split
    · rename_i broken
      simp only [true_or, true_iff]
      exact ⟨not_lt.mp several, broken⟩
    · rename_i broken
      simp [broken]

/-- The children of the second measurement of a program. -/
def Params.second : Params := { Params.single with savedSigterm := .parent }

/-- A program that measures twice with one child: SIGTERM does not end the second
one. -/
theorem sigterm_ends_iff_second :
    ((∃ n, EndsWithin Params.second n) ↔
        1 ≤ 1 ∧ ∀ a ∈ attemptsOf [⟨1, .measuring 7, .measuring 7⟩], a.pipes = false) ∧
      ((∃ n, EndsWithin Params.second n) → EndsWithin Params.second 4) :=
  sigterm_ends_iff [⟨1, .measuring 7, .measuring 7⟩] ⟨1, .measuring 7, .measuring 7⟩ .second
    (by decide) (by decide)

end Lmbench.Benchmp
