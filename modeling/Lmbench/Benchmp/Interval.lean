import Lmbench.Benchmp.Child

/-!
# What a child records

`benchmp_interval` labels the measurement that one of its calls takes with a
count that an earlier call returned. Between the two the count lives in
`state->iterations`, and the code keeps it there as long as the state is
`timing_interval`: the count passed to the callbacks is always the one the
state names.

## Main results

* `placed_of_run` - the control invariant of a child
* `insert_genuine` - every recorded pair belongs to the interval just ended,
  which was begun after the start signal was consumed
-/

namespace Lmbench.Benchmp

open Lib

section Placed

variable (p : Params)

/-- The control invariant. Wherever a count is about to be used, it is the one
that `state->state` names, and `need_warmup` is set only before the first
'ready'. -/
def Child.Placed (c : Child) : Prop :=
  match c.pc with
  | .enter | .arm => c.needWarmup = true ∧ c.state = .warmup
  | .interval | .ppid _ | .switch _ => c.needWarmup = true → c.state = .warmup
  | .stopped iterations _ => iterations = c.count p ∧ c.needWarmup = false
  | .takeStart => c.state = .timingInterval
  | .reportReady iterations => iterations = c.count p ∧ c.state ≠ .cooldown
  | .retune _ => c.needWarmup = false ∧ c.state ≠ .warmup
  | .reportDone | .takeResult | .sendResults _ | .finish | .takeExit =>
    c.needWarmup = false ∧ c.state = .cooldown
  | .begin iterations | .start iterations | .running iterations =>
    iterations = c.count p ∧ c.needWarmup = false
  | .orphaned | .handler _ | .exiting _ | .exited _ => True

end Placed

variable {p : Params} {c c' : Child} {e : Event}

theorem Child.count_of_timing (timing : c.state = .timingInterval) :
    c.count p = c.iterations := if_pos timing

theorem Child.record_state (c : Child) :
    (c.record p).state = c.state ∨ (c.record p).state = .cooldown := by
  unfold Child.record
  dsimp only
  split_ifs
  · exact .inr rfl
  · exact .inl rfl

/-- A timing child is past its first call of `benchmp_interval`. -/
theorem Child.warm_of_timing (first : c.needWarmup = true → c.state = .warmup)
    (timing : c.state = .timingInterval) : c.needWarmup = false := by
  cases warm : c.needWarmup with
  | false => rfl
  | true => cases timing.symm.trans (first warm)

/-- A child that goes on after a measurement is timing, and only its count has changed. -/
theorem Child.Placed.retune_going {result : ℚ} {wild : ℕ} (placed : c.Placed p)
    (here : c.pc = .retune result) (going : (c.retune p result wild).state ≠ .cooldown) :
    c.state = .timingInterval ∧
      ∃ iterations, c.retune p result wild = { c with iterations := iterations } := by
  obtain ⟨iterations, state, same, kept⟩ := c.retune_cases (p := p) result wild
  rw [same] at going
  obtain rfl : state = c.state := kept.resolve_right going
  refine ⟨?_, iterations, same⟩
  simp only [Child.Placed, here] at placed
  cases now : c.state with
  | warmup => exact absurd now placed.2
  | timingInterval => rfl
  | cooldown => exact absurd now going

theorem placed_initial (p : Params) : (initial p).Placed p := ⟨rfl, rfl⟩

theorem placed_move (placed : c.Placed p) (move : Move p c e c') : c'.Placed p := by
  cases move with
  | armReceived here received =>
    unfold Child.enterSigterm
    split <;> trivial
  | record here timing enough =>
    simp only [Child.Placed, here] at placed ⊢
    have warm := Child.warm_of_timing placed timing
    refine ⟨warm, ?_⟩
    rcases c.record_state (p := p) with same | cooled
    · simp [same, timing]
    · simp [cooled]
  | keepTiming here wild timing =>
    -- the new count is stored before it is used, and the state still names it
    obtain ⟨now, iterations, same⟩ := placed.retune_going here timing
    rw [same]
    simp only [Child.Placed, here] at placed
    exact ⟨by simp [Child.count, now], placed.1⟩
  | coolDown here wild cooling =>
    obtain ⟨iterations, state, same, _⟩ := c.retune_cases (p := p) _ wild
    rw [same] at cooling ⊢
    simp only [Child.Placed, here] at placed
    exact ⟨placed.1, cooling⟩
  | _ => simp_all [Child.Placed, Child.count, Child.armSigterm, Child.beforeCleanup]

/-- Signals do not disturb the control invariant. -/
theorem placed_deliver {signo : Signal} (placed : c.Placed p)
    (delivered : deliver p c signo = some c') : c'.Placed p := by
  rcases deliver_cases delivered with ⟨code, there, _⟩ | ⟨code, there⟩ | ⟨code, there⟩ |
    ⟨sigchld, received, rfl⟩
  · simp [Child.Placed, there]
  · simp [Child.Placed, there]
  · simp [Child.Placed, there]
  · exact placed

theorem placed_step (placed : c.Placed p) (step : Step p c e c') : c'.Placed p := by
  cases step with
  | own quiet => exact placed_move placed quiet.move
  | signal signo delivered => exact placed_deliver placed delivered

theorem placed_of_run {past : List Event} (run : Run (Step p) (initial p) past c) : c.Placed p :=
  run.invariant (placed_initial p) fun _ _ _ placed step => placed_step placed step

/-! ### The interval a measurement belongs to -/

/-- An event that begins or ends an interval. -/
def Event.Delimits : Event → Prop
  | .start _ | .stop _ => True
  | _ => False

/-- The interval now running was begun by returning `n`, and, if `timed`, after
the start signal was consumed. -/
def Began (past : List Event) (n : ℕ) (timed : Prop) : Prop :=
  ∃ before since, past = before ++ .start n :: since ∧ (∀ e ∈ since, ¬e.Delimits) ∧
    (timed → .readStart ∈ before)

/-- The last interval was begun by returning `n` and took `elapsed`, and, if
`timed`, was begun after the start signal was consumed. -/
def Ended (past : List Event) (n elapsed : ℕ) (timed : Prop) : Prop :=
  ∃ before during since, past = before ++ .start n :: during ++ .stop elapsed :: since ∧
    (∀ e ∈ during ++ since, ¬e.Delimits) ∧ (timed → .readStart ∈ before)

theorem Began.snoc {past : List Event} {n : ℕ} {timed : Prop} (began : Began past n timed)
    (inside : ¬e.Delimits) : Began (past ++ [e]) n timed := by
  obtain ⟨before, since, rfl, quiet, took⟩ := began
  refine ⟨before, since ++ [e], by simp, fun x hx => ?_, took⟩
  rcases List.mem_append.mp hx with old | new
  · exact quiet x old
  · rwa [List.mem_singleton.mp new]

theorem Began.of_start {past : List Event} {timed : Prop} (took : timed → .readStart ∈ past)
    (n : ℕ) : Began (past ++ [.start n]) n timed :=
  ⟨past, [], rfl, by simp, took⟩

theorem Began.stop {past : List Event} {n : ℕ} {timed : Prop} (began : Began past n timed)
    (elapsed : ℕ) : Ended (past ++ [.stop elapsed]) n elapsed timed := by
  obtain ⟨before, since, rfl, quiet, took⟩ := began
  exact ⟨before, since, [], by simp, by simpa using quiet, took⟩

theorem Ended.snoc {past : List Event} {n elapsed : ℕ} {timed : Prop}
    (ended : Ended past n elapsed timed) (inside : ¬e.Delimits) :
    Ended (past ++ [e]) n elapsed timed := by
  obtain ⟨before, during, since, rfl, quiet, took⟩ := ended
  refine ⟨before, during, since ++ [e], by simp, fun x hx => ?_, took⟩
  rcases List.mem_append.mp (List.append_assoc _ _ _ ▸ hx) with old | new
  · exact quiet x old
  · rwa [List.mem_singleton.mp new]

/-- The history invariant: which interval the count and the saved registers of a
child belong to. -/
def Attributed (p : Params) (past : List Event) (c : Child) : Prop :=
  match c.pc with
  | .interval =>
    c.needWarmup = false → Began past (c.count p) (c.state = .timingInterval)
  | .stopped iterations elapsed => Ended past iterations elapsed (c.state = .timingInterval)
  | .ppid _ | .switch _ =>
    c.needWarmup = false → c.state = .timingInterval →
      ∃ elapsed, Ended past c.iterations elapsed True ∧ c.savedN = c.iterations ∧
        c.savedTime = p.corrected elapsed c.iterations
  | .reportReady _ | .retune _ | .begin _ | .start _ =>
    c.state = .timingInterval → .readStart ∈ past
  | .running iterations => Began past iterations (c.state = .timingInterval)
  | _ => True

/-- The measurement of a timing child was begun behind the start signal. -/
theorem Attributed.readStart_mem {past : List Event} {result : ℚ} (placed : c.Placed p)
    (attributed : Attributed p past c) (here : c.pc = .switch result)
    (timing : c.state = .timingInterval) : .readStart ∈ past := by
  simp only [Attributed, Child.Placed, here] at attributed placed
  obtain ⟨_, ⟨_, _, _, rfl, _, took⟩, _⟩ :=
    attributed (Child.warm_of_timing placed timing) timing
  simp [took trivial]

theorem not_delimits_callIf (present : Bool) (callback : Callback) (iterations : ℕ) :
    ¬(callIf p present callback iterations).Delimits := by
  unfold callIf
  split <;> exact id

theorem attributed_move {past : List Event} (placed : c.Placed p)
    (attributed : Attributed p past c) (move : Move p c e c') :
    Attributed p (past ++ [e]) c' := by
  cases move with
  | firstCall here warm => simp [Attributed, warm]
  | stop here warm elapsed =>
    simp only [Attributed, here] at attributed ⊢
    exact (attributed warm).stop elapsed
  | @account iterations elapsed here =>
    -- the registers are set to the count and the time of the interval just ended
    simp only [Attributed, Child.Placed, here] at attributed placed ⊢
    intro _ timing
    have timed : c.state = .timingInterval := timing
    obtain rfl : iterations = c.iterations := placed.1.trans (Child.count_of_timing timed)
    refine ⟨elapsed, ?_, rfl, rfl⟩
    simpa [timed, Child.beforeCleanup] using attributed.snoc (not_delimits_callIf _ _ _)
  | parentAlive here orphaned =>
    simp only [Attributed, here] at attributed ⊢
    intro warm timing
    obtain ⟨elapsed, ended, saved⟩ := attributed warm timing
    exact ⟨elapsed, ended.snoc (by simp [Event.Delimits]), saved⟩
  | record here timing enough =>
    exact fun _ => List.mem_append_left _ (attributed.readStart_mem placed here timing)
  | skip here timing short =>
    exact fun _ => List.mem_append_left _ (attributed.readStart_mem placed here timing)
  | keepTiming here wild timing =>
    obtain ⟨now, iterations, same⟩ := placed.retune_going here timing
    rw [same]
    simp only [Attributed, here] at attributed ⊢
    intro _
    simp [attributed now]
  | start here =>
    simp only [Attributed, here] at attributed ⊢
    exact Began.of_start attributed _
  | run here =>
    simp only [Attributed, Child.Placed, here] at attributed placed ⊢
    intro _
    have began := attributed.snoc (e := .call .benchmark (c.count p) p.cookie)
      (by simp [Event.Delimits])
    rw [placed.1] at began ⊢
    exact began
  | armReceived here received =>
    unfold Child.enterSigterm
    split <;> trivial
  | _ => simp_all [Attributed, Child.Placed, Child.armSigterm]

/-- An event that is no part of the code leaves the attribution as it is. -/
theorem Attributed.idle {past : List Event} (attributed : Attributed p past c)
    (inside : ¬e.Delimits) : Attributed p (past ++ [e]) c := by
  unfold Attributed at attributed ⊢
  split <;> rename_i here <;> simp only [here] at attributed
  · exact fun warm => (attributed warm).snoc inside
  · exact attributed.snoc inside
  · intro warm timing
    obtain ⟨elapsed, ended, saved⟩ := attributed warm timing
    exact ⟨elapsed, ended.snoc inside, saved⟩
  · intro warm timing
    obtain ⟨elapsed, ended, saved⟩ := attributed warm timing
    exact ⟨elapsed, ended.snoc inside, saved⟩
  · exact fun timing => List.mem_append_left _ (attributed timing)
  · exact fun timing => List.mem_append_left _ (attributed timing)
  · exact fun timing => List.mem_append_left _ (attributed timing)
  · exact fun timing => List.mem_append_left _ (attributed timing)
  · exact attributed.snoc inside
  · trivial

theorem attributed_step {past : List Event} (placed : c.Placed p)
    (attributed : Attributed p past c) (step : Step p c e c') :
    Attributed p (past ++ [e]) c' := by
  cases step with
  | own quiet => exact attributed_move placed attributed quiet.move
  | signal signo delivered =>
    have inside : ¬(Event.signal signo).Delimits := id
    rcases deliver_cases delivered with ⟨code, there, _⟩ | ⟨code, there⟩ | ⟨code, there⟩ |
      ⟨sigchld, received, rfl⟩
    · simp [Attributed, there]
    · simp [Attributed, there]
    · simp [Attributed, there]
    · -- the child goes on where it was
      exact attributed.idle inside

theorem attributed_of_run {past : List Event} (run : Run (Step p) (initial p) past c) :
    Attributed p past c :=
  run.invariant_history (by simp [Attributed, initial])
    fun _ _ _ _ before attributed step => attributed_step (placed_of_run before) attributed step

/-- **Every recorded measurement is genuine.** A pair passed to `insertsort` has
the count that the preceding call of `benchmp_interval` returned and the
corrected time of the interval that this call began, and the call came after
the start signal was consumed. -/
theorem insert_genuine (p : Params) (before after : List Event) (u n : ℕ) (c : Child)
    (run : Run (Step p) (initial p) (before ++ .insert u n :: after) c) :
    ∃ elapsed, Ended before n elapsed True ∧ u = p.corrected elapsed n := by
  obtain ⟨s, t, prior, step⟩ := run.exists_step_of_split
  have placed := placed_of_run prior
  have attributed := attributed_of_run prior
  cases step with
  | own quiet =>
    generalize recorded : Event.insert u n = e at quiet
    cases quiet.move with
    | record here timing enough =>
      obtain ⟨rfl, rfl⟩ := by simpa using recorded
      simp only [Child.Placed, Attributed, here] at placed attributed
      obtain ⟨elapsed, ended, count, time⟩ :=
        attributed (Child.warm_of_timing placed timing) timing
      exact ⟨elapsed, count ▸ ended, by rw [time, count]⟩
    | _ =>
      first
      | cases recorded
      | (unfold callIf at recorded; split at recorded <;> cases recorded)

/-- The events of a single child up to its first measurement, of one iteration
that took a second. -/
def firstMeasurement : List Event :=
  [.call .initializeF 0 4096, .tau, .tau, .getppid false, .pollStart true, .readStart,
    .writeReady, .call .initializeF 1 4096, .start 1, .call .benchmark 1 4096, .stop 1000000,
    .call .cleanup 1 4096, .getppid false]

/-- The first measurement of a single child. -/
theorem insert_genuine_single :
    ∃ elapsed, Ended firstMeasurement 1 elapsed True ∧
      1000000 = Params.single.corrected elapsed 1 := by
  have executed : (execute .single (List.replicate 14 (answer 1000000)) (initial .single)).map
      (fun ended => ended.1) = some (firstMeasurement ++ [.insert 1000000 1]) := by
    decide +kernel
  obtain ⟨⟨past, c⟩, ended, events⟩ := Option.map_eq_some_iff.mp executed
  refine insert_genuine .single firstMeasurement [] 1000000 1 c ?_
  rw [← events]
  exact (run_of_execute .nil ended).mono fun _ _ _ => .own

end Lmbench.Benchmp
