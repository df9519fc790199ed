import Lmbench.Benchmp.Interval

/-!
# The order of the callbacks of a child

The callbacks of a child come in brackets: `initialize(k)`, `benchmark(k)`,
`cleanup(k)` with one count, after a first `initialize(0)` and before a last
`cleanup(0)`. Benchmarks allocate by this count, and count zero stands for the
first and the last call, so the counts inside the brackets have to be positive.

That fails when a re-tuning step makes the count zero. The shift `iterations
<<= 3` is tested against its bound only afterwards, so a count whose set bits
are all shifted out passes the test.

## Main results

* `bracketed_of_run` - the callbacks are bracketed as long as no re-tuning step
  makes the count zero
* `brackets_broken` - a run with a bracket of count zero
-/

namespace Lmbench.Benchmp

open Lib

/-- A callback with its count. -/
abbrev Call := Callback × ℕ

/-- The callbacks among the events. -/
def callsOf (past : List Event) : List Call :=
  past.filterMap fun
    | .call callback iterations _ => some (callback, iterations)
    | _ => none

/-- One use of the benchmark with its preparation and clean-up. -/
def bracket (k : ℕ) : List Call := [(.initializeF, k), (.benchmark, k), (.cleanup, k)]

/-- The first callback and the brackets behind it. -/
def brackets (ks : List ℕ) : List Call := (.initializeF, 0) :: ks.flatMap bracket

/-- The calls are `initialize(0)`, brackets of positive counts and `cleanup(0)`,
or begin like that. -/
def Bracketed (calls : List Call) : Prop :=
  ∃ ks : List ℕ, (∀ k ∈ ks, 1 ≤ k) ∧ calls <+: brackets ks ++ [(.cleanup, 0)]

theorem brackets_snoc (ks : List ℕ) (k : ℕ) :
    brackets (ks ++ [k]) = brackets ks ++ bracket k := by
  simp [brackets]

/-- Behind the first call only the final `cleanup` has count zero. -/
theorem one_le_of_mem_tail_brackets {ks : List ℕ} (positive : ∀ k ∈ ks, 1 ≤ k) {call : Call}
    (inside : call ∈ ks.flatMap bracket) : 1 ≤ call.2 := by
  obtain ⟨k, hk, member⟩ := List.mem_flatMap.mp inside
  have same : call.2 = k := by
    simp only [bracket, List.mem_cons, List.not_mem_nil, or_false] at member
    rcases member with rfl | rfl | rfl <;> rfl
  exact same ▸ positive k hk

theorem Bracketed.tail_cases {first call : Call} {rest : List Call}
    (ordered : Bracketed (first :: rest)) (behind : call ∈ rest) :
    1 ≤ call.2 ∨ call = (.cleanup, 0) := by
  obtain ⟨ks, positive, start⟩ := ordered
  rw [brackets, List.cons_append, List.cons_prefix_cons] at start
  rcases List.mem_append.mp (start.2.subset behind) with inside | last
  · exact .inl (one_le_of_mem_tail_brackets positive inside)
  · exact .inr (List.mem_singleton.mp last)

/-- `cleanup(0)` is the last callback, so it occurs at most once. -/
theorem Bracketed.cleanup_zero_last {calls before after : List Call} (ordered : Bracketed calls)
    (split : calls = before ++ (.cleanup, 0) :: after) : after = [] := by
  obtain ⟨ks, positive, rest, whole⟩ := ordered
  rw [split, List.append_assoc, List.cons_append] at whole
  -- the call cannot stand before the end of the pattern, where all counts are positive
  by_contra more
  obtain ⟨init, last, rfl⟩ := (List.eq_nil_or_concat after).resolve_left more
  have cut : before ++ (.cleanup, 0) :: (init ++ last :: rest).dropLast = brackets ks := by
    have dropped := congrArg List.dropLast whole
    rw [List.dropLast_append_of_ne_nil (by simp), List.dropLast_cons_of_ne_nil (by simp),
      List.dropLast_concat] at dropped
    simpa using dropped
  cases before with
  | nil => simp [brackets] at cut
  | cons head tail =>
    have member : ((.cleanup, 0) : Call) ∈ ks.flatMap bracket := by
      rw [brackets, List.cons_append, List.cons.injEq] at cut
      simp [← cut.2]
    exact absurd (one_le_of_mem_tail_brackets positive member) (by simp)

section Shape

variable (p : Params)

/-- The re-tuning step out of this state keeps the count positive: a rescaled
count must fit in an `iter_t`, with a target that is not negative, and a shifted
count must keep a set bit. Nothing is asked of a child that is done measuring. -/
def RetuneKeeps (c : Child) : Prop :=
  ∀ result, c.pc = .retune result → c.state = .timingInterval → p.parallel = 1 →
    OffTarget p.enough result →
      if 150 < result then 0 ≤ p.enough ∧ rescaled p.enough c.iterations result < p.dm.iterSpan
      else ¬p.dm.iterSpan ∣ 8 * c.iterations

/-- How far the pattern has come at a program point. -/
def Shape (calls : List Call) (ks : List ℕ) (c : Child) : Prop :=
  match c.pc with
  | .enter => calls = []
  | .interval =>
    if c.needWarmup then calls = brackets ks
    else calls = brackets ks ++ [(.initializeF, c.count p), (.benchmark, c.count p)]
  | .stopped iterations _ =>
    calls = brackets ks ++ [(.initializeF, iterations), (.benchmark, iterations)]
  | .start iterations | .running iterations => calls = brackets ks ++ [(.initializeF, iterations)]
  | .takeExit | .exiting _ | .exited _ => calls = brackets ks ++ [(.cleanup, 0)]
  | .handler _ => False
  | _ => calls = brackets ks

/-- The invariant behind the bracketing. -/
structure Ordered (past : List Event) (c : Child) : Prop where
  placed : c.Placed p
  quiet : c.sigtermReceived = false
  positive : c.state ≠ .cooldown → 1 ≤ c.iterations
  shape : ∃ ks, (∀ k ∈ ks, 1 ≤ k) ∧ Shape p (callsOf past) ks c

end Shape

variable {p : Params} {c c' : Child} {e : Event} {past : List Event}

theorem callsOf_snoc (past : List Event) (e : Event) :
    callsOf (past ++ [e]) = callsOf past ++ callsOf [e] := List.filterMap_append

@[simp] theorem callsOf_call (callback : Callback) (iterations cookie : ℕ) :
    callsOf [.call callback iterations cookie] = [(callback, iterations)] := rfl

theorem callsOf_callIf {present : Bool} (given : present = true) (callback : Callback)
    (iterations : ℕ) :
    callsOf [callIf p present callback iterations] = [(callback, iterations)] := by
  rw [callIf, if_pos given, callsOf_call]

theorem one_le_count (batch : 1 ≤ p.iterationsBatch)
    (positive : c.state ≠ .cooldown → 1 ≤ c.iterations) : 1 ≤ c.count p := by
  unfold Child.count
  split
  · rename_i timing
    exact positive (by simp [timing])
  · exact batch

theorem one_le_convert {x : ℚ} (one_le : 1 ≤ x) (fits : x < p.dm.iterSpan) (wild : ℕ) :
    1 ≤ convert p x wild := by
  rw [convert, DataModel.toIter?_of_fits (zero_le_one.trans one_le) fits, Option.getD_some]
  have floor_pos : 1 ≤ ⌊x⌋ := Int.le_floor.mpr (by exact_mod_cast one_le)
  omega

/-- Under the condition, re-tuning keeps the count of a measuring child positive. -/
theorem one_le_retune {result : ℚ} {wild : ℕ} (keeps : RetuneKeeps p c)
    (here : c.pc = .retune result) (timing : c.state = .timingInterval) (ran : 1 ≤ c.iterations) :
    1 ≤ (c.retune p result wild).iterations := by
  unfold Child.retune
  split_ifs with off long
  · obtain ⟨nonneg, fits⟩ := by simpa [long] using keeps result here timing off.1 off.2
    exact one_le_convert (one_le_rescaled nonneg (by linarith)) fits wild
  · have kept := by simpa [long] using keeps result here timing off.1 off.2
    have nonzero : p.dm.shiftIter c.iterations ≠ 0 := fun zero =>
      kept ((DataModel.shiftIter_eq_zero_iff _).mp zero)
    exact Nat.one_le_iff_ne_zero.mpr nonzero
  · exact ran

theorem positive_move (placed : c.Placed p) (keeps : RetuneKeeps p c)
    (positive : c.state ≠ .cooldown → 1 ≤ c.iterations) (quiet : c.sigtermReceived = false)
    (move : Move p c e c') : c'.state ≠ .cooldown → 1 ≤ c'.iterations := by
  cases move with
  | armReceived here received => simp [quiet] at received
  | record here timing enough =>
    intro _
    exact positive (by simp [timing])
  | @keepTiming result here wild going =>
    -- the only step that changes the count
    intro _
    obtain ⟨timing, -⟩ := placed.retune_going here going
    exact one_le_retune keeps here timing (positive (by simp [timing]))
  | coolDown here wild cooling => exact fun going => absurd cooling going
  | startReady here warming => exact fun _ => positive (by simp [warming])
  | _ => exact positive

theorem shape_move {ks : List ℕ} (hasInitialize : p.hasInitialize = true)
    (hasCleanup : p.hasCleanup = true) (batch : 1 ≤ p.iterationsBatch) (placed : c.Placed p)
    (quiet : c.sigtermReceived = false) (positive : c.state ≠ .cooldown → 1 ≤ c.iterations)
    (counts : ∀ k ∈ ks, 1 ≤ k) (shape : Shape p (callsOf past) ks c) (move : Move p c e c') :
    ∃ ks', (∀ k ∈ ks', 1 ≤ k) ∧ Shape p (callsOf (past ++ [e])) ks' c' := by
  rw [callsOf_snoc]
  have noCall : ∀ l : List Call, l ++ callsOf [.tau] = l := List.append_nil
  cases move with
  | enter here =>
    -- the first call, before any bracket
    refine ⟨[], by simp, ?_⟩
    simp only [Shape, here] at shape ⊢
    simp [shape, callsOf_callIf hasInitialize, brackets]
  | armReceived here received => simp [quiet] at received
  | @account iterations elapsed here =>
    -- the bracket closes with the count it was opened with
    simp only [Shape, Child.Placed, here] at shape placed
    refine ⟨ks ++ [iterations], fun k hk => ?_, ?_⟩
    · rcases List.mem_append.mp hk with old | new
      · exact counts k old
      · rw [List.mem_singleton.mp new, placed.1]
        exact one_le_count batch positive
    · simp [Shape, callsOf_callIf hasCleanup, shape, brackets_snoc, bracket]
  | orphaned here =>
    refine ⟨ks, counts, ?_⟩
    simp only [Shape, here] at shape ⊢
    simp [shape]
  | finish here =>
    refine ⟨ks, counts, ?_⟩
    simp only [Shape, here] at shape ⊢
    simp [shape, callsOf_callIf hasCleanup]
  | begin here =>
    -- a bracket is opened
    refine ⟨ks, counts, ?_⟩
    simp only [Shape, here] at shape ⊢
    simp [shape, callsOf_callIf hasInitialize]
  | run here =>
    refine ⟨ks, counts, ?_⟩
    simp only [Shape, Child.Placed, here] at shape placed ⊢
    simp [shape, placed.1, placed.2, Child.count]
  | handler here => simp [Shape, here] at shape
  | stop here warm elapsed =>
    refine ⟨ks, counts, ?_⟩
    simpa [Shape, here, warm, callsOf] using shape
  | firstCall here warm =>
    refine ⟨ks, counts, ?_⟩
    simpa [Shape, here, warm, callsOf] using shape
  | arm here received =>
    refine ⟨ks, counts, ?_⟩
    simp only [Child.Placed, here] at placed
    simpa [Shape, here, Child.armSigterm, callsOf, placed.1] using shape
  | _ =>
    refine ⟨ks, counts, ?_⟩
    simp_all [Shape, callsOf]

theorem ordered_initial (p : Params) (ran : 1 ≤ p.iterations) : Ordered p [] (initial p) where
  placed := placed_initial p
  quiet := rfl
  positive := fun _ => ran
  shape := ⟨[], by simp, rfl⟩

theorem ordered_move (hasInitialize : p.hasInitialize = true) (hasCleanup : p.hasCleanup = true)
    (batch : 1 ≤ p.iterationsBatch) (ordered : Ordered p past c) (keeps : RetuneKeeps p c)
    (move : Move p c e c') : Ordered p (past ++ [e]) c' where
  placed := placed_move ordered.placed move
  quiet := quiet_move ordered.quiet move
  positive := positive_move ordered.placed keeps ordered.positive ordered.quiet move
  shape := by
    obtain ⟨ks, counts, shape⟩ := ordered.shape
    exact shape_move hasInitialize hasCleanup batch ordered.placed ordered.quiet
      ordered.positive counts shape move

/-- At every program point the calls made so far begin the pattern. -/
theorem bracketed_of_shape {calls : List Call} {ks : List ℕ} (batch : 1 ≤ p.iterationsBatch)
    (placed : c.Placed p) (positive : c.state ≠ .cooldown → 1 ≤ c.iterations)
    (counts : ∀ k ∈ ks, 1 ≤ k) (shape : Shape p calls ks c) : Bracketed calls := by
  have closed : ∀ {calls}, calls = brackets ks → Bracketed calls := fun same =>
    ⟨ks, counts, same ▸ List.prefix_append _ _⟩
  -- an open bracket is completed by its own count
  have opened : ∀ {calls k} (rest : List Call), calls ++ rest = brackets ks ++ bracket k →
      k = c.count p → Bracketed calls := by
    intro calls k rest whole same
    refine ⟨ks ++ [k], fun j hj => ?_, ?_⟩
    · rcases List.mem_append.mp hj with old | new
      · exact counts j old
      · rw [List.mem_singleton.mp new, same]
        exact one_le_count batch positive
    · rw [brackets_snoc, ← whole, List.append_assoc]
      exact List.prefix_append _ _
  unfold Shape at shape
  unfold Child.Placed at placed
  cases here : c.pc with
  | enter =>
    simp only [here] at shape
    exact ⟨[], by simp, shape ▸ List.nil_prefix⟩
  | interval =>
    simp only [here] at shape
    split at shape
    · exact closed shape
    · exact opened [(.cleanup, c.count p)] (by simp [shape, bracket]) rfl
  | stopped iterations elapsed =>
    simp only [here] at shape placed
    exact opened [(.cleanup, iterations)] (by simp [shape, bracket]) placed.1
  | start iterations =>
    simp only [here] at shape placed
    exact opened [(.benchmark, iterations), (.cleanup, iterations)] (by simp [shape, bracket])
      placed.1
  | running iterations =>
    simp only [here] at shape placed
    exact opened [(.benchmark, iterations), (.cleanup, iterations)] (by simp [shape, bracket])
      placed.1
  | takeExit | exiting | exited =>
    simp only [here] at shape
    exact ⟨ks, counts, shape ▸ List.prefix_rfl⟩
  | handler => simp [here] at shape
  | _ =>
    simp only [here] at shape
    exact closed shape

/-- **Bracketing.** In a run without signals in which every re-tuning step keeps
the count positive, the callbacks are bracketed, and nothing is called after
`cleanup(0)`. -/
theorem bracketed_of_run (p : Params) (past : List Event) (c : Child)
    (hasInitialize : p.hasInitialize = true) (hasCleanup : p.hasCleanup = true)
    (ran : 1 ≤ p.iterations) (batch : 1 ≤ p.n)
    (run : Run (fun c e c' => RetuneKeeps p c ∧ QuietStep p c e c') (initial p) past c) :
    Bracketed (callsOf past) ∧
      ∀ before after, callsOf past = before ++ (.cleanup, 0) :: after → after = [] := by
  have batched : 1 ≤ p.iterationsBatch := by
    unfold Params.iterationsBatch
    split <;> omega
  have ordered : Ordered p past c := run.invariant_history (ordered_initial p ran)
    fun _ _ _ _ _ ordered step =>
      ordered_move hasInitialize hasCleanup batched ordered step.1 step.2.move
  obtain ⟨ks, counts, shape⟩ := ordered.shape
  have pattern := bracketed_of_shape batched ordered.placed ordered.positive counts shape
  exact ⟨pattern, fun before after split => pattern.cleanup_zero_last split⟩

/-- With two children counts are never re-tuned, whatever the readings. -/
theorem bracketed_of_run_two :
    Bracketed [(.initializeF, 0), (.initializeF, 1), (.benchmark, 1), (.cleanup, 1)] ∧
      ∀ before after, [(.initializeF, 0), (.initializeF, 1), (.benchmark, 1), (.cleanup, 1)] =
        before ++ ((.cleanup, 0) : Call) :: after → after = [] := by
  let p : Params := { Params.single with parallel := 2 }
  have executed : (execute p (List.replicate 12 (answer 700)) (initial p)).map
      (fun ended => callsOf ended.1) =
        some [(.initializeF, 0), (.initializeF, 1), (.benchmark, 1), (.cleanup, 1)] := by
    decide +kernel
  obtain ⟨⟨past, c⟩, ended, calls⟩ := Option.map_eq_some_iff.mp executed
  have keeps : ∀ c, RetuneKeeps p c := fun _ _ _ _ single => absurd single (by decide)
  rw [← calls]
  exact bracketed_of_run p past c rfl rfl (by decide) (by decide)
    ((run_of_execute .nil ended).mono fun c _ _ step => ⟨keeps c, step⟩)

/-- **The slip.** Readings of 157, 1387 and 11386 microseconds take the count
of a 32-bit `iter_t` to `2 ^ 29`; the shift after a reading of 100 microseconds
leaves zero, which is within the bound, and the next bracket has count zero. -/
theorem brackets_broken :
    ∃ past c, Run (QuietStep .single) (initial .single) past c ∧ ¬Bracketed (callsOf past) := by
  have executed : (execute .single (List.replicate 10 (answer 0) ++
      List.replicate 8 (answer 157) ++ List.replicate 8 (answer 1387) ++
      List.replicate 8 (answer 11386) ++ List.replicate 6 (answer 100)) (initial .single)).map
        (fun ended => callsOf ended.1) =
      some ((brackets [1, 7007, 5557102, 536870912]) ++ [(.initializeF, 0)]) := by
    decide +kernel
  obtain ⟨⟨past, c⟩, ended, calls⟩ := Option.map_eq_some_iff.mp executed
  refine ⟨past, c, by simpa using run_of_execute .nil ended, ?_⟩
  rw [calls, brackets, List.cons_append]
  intro ordered
  -- the last call has count zero, and is no `cleanup`
  rcases ordered.tail_cases (List.mem_append_right _ (List.mem_singleton.mpr rfl)) with
    positive | last
  · exact absurd positive (by decide)
  · exact absurd last (by decide)

end Lmbench.Benchmp
