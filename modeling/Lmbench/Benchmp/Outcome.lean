import Lmbench.Timing.Results

/-!
# What a call of `benchmp` leaves behind

`benchmp` reports through globals: the registers behind `gettime` and `get_n`,
and the set that `results` points to. Only its last statement, `set_results`,
touches the set. The registers are cleared at the start, so a call that fails
reports no time; but the set stays that of an earlier call, or of the baseline
run with one child, and a later `save_minimum` or `save_median` reports it.

## Main results

* `benchmp_failed_iff` - a failed call reports nothing if and only if no set with
  an entry was there before
* `benchmp_failed_stale` - a baseline run whose set survives a failed `fork`
-/

namespace Lmbench.Benchmp

/-- The answer to one `fork`, which is not made after a SIGTERM. -/
inductive Fork
  | sigterm
  | failed
  | created
deriving DecidableEq, Repr

/-- What happens to `benchmp_parent`: whether a signal came before it, its three
allocations succeed, all 'ready' and all 'done' bytes arrive, and the records it
reads, where `none` is a record cut off by a signal or a failing read. -/
structure ParentRun where
  received : Bool
  memory : Bool
  ready : Bool
  done : Bool
  records : List (Option ResultT)
  uint64 : ∀ r, some r ∈ records → ∀ x ∈ r.v, x.u < 2 ^ 64

/-- What happens to `benchmp` once it creates its pipes. -/
structure Attempt where
  pipes : Bool
  pids : Bool
  forks : List Fork
  parent : ParentRun

/-- One call of `benchmp`; `baseline` is what happens to the call it makes itself,
with one child, when there are several. -/
structure Invocation where
  parallel : ℕ
  baseline : Attempt
  own : Attempt

/-- How a call ends: before or behind its `set_results`. -/
inductive Exit
  | failed
  | installed
deriving DecidableEq, Repr

/-- The loop that collects the records of the children. -/
def collectResults : List (Option ResultT) → ResultT → Option ResultT
  | [], merged => some merged
  | none :: _, _ => none
  -- entries of time zero are dropped on the way
  | some results :: rest, merged => collectResults rest (insertAll results.v merged)

/-- `benchmp_parent`. -/
def benchmpParent (parent : ParentRun) (g : Globals) : Exit × Globals :=
  if parent.received then (.failed, g)
  else if !parent.memory then (.failed, g)
  else if !parent.ready then (.failed, g)
  else if !parent.done then (.failed, g)
  else
    match collectResults parent.records insertinit with
    | none => (.failed, g)
    | some merged => (.installed, g.setResults merged)

/-- `benchmp` from the creation of the pipes on. -/
def benchmpControl (attempt : Attempt) (g : Globals) : Exit × Globals :=
  if !attempt.pipes then (.failed, g)
  else if !attempt.pids then (.failed, g)
  else if attempt.forks.all (· = .created) then benchmpParent attempt.parent g
  else (.failed, g)

/-- `benchmp`. Its recursive call, with one child, clears the registers again and
goes straight to the pipes. -/
def benchmp (call : Invocation) (g : Globals) : Exit × Globals :=
  let g := g.report 0 1
  if 1 < call.parallel then
    -- the outcome of the baseline run is known by its time only
    let g := (benchmpControl call.baseline (g.report 0 1)).2
    if g.regs.gettime = 0 then (.failed, g)
    else benchmpControl call.own (g.report 0 1)
  else benchmpControl call.own g

/-- The globals after a history of calls. -/
def after (history : List Invocation) : Globals :=
  history.foldl (fun g call => (benchmp call g).2) .initial

/-! ### The sets that calls install -/

/-- The attempt reaches `set_results`. -/
def Attempt.Completes (attempt : Attempt) : Prop :=
  attempt.pipes = true ∧ attempt.pids = true ∧ (∀ fork ∈ attempt.forks, fork = .created) ∧
    attempt.parent.received = false ∧ attempt.parent.memory = true ∧
    attempt.parent.ready = true ∧ attempt.parent.done = true ∧
    ∀ record ∈ attempt.parent.records, record ≠ none

/-- A child reported a measurement of nonzero time. -/
def Attempt.Measured (attempt : Attempt) : Prop :=
  ∃ r, some r ∈ attempt.parent.records ∧ ∃ x ∈ r.v, x.u ≠ 0

/-- No entry has time zero, and all times are `uint64`. -/
def Sound (r : ResultT) : Prop := r.Positive ∧ ∀ x ∈ r.v, x.u < 2 ^ 64

theorem mem_insertAll {entries : List ValueT} {merged : ResultT} {x : ValueT} :
    x ∈ (insertAll entries merged).v ↔ (x ∈ entries ∧ x.u ≠ 0) ∨ x ∈ merged.v := by
  induction entries generalizing merged with
  | nil => simp [insertAll]
  | cons y rest ih =>
    have step : x ∈ (insertsort y.u y.n merged).v ↔ (x = y ∧ x.u ≠ 0) ∨ x ∈ merged.v := by
      unfold insertsort
      split
      · rename_i zero
        constructor
        · exact .inr
        · rintro (⟨rfl, nonzero⟩ | old)
          · exact absurd zero nonzero
          · exact old
      · rename_i nonzero
        rw [(insertEntry_perm _ _).mem_iff, List.mem_cons]
        constructor
        · rintro (rfl | old)
          · exact .inl ⟨rfl, nonzero⟩
          · exact .inr old
        · rintro (⟨rfl, _⟩ | old)
          · exact .inl rfl
          · exact .inr old
    have unfolded : insertAll (y :: rest) merged = insertAll rest (insertsort y.u y.n merged) := rfl
    rw [unfolded, ih, step, List.mem_cons]
    tauto

/-- The merged set has the entries of all records, except those of time zero. -/
theorem mem_collectResults {records : List (Option ResultT)} {merged r : ResultT} {x : ValueT}
    (collected : collectResults records merged = some r) :
    x ∈ r.v ↔ (∃ s, some s ∈ records ∧ x ∈ s.v ∧ x.u ≠ 0) ∨ x ∈ merged.v := by
  induction records generalizing merged with
  | nil =>
    obtain rfl := Option.some.inj collected
    simp
  | cons record rest ih =>
    cases record with
    | none => cases collected
    | some s =>
      rw [ih collected, mem_insertAll]
      simp only [List.mem_cons, Option.some.injEq, or_and_right, exists_or, exists_eq_left]
      rw [← or_assoc, or_comm (b := x ∈ s.v ∧ x.u ≠ 0)]

theorem collectResults_isSome_iff (records : List (Option ResultT)) (merged : ResultT) :
    (collectResults records merged).isSome ↔ ∀ record ∈ records, record ≠ none := by
  induction records generalizing merged with
  | nil => simp [collectResults]
  | cons record rest ih =>
    cases record with
    | none => simp [collectResults]
    | some s => simpa [collectResults] using ih (insertAll s.v merged)

section Collected

variable {attempt : Attempt} {merged : ResultT}
  (collected : collectResults attempt.parent.records insertinit = some merged)
include collected

/-- What the parent has merged when all records have come. -/
theorem mem_collected {x : ValueT} :
    x ∈ merged.v ↔ ∃ s, some s ∈ attempt.parent.records ∧ x ∈ s.v ∧ x.u ≠ 0 := by
  simpa [insertinit] using mem_collectResults (x := x) collected

theorem sound_of_collected : Sound merged := by
  constructor
  · intro x member
    obtain ⟨s, _, _, nonzero⟩ := (mem_collected collected).mp member
    exact nonzero
  · intro x member
    obtain ⟨s, record, inside, _⟩ := (mem_collected collected).mp member
    exact attempt.parent.uint64 s record x inside

theorem measured_iff_of_collected : merged.N ≠ 0 ↔ attempt.Measured := by
  rw [ResultT.N, ← Nat.pos_iff_ne_zero, List.length_pos_iff_exists_mem]
  constructor
  · rintro ⟨x, member⟩
    obtain ⟨s, record, inside, nonzero⟩ := (mem_collected collected).mp member
    exact ⟨s, record, x, inside, nonzero⟩
  · rintro ⟨s, record, x, inside, nonzero⟩
    exact ⟨x, (mem_collected collected).mpr ⟨s, record, inside, nonzero⟩⟩

end Collected

/-- An attempt leaves the globals alone, or it completes and installs a set that
has an entry exactly if a child measured something. -/
theorem benchmpControl_cases (attempt : Attempt) (g : Globals) :
    (¬attempt.Completes ∧ benchmpControl attempt g = (.failed, g)) ∨
      ∃ merged, attempt.Completes ∧ benchmpControl attempt g = (.installed, g.setResults merged) ∧
        Sound merged ∧ (merged.N ≠ 0 ↔ attempt.Measured) := by
  by_cases completes : attempt.Completes
  · obtain ⟨pipes, pids, forks, received, memory, ready, done, records⟩ := completes
    obtain ⟨merged, collected⟩ := Option.isSome_iff_exists.mp
      ((collectResults_isSome_iff _ insertinit).mpr records)
    have all : attempt.forks.all (· = .created) = true := by simpa using forks
    refine .inr ⟨merged, ⟨pipes, pids, forks, received, memory, ready, done, records⟩, ?_,
      sound_of_collected collected, measured_iff_of_collected collected⟩
    simp [benchmpControl, benchmpParent, pipes, pids, all, received, memory, ready, done,
      collected]
  · refine .inl ⟨completes, ?_⟩
    -- every failing exit leaves `g`, and the one that is left over would complete
    unfold benchmpControl benchmpParent
    split_ifs with pipes pids forks received memory ready done
    · rfl
    · rfl
    · rfl
    · rfl
    · rfl
    · rfl
    · split
      · rfl
      · rename_i merged collected
        refine absurd ⟨?_, ?_, ?_, ?_, ?_, ?_, ?_, ?_⟩ completes
        · simpa using pipes
        · simpa using pids
        · simpa using forks
        · simpa using received
        · simpa using memory
        · simpa using ready
        · simpa using done
        · exact (collectResults_isSome_iff _ _).mp (Option.isSome_iff_exists.mpr ⟨_, collected⟩)
    · rfl

theorem sound_benchmpControl {g : Globals} (sound : Sound g.results) (attempt : Attempt) :
    Sound (benchmpControl attempt g).2.results := by
  rcases benchmpControl_cases attempt g with ⟨_, same⟩ | ⟨merged, _, same, merging, _⟩
  · rw [same]
    exact sound
  · rw [same, Globals.results_setResults]
    exact merging

theorem sound_benchmp {g : Globals} (sound : Sound g.results) (call : Invocation) :
    Sound (benchmp call g).2.results := by
  unfold benchmp
  dsimp only
  have baseline : Sound (benchmpControl call.baseline ((g.report 0 1).report 0 1)).2.results :=
    sound_benchmpControl (g := (g.report 0 1).report 0 1) sound call.baseline
  split_ifs
  · exact baseline
  · exact sound_benchmpControl (by exact baseline) call.own
  · exact sound_benchmpControl (by exact sound) call.own

theorem sound_after (history : List Invocation) : Sound (after history).results := by
  have start : Sound Globals.initial.results := ⟨.insertinit, by simp [Globals.initial, insertinit]⟩
  unfold after
  generalize Globals.initial = g at start
  induction history generalizing g with
  | nil => exact start
  | cons call rest ih => exact ih _ (sound_benchmp start call)

/-! ### Failing calls -/

/-- `gettime` and `get_n` read as after a benchmark without result. -/
def NoResult (g : Globals) : Prop := g.regs.gettime = 0 ∧ g.regs.getN = 1

/-- Nothing of an earlier measurement can be read, neither at once nor behind
`save_minimum` or `save_median`. -/
def LeavesNothing (g : Globals) : Prop :=
  NoResult g ∧ NoResult g.saveMinimum ∧ NoResult g.saveMedian

/-- The set that `results` points to when the call begins, or the one that its
baseline run installs, has an entry. -/
def Stale (call : Invocation) (g : Globals) : Prop :=
  (1 < call.parallel ∧ call.baseline.Completes ∧ call.baseline.Measured) ∨
    (¬(1 < call.parallel ∧ call.baseline.Completes) ∧ g.results.N ≠ 0)

theorem noResult_report (g : Globals) : NoResult (g.report 0 1) :=
  ⟨Globals.gettime_report g 0 1, rfl⟩

/-- What can be read depends on whether the set is empty. -/
theorem leavesNothing_iff {g : Globals} (sound : Sound g.results)
    (cleared : g.results.N = 0 → NoResult g) : LeavesNothing g ↔ g.results.N = 0 := by
  constructor
  · rintro ⟨_, ⟨time, _⟩, _⟩
    by_contra nonempty
    exact Globals.gettime_saveMinimum_ne_zero nonempty sound.1 sound.2 time
  · intro empty
    refine ⟨cleared empty, ?_, ?_⟩
    · rw [Globals.saveMinimum_empty empty]
      exact noResult_report g
    · rw [Globals.saveMedian_empty empty]
      exact noResult_report g

theorem failed_benchmpControl {attempt : Attempt} {g : Globals}
    (failed : (benchmpControl attempt g).1 = .failed) :
    benchmpControl attempt g = (.failed, g) := by
  rcases benchmpControl_cases attempt g with ⟨_, same⟩ | ⟨merged, _, same, _⟩
  · exact same
  · rw [same] at failed
    cases failed

/-- **Stale results.** A call that fails, after any history of calls, leaves nothing
of an earlier measurement if and only if there was no set with an entry: neither
the one of the last call that completed, nor the one of its own baseline run. -/
theorem benchmp_failed_iff (history : List Invocation) (call : Invocation)
    (failed : (benchmp call (after history)).1 = .failed) :
    LeavesNothing (benchmp call (after history)).2 ↔ ¬Stale call (after history) := by
  have sound := sound_after history
  generalize after history = g at sound failed
  by_cases several : 1 < call.parallel
  · rcases benchmpControl_cases call.baseline ((g.report 0 1).report 0 1) with
      ⟨incomplete, baseline⟩ | ⟨merged, complete, baseline, merging, measured⟩
    · -- the registers are clear, so the call gives up
      have final : benchmp call g = (.failed, (g.report 0 1).report 0 1) := by
        have silent := (noResult_report (g.report 0 1)).1
        simp only [benchmp, several, baseline, silent, if_true]
      rw [final, leavesNothing_iff (g := (g.report 0 1).report 0 1) sound fun _ =>
        noResult_report _]
      simp [Stale, incomplete]
    · -- from here on `results` points to the set of the baseline run
      have final : (benchmp call g).2.results = merged ∧
          (merged.N = 0 → NoResult (benchmp call g).2) := by
        simp only [benchmp, several, baseline, if_true] at failed ⊢
        split_ifs at failed ⊢ with silent
        · refine ⟨Globals.results_setResults _ _, fun empty => ?_⟩
          rw [Globals.setResults, Globals.saveMedian_empty empty]
          exact noResult_report _
        · rw [failed_benchmpControl failed]
          exact ⟨Globals.results_setResults _ _, fun _ => noResult_report _⟩
      rw [leavesNothing_iff (by rw [final.1]; exact merging) (by rw [final.1]; exact final.2),
        final.1]
      simp [Stale, several, complete, ← measured]
  · -- with one child nothing is installed in between
    have control : benchmp call g = benchmpControl call.own (g.report 0 1) := by
      simp only [benchmp, several, if_false]
    rw [control] at failed ⊢
    rw [failed_benchmpControl failed, leavesNothing_iff (g := g.report 0 1) sound fun _ =>
      noResult_report g]
    simp [Stale, several]

/-- A single child whose one measurement is a second for `n` iterations. -/
def Attempt.measuring (n : ℕ) : Attempt where
  pipes := true
  pids := true
  forks := [.created]
  parent :=
    { received := false
      memory := true
      ready := true
      done := true
      records := [some ⟨[⟨1000000, n⟩]⟩]
      uint64 := by simp }

/-- Two children are asked for, and the second `fork` fails. -/
def Invocation.forkFails : Invocation where
  parallel := 2
  baseline := .measuring 7
  own := { Attempt.measuring 7 with forks := [.created, .failed] }

/-- Behind a measurement, the pipes cannot be created: `save_minimum` finds that measurement. -/
theorem benchmp_failed_iff_behind :
    ¬LeavesNothing (benchmp ⟨1, .measuring 7, { Attempt.measuring 7 with pipes := false }⟩
      (after [⟨1, .measuring 7, .measuring 7⟩])).2 := by
  rw [benchmp_failed_iff [⟨1, .measuring 7, .measuring 7⟩]
    ⟨1, .measuring 7, { Attempt.measuring 7 with pipes := false }⟩ rfl, not_not]
  exact .inr ⟨fun several => absurd several.1 (by decide), by decide⟩

/-- **The slip.** When the second `fork` fails, `gettime` and `get_n` are those of no
result, but `save_minimum` reports the second and the 7 iterations of the baseline
run. -/
theorem benchmp_failed_stale :
    (benchmp .forkFails (after [])).1 = .failed ∧
      (benchmp .forkFails (after [])).2.saveMinimum.regs.gettime = 1000000 ∧
      ¬LeavesNothing (benchmp .forkFails (after [])).2 := by
  have time : (benchmp .forkFails (after [])).2.saveMinimum.regs.gettime = 1000000 := by decide
  refine ⟨by decide, time, ?_⟩
  rintro ⟨_, ⟨cleared, _⟩, _⟩
  rw [time] at cleared
  cases cleared

end Lmbench.Benchmp
