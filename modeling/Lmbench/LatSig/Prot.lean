import Lmbench.Benchmp.Bracketing

/-!
# Protection faults as a benchmark

`lat_sig prot` writes to a page that it may only read. Its benchmark `do_prot` does not return:
the handler of the fault counts, and where the count is reached it calls `benchmp_interval`
itself, for the end of this interval and the begin of the next. The write is tried again behind
each call of the handler, and faults again.

To the timing library this is a child that calls `benchmark(k)` in a loop, as every child does:
what happens in the system here is what happens there, with `k` faults for `benchmark(k)`.

## Main results

* `bounded_move` - the counts of a child fit in the `uint64` that the handler keeps them in
* `faults_of_run` - the system refines a child of `benchmp`
-/

namespace Lmbench.LatSig

open Lib Benchmp

/-- A child with the variables `n` and `caught`. `entered` is set once `do_prot` was called. -/
structure Prot where
  child : Child
  entered : Bool
  n : ℕ
  caught : ℕ
deriving DecidableEq

/-- What can be seen of a step. -/
inductive Label
  | child (e : Event)
  | doProt
  | fault
deriving DecidableEq

/-- A child that is about to call `initialize(0)`. -/
def Prot.initial (p : Params) : Prot := ⟨Benchmp.initial p, false, 0, 0⟩

/-- A step of the library's code, or of the benchmark's. No signal reaches the child but those of
its own write. -/
inductive Prot.Step (p : Params) : Prot → Label → Prot → Prop
  /-- the library runs, and the handler keeps what `benchmp_interval` returns -/
  | child {s : Prot} {e : Event} {c : Child} : (∀ k, s.child.pc ≠ .running k) →
      QuietStep p s.child e c →
      Step p s (.child e)
        { s with
          child := c
          n := match c.pc with
            | .running k => if s.entered then k else s.n
            | _ => s.n }
  /-- `do_prot`, up to the write. Its `start(0)`, which reads the clock once more, is left out -/
  | doProt {s : Prot} {k : ℕ} : s.child.pc = .running k → s.entered = false →
      Step p s .doProt { s with entered := true, n := k, caught := 0 }
  /-- `++caught` is not `n` -/
  | fault {s : Prot} {k : ℕ} : s.child.pc = .running k → s.entered = true →
      (s.caught + 1) % 2 ^ 64 ≠ s.n →
      Step p s .fault { s with caught := (s.caught + 1) % 2 ^ 64 }
  /-- `++caught` is `n` -/
  | lastFault {s : Prot} {k : ℕ} : s.child.pc = .running k → s.entered = true →
      (s.caught + 1) % 2 ^ 64 = s.n →
      Step p s .fault { s with caught := 0, child := { s.child with pc := .interval } }

/-- The faults that the handler counts up to a number. -/
def faultsOf (k : ℕ) : ℕ := if k = 0 then 2 ^ 64 else k

/-- What an interaction of a child is here. -/
def expand : Event → List Label
  | .call .benchmark k _ => List.replicate (faultsOf k) .fault
  | e => [.child e]

/-- All but the call of `do_prot`. -/
def visible (past : List Label) : List Label := past.filter (· ≠ .doProt)

section Counts

variable {p : Params} {c c' : Child} {e : Event}

/-- The count of a child is a word. -/
structure Bounded (p : Params) (c : Child) : Prop where
  placed : c.Placed p
  quiet : c.sigtermReceived = false
  iterations : c.iterations < 2 ^ 64

theorem convert_lt (x : ℚ) (wild : ℕ) : convert p x wild < p.dm.iterSpan := by
  have span : 0 < p.dm.iterSpan := Nat.two_pow_pos _
  unfold convert DataModel.toIter?
  split_ifs with fits
  · rw [Option.getD_some]
    have below : ⌊x⌋ < (p.dm.iterSpan : ℤ) := Int.floor_lt.mpr (by exact_mod_cast fits.2)
    omega
  · exact Nat.mod_lt _ span

theorem retune_lt (narrow : p.dm.iterSpan ≤ 2 ^ 64) (word : c.iterations < 2 ^ 64) (result : ℚ)
    (wild : ℕ) : (c.retune p result wild).iterations < 2 ^ 64 := by
  unfold Child.retune
  split_ifs
  · exact (convert_lt _ _).trans_le narrow
  · exact (Nat.mod_lt _ (Nat.two_pow_pos _)).trans_le narrow
  · exact word

/-- The counts of a child stay in a word. -/
theorem bounded_move (narrow : p.dm.iterSpan ≤ 2 ^ 64) (bounded : Bounded p c)
    (move : Move p c e c') : Bounded p c' where
  placed := placed_move bounded.placed move
  quiet := quiet_move bounded.quiet move
  iterations := by
    have word := bounded.iterations
    cases move with
    | armReceived here received => simp [bounded.quiet] at received
    | record => exact word
    | keepTiming here wild going => exact retune_lt narrow word _ wild
    | coolDown here wild cooling => exact retune_lt narrow word _ wild
    | _ => exact word

theorem count_lt (batch : p.iterationsBatch < 2 ^ 64) (bounded : Bounded p c) :
    c.count p < 2 ^ 64 := by
  unfold Child.count
  split
  · exact bounded.iterations
  · exact batch

end Counts

section Refinement

variable {p : Params} {s s' : Prot} {l : Label} {past : List Label}

/-- The count that the handler compares with is the one that `benchmp_interval` returned, and it
has not been passed. -/
structure Counting (p : Params) (s : Prot) : Prop where
  bounded : Bounded p s.child
  running : ∀ k, s.child.pc = .running k → s.entered = true → s.n = k ∧ s.caught < faultsOf k
  otherwise : (∀ k, s.child.pc ≠ .running k) ∨ s.entered = false → s.caught = 0

theorem faultsOf_pos (k : ℕ) : 0 < faultsOf k := by
  unfold faultsOf
  split_ifs <;> omega

/-- The handler ends the interval at the last of its faults. -/
theorem caught_eq_iff {k caught : ℕ} (word : k < 2 ^ 64) (before : caught < faultsOf k) :
    (caught + 1) % 2 ^ 64 = k ↔ caught + 1 = faultsOf k := by
  unfold faultsOf at before ⊢
  split_ifs at before ⊢ with zero <;> omega

theorem counting_initial (words : p.iterations < 2 ^ 64) : Counting p (.initial p) where
  bounded := ⟨placed_initial p, rfl, words⟩
  running := by
    intro k here
    cases here
  otherwise _ := rfl

theorem counting_step (narrow : p.dm.iterSpan ≤ 2 ^ 64) (batch : p.iterationsBatch < 2 ^ 64)
    (counting : Counting p s) (step : Prot.Step p s l s') : Counting p s' := by
  obtain ⟨bounded, running, otherwise⟩ := counting
  cases step with
  | @child e c idle quiet =>
    have none_yet := otherwise (.inl idle)
    refine ⟨bounded_move narrow bounded quiet.move, ?_, fun _ => none_yet⟩
    intro k here entered
    have here' : c.pc = .running k := here
    have entered' : s.entered = true := entered
    refine ⟨?_, none_yet ▸ faultsOf_pos k⟩
    simp only [here', entered', if_true]
  | @doProt k here outside =>
    refine ⟨bounded, ?_, fun _ => rfl⟩
    intro k' here' _
    rw [here] at here'
    cases here'
    exact ⟨rfl, faultsOf_pos k⟩
  | @fault k here entered more =>
    obtain ⟨same, before⟩ := running k here entered
    have placed := bounded.placed
    simp only [Child.Placed, here] at placed
    have word : k < 2 ^ 64 := placed.1 ▸ count_lt batch bounded
    rw [same] at more
    have not_last := (caught_eq_iff word before).not.mp more
    refine ⟨bounded, ?_, ?_⟩
    · intro k' here' _
      rw [here] at here'
      cases here'
      refine ⟨same, ?_⟩
      have most : (s.caught + 1) % 2 ^ 64 ≤ s.caught + 1 := Nat.mod_le _ _
      show (s.caught + 1) % 2 ^ 64 < faultsOf k
      omega
    · rintro (idle | outside)
      · exact absurd here (idle k)
      · cases entered.symm.trans outside
  | @lastFault k here entered last =>
    refine ⟨⟨?_, bounded.quiet, bounded.iterations⟩, ?_, fun _ => rfl⟩
    · have placed := bounded.placed
      simp only [Child.Placed, here] at placed
      simp [Child.Placed, placed.2]
    · intro k' here'
      cases here'

/-- What a fault does to the count. -/
theorem caught_of_fault {k : ℕ} (word : k < 2 ^ 64) (before : s.caught < faultsOf k)
    (more : (s.caught + 1) % 2 ^ 64 ≠ k) : (s.caught + 1) % 2 ^ 64 = s.caught + 1 := by
  unfold faultsOf at before
  split_ifs at before with zero
  · subst zero
    apply Nat.mod_eq_of_lt
    by_contra wraps
    have all : s.caught + 1 = 2 ^ 64 := by omega
    rw [all] at more
    exact more rfl
  · exact Nat.mod_eq_of_lt (by omega)

/-- The run of a child that a run of the system stands for. -/
structure Refines (p : Params) (past : List Label) (s : Prot) (past' : List Event) : Prop where
  run : Run (QuietStep p) (Benchmp.initial p) past' s.child
  trace : visible past = past'.flatMap expand ++ List.replicate s.caught .fault

theorem visible_snoc (past : List Label) (l : Label) :
    visible (past ++ [l]) = visible past ++ visible [l] := List.filter_append ..

/-- A step of a child outside of the benchmark is no call of it. -/
theorem expand_of_idle {c c' : Child} {e : Event} (idle : ∀ k, c.pc ≠ .running k)
    (move : Move p c e c') : expand e = [.child e] := by
  have callIf_expand : ∀ present k, expand (callIf p present .initializeF k) =
      [.child (callIf p present .initializeF k)] := by
    intro present k
    cases present <;> rfl
  have callIf_expand' : ∀ present k, expand (callIf p present .cleanup k) =
      [.child (callIf p present .cleanup k)] := by
    intro present k
    cases present <;> rfl
  cases move with
  | run here => exact absurd here (idle _)
  | enter => exact callIf_expand _ _
  | begin => exact callIf_expand _ _
  | account => exact callIf_expand' _ _
  | finish => exact callIf_expand' _ _
  | _ => rfl

theorem refines_step (batch : p.iterationsBatch < 2 ^ 64) {past' : List Event}
    (counting : Counting p s) (refines : Refines p past s past') (step : Prot.Step p s l s') :
    ∃ past', Refines p (past ++ [l]) s' past' := by
  obtain ⟨run, trace⟩ := refines
  obtain ⟨bounded, running, otherwise⟩ := counting
  cases step with
  | @child e c idle quiet =>
    have none_yet := otherwise (.inl idle)
    refine ⟨past' ++ [e], run.snoc quiet, ?_⟩
    rw [visible_snoc, trace, none_yet, List.flatMap_append, List.flatMap_singleton,
      expand_of_idle idle quiet.move]
    simp [visible]
  | @doProt k here outside =>
    have none_yet := otherwise (.inr outside)
    refine ⟨past', run, ?_⟩
    rw [visible_snoc, trace, none_yet]
    simp [visible]
  | @fault k here entered more =>
    obtain ⟨same, before⟩ := running k here entered
    have placed := bounded.placed
    simp only [Child.Placed, here] at placed
    have word : k < 2 ^ 64 := placed.1 ▸ count_lt batch bounded
    refine ⟨past', run, ?_⟩
    rw [visible_snoc, trace]
    dsimp only
    rw [caught_of_fault word before (same ▸ more), List.replicate_succ', List.append_assoc]
    rfl
  | @lastFault k here entered last =>
    obtain ⟨same, before⟩ := running k here entered
    have placed := bounded.placed
    simp only [Child.Placed, here] at placed
    have word : k < 2 ^ 64 := placed.1 ▸ count_lt batch bounded
    have all := (caught_eq_iff word before).mp (same ▸ last)
    have called : QuietStep p s.child (.call .benchmark k p.cookie)
        { s.child with pc := .interval } := by
      refine ⟨answer 0, ?_⟩
      simp [advance, here]
    -- with this fault the faults of the interval are those of one call of the benchmark
    refine ⟨past' ++ [.call .benchmark k p.cookie], run.snoc called, ?_⟩
    rw [visible_snoc, trace, List.flatMap_append, List.flatMap_singleton, expand, ← all,
      List.replicate_succ', List.append_assoc]
    simp [visible]

/-- **`lat_sig prot` is a child of `benchmp` whose `benchmark(k)` is `k` faults**, in every run
without signals; with a count of zero the handler would count through all of its `uint64`. -/
theorem faults_of_run (narrow : p.dm.iterSpan ≤ 2 ^ 64) (words : p.iterations < 2 ^ 64)
    (batch : p.n < 2 ^ 64) (run : Run (Prot.Step p) (.initial p) past s) :
    ∃ past', Run (QuietStep p) (Benchmp.initial p) past' s.child ∧
      visible past = past'.flatMap expand ++ List.replicate s.caught .fault ∧
      ∀ k, s.child.pc = .running k → s.entered = true → s.caught < faultsOf k := by
  have batched : p.iterationsBatch < 2 ^ 64 := by
    unfold Params.iterationsBatch
    split <;> omega
  have followed : Counting p s ∧ ∃ past', Refines p past s past' := by
    apply run.invariant_history
    · exact ⟨counting_initial words, [], .nil, rfl⟩
    · rintro past s l s' - ⟨counting, past', refines⟩ step
      exact ⟨counting_step narrow batched counting step,
        refines_step batched counting refines step⟩
  obtain ⟨counting, past', refines⟩ := followed
  exact ⟨past', refines.run, refines.trace, fun k here entered =>
    (counting.running k here entered).2⟩

/-- A child on the 32-bit data model, up to its first fault, which ends the interval. -/
theorem faults_of_run_first : ∃ (past : List Label) (s : Prot) (past' : List Event),
    visible past = (past'.flatMap expand ++ List.replicate s.caught .fault) ∧
      s.child.pc = .interval ∧ .fault ∈ past := by
  let p : Params := { Params.single with hasCleanup := false }
  have run : Run (Prot.Step p) (.initial p) _ _ :=
    ((((((((((Run.nil.snoc
      (.child (by intro k here; cases here) ⟨answer 0, rfl⟩)).snoc
      (.child (by intro k here; cases here) ⟨answer 0, rfl⟩)).snoc
      (.child (by intro k here; cases here) ⟨answer 0, rfl⟩)).snoc
      (.child (by intro k here; cases here) ⟨answer 0, rfl⟩)).snoc
      (.child (by intro k here; cases here) ⟨answer 0, rfl⟩)).snoc
      (.child (by intro k here; cases here) ⟨answer 0, rfl⟩)).snoc
      (.child (by intro k here; cases here) ⟨answer 0, rfl⟩)).snoc
      (.child (by intro k here; cases here) ⟨answer 0, rfl⟩)).snoc
      (.child (by intro k here; cases here) ⟨answer 0, rfl⟩)).snoc (.doProt rfl rfl)).snoc
      (.lastFault rfl rfl rfl)
  obtain ⟨past', -, trace, -⟩ := faults_of_run (by decide) (by decide) (by decide) run
  exact ⟨_, _, past', trace, rfl, by simp⟩

end Refinement

end Lmbench.LatSig
