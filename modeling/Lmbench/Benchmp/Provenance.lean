import Lmbench.Benchmp.FixedLoad
import Lmbench.Timing.Median
import Mathlib.Data.List.GetD

/-!
# Where the installed results come from

What the parent installs has gone through a result set of a child, a pipe and the merge
loop. Here it is traced back to the readings of the clock: in a run of the whole system
the installed set has one entry for each measurement that some child recorded with a time
other than zero, and each of these was taken in an interval that began when all children
had said 'ready' and ended before any was asked for its results.

## Main definitions

* `eventsOf` - what one child does in a run of the system
* `insertionsOf` - what is passed to `insertsort`
* `Measured` - an entry that goes back to an interval under full load

## Main results

* `childRun` - in a run of the system each child makes a run of its own
* `installed_genuine` - the installed set is what was measured
-/

namespace Lmbench.Benchmp

open Lib

/-- The events of one child. -/
def eventsOf {ι : Type} [DecidableEq ι] (c : ι) (past : List (Label ι)) : List Event :=
  past.filterMap fun
    | .parent _ => none
    | .child d e => if d = c then some e else none

/-- The entries that calls of `insertsort` add. -/
def insertionsOf (events : List Event) : List ValueT :=
  events.filterMap fun
    | .insert u n => if u = 0 then none else some ⟨u, n⟩
    | _ => none

/-- What a child has recorded, and that it is past its warmup behind a start signal. -/
structure Recorded (past : List Event) (c : Child) : Prop where
  entries : (c.r.v : Multiset ValueT) = (insertionsOf past : Multiset ValueT)
  started : .readStart ∈ past → c.state ≠ .warmup

section Child

variable {p : Params} {c c' : Child} {e : Event} {past : List Event}

theorem insertionsOf_snoc (past : List Event) (e : Event) :
    insertionsOf (past ++ [e]) = insertionsOf past ++ insertionsOf [e] := List.filterMap_append

/-- The result set changes where a measurement is recorded, and only there. -/
theorem r_move_cases (move : Move p c e c') :
    (e = .insert c.savedTime c.savedN ∧ c'.r = insertsort c.savedTime c.savedN c.r) ∨
      (insertionsOf [e] = [] ∧ c'.r = c.r) := by
  cases move with
  | record here timing enough => exact .inl ⟨rfl, rfl⟩
  | armReceived here received =>
    refine .inr ⟨rfl, ?_⟩
    unfold Child.enterSigterm
    split <;> rfl
  | keepTiming | coolDown => exact .inr ⟨rfl, c.retune_r _ _⟩
  | enter | account | finish | begin =>
    refine .inr ⟨?_, rfl⟩
    unfold callIf
    split <;> rfl
  | _ => exact .inr ⟨rfl, rfl⟩

/-- A start signal is read behind the warmup, and there is no way back. -/
theorem started_move (placed : c.Placed p) (move : Move p c e c') :
    (e = .readStart → c'.state ≠ .warmup) ∧ (c.state ≠ .warmup → c'.state ≠ .warmup) := by
  cases move with
  | takeStart here =>
    simp only [Child.Placed, here] at placed
    simp [placed]
  | startReady here warming => simp
  | record here timing enough =>
    rcases c.record_state (p := p) with same | cooled
    · simp [same, timing]
    · simp [cooled]
  | @keepTiming result here wild going =>
    obtain ⟨iterations, state, same, kept⟩ := c.retune_cases (p := p) result wild
    rw [same]
    rcases kept with rfl | rfl <;> simp
  | @coolDown result here wild cooling => simp [cooling]
  | armReceived here received =>
    unfold Child.enterSigterm
    split <;> simp [Child.armSigterm]
  | enter | account | finish | begin =>
    refine ⟨?_, id⟩
    unfold callIf
    split <;> simp
  | _ => exact ⟨by simp, id⟩

theorem recorded_move (placed : c.Placed p) (recorded : Recorded past c) (move : Move p c e c') :
    Recorded (past ++ [e]) c' where
  entries := by
    rw [insertionsOf_snoc, ← Multiset.coe_add, ← recorded.entries]
    rcases r_move_cases move with ⟨rfl, filed⟩ | ⟨silent, kept⟩
    · rw [filed, coe_insertsort]
      split_ifs with zero
      · simp [insertionsOf, zero]
      · have single : insertionsOf [.insert c.savedTime c.savedN] =
            [⟨c.savedTime, c.savedN⟩] := by simp [insertionsOf, zero]
        rw [single, Multiset.coe_singleton, add_comm, Multiset.singleton_add]
    · rw [silent, kept]
      simp
  started := by
    intro mem
    have step := started_move placed move
    rcases List.mem_append.mp mem with before | now
    · exact step.2 (recorded.started before)
    · exact step.1 (List.mem_singleton.mp now).symm

theorem recorded_of_run (run : Run (QuietStep p) (initial p) past c) : Recorded past c := by
  have followed : c.Placed p ∧ Recorded past c := by
    apply run.invariant_history
    · refine ⟨placed_initial p, ⟨rfl, ?_⟩⟩
      intro mem
      cases mem
    · rintro past c e c' - ⟨placed, recorded⟩ step
      exact ⟨placed_move placed step.move, recorded_move placed recorded step.move⟩
  exact followed.2

/-- A recorded measurement is that of the interval just ended. -/
theorem ended_of_insert {u n : ℕ} (run : Run (QuietStep p) (initial p) past c)
    (step : QuietStep p c (.insert u n) c') :
    c.state = .timingInterval ∧ ∃ elapsed, Ended past n elapsed True ∧
      u = p.corrected elapsed n := by
  have own : Run (Step p) (initial p) past c := run.mono fun _ _ _ => .own
  have placed := placed_of_run own
  have attributed := attributed_of_run own
  generalize recorded : Event.insert u n = e at step
  cases step.move with
  | record here timing enough =>
    obtain ⟨rfl, rfl⟩ := by simpa using recorded
    simp only [Child.Placed, Attributed, here] at placed attributed
    obtain ⟨elapsed, ended, count, time⟩ := attributed (Child.warm_of_timing placed timing) timing
    exact ⟨timing, elapsed, count ▸ ended, by rw [time, count]⟩
  | enter | account | finish | begin =>
    unfold callIf at recorded
    split at recorded <;> cases recorded
  | _ => cases recorded

end Child

section System

variable {p : Params} {past : List (Label (Fin p.parallel))} {cfg cfg' : Config p}
  {c : Fin p.parallel} {e : Event} {x : ValueT}

theorem eventsOf_snoc (c : Fin p.parallel) (l : Label (Fin p.parallel)) :
    eventsOf c (past ++ [l]) = eventsOf c past ++ eventsOf c [l] := List.filterMap_append

/-- The parent does nothing to a child but to fork it. -/
theorem view_parentAdvance {k : ℕ} {wild : ResultT} {pe : ParentEvent (Fin p.parallel)}
    (ledger : ParentLedger past cfg) (stepped : parentAdvance p cfg k wild = some (pe, cfg')) :
    cfg'.view = cfg.view := by
  have read : ∀ {limit bytes cfg₁}, cfg.readResponse k limit = some (bytes, cfg₁) →
      cfg₁.child = cfg.child := by
    intro limit bytes cfg₁ got
    obtain ⟨_, _, _, _, response, _, _, rfl⟩ := readResponse_eq_some got
    rfl
  unfold parentAdvance at stepped
  split at stepped <;> rename_i here
  case h_1 i =>
    split at stepped
    · rename_i inside
      obtain ⟨-, rfl⟩ := by simpa using stepped
      exact view_fork ledger here inside _
    · obtain ⟨-, rfl⟩ := by simpa using stepped
      rfl
  case h_2 i | h_4 i | h_6 i =>
    split at stepped
    · obtain ⟨⟨bytes, cfg₁⟩, got, same⟩ := Option.map_eq_some_iff.mp stepped
      obtain ⟨-, rfl⟩ := Prod.mk.inj same
      exact congrArg (fun child c => (child c).getD (initial p)) (read got)
    · obtain ⟨-, rfl⟩ := by simpa using stepped
      rfl
  case h_8 =>
    obtain ⟨-, rfl⟩ := by simpa using stepped
    rfl
  case h_9 => cases stepped
  all_goals
    split at stepped <;> obtain ⟨-, rfl⟩ := by simpa using stepped
    all_goals rfl

/-- **Each child makes a run of its own.** -/
theorem childRun (run : Run (SystemStep p) (Config.initial p) past cfg) (c : Fin p.parallel) :
    Run (QuietStep p) (initial p) (eventsOf c past) (cfg.view c) := by
  apply run.invariant_history
  · exact .nil
  · rintro past cfg l cfg' before own ⟨choice, stepped⟩
    rw [eventsOf_snoc]
    cases choice with
    | parent k wild =>
      obtain ⟨⟨pe, cfg₁⟩, moved, same⟩ := Option.map_eq_some_iff.mp stepped
      obtain ⟨rfl, rfl⟩ := Prod.mk.inj same
      rw [view_parentAdvance (ledger_of_run before).parent moved]
      simpa [eventsOf] using own
    | child d input =>
      obtain ⟨⟨e, cfg₁⟩, moved, same⟩ := Option.map_eq_some_iff.mp stepped
      obtain ⟨rfl, rfl⟩ := Prod.mk.inj same
      obtain ⟨s, s', cfg₂, forked, quiet, performed, rfl⟩ := childAdvance_eq_some moved
      have child := (performs_of_perform performed).child
      by_cases self : d = c
      · subst self
        have here : cfg.view d = s := by simp [Config.view, forked]
        have there : (cfg₂.moveChild d s s').view d = s' := by
          simp [Config.view, Config.moveChild]
        rw [there]
        rw [here] at own
        simpa [eventsOf] using own.snoc quiet
      · have other : (cfg₂.moveChild d s s').view c = cfg.view c := by
          simp [Config.view, Config.moveChild, child, Ne.symm self]
        rw [other]
        simpa [eventsOf, self] using own

/-- Where an event of a child stands in the run of the system. -/
theorem exists_split_eventsOf {before after : List Event}
    (split : eventsOf c past = before ++ e :: after) :
    ∃ front back, past = front ++ .child c e :: back ∧ eventsOf c front = before ∧
      eventsOf c back = after := by
  obtain ⟨front, rest, rfl, same, later⟩ := List.filterMap_eq_append_iff.mp split
  obtain ⟨skipped, l, back, rfl, silent, found, rfl⟩ := List.filterMap_eq_cons_iff.mp later
  cases l with
  | parent pe => cases found
  | child d e' =>
    obtain ⟨rfl, rfl⟩ := by simpa using found
    refine ⟨front ++ skipped, back, by simp, ?_, rfl⟩
    rw [eventsOf, List.filterMap_append, same, List.filterMap_eq_nil_iff.mpr silent,
      List.append_nil]

/-- While a child times, no child has been asked for its results. -/
theorem unserved_of_timing (ledger : Ledger past cfg)
    (timing : (cfg.view c).state = .timingInterval) (d : Fin p.parallel) :
    .child d .readResult ∉ past := by
  intro read
  have served := ledger.served_le_told
  have called := List.length_pos_of_mem (mem_performers_iff.mpr read)
  have told : 0 < cfg.parent.told p.parallel := called.trans_le served
  have late : 4 ≤ cfg.parent.phase := by
    revert told
    cases cfg.parent <;> simp [ParentPc.phase, ParentPc.told]
  have said := (ledger.children.done.mem_iff c).mp (ledger.parent.allDone late c)
  have cooled := (cfg.view c).state_iff_rank.2.mpr (by omega)
  rw [timing] at cooled
  cases cooled

/-- Behind a start signal all children have said 'ready'. -/
theorem ready_of_started (run : Run (SystemStep p) (Config.initial p) past cfg)
    (started : .readStart ∈ eventsOf c past) (d : Fin p.parallel) :
    .child d .writeReady ∈ past := by
  have ledger := ledger_of_run run
  have past_warmup := (recorded_of_run (childRun run c)).started started
  have rank : 1 ≤ (cfg.view c).stage.rank := by
    have warm := mt (cfg.view c).state_iff_rank.1.mpr past_warmup
    omega
  exact mem_performers_iff.mp (ledger.parent.allReady (ledger.parent.started c rank) d)

/-- The entry is the corrected time of an interval of child `c`, recorded behind it. When it
began all children had said 'ready', and none was asked for its results before it was
recorded. -/
def Measured (p : Params) (past : List (Label (Fin p.parallel))) (c : Fin p.parallel)
    (x : ValueT) : Prop :=
  ∃ before during since after elapsed,
    past = before ++ .child c (.start x.n) :: during ++ .child c (.stop elapsed) :: since ++
      .child c (.insert x.u x.n) :: after ∧
    x.u = p.corrected elapsed x.n ∧
    (∀ e ∈ eventsOf c during ++ eventsOf c since, ¬e.Delimits) ∧
    (∀ d, .child d .writeReady ∈ before) ∧
    ∀ d, .child d .readResult ∉ before ++ during ++ since

theorem measured_of_insert {front back : List (Label (Fin p.parallel))}
    (run : Run (SystemStep p) (Config.initial p)
      (front ++ .child c (.insert x.u x.n) :: back) cfg) :
    Measured p (front ++ .child c (.insert x.u x.n) :: back) c x := by
  obtain ⟨cfg₁, cfg₂, prior, choice, stepped⟩ := run.exists_step_of_split
  obtain ⟨s, s', forked, quiet⟩ : ∃ s s', cfg₁.child c = some s ∧
      QuietStep p s (.insert x.u x.n) s' := by
    cases choice with
    | parent k wild =>
      obtain ⟨_, _, same⟩ := Option.map_eq_some_iff.mp stepped
      cases (Prod.mk.inj same).1
    | child d input =>
      obtain ⟨⟨e, cfg₃⟩, moved, same⟩ := Option.map_eq_some_iff.mp stepped
      obtain ⟨label, rfl⟩ := Prod.mk.inj same
      obtain ⟨rfl, rfl⟩ := Label.child.inj label
      obtain ⟨s, s', _, forked, quiet, _, _⟩ := childAdvance_eq_some moved
      exact ⟨s, s', forked, quiet⟩
  have view : cfg₁.view c = s := by simp [Config.view, forked]
  obtain ⟨timing, elapsed, ended, time⟩ := ended_of_insert (view ▸ childRun prior c) quiet
  obtain ⟨early, between, late, whole, apart, took⟩ := ended
  -- the two ends of the interval in the run of the system
  obtain ⟨head, since, rfl, started, rfl⟩ := exists_split_eventsOf whole
  obtain ⟨before, during, rfl, rfl, rfl⟩ := exists_split_eventsOf started
  refine ⟨before, during, since, back, elapsed, by simp, time, apart, ?_, ?_⟩
  · intro d
    have cut : before ++ .child c (.start x.n) :: during ++ .child c (.stop elapsed) :: since =
        before ++ .child c (.start x.n) :: (during ++ .child c (.stop elapsed) :: since) := by simp
    rw [cut] at prior
    obtain ⟨cfg₃, _, begun, _⟩ := prior.exists_step_of_split
    exact ready_of_started begun (took trivial) d
  · intro d read
    apply unserved_of_timing (ledger_of_run prior) (view ▸ timing) d
    simp only [List.mem_append, List.mem_cons] at read ⊢
    tauto

theorem mem_insertionsOf {events : List Event} :
    x ∈ insertionsOf events ↔ x.u ≠ 0 ∧ .insert x.u x.n ∈ events := by
  unfold insertionsOf
  rw [List.mem_filterMap]
  constructor
  · rintro ⟨e, mem, found⟩
    cases e with
    | insert u n =>
      simp only at found
      split_ifs at found with zero
      obtain rfl := Option.some.inj found
      exact ⟨zero, mem⟩
    | _ => cases found
  · rintro ⟨nonzero, mem⟩
    exact ⟨_, mem, by simp [nonzero]⟩

/-- **What is installed is what was measured under load.** In every run, whatever the
interleaving and the pieces that are read: at `set_results` the merged set is, as a multiset,
what all children recorded in the run, and each entry goes back to an interval in which all
children were running. With an odd number of entries the pair that is reported is one of
them, with an even one it is made of the halves of the sums of two, and with none it is no
time. -/
theorem installed_genuine (p : Params) (past : List (Label (Fin p.parallel))) (cfg : Config p)
    (g : Globals) (run : Run (SystemStep p) (Config.initial p) past cfg)
    (here : cfg.parent = .install) :
    (cfg.merged.v : Multiset ValueT) =
        ∑ c, (insertionsOf (eventsOf c past) : Multiset ValueT) ∧
      (∀ x ∈ cfg.merged.v, ∃ c, Measured p past c x) ∧
      (cfg.merged.N = 0 → (g.setResults cfg.merged) = { g with results := cfg.merged }.report 0 1) ∧
      (cfg.merged.N % 2 = 1 → ∃ c x, Measured p past c x ∧
        g.setResults cfg.merged = { g with results := cfg.merged }.report x.u x.n) ∧
      (cfg.merged.N ≠ 0 → cfg.merged.N % 2 = 0 → ∃ c x d y, Measured p past c x ∧
        Measured p past d y ∧ x = cfg.merged.entry (cfg.merged.N / 2) ∧
        y = cfg.merged.entry (cfg.merged.N / 2 - 1) ∧
        g.setResults cfg.merged = { g with results := cfg.merged }.report
          ((x.u + y.u) % 2 ^ 64 / 2) ((x.n + y.n) % 2 ^ 64 / 2)) := by
  have merged : (cfg.merged.v : Multiset ValueT) =
      ∑ c, (insertionsOf (eventsOf c past) : Multiset ValueT) := by
    rw [(merged_of_ledger (ledger_of_run run) here).2]
    apply Finset.sum_congr rfl
    intro c _
    exact (recorded_of_run (childRun run c)).entries
  have measured : ∀ x ∈ cfg.merged.v, ∃ c, Measured p past c x := by
    intro x mem
    rw [← Multiset.mem_coe, merged, Multiset.mem_sum] at mem
    obtain ⟨c, -, recorded⟩ := mem
    obtain ⟨-, inserted⟩ := mem_insertionsOf.mp (Multiset.mem_coe.mp recorded)
    obtain ⟨before, after, split⟩ := List.append_of_mem inserted
    obtain ⟨front, back, rfl, -, -⟩ := exists_split_eventsOf split
    exact ⟨c, measured_of_insert run⟩
  refine ⟨merged, measured, ?_, ?_, ?_⟩
  · intro empty
    exact Globals.saveMedian_empty empty
  · intro odd
    have inside : cfg.merged.N / 2 < cfg.merged.v.length := by
      have : cfg.merged.N = cfg.merged.v.length := rfl
      omega
    obtain ⟨c, from_c⟩ := measured _ (List.getElem_mem inside)
    refine ⟨c, _, from_c, ?_⟩
    have some_entry : cfg.merged.N ≠ 0 := by omega
    simp only [Globals.setResults, Globals.saveMedian, if_neg some_entry, if_pos odd]
    rw [List.getD_eq_getElem _ _ inside]
  · intro some_entry even
    obtain ⟨c, from_c⟩ := measured _
      (ResultT.entry_mem (show cfg.merged.N / 2 < cfg.merged.N by omega))
    obtain ⟨d, from_d⟩ := measured _
      (ResultT.entry_mem (show cfg.merged.N / 2 - 1 < cfg.merged.N by omega))
    refine ⟨c, _, d, _, from_c, from_d, rfl, rfl, ?_⟩
    have not_odd : ¬cfg.merged.N % 2 = 1 := by omega
    simp only [Globals.setResults, Globals.saveMedian, if_neg some_entry, if_neg not_odd]
    rfl

end System

/-- Two children that measured 700 microseconds each: so much is reported. -/
theorem installed_genuine_pair :
    ∃ past cfg, Run (SystemStep .pair) (.initial .pair) past cfg ∧
      cfg.merged = ⟨[⟨700, 1⟩, ⟨700, 1⟩]⟩ ∧
      (cfg.merged.v : Multiset ValueT) =
        ∑ c, (insertionsOf (eventsOf c past) : Multiset ValueT) ∧
      (∀ x ∈ cfg.merged.v, ∃ c, Measured .pair past c x) ∧
      Globals.initial.setResults cfg.merged =
        { Globals.initial with results := cfg.merged }.report 700 1 := by
  have executed : ((runSchedule .pair untilInstall (.initial .pair)).map
      fun ended => (ended.2.parent, ended.2.merged)) =
        some (.install, ⟨[⟨700, 1⟩, ⟨700, 1⟩]⟩) := by
    decide +kernel
  obtain ⟨⟨past, cfg⟩, ended, reached⟩ := Option.map_eq_some_iff.mp executed
  obtain ⟨here, merged⟩ := Prod.mk.inj reached
  have run : Run (SystemStep .pair) (.initial .pair) past cfg := run_of_runSchedule .nil ended
  have installed := installed_genuine .pair past cfg .initial run here
  refine ⟨past, cfg, run, merged, installed.1, installed.2.1, ?_⟩
  obtain ⟨-, _, -, _, -, -, rfl, rfl, reported⟩ :=
    installed.2.2.2.2 (by rw [merged]; decide) (by rw [merged]; decide)
  rw [merged] at reported ⊢
  exact reported

end Lmbench.Benchmp
