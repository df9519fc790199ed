import Lmbench.Benchmp.Ledger

/-!
# Measurements under a fixed load

A child measures only while all others run: between the last 'ready' and the last
'done' no child starts late and none has left its loop. And what the parent installs
in the end is what the children measured, although their results travel untagged over
one pipe.

## Main results

* `fixed_load` - while one child times, all are running
* `merged_results` - the merged set has the entries of all children, once each
-/

namespace Lmbench.Benchmp

open Lib

variable {p : Params} {past : List (Label (Fin p.parallel))} {cfg cfg' : Config p}

theorem mem_performers_iff {ι : Type} {past : List (Label ι)} {e : Event} {c : ι} :
    c ∈ performers e past ↔ .child c e ∈ past := by
  unfold performers
  rw [List.mem_filterMap]
  constructor
  · rintro ⟨l, member, found⟩
    cases l with
    | parent pe => cases found
    | child d e' =>
      obtain ⟨rfl, rfl⟩ := by simpa using found
      exact member
  · intro member
    exact ⟨_, member, by simp⟩

/-- **Fixed load.** In every reachable configuration in which some child is in
`timing_interval`, every child has sent its 'ready', and no child has read a result
signal: all have been forked and are on this side of that read. -/
theorem fixed_load (p : Params) (past : List (Label (Fin p.parallel))) (cfg : Config p)
    (run : Run (SystemStep p) (Config.initial p) past cfg) (c : Fin p.parallel) (s : Child)
    (forked : cfg.child c = some s) (timing : s.state = .timingInterval) :
    (∀ d, .child d .writeReady ∈ past) ∧ (∀ d, .child d .readResult ∉ past) ∧
      ∀ d, ∃ t, cfg.child d = some t ∧ t.stage.rank < 6 := by
  have ledger := ledger_of_run run
  have view : cfg.view c = s := by simp [Config.view, forked]
  have rank : 1 ≤ s.stage.rank ∧ s.stage.rank < 3 := by
    have warm := s.state_iff_rank.1
    have cool := s.state_iff_rank.2
    rw [timing] at warm cool
    have notWarm := mt warm.mpr (by simp)
    have notCool := mt cool.mpr (by simp)
    omega
  have started : 2 ≤ cfg.parent.phase := by
    apply ledger.parent.started c
    rw [view]
    exact rank.1
  -- this child has not said 'done', so the parent has not asked for results
  have early : cfg.parent.phase < 4 := by
    by_contra late
    have said := (ledger.children.done.mem_iff c).mp (ledger.parent.allDone (not_lt.mp late) c)
    rw [view] at said
    omega
  have uncalled : performers .readResult past = [] := by
    apply List.eq_nil_of_length_eq_zero
    apply Nat.le_zero.mp
    apply ledger.served_le_told.trans
    revert early
    cases cfg.parent <;> simp [ParentPc.phase, ParentPc.told]
  have ready := ledger.parent.allReady started
  refine ⟨fun d => mem_performers_iff.mp (ready d), fun d read => ?_, fun d => ?_⟩
  · have called := mem_performers_iff.mpr read
    simp [uncalled] at called
  · have warm := (ledger.children.ready.mem_iff d).mp (ready d)
    have unserved := mt (ledger.children.served.mem_iff d).mpr (by simp [uncalled])
    cases there : cfg.child d with
    | none => simp [Config.view, there, initial] at warm
    | some t =>
      refine ⟨t, rfl, ?_⟩
      simpa [Config.view, there] using unserved

/-- Two children that make one measurement each. -/
def Params.pair : Params := { Params.single with parallel := 2 }

/-- The two children. -/
def firstChild : Fin Params.pair.parallel := ⟨0, by decide⟩

def secondChild : Fin Params.pair.parallel := ⟨1, by decide⟩

/-- The parent makes `n` steps, with reads of `k` bytes. -/
def parentSteps (n k : ℕ) : List (Choice .pair) := List.replicate n (.parent k insertinit)

/-- Child `c` makes `n` steps. -/
def childSteps (n : ℕ) (c : Fin Params.pair.parallel) (ready : Bool) : List (Choice .pair) :=
  List.replicate n (.child c { answer 700 with ready := ready })

/-- Both children are forked and say 'ready', and the first reads its start signal. -/
def untilTiming : List (Choice .pair) :=
  parentSteps 3 0 ++ childSteps 6 firstChild false ++ childSteps 6 secondChild false ++
    parentSteps 1 2 ++ parentSteps 4 0 ++ childSteps 9 firstChild true

/-- The first of two children measures. -/
theorem fixed_load_pair :
    ∃ past cfg, Run (SystemStep .pair) (.initial .pair) past cfg ∧
      (∀ d, .child d .writeReady ∈ past) ∧ (∀ d, .child d .readResult ∉ past) ∧
        ∀ d, ∃ t, cfg.child d = some t ∧ t.stage.rank < 6 := by
  have executed : ((runSchedule .pair untilTiming (.initial .pair)).bind
      fun ended => (ended.2.child firstChild).map Child.state) = some .timingInterval := by
    decide +kernel
  obtain ⟨⟨past, cfg⟩, ended, measuring⟩ := Option.bind_eq_some_iff.mp executed
  obtain ⟨s, forked, timing⟩ := Option.map_eq_some_iff.mp measuring
  have run : Run (SystemStep .pair) (.initial .pair) past cfg := run_of_runSchedule .nil ended
  exact ⟨past, cfg, run, fixed_load .pair past cfg run firstChild s forked timing⟩

/-! ### Results -/

/-- What is on the response pipe: 'ready' bytes, then 'done' bytes, then the records of
different children one behind the other, of which only the last may be incomplete. -/
def Contiguous (p : Params) (written : List (Byte (Fin p.parallel))) : Prop :=
  ∃ (readies dones served : List (Fin p.parallel)) (r : Fin p.parallel → ResultT)
    (sent : Fin p.parallel → ℕ),
    written = readies.map .ready ++ dones.map .done ++
      served.flatMap (fun c => record (sent c) c (r c)) ∧
    served.Nodup ∧ (∀ c, sent c ≤ p.rSize) ∧ ∀ c ∈ served.dropLast, sent c = p.rSize

theorem contiguous_of_ledger (ledger : Ledger past cfg) :
    Contiguous p cfg.response.written :=
  ⟨_, _, _, fun c => (cfg.view c).r, fun c => (cfg.view c).stage.progress p.rSize,
    ledger.children.written, ledger.children.served.nodup,
    fun c => (ledger.children.regular c).progress_le, ledger.children.full⟩

/-- Where the parent is when it reads, merges and installs. -/
theorem parentAdvance_event {k : ℕ} {wild : ResultT} {pe : ParentEvent (Fin p.parallel)}
    (stepped : parentAdvance p cfg k wild = some (pe, cfg')) :
    match pe with
    | .readReady bytes => ∃ i cfg₁, cfg.parent = .ready i ∧
        cfg.readResponse k (p.parallel - i) = some (bytes, cfg₁)
    | .readDone bytes => ∃ i cfg₁, cfg.parent = .done i ∧
        cfg.readResponse k (p.parallel - i) = some (bytes, cfg₁)
    | .merge buf => ∃ i, cfg.parent = .collect i buf ∧ p.rSize ≤ buf.length
    | _ => True := by
  unfold parentAdvance at stepped
  split at stepped <;> rename_i here
  case h_2 i =>
    split at stepped
    · obtain ⟨⟨bytes, cfg₁⟩, got, same⟩ := Option.map_eq_some_iff.mp stepped
      obtain ⟨rfl, _⟩ := Prod.mk.inj same
      exact ⟨i, cfg₁, here, got⟩
    · obtain ⟨rfl, _⟩ := by simpa using stepped
      trivial
  case h_4 i =>
    split at stepped
    · obtain ⟨⟨bytes, cfg₁⟩, got, same⟩ := Option.map_eq_some_iff.mp stepped
      obtain ⟨rfl, _⟩ := Prod.mk.inj same
      exact ⟨i, cfg₁, here, got⟩
    · obtain ⟨rfl, _⟩ := by simpa using stepped
      trivial
  case h_6 i buf =>
    split at stepped <;> rename_i short
    · obtain ⟨⟨bytes, cfg₁⟩, got, same⟩ := Option.map_eq_some_iff.mp stepped
      obtain ⟨rfl, _⟩ := Prod.mk.inj same
      trivial
    · obtain ⟨rfl, _⟩ := by simpa using stepped
      exact ⟨i, here, not_lt.mp short⟩
  case h_8 =>
    obtain ⟨rfl, _⟩ := by simpa using stepped
    trivial
  case h_9 => cases stepped
  all_goals
    split at stepped <;> obtain ⟨rfl, _⟩ := by simpa using stepped
    all_goals trivial

/-- What the parent reads when it waits for 'ready' are 'ready' bytes. -/
theorem ready_of_readReady {k : ℕ} {wild : ResultT} {bytes : List (Byte (Fin p.parallel))}
    (ledger : Ledger past cfg)
    (stepped : parentAdvance p cfg k wild = some (.readReady bytes, cfg')) :
    ∀ b ∈ bytes, ∃ c, b = .ready c := by
  obtain ⟨i, cfg₁, here, got⟩ := parentAdvance_event stepped
  obtain ⟨_, _, _, rfl, _⟩ := readResponse_eq_some got
  obtain ⟨noDone, noResult⟩ := ledger.children.written_of_warming
    (ledger.warming_of_phase (by simp [here, ParentPc.phase]))
  intro b member
  have written := List.mem_of_mem_drop (List.mem_of_mem_take member)
  rw [ledger.children.written, noDone, noResult] at written
  obtain ⟨c, _, rfl⟩ := by simpa using written
  exact ⟨c, rfl⟩

/-- What the parent reads when it waits for 'done' are 'done' bytes. -/
theorem done_of_readDone {k : ℕ} {wild : ResultT} {bytes : List (Byte (Fin p.parallel))}
    (ledger : Ledger past cfg)
    (stepped : parentAdvance p cfg k wild = some (.readDone bytes, cfg')) :
    ∀ b ∈ bytes, ∃ c, b = .done c := by
  obtain ⟨i, cfg₁, here, got⟩ := parentAdvance_event stepped
  obtain ⟨_, _, _, rfl, _⟩ := readResponse_eq_some got
  have consumed := ledger.parent.consumed
  have uncalled := ledger.served_le_told
  have readies := ledger.children.ready.nodup.length_le_card
  rw [here] at consumed uncalled
  rw [Fintype.card_fin] at readies
  simp only [ParentPc.told, Nat.le_zero, List.length_eq_zero_iff] at uncalled
  simp only [ParentPc.consumed] at consumed
  intro b member
  -- the 'ready' bytes, one for each child, are read
  have written := List.mem_of_mem_take member
  rw [ledger.children.written, uncalled, consumed, List.flatMap_nil, List.append_nil,
    List.drop_append, List.drop_of_length_le (by rw [List.length_map]; omega),
    List.nil_append] at written
  obtain ⟨c, _, rfl⟩ := by simpa using List.mem_of_mem_drop written
  exact ⟨c, rfl⟩

/-- What the parent merges is the record of one child. -/
theorem record_of_merge {k : ℕ} {wild : ResultT} {buf : List (Byte (Fin p.parallel))}
    (ledger : Ledger past cfg) (stepped : parentAdvance p cfg k wild = some (.merge buf, cfg')) :
    ∃ c, buf = record p.rSize c (cfg.view c).r ∧ cfg.entered c = some (cfg.view c).r := by
  obtain ⟨i, here, long⟩ := parentAdvance_event stepped
  have within := ledger.parent.within
  rw [here] at within
  obtain ⟨c, called, holds⟩ := buffer_eq_record ledger here (le_antisymm within.2 long)
  have served := (ledger.children.served.mem_iff c).mp (List.mem_of_getElem? called)
  exact ⟨c, holds, ledger.children.entered c (by omega)⟩

/-- At `set_results` all children have been called, and their sets are merged. -/
theorem merged_of_ledger (ledger : Ledger past cfg) (here : cfg.parent = .install) :
    (∀ c, cfg.entered c = some (cfg.view c).r) ∧
      (cfg.merged.v : Multiset ValueT) = ∑ c, ((cfg.view c).r.v : Multiset ValueT) := by
  have late : 4 ≤ cfg.parent.phase := by simp [here, ParentPc.phase]
  have count := ledger.count_le_length late
  have merged := ledger.parent.merged late
  have nodup := ledger.children.served.nodup
  rw [here] at count merged
  have all : ∀ c, c ∈ performers .readResult past :=
    mem_of_card_le nodup (by simpa [ParentPc.count] using count)
  have few := nodup.length_le_card
  rw [Fintype.card_fin] at few
  refine ⟨fun c => ledger.children.entered c ?_, ?_⟩
  · have served := (ledger.children.served.mem_iff c).mp (all c)
    omega
  · have everyone : (performers .readResult past).toFinset = Finset.univ := by
      ext c
      simp [all c]
    rw [merged, ParentPc.count, List.take_of_length_le few, ← everyone,
      List.sum_toFinset _ nodup]

/-- **No result is lost, duplicated or mixed up.** In every run, whatever pieces the
parent's reads return: at `set_results` the merged set has, as a multiset, the entries
that the children had when they entered `cooldown`; 'ready' and 'done' bytes are read
as such, and every buffer that is merged holds the record of one child; and the records
on the pipe do not interleave. -/
theorem merged_results (p : Params) (past : List (Label (Fin p.parallel))) (cfg : Config p)
    (run : Run (SystemStep p) (Config.initial p) past cfg) :
    (cfg.parent = .install → ∃ r : Fin p.parallel → ResultT,
      (∀ c, cfg.entered c = some (r c)) ∧
        (cfg.merged.v : Multiset ValueT) = ∑ c, ((r c).v : Multiset ValueT)) ∧
    (∀ bytes, .parent (.readReady bytes) ∈ past → ∀ b ∈ bytes, ∃ c, b = .ready c) ∧
    (∀ bytes, .parent (.readDone bytes) ∈ past → ∀ b ∈ bytes, ∃ c, b = .done c) ∧
    (∀ buf, .parent (.merge buf) ∈ past → ∃ c r, buf = record p.rSize c r) ∧
    Contiguous p cfg.response.written := by
  -- a label of the parent was emitted by a step from a configuration with a ledger
  have emitted : ∀ pe, .parent pe ∈ past → ∃ prior cfg₁ cfg₂ k wild, Ledger prior cfg₁ ∧
      parentAdvance p cfg₁ k wild = some (pe, cfg₂) := by
    intro pe member
    obtain ⟨before, after, rfl⟩ := List.append_of_mem member
    obtain ⟨cfg₁, cfg₂, prior, choice, stepped⟩ := run.exists_step_of_split
    cases choice with
    | parent k wild =>
      obtain ⟨⟨pe', cfg₃⟩, moved, same⟩ := Option.map_eq_some_iff.mp stepped
      obtain ⟨label, rfl⟩ := Prod.mk.inj same
      obtain rfl := Label.parent.inj label
      exact ⟨before, cfg₁, cfg₃, k, wild, ledger_of_run prior, moved⟩
    | child c input =>
      obtain ⟨⟨e, cfg₃⟩, _, same⟩ := Option.map_eq_some_iff.mp stepped
      cases (Prod.mk.inj same).1
  refine ⟨fun here => ?_, fun bytes member => ?_, fun bytes member => ?_, fun buf member => ?_,
    contiguous_of_ledger (ledger_of_run run)⟩
  · exact ⟨_, merged_of_ledger (ledger_of_run run) here⟩
  · obtain ⟨_, _, _, _, _, ledger, stepped⟩ := emitted _ member
    exact ready_of_readReady ledger stepped
  · obtain ⟨_, _, _, _, _, ledger, stepped⟩ := emitted _ member
    exact done_of_readDone ledger stepped
  · obtain ⟨_, _, _, _, _, ledger, stepped⟩ := emitted _ member
    obtain ⟨c, holds, _⟩ := record_of_merge ledger stepped
    exact ⟨c, _, holds⟩

/-- Both children measure, and the parent reads their records. -/
def untilInstall : List (Choice .pair) :=
  untilTiming ++ childSteps 9 firstChild true ++ childSteps 18 secondChild true ++
    parentSteps 1 2 ++ parentSteps 2 0 ++ childSteps 192 firstChild true ++ parentSteps 2 184 ++
    parentSteps 1 0 ++ childSteps 192 secondChild true ++ parentSteps 2 184 ++ parentSteps 4 0

/-- The results of two children that measured 700 microseconds each. -/
theorem merged_results_pair :
    ∃ past cfg, Run (SystemStep .pair) (.initial .pair) past cfg ∧
      cfg.merged = ⟨[⟨700, 1⟩, ⟨700, 1⟩]⟩ ∧
      ∃ r : Fin Params.pair.parallel → ResultT, (∀ c, cfg.entered c = some (r c)) ∧
        (cfg.merged.v : Multiset ValueT) = ∑ c, ((r c).v : Multiset ValueT) := by
  have executed : ((runSchedule .pair untilInstall (.initial .pair)).map
      fun ended => (ended.2.parent, ended.2.merged)) =
        some (.install, ⟨[⟨700, 1⟩, ⟨700, 1⟩]⟩) := by
    decide +kernel
  obtain ⟨⟨past, cfg⟩, ended, reached⟩ := Option.map_eq_some_iff.mp executed
  obtain ⟨here, merged⟩ := Prod.mk.inj reached
  have run : Run (SystemStep .pair) (.initial .pair) past cfg := run_of_runSchedule .nil ended
  exact ⟨past, cfg, run, merged, (merged_results .pair past cfg run).1 here⟩

end Lmbench.Benchmp
