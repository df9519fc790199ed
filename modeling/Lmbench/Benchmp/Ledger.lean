import Lmbench.Benchmp.Protocol
import Lmbench.Benchmp.Stage
import Lmbench.Lib.Blocks

/-!
# The account of the pipes

Bytes on the shared pipes are counted and never tagged, so what the parent may
conclude from a count rests on an account of all bytes: which children have said
'ready' and 'done', which have been called for their results and how much of its
record each has sent. `ChildLedger` is the account of what the children wrote,
`ParentLedger` that of what the parent read and sent. Both hold in every reachable
configuration.

## Main results

* `ledger_of_run` - the account holds along every run
* `Ledger.all_full` - when a child may read a result signal, every record begun
  before is complete
-/

namespace Lmbench.Benchmp

open Lib

/-- The children that performed an event, in the order in which they did. -/
def performers {ι : Type} (e : Event) (past : List (Label ι)) : List ι :=
  past.filterMap fun
    | .parent _ => none
    | .child c e' => if e' = e then some c else none

section Definitions

variable {p : Params}

/-- A child, where one not yet forked counts as the child that it will be. -/
def Config.view (cfg : Config p) (c : Fin p.parallel) : Child :=
  (cfg.child c).getD (Benchmp.initial p)

/-- What child `c` has written of its record. -/
def Config.sentBy (cfg : Config p) (c : Fin p.parallel) : List (Byte (Fin p.parallel)) :=
  record ((cfg.view c).stage.progress p.rSize) c (cfg.view c).r

/-- The phase of the parent. -/
def ParentPc.phase {ι : Type} : ParentPc ι → ℕ
  | .forking _ => 0
  | .ready _ => 1
  | .sendStart _ => 2
  | .done _ => 3
  | .tell _ | .collect .. => 4
  | .sendExit _ | .install | .finished => 5

/-- The result signals sent. -/
def ParentPc.told {ι : Type} (parallel : ℕ) : ParentPc ι → ℕ
  | .forking _ | .ready _ | .sendStart _ | .done _ => 0
  | .tell i => i
  | .collect i _ => i + 1
  | .sendExit _ | .install | .finished => parallel

/-- The records merged. -/
def ParentPc.count {ι : Type} (parallel : ℕ) : ParentPc ι → ℕ
  | .forking _ | .ready _ | .sendStart _ | .done _ => 0
  | .tell i | .collect i _ => i
  | .sendExit _ | .install | .finished => parallel

/-- The response bytes read. -/
def ParentPc.consumed {ι : Type} (parallel size : ℕ) : ParentPc ι → ℕ
  | .forking _ => 0
  | .ready i => i
  | .sendStart _ => parallel
  | .done i => parallel + i
  | .tell i => 2 * parallel + i * size
  | .collect i buf => 2 * parallel + i * size + buf.length
  | .sendExit _ | .install | .finished => 2 * parallel + parallel * size

/-- The loop counters of the parent are within their bounds. -/
def ParentPc.Within {ι : Type} (parallel size : ℕ) : ParentPc ι → Prop
  | .ready i | .done i | .tell i => i ≤ parallel
  | .collect i buf => i < parallel ∧ buf.length ≤ size
  | _ => True

/-- Exactly the children with a certain status have performed an event, each once. -/
structure Performed (past : List (Label (Fin p.parallel))) (cfg : Config p) (e : Event)
    (status : Child → Prop) : Prop where
  nodup : (performers e past).Nodup
  mem_iff : ∀ c, c ∈ performers e past ↔ status (cfg.view c)

/-- What the children have written, and the result signals they have read. -/
structure ChildLedger (past : List (Label (Fin p.parallel))) (cfg : Config p) : Prop where
  regular : ∀ c, (cfg.view c).Regular p
  ready : Performed past cfg .writeReady (·.needWarmup = false)
  done : Performed past cfg .writeDone (4 ≤ ·.stage.rank)
  served : Performed past cfg .readResult (6 ≤ ·.stage.rank)
  -- the set that is sent is the one with which the child cooled down
  entered : ∀ c, 3 ≤ (cfg.view c).stage.rank → cfg.entered c = some (cfg.view c).r
  written : cfg.response.written = (performers .writeReady past).map .ready ++
    (performers .writeDone past).map .done ++ (performers .readResult past).flatMap cfg.sentBy
  -- all records but the last one begun are complete
  full : ∀ c ∈ (performers .readResult past).dropLast,
    (cfg.view c).stage.progress p.rSize = p.rSize
  taken : cfg.resultSignal.taken = (performers .readResult past).length

/-- What the parent has read and sent. -/
structure ParentLedger (past : List (Label (Fin p.parallel))) (cfg : Config p) : Prop where
  unforked : ∀ i, cfg.parent = .forking i → ∀ c : Fin p.parallel, i ≤ c.val → cfg.child c = none
  within : cfg.parent.Within p.parallel p.rSize
  signalled : cfg.startSignal.written ≠ [] → 2 ≤ cfg.parent.phase
  started : ∀ c, 1 ≤ (cfg.view c).stage.rank → 2 ≤ cfg.parent.phase
  allReady : 2 ≤ cfg.parent.phase → ∀ c, c ∈ performers .writeReady past
  allDone : 4 ≤ cfg.parent.phase → ∀ c, c ∈ performers .writeDone past
  told : cfg.resultSignal.written.length = cfg.parent.told p.parallel
  consumed : cfg.response.taken = cfg.parent.consumed p.parallel p.rSize
  -- the buffer is cut out of the response by its length alone
  buffer : ∀ i buf, cfg.parent = .collect i buf →
    buf = (cfg.response.written.drop (2 * p.parallel + i * p.rSize)).take buf.length
  merged : 4 ≤ cfg.parent.phase → (cfg.merged.v : Multiset ValueT) =
    (((performers .readResult past).take (cfg.parent.count p.parallel)).map
      fun c => ((cfg.view c).r.v : Multiset ValueT)).sum

/-- The whole account. -/
structure Ledger (past : List (Label (Fin p.parallel))) (cfg : Config p) : Prop where
  children : ChildLedger past cfg
  parent : ParentLedger past cfg

end Definitions

variable {p : Params} {past : List (Label (Fin p.parallel))} {cfg cfg' : Config p}
  {c : Fin p.parallel} {s s' : Child} {e : Event}

@[simp] theorem performers_nil {ι : Type} : performers e ([] : List (Label ι)) = [] := rfl

@[simp] theorem performers_snoc_parent {ι : Type} {past : List (Label ι)} (pe : ParentEvent ι) :
    performers e (past ++ [.parent pe]) = performers e past := by
  simp [performers]

theorem performers_snoc_child {ι : Type} {past : List (Label ι)} (c : ι) (e' : Event) :
    performers e (past ++ [.child c e']) =
      performers e past ++ if e' = e then [c] else [] := by
  by_cases same : e' = e <;> simp [performers, same]

@[simp] theorem length_record {ι : Type} (size : ℕ) (c : ι) (r : ResultT) :
    (record size c r).length = size := by
  simp [record]

/-- A buffer that holds one record decodes to its set. -/
theorem decode_record {ι : Type} [DecidableEq ι] {size : ℕ} (positive : 0 < size) (c : ι)
    (r : ResultT) : decode size (record size c r) = some r := by
  obtain ⟨m, rfl⟩ : ∃ m, size = m + 1 := Nat.exists_eq_succ_of_ne_zero positive.ne'
  have head : record (m + 1) c r = .result c r 0 :: (record (m + 1) c r).tail := by
    simp [record, List.range_succ_eq_map]
  unfold decode
  rw [head]
  simp only [← head, if_true]

/-! ### Counting -/

namespace ChildLedger

variable (ledger : ChildLedger past cfg)
include ledger

theorem length_sentBy_le (c : Fin p.parallel) : (cfg.sentBy c).length ≤ p.rSize := by
  rw [Config.sentBy, length_record]
  exact (ledger.regular c).progress_le

theorem length_written_le :
    cfg.response.written.length ≤
      2 * p.parallel + ((performers .readResult past).flatMap cfg.sentBy).length := by
  have readies := ledger.ready.nodup.length_le_card
  have dones := ledger.done.nodup.length_le_card
  rw [Fintype.card_fin] at readies dones
  rw [ledger.written, List.length_append, List.length_append, List.length_map, List.length_map]
  omega

/-- Before a child is past its warmup there is nothing but 'ready' on the pipe. -/
theorem written_of_warming (warming : ∀ c, (cfg.view c).stage.rank < 1) :
    performers .writeDone past = [] ∧ performers .readResult past = [] := by
  constructor
  · apply List.eq_nil_iff_forall_not_mem.mpr
    intro c member
    have := (ledger.done.mem_iff c).mp member
    have := warming c
    omega
  · apply List.eq_nil_iff_forall_not_mem.mpr
    intro c member
    have := (ledger.served.mem_iff c).mp member
    have := warming c
    omega

end ChildLedger

namespace Ledger

variable (ledger : Ledger past cfg)
include ledger

theorem served_le_told : (performers .readResult past).length ≤ cfg.parent.told p.parallel := by
  rw [← ledger.children.taken, ← ledger.parent.told]
  exact cfg.resultSignal.taken_le

/-- Until the parent sends start signals all children are in their warmup. -/
theorem warming_of_phase (early : cfg.parent.phase < 2) (c : Fin p.parallel) :
    (cfg.view c).stage.rank < 1 := by
  by_contra late
  have := ledger.parent.started c (not_lt.mp late)
  omega

/-- The bytes of the records that the parent has read are part of those sent. -/
theorem mul_count_le (late : 4 ≤ cfg.parent.phase) :
    cfg.parent.count p.parallel * p.rSize ≤
      ((performers .readResult past).flatMap cfg.sentBy).length := by
  have available := cfg.response.taken_le
  have total := ledger.children.length_written_le
  -- the parent has read two bytes and, of the first ones called, a record each
  have consumed : 2 * p.parallel + cfg.parent.count p.parallel * p.rSize ≤
      cfg.response.taken := by
    rw [ledger.parent.consumed]
    revert late
    cases cfg.parent <;> simp [ParentPc.phase, ParentPc.count, ParentPc.consumed]
  omega

/-- A record is merged only when its child has been called. -/
theorem count_le_length (late : 4 ≤ cfg.parent.phase) :
    cfg.parent.count p.parallel ≤ (performers .readResult past).length := by
  have sent := ledger.mul_count_le late
  have most := length_flatMap_le fun d (_ : d ∈ performers .readResult past) =>
    ledger.children.length_sentBy_le d
  exact Nat.le_of_mul_le_mul_right (sent.trans most) p.rSize_pos

/-- When a result signal is there to be read, the records begun before are all
complete: the parent sends a signal only when it has read one record for each
signal before. -/
theorem all_full (waiting : cfg.resultSignal.taken < cfg.resultSignal.written.length) :
    ∀ c ∈ performers .readResult past, (cfg.view c).stage.progress p.rSize = p.rSize := by
  rw [ledger.children.taken, ledger.parent.told] at waiting
  have late : 4 ≤ cfg.parent.phase ∧
      cfg.parent.told p.parallel ≤ cfg.parent.count p.parallel + 1 := by
    revert waiting
    cases cfg.parent <;> simp [ParentPc.phase, ParentPc.told, ParentPc.count]
  have full := full_of_mul_le_length (n := cfg.parent.count p.parallel)
    (fun c _ => ledger.children.length_sentBy_le c) (by omega) (ledger.mul_count_le late.1)
  intro c member
  simpa [Config.sentBy] using full c member

end Ledger

/-! ### Steps of a child -/

/-- The bytes that an event puts on the response pipe. -/
def Event.bytes {ι : Type} (c : ι) : Event → List (Byte ι)
  | .writeReady => [.ready c]
  | .writeDone => [.done c]
  | .writeResult r index => [.result c r index]
  | _ => []

/-- What an event of a child needs, and what it changes besides the child. -/
structure Performs (cfg : Config p) (c : Fin p.parallel) (e : Event) (cfg₁ : Config p) :
    Prop where
  parent : cfg₁.parent = cfg.parent
  merged : cfg₁.merged = cfg.merged
  child : cfg₁.child = cfg.child
  entered : cfg₁.entered = cfg.entered
  startSignal : cfg₁.startSignal.written = cfg.startSignal.written
  resultSignal : cfg₁.resultSignal.written = cfg.resultSignal.written
  read : cfg₁.response.taken = cfg.response.taken
  written : cfg₁.response.written = cfg.response.written ++ e.bytes c
  taken : cfg₁.resultSignal.taken = cfg.resultSignal.taken + if e = .readResult then 1 else 0
  alive : e ≠ .getppid true
  starting : e = .pollStart true → cfg.startSignal.written ≠ []
  waiting : e = .readResult → cfg.resultSignal.taken < cfg.resultSignal.written.length

theorem performs_of_perform {cfg₁ : Config p} (performed : cfg.perform c e = some cfg₁) :
    Performs cfg c e cfg₁ := by
  cases e with
  | getppid orphaned =>
    cases orphaned with
    | true => cases performed
    | false =>
      obtain rfl := Option.some.inj performed
      constructor <;> simp [Event.bytes]
  | pollStart ready =>
    obtain ⟨answer, rfl⟩ : (ready = !cfg.startSignal.pending.isEmpty) ∧ cfg = cfg₁ := by
      simpa [Config.perform] using performed
    constructor <;> simp [Event.bytes]
    rintro rfl nothing
    simp [Fifo.pending, nothing] at answer
  | pollResult ready =>
    obtain ⟨answer, rfl⟩ : (ready = !cfg.resultSignal.pending.isEmpty) ∧ cfg = cfg₁ := by
      simpa [Config.perform] using performed
    constructor <;> simp [Event.bytes]
  | readStart | readExit =>
    obtain ⟨⟨items, pipe⟩, got, rfl⟩ := Option.map_eq_some_iff.mp performed
    obtain ⟨_, _, _, written, taken⟩ := Fifo.read_eq_some_iff.mp got
    constructor <;> simp [Event.bytes, written]
  | readResult =>
    obtain ⟨⟨items, pipe⟩, got, rfl⟩ := Option.map_eq_some_iff.mp performed
    obtain ⟨_, available, _, written, taken⟩ := Fifo.read_eq_some_iff.mp got
    constructor <;> simp [Event.bytes, written, taken]
    omega
  | _ =>
    obtain rfl := Option.some.inj performed
    constructor <;> simp [Event.bytes]

/-- A step of child `c` from `s` to `s'`, as the ledgers see it. -/
structure ChildMove (cfg : Config p) (c : Fin p.parallel) (s : Child) (e : Event) (s' : Child)
    (cfg' : Config p) : Prop where
  forked : cfg.child c = some s
  move : Move p s e s'
  performs : Performs cfg c e { cfg' with child := cfg.child, entered := cfg.entered }
  child : cfg'.child = Function.update cfg.child c (some s')
  entered : cfg'.entered = if s.state ≠ .cooldown ∧ s'.state = .cooldown then
    Function.update cfg.entered c (some s'.r) else cfg.entered

theorem childMove_of_childAdvance {input : Input}
    (stepped : childAdvance p cfg c input = some (e, cfg')) :
    ∃ s s', ChildMove cfg c s e s' cfg' := by
  obtain ⟨s, s', cfg₁, forked, quiet, performed, rfl⟩ := childAdvance_eq_some stepped
  have performs := performs_of_perform performed
  refine ⟨s, s', forked, quiet.move, ?_, ?_, ?_⟩
  · have same : ({ cfg₁.moveChild c s s' with child := cfg.child, entered := cfg.entered } :
        Config p) = cfg₁ := by
      simp only [Config.moveChild, ← performs.child, ← performs.entered]
    rw [same]
    exact performs
  · simp only [Config.moveChild, performs.child]
  · simp only [Config.moveChild, performs.entered]

namespace ChildMove

variable (step : ChildMove cfg c s e s' cfg')
include step

theorem view_self : cfg.view c = s := by simp [Config.view, step.forked]

theorem view_self' : cfg'.view c = s' := by simp [Config.view, step.child]

theorem view_other {d : Fin p.parallel} (other : d ≠ c) : cfg'.view d = cfg.view d := by
  simp [Config.view, step.child, other]

theorem sentBy_other {d : Fin p.parallel} (other : d ≠ c) : cfg'.sentBy d = cfg.sentBy d := by
  simp only [Config.sentBy, step.view_other other]

/-- An event that a change of status comes with keeps the list of those who performed
it exact. -/
theorem performed {status : Child → Prop} {e₀ : Event}
    (before : Performed past cfg e₀ status)
    (change : (e = e₀ ∧ ¬status s ∧ status s') ∨ (e ≠ e₀ ∧ (status s ↔ status s'))) :
    Performed (past ++ [.child c e]) cfg' e₀ status := by
  rcases change with ⟨same, unset, set⟩ | ⟨different, kept⟩
  · -- the child joins the list, on which it was not before
    have fresh : c ∉ performers e₀ past := by
      rw [before.mem_iff, step.view_self]
      exact unset
    constructor
    · rw [performers_snoc_child, if_pos same]
      exact List.nodup_append.mpr ⟨before.nodup, List.nodup_singleton c, by
        rintro a old b new rfl
        exact fresh (List.mem_singleton.mp new ▸ old)⟩
    · intro d
      rw [performers_snoc_child, if_pos same, List.mem_append, List.mem_singleton]
      by_cases self : d = c
      · subst self
        simpa [step.view_self'] using set
      · rw [step.view_other self, before.mem_iff]
        simp [self]
  · constructor
    · rw [performers_snoc_child, if_neg different, List.append_nil]
      exact before.nodup
    · intro d
      rw [performers_snoc_child, if_neg different, List.append_nil, before.mem_iff]
      by_cases self : d = c
      · rw [self, step.view_self, step.view_self']
        exact kept
      · rw [step.view_other self]

theorem stage_move (ledger : ChildLedger past cfg) :
    Stage.Move p.rSize s.r s.stage e s'.stage :=
  Benchmp.stage_move (step.view_self ▸ ledger.regular c) step.performs.alive step.move

theorem ready (ledger : ChildLedger past cfg) :
    Performed (past ++ [.child c e]) cfg' .writeReady (·.needWarmup = false) := by
  apply step.performed ledger.ready
  rcases needWarmup_move step.move with ⟨said, before, after⟩ | ⟨other, same⟩
  · exact .inl ⟨said, by simp [before], after⟩
  · exact .inr ⟨other, by rw [same]⟩

theorem done (ledger : ChildLedger past cfg) :
    Performed (past ++ [.child c e]) cfg' .writeDone (4 ≤ ·.stage.rank) := by
  apply step.performed ledger.done
  rcases (step.stage_move ledger).done_cases with ⟨said, before, after⟩ | ⟨other, same⟩
  · exact .inl ⟨said, by omega, by omega⟩
  · exact .inr ⟨other, same⟩

theorem served (ledger : ChildLedger past cfg) :
    Performed (past ++ [.child c e]) cfg' .readResult (6 ≤ ·.stage.rank) := by
  apply step.performed ledger.served
  rcases (step.stage_move ledger).served_cases with ⟨read, before, after⟩ | ⟨other, same⟩
  · exact .inl ⟨read, by omega, by simp [after, Stage.rank]⟩
  · exact .inr ⟨other, same⟩

/-- Nothing else changes a record that is being sent. -/
theorem sentBy_self (ledger : ChildLedger past cfg) (other : ∀ r k, e ≠ .writeResult r k)
    (sending : 6 ≤ s.stage.rank) : cfg'.sentBy c = cfg.sentBy c := by
  have kept : s'.r = s.r := step.move.r_of_rank (by omega)
  rcases (step.stage_move ledger).written_cases with ⟨k, same, _⟩ | ⟨_, same⟩
  · exact absurd same (other s.r k)
  · rw [Config.sentBy, Config.sentBy, step.view_self, step.view_self', kept, same sending]

end ChildMove

/-- The record a child has sent grows by the byte it writes. -/
theorem ChildMove.sentBy_writeResult {r : ResultT} {k : ℕ}
    (step : ChildMove cfg c s (.writeResult r k) s' cfg') (ledger : ChildLedger past cfg) :
    cfg'.sentBy c = cfg.sentBy c ++ [.result c r k] ∧ 6 ≤ s.stage.rank := by
  rcases (step.stage_move ledger).written_cases with ⟨k, same, here, _, there⟩ | ⟨other, _⟩
  · obtain ⟨rfl, rfl⟩ := Event.writeResult.inj same
    have sending : 6 ≤ s.stage.rank := by simp [here, Stage.rank]
    have kept : s'.r = s.r := step.move.r_of_rank (by omega)
    refine ⟨?_, sending⟩
    rw [Config.sentBy, Config.sentBy, step.view_self, step.view_self', kept, here, there]
    simp [record, Stage.progress, List.range_succ]
  · exact absurd rfl (other r k)

theorem regular_childMove (ledger : ChildLedger past cfg) (step : ChildMove cfg c s e s' cfg')
    (d : Fin p.parallel) : (cfg'.view d).Regular p := by
  by_cases self : d = c
  · subst self
    rw [step.view_self']
    exact regular_move (step.view_self ▸ ledger.regular d) step.performs.alive step.move
  · rw [step.view_other self]
    exact ledger.regular d

theorem entered_childMove (ledger : ChildLedger past cfg) (step : ChildMove cfg c s e s' cfg')
    (d : Fin p.parallel) (late : 3 ≤ (cfg'.view d).stage.rank) :
    cfg'.entered d = some (cfg'.view d).r := by
  rw [step.entered]
  by_cases self : d = c
  · subst self
    rw [step.view_self'] at late ⊢
    have cooled : s'.state = .cooldown := s'.state_iff_rank.2.mpr late
    by_cases before : s.state = .cooldown
    · have cold := s.state_iff_rank.2.mp before
      have old := ledger.entered d
      rw [step.view_self] at old
      rw [if_neg (by simp [before]), step.move.r_of_rank cold]
      exact old cold
    · rw [if_pos ⟨before, cooled⟩, Function.update_self]
  · rw [step.view_other self] at late ⊢
    have old := ledger.entered d late
    split
    · rwa [Function.update_of_ne self]
    · exact old

/-- Before a child says 'ready' there is nothing but 'ready' on the pipe. -/
theorem alone_of_ready (ledger : Ledger past cfg) (step : ChildMove cfg c s .writeReady s' cfg') :
    performers .writeDone past = [] ∧ performers .readResult past = [] := by
  apply ledger.children.written_of_warming
  apply ledger.warming_of_phase
  by_contra late
  have said := (ledger.children.ready.mem_iff c).mp (ledger.parent.allReady (not_lt.mp late) c)
  rcases needWarmup_move step.move with ⟨_, before, _⟩ | ⟨other, _⟩
  · rw [step.view_self, before] at said
    cases said
  · exact other rfl

/-- Before a child says 'done' no record has been begun. -/
theorem unserved_of_done (ledger : Ledger past cfg)
    (step : ChildMove cfg c s .writeDone s' cfg') : performers .readResult past = [] := by
  apply List.eq_nil_of_length_eq_zero
  have served := ledger.served_le_told
  by_contra some
  have late : 4 ≤ cfg.parent.phase := by
    revert served
    cases cfg.parent <;> simp [ParentPc.phase, ParentPc.told, List.length_eq_zero_iff.not.mp some]
  have said := (ledger.children.done.mem_iff c).mp (ledger.parent.allDone late c)
  rcases (step.stage_move ledger.children).done_cases with ⟨_, before, _⟩ | ⟨other, _⟩
  · rw [step.view_self] at said
    omega
  · exact other rfl

/-- A child that writes its record was the last one called. -/
theorem last_of_writeResult {r : ResultT} {k : ℕ} (ledger : Ledger past cfg)
    (step : ChildMove cfg c s (.writeResult r k) s' cfg') :
    ∃ earlier, performers .readResult past = earlier ++ [c] ∧ c ∉ earlier := by
  rcases (step.stage_move ledger.children).written_cases with ⟨k, _, here, short, _⟩ | ⟨other, _⟩
  · have member : c ∈ performers .readResult past := by
      rw [ledger.children.served.mem_iff, step.view_self, here]
      exact le_rfl
    have unfinished : c ∉ (performers .readResult past).dropLast := by
      intro early
      have full := ledger.children.full c early
      rw [step.view_self, here] at full
      simp only [Stage.progress] at full
      omega
    have split := List.dropLast_append_getLast (List.ne_nil_of_mem member)
    rw [← split, List.mem_append, List.mem_singleton] at member
    refine ⟨_, ?_, unfinished⟩
    rw [member.resolve_left unfinished]
    exact split.symm
  · exact absurd rfl (other r k)

theorem written_childMove (ledger : Ledger past cfg) (step : ChildMove cfg c s e s' cfg') :
    cfg'.response.written = (performers .writeReady (past ++ [.child c e])).map .ready ++
      (performers .writeDone (past ++ [.child c e])).map .done ++
        (performers .readResult (past ++ [.child c e])).flatMap cfg'.sentBy := by
  have before := ledger.children.written
  have written := step.performs.written
  simp only at written
  -- records of other children are not touched
  have apart : ∀ l : List (Fin p.parallel), c ∉ l →
      l.flatMap cfg'.sentBy = l.flatMap cfg.sentBy := fun l absent =>
    List.flatMap_congr fun d member => step.sentBy_other fun self => absent (self ▸ member)
  rw [performers_snoc_child, performers_snoc_child, performers_snoc_child, written, before]
  -- a byte is put behind all others, so nothing that belongs further back may be there
  cases e with
  | writeReady =>
    obtain ⟨noDone, noResult⟩ := alone_of_ready ledger step
    simp [noDone, noResult, Event.bytes]
  | writeDone =>
    have noResult := unserved_of_done ledger step
    simp [noResult, Event.bytes]
  | writeResult r k =>
    obtain ⟨earlier, split, absent⟩ := last_of_writeResult ledger step
    have grown := (step.sentBy_writeResult ledger.children).1
    simp [split, apart earlier absent, grown, Event.bytes]
  | readResult =>
    -- a new record begins, and it is empty
    rcases (step.stage_move ledger.children).served_cases with ⟨_, before, there⟩ | ⟨other, _⟩
    · have absent : c ∉ performers .readResult past := by
        rw [ledger.children.served.mem_iff, step.view_self]
        omega
      have none : cfg'.sentBy c = [] := by
        simp [Config.sentBy, step.view_self', there, Stage.progress, record]
      simp [apart _ absent, none, Event.bytes]
    · exact absurd rfl other
  | _ =>
    have kept : (performers .readResult past).flatMap cfg'.sentBy =
        (performers .readResult past).flatMap cfg.sentBy := by
      refine List.flatMap_congr fun d member => ?_
      by_cases self : d = c
      · subst self
        rw [ledger.children.served.mem_iff, step.view_self] at member
        exact step.sentBy_self ledger.children (by simp) member
      · exact step.sentBy_other self
    simp [kept, Event.bytes]

theorem full_childMove (ledger : Ledger past cfg) (step : ChildMove cfg c s e s' cfg')
    (d : Fin p.parallel) (member : d ∈ (performers .readResult (past ++ [.child c e])).dropLast) :
    (cfg'.view d).stage.progress p.rSize = p.rSize := by
  rw [performers_snoc_child] at member
  by_cases reads : e = .readResult
  · -- all records begun before are complete, and they are those of other children
    subst reads
    rw [if_pos rfl, List.dropLast_concat] at member
    have full := ledger.all_full (step.performs.waiting rfl) d member
    by_cases self : d = c
    · subst self
      rcases (step.stage_move ledger.children).served_cases with ⟨_, before, _⟩ | ⟨other, _⟩
      · rw [ledger.children.served.mem_iff, step.view_self] at member
        omega
      · exact absurd rfl other
    · rw [step.view_other self]
      exact full
  · rw [if_neg reads, List.append_nil] at member
    have full := ledger.children.full d member
    by_cases self : d = c
    · subst self
      have sending := (ledger.children.served.mem_iff d).mp (List.mem_of_mem_dropLast member)
      rw [step.view_self] at full sending
      rw [step.view_self']
      rcases (step.stage_move ledger.children).written_cases with
        ⟨k, _, here, short, _⟩ | ⟨_, same⟩
      · rw [here] at full
        simp only [Stage.progress] at full
        omega
      · rw [same sending, full]
    · rw [step.view_other self]
      exact full

theorem childLedger_childMove (ledger : Ledger past cfg) (step : ChildMove cfg c s e s' cfg') :
    ChildLedger (past ++ [.child c e]) cfg' where
  regular := regular_childMove ledger.children step
  ready := step.ready ledger.children
  done := step.done ledger.children
  served := step.served ledger.children
  entered := entered_childMove ledger.children step
  written := written_childMove ledger step
  full := full_childMove ledger step
  taken := by
    have taken := step.performs.taken
    simp only at taken
    rw [taken, ledger.children.taken, performers_snoc_child]
    split <;> simp

/-- Whoever has performed an event has performed it. -/
theorem mem_performers_snoc {ι : Type} {past : List (Label ι)} {d : ι} (l : Label ι)
    (member : d ∈ performers e past) : d ∈ performers e (past ++ [l]) := by
  rw [performers, List.filterMap_append]
  exact List.mem_append_left _ member

theorem started_childMove (ledger : Ledger past cfg) (step : ChildMove cfg c s e s' cfg')
    (d : Fin p.parallel) (late : 1 ≤ (cfg'.view d).stage.rank) : 2 ≤ cfg.parent.phase := by
  by_cases self : d = c
  · subst self
    rw [step.view_self'] at late
    rcases (step.stage_move ledger.children).started_cases with polled | before
    · exact ledger.parent.signalled (step.performs.starting polled)
    · refine ledger.parent.started d ?_
      rw [step.view_self]
      exact before late
  · rw [step.view_other self] at late
    exact ledger.parent.started d late

/-- The result sets that are merged do not change any more. -/
theorem merged_childMove (ledger : Ledger past cfg) (step : ChildMove cfg c s e s' cfg')
    (late : 4 ≤ cfg.parent.phase) :
    ((performers .readResult (past ++ [.child c e])).take (cfg.parent.count p.parallel)).map
        (fun d => ((cfg'.view d).r.v : Multiset ValueT)) =
      ((performers .readResult past).take (cfg.parent.count p.parallel)).map
        (fun d => ((cfg.view d).r.v : Multiset ValueT)) := by
  rw [performers_snoc_child, List.take_append_of_le_length (ledger.count_le_length late)]
  refine List.map_congr_left fun d member => ?_
  by_cases self : d = c
  · subst self
    have sending := (ledger.children.served.mem_iff d).mp (List.mem_of_mem_take member)
    rw [step.view_self] at sending
    rw [step.view_self, step.view_self', step.move.r_of_rank (by omega)]
  · rw [step.view_other self]

theorem parentLedger_childMove (ledger : Ledger past cfg) (step : ChildMove cfg c s e s' cfg') :
    ParentLedger (past ++ [.child c e]) cfg' := by
  obtain ⟨children, parent⟩ := ledger
  have samePc : cfg'.parent = cfg.parent := step.performs.parent
  have sameMerged : cfg'.merged = cfg.merged := step.performs.merged
  have sameStart : cfg'.startSignal.written = cfg.startSignal.written := step.performs.startSignal
  have sameResult : cfg'.resultSignal.written = cfg.resultSignal.written :=
    step.performs.resultSignal
  have sameRead : cfg'.response.taken = cfg.response.taken := step.performs.read
  have grown : cfg'.response.written = cfg.response.written ++ e.bytes c := step.performs.written
  constructor
  · intro i here d later
    rw [step.child]
    rw [samePc] at here
    have absent := parent.unforked i here
    have forked : d ≠ c := by
      rintro rfl
      cases (absent d later).symm.trans step.forked
    rw [Function.update_of_ne forked]
    exact absent d later
  · rw [samePc]
    exact parent.within
  · rw [samePc, sameStart]
    exact parent.signalled
  · rw [samePc]
    exact started_childMove ⟨children, parent⟩ step
  · rw [samePc]
    exact fun late d => mem_performers_snoc _ (parent.allReady late d)
  · rw [samePc]
    exact fun late d => mem_performers_snoc _ (parent.allDone late d)
  · rw [samePc, sameResult]
    exact parent.told
  · rw [samePc, sameRead]
    exact parent.consumed
  · intro i buf here
    rw [samePc] at here
    have available := cfg.response.taken_le
    have consumed := parent.consumed
    rw [here] at consumed
    simp only [ParentPc.consumed] at consumed
    rw [grown, List.drop_append_of_le_length (by omega), List.take_append_of_le_length]
    · exact parent.buffer i buf here
    · rw [List.length_drop]
      omega
  · rw [samePc, sameMerged]
    intro late
    rw [merged_childMove ⟨children, parent⟩ step late]
    exact parent.merged late

/-! ### Steps of the parent -/

/-- A step of the parent, as the ledgers see it: what it leaves alone, and what its
new place demands. -/
structure Advance (past : List (Label (Fin p.parallel))) (cfg cfg' : Config p) : Prop where
  view : cfg'.view = cfg.view := by rfl
  entered : cfg'.entered = cfg.entered := by rfl
  written : cfg'.response.written = cfg.response.written := by rfl
  taken : cfg'.resultSignal.taken = cfg.resultSignal.taken := by rfl
  unforked : ∀ i, cfg'.parent = .forking i →
    ∀ c : Fin p.parallel, i ≤ c.val → cfg'.child c = none := by exact nofun
  within : cfg'.parent.Within p.parallel p.rSize := by trivial
  signalled : cfg'.startSignal.written = cfg.startSignal.written ∨ 2 ≤ cfg'.parent.phase := by
    exact .inl rfl
  later : cfg.parent.phase ≤ cfg'.parent.phase
  allReady : cfg.parent.phase < 2 → 2 ≤ cfg'.parent.phase →
    ∀ c, c ∈ performers .writeReady past := by simp [ParentPc.phase]
  allDone : cfg.parent.phase < 4 → 4 ≤ cfg'.parent.phase →
    ∀ c, c ∈ performers .writeDone past := by simp [ParentPc.phase]
  told : cfg'.resultSignal.written.length = cfg'.parent.told p.parallel
  consumed : cfg'.response.taken = cfg'.parent.consumed p.parallel p.rSize
  buffer : ∀ i buf, cfg'.parent = .collect i buf → buf =
    (cfg.response.written.drop (2 * p.parallel + i * p.rSize)).take buf.length := by exact nofun
  merged : 4 ≤ cfg'.parent.phase → (cfg'.merged.v : Multiset ValueT) =
    (((performers .readResult past).take (cfg'.parent.count p.parallel)).map
      fun c => ((cfg.view c).r.v : Multiset ValueT)).sum := by simp [ParentPc.phase]

theorem Ledger.advance {pe : ParentEvent (Fin p.parallel)} (ledger : Ledger past cfg)
    (adv : Advance past cfg cfg') : Ledger (past ++ [.parent pe]) cfg' := by
  obtain ⟨⟨regular, ready, done, served, entering, writing, full, taking⟩, parent⟩ := ledger
  have view := adv.view
  have sentBy : cfg'.sentBy = cfg.sentBy := by
    funext d
    simp only [Config.sentBy, view]
  constructor
  · constructor
    · rwa [view]
    · exact ⟨by simpa using ready.nodup, by simpa [view] using ready.mem_iff⟩
    · exact ⟨by simpa using done.nodup, by simpa [view] using done.mem_iff⟩
    · exact ⟨by simpa using served.nodup, by simpa [view] using served.mem_iff⟩
    · rwa [view, adv.entered]
    · simpa [adv.written, sentBy] using writing
    · simpa [view] using full
    · simpa [adv.taken] using taking
  · constructor
    · exact adv.unforked
    · exact adv.within
    · intro sent
      rcases adv.signalled with same | already
      · exact (parent.signalled (same ▸ sent)).trans adv.later
      · exact already
    · rw [view]
      exact fun d late => (parent.started d late).trans adv.later
    · intro late d
      rw [performers_snoc_parent]
      rcases lt_or_ge cfg.parent.phase 2 with early | before
      · exact adv.allReady early late d
      · exact parent.allReady before d
    · intro late d
      rw [performers_snoc_parent]
      rcases lt_or_ge cfg.parent.phase 4 with early | before
      · exact adv.allDone early late d
      · exact parent.allDone before d
    · exact adv.told
    · exact adv.consumed
    · rw [adv.written]
      exact adv.buffer
    · rw [view, performers_snoc_parent]
      exact adv.merged

/-- Forking a child does not change how it is seen. -/
theorem view_fork {i : ℕ} (ledger : ParentLedger past cfg) (here : cfg.parent = .forking i)
    (inside : i < p.parallel) (pc : ParentPc (Fin p.parallel)) :
    Config.view { cfg with
      parent := pc
      child := Function.update cfg.child ⟨i, inside⟩ (some (initial p)) } = cfg.view := by
  funext d
  by_cases self : d = ⟨i, inside⟩
  · subst self
    simp [Config.view, ledger.unforked i here ⟨i, inside⟩ le_rfl]
  · simp [Config.view, self]

/-- When as many bytes are read as there are children, and no child is past its
warmup, all have said 'ready'. -/
theorem allReady_of_taken (ledger : Ledger past cfg) (early : cfg.parent.phase < 2)
    (taken : cfg.response.taken = p.parallel) (d : Fin p.parallel) :
    d ∈ performers .writeReady past := by
  obtain ⟨noDone, noResult⟩ :=
    ledger.children.written_of_warming (ledger.warming_of_phase early)
  have available := cfg.response.taken_le
  rw [taken, ledger.children.written, noDone, noResult] at available
  apply mem_of_card_le ledger.children.ready.nodup
  simpa using available

/-- When another as many bytes are read, and no child has been called, all have said
'done'. -/
theorem allDone_of_taken (ledger : Ledger past cfg) (uncalled : cfg.parent.told p.parallel = 0)
    (taken : cfg.response.taken = p.parallel + p.parallel) (d : Fin p.parallel) :
    d ∈ performers .writeDone past := by
  have noResult : performers .readResult past = [] :=
    List.eq_nil_of_length_eq_zero (Nat.le_zero.mp (uncalled ▸ ledger.served_le_told))
  -- at most one 'ready' a child, so the other bytes are 'done', one for each child
  have available := cfg.response.taken_le
  have readies := ledger.children.ready.nodup.length_le_card
  rw [taken, ledger.children.written, noResult] at available
  simp only [List.flatMap_nil, List.append_nil, List.length_append, List.length_map] at available
  apply mem_of_card_le ledger.children.done.nodup
  rw [Fintype.card_fin] at readies ⊢
  omega

/-- **What the parent cuts out is one record.** When the buffer is as long as a
record, it holds the record of the child that was called last. -/
theorem buffer_eq_record {i : ℕ} {buf : List (Byte (Fin p.parallel))} (ledger : Ledger past cfg)
    (here : cfg.parent = .collect i buf) (complete : buf.length = p.rSize) :
    ∃ d, (performers .readResult past)[i]? = some d ∧
      buf = record p.rSize d (cfg.view d).r := by
  have served := ledger.served_le_told
  have available := cfg.response.taken_le
  have total := ledger.children.length_written_le
  have buffer := ledger.parent.buffer i buf here
  have consumed := ledger.parent.consumed
  rw [here] at served consumed
  simp only [ParentPc.told, ParentPc.consumed] at served consumed
  -- the bytes read are no more than those of the children called, so all are complete
  have many : (i + 1) * p.rSize ≤ ((performers .readResult past).flatMap cfg.sentBy).length := by
    rw [Nat.succ_mul]
    omega
  have full := full_of_mul_le_length (fun d _ => ledger.children.length_sentBy_le d) served many
  have most := length_flatMap_le fun d (_ : d ∈ performers .readResult past) =>
    ledger.children.length_sentBy_le d
  have inside : i < (performers .readResult past).length :=
    Nat.le_of_mul_le_mul_right (many.trans most) p.rSize_pos
  -- and what stands before the records is two bytes a child
  have prior : ((performers .writeReady past).map Byte.ready ++
      (performers .writeDone past).map Byte.done).length = 2 * p.parallel := by
    have readies := ledger.children.ready.nodup.length_le_card
    have dones := ledger.children.done.nodup.length_le_card
    have atMost := most.trans (Nat.mul_le_mul_right p.rSize served)
    have whole := congrArg List.length ledger.children.written
    rw [Fintype.card_fin] at readies dones
    simp only [List.length_append, List.length_map] at whole ⊢
    rw [Nat.succ_mul] at atMost
    omega
  refine ⟨_, List.getElem?_eq_getElem inside, ?_⟩
  have block := take_drop_flatMap full (List.getElem?_eq_getElem inside)
  have exactly := full _ (List.getElem_mem inside)
  rw [Config.sentBy, length_record] at exactly
  rw [buffer, complete, ledger.children.written, List.drop_append,
    List.drop_of_length_le (by omega), List.nil_append, prior, Nat.add_sub_cancel_left, block,
    Config.sentBy, exactly]

section Parent

variable {k i : ℕ} {buf : List (Byte (Fin p.parallel))} {wild : ResultT}
  {pe : ParentEvent (Fin p.parallel)} (ledger : Ledger past cfg)
  (stepped : parentAdvance p cfg k wild = some (pe, cfg'))
include ledger stepped

theorem ledger_forking (here : cfg.parent = .forking i) : Ledger (past ++ [.parent pe]) cfg' := by
  have told := ledger.parent.told
  have consumed := ledger.parent.consumed
  simp only [parentAdvance, here] at stepped
  rw [here] at told consumed
  split at stepped <;> rename_i inside <;> obtain ⟨rfl, rfl⟩ := by simpa using stepped
  · apply ledger.advance
    refine
      { view := view_fork ledger.parent here inside _, unforked := ?_,
        later := by simp [here, ParentPc.phase], told := told, consumed := consumed }
    intro j next d later
    obtain rfl := ParentPc.forking.inj next
    have other : d ≠ ⟨i, inside⟩ := by
      rintro rfl
      simp at later
    simpa [other] using ledger.parent.unforked i here d (by omega)
  · apply ledger.advance
    exact
      { within := Nat.zero_le _, later := by simp [here, ParentPc.phase], told := told,
        consumed := consumed }

theorem ledger_ready (here : cfg.parent = .ready i) : Ledger (past ++ [.parent pe]) cfg' := by
  have within := ledger.parent.within
  have told := ledger.parent.told
  have consumed := ledger.parent.consumed
  simp only [parentAdvance, here] at stepped
  rw [here] at within told consumed
  split at stepped
  · obtain ⟨⟨bytes, cfg₁⟩, got, same⟩ := Option.map_eq_some_iff.mp stepped
    obtain ⟨positive, fits, available, _, response, written, taken, rfl⟩ :=
      readResponse_eq_some got
    obtain ⟨rfl, rfl⟩ := Prod.mk.inj same
    have bound : i + k ≤ p.parallel := by omega
    apply ledger.advance
    exact
      { written := written, within := bound, later := by simp [here, ParentPc.phase],
        told := told, consumed := taken.trans (congrArg (· + k) consumed) }
  · obtain ⟨rfl, rfl⟩ := by simpa using stepped
    have all : i = p.parallel := by
      simp only [ParentPc.Within] at within
      omega
    have read : cfg.response.taken = p.parallel := all ▸ consumed
    apply ledger.advance
    exact
      { later := by simp [here, ParentPc.phase], told := told, consumed := read,
        allReady := fun early _ => allReady_of_taken ledger early read }

theorem ledger_sendStart (here : cfg.parent = .sendStart i) :
    Ledger (past ++ [.parent pe]) cfg' := by
  have told := ledger.parent.told
  have consumed := ledger.parent.consumed
  simp only [parentAdvance, here] at stepped
  rw [here] at told consumed
  split at stepped <;> obtain ⟨rfl, rfl⟩ := by simpa using stepped
  · apply ledger.advance
    exact
      { signalled := .inr le_rfl, later := by simp [here, ParentPc.phase], told := told,
        consumed := consumed, allReady := by simp [here, ParentPc.phase] }
  · apply ledger.advance
    exact
      { within := Nat.zero_le _, later := by simp [here, ParentPc.phase], told := told,
        consumed := consumed, allReady := by simp [here, ParentPc.phase] }

theorem ledger_done (here : cfg.parent = .done i) : Ledger (past ++ [.parent pe]) cfg' := by
  have within := ledger.parent.within
  have told := ledger.parent.told
  have consumed := ledger.parent.consumed
  simp only [parentAdvance, here] at stepped
  rw [here] at within told consumed
  split at stepped
  · obtain ⟨⟨bytes, cfg₁⟩, got, same⟩ := Option.map_eq_some_iff.mp stepped
    obtain ⟨positive, fits, available, _, response, written, taken, rfl⟩ :=
      readResponse_eq_some got
    obtain ⟨rfl, rfl⟩ := Prod.mk.inj same
    have bound : i + k ≤ p.parallel := by omega
    have read : response.taken = p.parallel + (i + k) := by
      simp only [ParentPc.consumed] at consumed
      omega
    apply ledger.advance
    exact
      { written := written, within := bound, later := by simp [here, ParentPc.phase],
        told := told, consumed := read, allReady := by simp [here, ParentPc.phase] }
  · obtain ⟨rfl, rfl⟩ := by simpa using stepped
    have all : i = p.parallel := by
      simp only [ParentPc.Within] at within
      omega
    have read : cfg.response.taken = p.parallel + p.parallel := by
      rw [consumed, all]
      rfl
    have uncalled : cfg.parent.told p.parallel = 0 := by rw [here]; rfl
    apply ledger.advance
    exact
      { within := Nat.zero_le _, later := by simp [here, ParentPc.phase], told := told,
        consumed := by simp [read, ParentPc.consumed, two_mul],
        allReady := by simp [here, ParentPc.phase],
        allDone := fun _ _ => allDone_of_taken ledger uncalled read,
        merged := by simp [ParentPc.count, insertinit] }

theorem ledger_tell (here : cfg.parent = .tell i) : Ledger (past ++ [.parent pe]) cfg' := by
  have within := ledger.parent.within
  have told := ledger.parent.told
  have consumed := ledger.parent.consumed
  have merged := ledger.parent.merged
  simp only [parentAdvance, here] at stepped
  rw [here] at within told consumed merged
  split at stepped <;> rename_i inside <;> obtain ⟨rfl, rfl⟩ := by simpa using stepped
  · apply ledger.advance
    refine
      { within := ⟨inside, Nat.zero_le _⟩, later := by simp [here, ParentPc.phase],
        told := by simpa [ParentPc.told] using told, consumed := consumed,
        allReady := by simp [here, ParentPc.phase], allDone := by simp [here, ParentPc.phase],
        buffer := ?_, merged := merged }
    intro j buf next
    obtain ⟨rfl, rfl⟩ := ParentPc.collect.inj next
    rfl
  · have all : i = p.parallel := by
      simp only [ParentPc.Within] at within
      omega
    subst all
    apply ledger.advance
    exact
      { later := by simp [here, ParentPc.phase], told := told, consumed := consumed,
        allReady := by simp [here, ParentPc.phase], allDone := by simp [here, ParentPc.phase],
        merged := fun _ => merged le_rfl }

/-- A read of a part of a record. -/
theorem ledger_collect_read (here : cfg.parent = .collect i buf) (short : buf.length < p.rSize) :
    Ledger (past ++ [.parent pe]) cfg' := by
  have within := ledger.parent.within
  have told := ledger.parent.told
  have consumed := ledger.parent.consumed
  have merged := ledger.parent.merged
  have buffer := ledger.parent.buffer i buf here
  simp only [parentAdvance, here, if_pos short] at stepped
  rw [here] at within told consumed merged
  obtain ⟨⟨bytes, cfg₁⟩, got, same⟩ := Option.map_eq_some_iff.mp stepped
  obtain ⟨positive, fits, available, bytes', response, written, taken, rfl⟩ :=
    readResponse_eq_some got
  obtain ⟨rfl, rfl⟩ := Prod.mk.inj same
  have length : bytes.length = k := by
    rw [bytes', List.length_take, List.length_drop]
    omega
  have bound : (buf ++ bytes).length ≤ p.rSize := by
    rw [List.length_append, length]
    omega
  -- the new bytes are those behind the ones in the buffer
  have next : buf ++ bytes = (cfg.response.written.drop (2 * p.parallel + i * p.rSize)).take
      (buf.length + k) := by
    simp only [ParentPc.consumed] at consumed
    rw [List.take_add, ← buffer, List.drop_drop, ← consumed, ← bytes']
  apply ledger.advance
  refine
    { written := written, within := ⟨within.1, bound⟩,
      later := by simp [here, ParentPc.phase], told := told,
      consumed := by simp [taken, consumed, ParentPc.consumed, length, Nat.add_assoc],
      allReady := by simp [here, ParentPc.phase], allDone := by simp [here, ParentPc.phase],
      buffer := ?_, merged := merged }
  intro j buf' same
  obtain ⟨rfl, rfl⟩ := ParentPc.collect.inj same
  rw [List.length_append, length]
  exact next

/-- The buffer is a record, which is merged. -/
theorem ledger_collect_merge (here : cfg.parent = .collect i buf)
    (long : ¬ buf.length < p.rSize) : Ledger (past ++ [.parent pe]) cfg' := by
  have within := ledger.parent.within
  have told := ledger.parent.told
  have consumed := ledger.parent.consumed
  have merged := ledger.parent.merged
  simp only [parentAdvance, here, if_neg long] at stepped
  rw [here] at within told consumed merged
  obtain ⟨rfl, rfl⟩ := by simpa using stepped
  have complete : buf.length = p.rSize := le_antisymm within.2 (not_lt.mp long)
  obtain ⟨d, called, holds⟩ := buffer_eq_record ledger here complete
  have positive := (ledger.children.regular d).positive
  apply ledger.advance
  refine
    { within := within.1, later := by simp [here, ParentPc.phase], told := told,
      consumed := by
        simp [consumed, ParentPc.consumed, complete, Nat.succ_mul, Nat.add_assoc],
      allReady := by simp [here, ParentPc.phase], allDone := by simp [here, ParentPc.phase],
      merged := fun _ => ?_ }
  have before := merged le_rfl
  simp only [ParentPc.count] at before ⊢
  rw [holds, decode_record p.rSize_pos, Option.getD_some, coe_insertAll positive, before,
    List.take_add_one, called]
  simp [add_comm]

theorem ledger_collect (here : cfg.parent = .collect i buf) :
    Ledger (past ++ [.parent pe]) cfg' := by
  by_cases short : buf.length < p.rSize
  · exact ledger_collect_read ledger stepped here short
  · exact ledger_collect_merge ledger stepped here short

theorem ledger_sendExit (here : cfg.parent = .sendExit i) : Ledger (past ++ [.parent pe]) cfg' := by
  have told := ledger.parent.told
  have consumed := ledger.parent.consumed
  have merged := ledger.parent.merged
  simp only [parentAdvance, here] at stepped
  rw [here] at told consumed merged
  split at stepped <;> obtain ⟨rfl, rfl⟩ := by simpa using stepped
  · apply ledger.advance
    exact
      { later := by simp [here, ParentPc.phase], told := told, consumed := consumed,
        allReady := by simp [here, ParentPc.phase], allDone := by simp [here, ParentPc.phase],
        merged := merged }
  · apply ledger.advance
    exact
      { later := by simp [here, ParentPc.phase], told := told, consumed := consumed,
        allReady := by simp [here, ParentPc.phase], allDone := by simp [here, ParentPc.phase],
        merged := merged }

theorem ledger_install (here : cfg.parent = .install) : Ledger (past ++ [.parent pe]) cfg' := by
  have told := ledger.parent.told
  have consumed := ledger.parent.consumed
  have merged := ledger.parent.merged
  simp only [parentAdvance, here] at stepped
  rw [here] at told consumed merged
  obtain ⟨rfl, rfl⟩ := by simpa using stepped
  apply ledger.advance
  exact
    { later := by simp [here, ParentPc.phase], told := told, consumed := consumed,
      allReady := by simp [here, ParentPc.phase], allDone := by simp [here, ParentPc.phase],
      merged := merged }

/-- **The parent keeps the account.** -/
theorem ledger_parentAdvance : Ledger (past ++ [.parent pe]) cfg' := by
  cases here : cfg.parent with
  | forking i => exact ledger_forking ledger stepped here
  | ready i => exact ledger_ready ledger stepped here
  | sendStart i => exact ledger_sendStart ledger stepped here
  | done i => exact ledger_done ledger stepped here
  | tell i => exact ledger_tell ledger stepped here
  | collect i buf => exact ledger_collect ledger stepped here
  | sendExit i => exact ledger_sendExit ledger stepped here
  | install => exact ledger_install ledger stepped here
  | finished => simp [parentAdvance, here] at stepped

end Parent

/-! ### Runs -/

theorem ledger_initial (p : Params) : Ledger [] (Config.initial p) := by
  have rank : ∀ c, ((Config.initial p).view c).stage.rank = 0 := fun c => rfl
  constructor
  · constructor
    · exact fun c => regular_initial p
    · exact ⟨List.nodup_nil, by simp [Config.view, Config.initial, initial]⟩
    · exact ⟨List.nodup_nil, by simp [rank]⟩
    · exact ⟨List.nodup_nil, by simp [rank]⟩
    · intro c late
      simp [rank] at late
    · rfl
    · simp
    · rfl
  · constructor
    · exact fun _ _ _ _ => rfl
    · trivial
    · simp [Config.initial]
    · intro c late
      simp [rank] at late
    · simp [Config.initial, ParentPc.phase]
    · simp [Config.initial, ParentPc.phase]
    · rfl
    · rfl
    · simp [Config.initial]
    · simp [Config.initial, ParentPc.phase]

theorem ledger_step {l : Label (Fin p.parallel)} (ledger : Ledger past cfg)
    (step : SystemStep p cfg l cfg') : Ledger (past ++ [l]) cfg' := by
  obtain ⟨choice, stepped⟩ := step
  cases choice with
  | parent k wild =>
    obtain ⟨⟨pe, cfg₁⟩, moved, same⟩ := Option.map_eq_some_iff.mp stepped
    obtain ⟨rfl, rfl⟩ := Prod.mk.inj same
    exact ledger_parentAdvance ledger moved
  | child c input =>
    obtain ⟨⟨e, cfg₁⟩, moved, same⟩ := Option.map_eq_some_iff.mp stepped
    obtain ⟨rfl, rfl⟩ := Prod.mk.inj same
    obtain ⟨s, s', step⟩ := childMove_of_childAdvance moved
    exact ⟨childLedger_childMove ledger step, parentLedger_childMove ledger step⟩

/-- **The account holds along every run.** -/
theorem ledger_of_run (run : Run (SystemStep p) (Config.initial p) past cfg) : Ledger past cfg :=
  run.invariant_history (ledger_initial p) fun _ _ _ _ _ ledger step => ledger_step ledger step

end Lmbench.Benchmp
