import Lmbench.Benchmp.Ledger
import Mathlib.Logic.Relation

/-!
# A run that reaches the end

What the parent waits for comes: with more than one child and at most one repetition
there is a run in which all children say 'ready', make their one measurement, and have
their records merged. The children are called one by one, so the run is put together
from three loops over them, and each round of a loop from steps of the parent and the
work of a single child.

While a child works on its own the pipes change for it alone. What it does there
depends on what is pending in them, so a run of the system is followed through
`Pending`, and the work of a child is a run over its state and `Pending`.

## Main results

* `Reached.worksOn` - the work of one child is part of a run of the system
* `exists_run_merged` - the merged set gets an entry from every child
-/

namespace Lmbench.Benchmp

open Lib Relation

/-- What is pending in the pipes; of the two signals, how many. -/
structure Pending (ι : Type) where
  response : List (Byte ι)
  startSignal : ℕ
  resultSignal : ℕ

/-- What an event of a child does to what is pending. -/
def Pending.perform {ι : Type} (pending : Pending ι) (c : ι) : Event → Option (Pending ι)
  | .getppid orphaned => if orphaned then none else some pending
  | .pollStart ready => if ready = decide (0 < pending.startSignal) then some pending else none
  | .readStart =>
    if 0 < pending.startSignal then some { pending with startSignal := pending.startSignal - 1 }
    else none
  | .writeReady => some { pending with response := pending.response ++ [.ready c] }
  | .writeDone => some { pending with response := pending.response ++ [.done c] }
  | .pollResult ready => if ready = decide (0 < pending.resultSignal) then some pending else none
  | .readResult =>
    if 0 < pending.resultSignal then some { pending with resultSignal := pending.resultSignal - 1 }
    else none
  | .writeResult r index =>
    some { pending with response := pending.response ++ [.result c r index] }
  -- no child is sent home here
  | .readExit => none
  | _ => some pending

section Definitions

variable {p : Params}

/-- What is pending in a configuration. -/
def Config.pending (cfg : Config p) : Pending (Fin p.parallel) where
  response := cfg.response.pending
  startSignal := cfg.startSignal.pending.length
  resultSignal := cfg.resultSignal.pending.length

/-- Child `c` makes one step. -/
def Works (p : Params) (c : Fin p.parallel) (a b : Child × Pending (Fin p.parallel)) : Prop :=
  ∃ input e, advance p a.1 input = some (e, b.1) ∧ a.2.perform c e = some b.2

/-- Some run of the system ends like this. -/
def Reached (parent : ParentPc (Fin p.parallel)) (merged : ResultT)
    (child : Fin p.parallel → Option Child) (pending : Pending (Fin p.parallel)) : Prop :=
  ∃ past cfg, Run (SystemStep p) (.initial p) past cfg ∧ cfg.parent = parent ∧
    cfg.merged = merged ∧ cfg.child = child ∧ cfg.pending = pending

/-- A child is about to be given its next batch, without a pending 'ready'. -/
structure Child.Between (s : Child) (state : BenchmpState) : Prop where
  begins : ∃ iterations, s.pc = .begin iterations
  warm : s.needWarmup = false
  state_eq : s.state = state

/-- A child that waits for its start signal. -/
def Child.Waiting (s : Child) : Prop := s.Between .warmup ∧ s.r = insertinit

/-- A child that has made its measurement and said 'done'. -/
def Child.Measured (s : Child) : Prop := s.Between .cooldown ∧ s.r.N = 1 ∧ s.r.Positive

end Definitions

variable {p : Params} {c : Fin p.parallel} {s s₁ : Child} {e : Event}
  {pending pending₁ : Pending (Fin p.parallel)} {b : Child × Pending (Fin p.parallel)}

/-! ### The work of a child -/

/-- A step whose answer and effect are known, and the rest of the work. -/
theorem Works.head (input : Input) (moved : advance p s input = some (e, s₁))
    (performed : pending.perform c e = some pending₁)
    (rest : ReflTransGen (Works p c) (s₁, pending₁) b) :
    ReflTransGen (Works p c) (s, pending) b :=
  .head ⟨input, e, moved, performed⟩ rest

theorem perform_callIf (pending : Pending (Fin p.parallel)) (present : Bool) (callback : Callback)
    (iterations : ℕ) : pending.perform c (callIf p present callback iterations) = some pending := by
  unfold callIf
  split <;> rfl

/-- The clock reads `elapsed`, and the poll says `ready`. -/
def polled (elapsed : ℕ) (ready : Bool) : Input := { answer elapsed with ready := ready }

/-- A child behind a batch of which the clock read `elapsed`. -/
def Child.behind (p : Params) (s : Child) (elapsed : ℕ) : Child :=
  { s.beforeCleanup p with
    savedN := s.iterations
    savedTime := p.corrected elapsed s.iterations
    pc := .switch (elapsed - p.overhead s.iterations) }

/-- One batch, up to the decision what to do with the measurement. -/
theorem worksOn_batch (elapsed : ℕ) (begins : ∃ iterations, s.pc = .begin iterations)
    (warm : s.needWarmup = false) :
    ReflTransGen (Works p c) (s, pending) (s.behind p elapsed, pending) := by
  obtain ⟨iterations, here⟩ := begins
  cases s
  subst here warm
  -- initialize, start, benchmark, stop, cleanup and the look for the parent
  apply Works.head (answer elapsed) rfl (perform_callIf ..)
  apply Works.head (answer elapsed) rfl rfl
  apply Works.head (answer elapsed) rfl rfl
  apply Works.head (answer elapsed) rfl rfl
  apply Works.head (answer elapsed) rfl (perform_callIf ..)
  apply Works.head (answer elapsed) rfl rfl
  exact .refl

/-- A child that finds no start signal says 'ready'. -/
theorem exists_waiting (unsignalled : pending.startSignal = 0) :
    ∃ s, s.Waiting ∧ ReflTransGen (Works p c) (initial p, pending)
      (s, { pending with response := pending.response ++ [.ready c] }) := by
  cases pending
  subst unsignalled
  refine ⟨{ (initial p).armSigterm p with needWarmup := false, pc := .begin p.iterationsBatch },
    ⟨⟨⟨p.iterationsBatch, rfl⟩, rfl, rfl⟩, rfl⟩, ?_⟩
  apply Works.head (polled 0 false) rfl (perform_callIf ..)
  apply Works.head (polled 0 false) rfl rfl
  apply Works.head (polled 0 false) rfl rfl
  apply Works.head (polled 0 false) rfl rfl
  apply Works.head (polled 0 false) rfl rfl
  apply Works.head (polled 0 false) rfl rfl
  exact .refl

/-- Some reading of the clock is more than the overhead. -/
theorem exists_corrected_ne_zero (p : Params) (n : ℕ) : ∃ elapsed, p.corrected elapsed n ≠ 0 := by
  refine ⟨⌈p.overhead n⌉.toNat + 1, ?_⟩
  have above : p.overhead n ≤ ⌈p.overhead n⌉.toNat :=
    (Int.le_ceil _).trans (by exact_mod_cast Int.self_le_toNat _)
  have one : 1 ≤ ⌊max 0 (((⌈p.overhead n⌉.toNat + 1 : ℕ) : ℚ) - p.overhead n)⌋ := by
    apply Int.le_floor.mpr
    apply le_max_of_le_right
    push_cast
    linarith
  unfold Params.corrected
  omega

/-- With several children the number of iterations stays what it is. -/
theorem Child.retune_of_several (several : 1 < p.parallel) (result : ℚ) (wild : ℕ) :
    s.retune p result wild = s :=
  if_neg fun tuned => several.ne' tuned.1

/-- A child that finds a start signal begins to measure. -/
theorem exists_timing (waiting : s.Waiting) (signalled : pending.startSignal = 1) :
    ∃ s', (s'.Between .timingInterval ∧ s'.r = insertinit) ∧
      ReflTransGen (Works p c) (s, pending) (s', { pending with startSignal := 0 }) := by
  obtain ⟨⟨begins, warm, state⟩, fresh⟩ := waiting
  have batch : ReflTransGen (Works p c) (s, pending) (s.behind p 0, pending) :=
    worksOn_batch 0 begins warm
  refine ⟨{ s.behind p 0 with state := .timingInterval, pc := .begin s.iterations },
    ⟨⟨⟨s.iterations, rfl⟩, warm, rfl⟩, fresh⟩, batch.trans ?_⟩
  cases s
  cases pending
  subst signalled warm state
  apply Works.head (polled 0 true) rfl rfl
  apply Works.head (polled 0 true) rfl rfl
  apply Works.head (polled 0 true) rfl rfl
  exact .refl

/-- A child that measures makes its one measurement and says 'done'. -/
theorem exists_measured (several : 1 < p.parallel) (single : p.repetitions ≤ 1)
    (timing : s.Between .timingInterval) (fresh : s.r = insertinit) :
    ∃ s', s'.Measured ∧ ReflTransGen (Works p c) (s, pending)
        (s', { pending with response := pending.response ++ [.done c] }) := by
  obtain ⟨begins, warm, state⟩ := timing
  obtain ⟨elapsed, nonzero⟩ := exists_corrected_ne_zero p s.iterations
  have batch : ReflTransGen (Works p c) (s, pending) (s.behind p elapsed, pending) :=
    worksOn_batch elapsed begins warm
  have cooled : ((s.behind p elapsed).record p).state = .cooldown :=
    if_pos (single.trans (Nat.le_add_left 1 _))
  have filed : ((s.behind p elapsed).record p).r =
      ⟨[⟨p.corrected elapsed s.iterations, s.iterations⟩]⟩ := by
    simp [Child.record, Child.behind, Child.beforeCleanup, fresh, insertsort, insertinit,
      insertEntry, nonzero]
  -- any positive time counts, because there are several children
  refine ⟨{ (s.behind p elapsed).record p with pc := .begin p.iterationsBatch },
    ⟨⟨⟨p.iterationsBatch, rfl⟩, warm, cooled⟩, ?_, ?_⟩, batch.trans ?_⟩
  · simp only [filed]
    rfl
  · simp [ResultT.Positive, filed, nonzero]
  · have switched : advance p (s.behind p elapsed) (answer elapsed) =
        some (.insert (s.behind p elapsed).savedTime (s.behind p elapsed).savedN,
          { (s.behind p elapsed).record p with
            pc := .retune (elapsed - p.overhead s.iterations) }) := by
      simp [advance, Child.behind, Child.beforeCleanup, state, several]
    apply Works.head (answer elapsed) switched rfl
    have tuned : advance p { (s.behind p elapsed).record p with
          pc := .retune (elapsed - p.overhead s.iterations) } (answer elapsed) =
        some (.tau, { (s.behind p elapsed).record p with pc := .reportDone }) := by
      simp [advance, Child.retune_of_several several, cooled]
    apply Works.head (answer elapsed) tuned rfl
    apply Works.head (answer elapsed) rfl rfl
    exact .refl

/-- A record is written byte by byte. -/
theorem worksOn_sendResults (here : s.pc = .sendResults 0) {sent : ℕ} (inside : sent < p.rSize) :
    ReflTransGen (Works p c) (s, pending) ({ s with pc := .sendResults sent },
      { pending with response := pending.response ++ record sent c s.r }) := by
  induction sent with
  | zero =>
    cases s
    subst here
    simp only [record, List.range_zero, List.map_nil, List.append_nil]
    exact .refl
  | succ sent ih =>
    have moved : advance p { s with pc := .sendResults sent } (answer 0) =
        some (.writeResult s.r sent, { s with pc := .sendResults (sent + 1) }) := by
      simp [advance, inside]
    refine (ih (Nat.lt_of_succ_lt inside)).tail ⟨answer 0, _, moved, ?_⟩
    simp [Pending.perform, record, List.range_succ]

/-- A child that is called sends its record. -/
theorem exists_sent (measured : s.Measured) (called : pending.resultSignal = 1) :
    ∃ s', ReflTransGen (Works p c) (s, pending)
      (s', { pending with
        response := pending.response ++ record p.rSize c s.r
        resultSignal := 0 }) := by
  obtain ⟨⟨begins, warm, state⟩, -⟩ := measured
  have batch : ReflTransGen (Works p c) (s, pending) (s.behind p 0, pending) :=
    worksOn_batch 0 begins warm
  refine ⟨{ s.behind p 0 with pc := .finish }, batch.trans ?_⟩
  -- the signal is seen and read
  have asked : advance p (s.behind p 0) (polled 0 true) =
      some (.pollResult true, { s.behind p 0 with pc := .takeResult }) := by
    simp [advance, Child.behind, Child.beforeCleanup, state, polled]
  have seen : pending.perform c (.pollResult true) = some pending := by
    simp [Pending.perform, called]
  have read : pending.perform c .readResult = some { pending with resultSignal := 0 } := by
    simp [Pending.perform, called]
  apply Works.head (polled 0 true) asked seen
  apply Works.head (answer 0) rfl read
  -- the last byte of the record ends the sending
  obtain ⟨last, size⟩ : ∃ last, p.rSize = last + 1 :=
    Nat.exists_eq_succ_of_ne_zero p.rSize_pos.ne'
  have moved : advance p { s.behind p 0 with pc := .sendResults last } (answer 0) =
      some (.writeResult s.r last, { s.behind p 0 with pc := .finish }) := by
    simp only [advance, size, Nat.lt_irrefl, if_false]
    rfl
  refine (worksOn_sendResults rfl (by omega)).tail ⟨answer 0, _, moved, ?_⟩
  simp only [Pending.perform, size, record, List.range_succ, List.map_append, List.map_cons,
    List.map_nil, List.append_assoc]
  rfl

/-! ### From the child to the system -/

variable {parent : ParentPc (Fin p.parallel)} {merged : ResultT}
  {child : Fin p.parallel → Option Child}

theorem decide_length_pos {α : Type} (l : List α) : decide (0 < l.length) = !l.isEmpty := by
  cases l <;> simp

/-- What an event does to what is pending, it does to the pipes. -/
theorem exists_perform {cfg : Config p} (performed : cfg.pending.perform c e = some pending) :
    ∃ cfg₁, cfg.perform c e = some cfg₁ ∧ cfg₁.pending = pending := by
  cases e with
  | getppid orphaned =>
    cases orphaned with
    | true => cases performed
    | false => exact ⟨cfg, rfl, Option.some.inj performed⟩
  | pollStart ready =>
    obtain ⟨answer, same⟩ := Option.ite_none_right_eq_some.mp performed
    exact ⟨cfg, if_pos (answer.trans (decide_length_pos _)), Option.some.inj same⟩
  | pollResult ready =>
    obtain ⟨answer, same⟩ := Option.ite_none_right_eq_some.mp performed
    exact ⟨cfg, if_pos (answer.trans (decide_length_pos _)), Option.some.inj same⟩
  | readStart =>
    obtain ⟨available, same⟩ := Option.ite_none_right_eq_some.mp performed
    obtain ⟨pipe, got, rest⟩ := cfg.startSignal.exists_read Nat.one_pos available
    refine ⟨{ cfg with startSignal := pipe }, by simp [Config.perform, got], ?_⟩
    rw [← Option.some.inj same]
    simp [Config.pending, rest]
  | readResult =>
    obtain ⟨available, same⟩ := Option.ite_none_right_eq_some.mp performed
    obtain ⟨pipe, got, rest⟩ := cfg.resultSignal.exists_read Nat.one_pos available
    refine ⟨{ cfg with resultSignal := pipe }, by simp [Config.perform, got], ?_⟩
    rw [← Option.some.inj same]
    simp [Config.pending, rest]
  | readExit => cases performed
  | writeReady | writeDone | writeResult =>
    obtain rfl := Option.some.inj performed
    exact ⟨_, rfl, by simp [Config.pending, Fifo.pending_write]⟩
  | _ => exact ⟨cfg, rfl, Option.some.inj performed⟩

/-- **The work of one child is part of a run of the system.** -/
theorem Reached.worksOn (reached : Reached parent merged child pending) (here : child c = some s)
    (worked : ReflTransGen (Works p c) (s, pending) b) :
    Reached parent merged (Function.update child c (some b.1)) b.2 := by
  induction worked with
  | refl =>
    rw [← here, Function.update_eq_self]
    exact reached
  | @tail a b _ step ih =>
    obtain ⟨past, cfg, run, atParent, atMerged, atChild, atPending⟩ := ih
    obtain ⟨input, e, moved, performed⟩ := step
    rw [← atPending] at performed
    obtain ⟨cfg₁, allowed, after⟩ := exists_perform performed
    have forked : cfg.child c = some a.1 := by rw [atChild, Function.update_self]
    have stepped : childAdvance p cfg c input = some (e, cfg₁.moveChild c a.1 b.1) := by
      simp [childAdvance, forked, moved, allowed]
    have kept := performs_of_perform allowed
    have taken : SystemStep p cfg (.child c e) (cfg₁.moveChild c a.1 b.1) :=
      ⟨.child c input, by simp [systemAdvance, stepped]⟩
    refine ⟨_, _, run.snoc taken, kept.parent.trans atParent, kept.merged.trans atMerged, ?_, after⟩
    simp only [Config.moveChild, kept.child, atChild, Function.update_idem]

/-! ### Steps of the parent -/

theorem Reached.parentStep {parent' : ParentPc (Fin p.parallel)} {merged' : ResultT}
    {child' : Fin p.parallel → Option Child} {pending' : Pending (Fin p.parallel)}
    (reached : Reached parent merged child pending) (k : ℕ)
    (moves : ∀ cfg : Config p, cfg.parent = parent → cfg.merged = merged → cfg.child = child →
      cfg.pending = pending → ∃ pe cfg', parentAdvance p cfg k insertinit = some (pe, cfg') ∧
        cfg'.parent = parent' ∧ cfg'.merged = merged' ∧ cfg'.child = child' ∧
          cfg'.pending = pending') :
    Reached parent' merged' child' pending' := by
  obtain ⟨past, cfg, run, atParent, atMerged, atChild, atPending⟩ := reached
  obtain ⟨pe, cfg', moved, after⟩ := moves cfg atParent atMerged atChild atPending
  have taken : SystemStep p cfg (.parent pe) cfg' :=
    ⟨.parent k insertinit, by simp [systemAdvance, moved]⟩
  exact ⟨_, _, run.snoc taken, after⟩

/-- A read that takes all there is. -/
theorem Reached.readAll {parent' : ParentPc (Fin p.parallel)} {k : ℕ}
    (reached : Reached parent merged child pending) (positive : 0 < k)
    (available : pending.response.length = k)
    (reads : ∀ cfg cfg₁ : Config p, cfg.parent = parent →
      cfg.readResponse k k = some (pending.response, cfg₁) →
        ∃ pe, parentAdvance p cfg k insertinit = some (pe, { cfg₁ with parent := parent' })) :
    Reached parent' merged child { pending with response := [] } := by
  refine reached.parentStep k fun cfg atParent atMerged atChild atPending => ?_
  subst atPending
  obtain ⟨response, got, rest⟩ := cfg.response.exists_read positive available.ge
  have whole : cfg.response.pending.take k = cfg.pending.response :=
    List.take_of_length_le available.le
  have nothing : response.pending = [] := rest.trans (List.drop_of_length_le available.le)
  have read : cfg.readResponse k k =
      some (cfg.pending.response, { cfg with response := response }) := by
    rw [Config.readResponse, if_pos le_rfl, got, whole]
    rfl
  obtain ⟨pe, moved⟩ := reads cfg _ atParent read
  exact ⟨pe, _, moved, rfl, atMerged, atChild, by simp only [Config.pending, nothing]⟩

theorem Reached.fork {i : ℕ} (reached : Reached (.forking i) merged child pending)
    (inside : i < p.parallel) :
    Reached (.forking (i + 1)) merged
      (Function.update child ⟨i, inside⟩ (some (initial p))) pending := by
  refine reached.parentStep 0 fun cfg atParent atMerged atChild atPending => ?_
  simp only [parentAdvance, atParent, inside, dif_pos]
  exact ⟨_, _, rfl, rfl, atMerged, congrArg (Function.update · _ _) atChild, atPending⟩

/-- The 'ready' bytes are read, all at once. -/
theorem Reached.collectReady (reached : Reached (.forking p.parallel) merged child pending)
    (positive : 0 < p.parallel) (complete : pending.response.length = p.parallel) :
    Reached (.sendStart 0) merged child { pending with response := [] } := by
  have reading : Reached (.ready 0) merged child pending := by
    refine reached.parentStep 0 fun cfg atParent atMerged atChild atPending => ?_
    simp only [parentAdvance, atParent, Nat.lt_irrefl, dif_neg, not_false_eq_true]
    exact ⟨_, _, rfl, rfl, atMerged, atChild, atPending⟩
  have read : Reached (.ready p.parallel) merged child { pending with response := [] } := by
    refine reading.readAll positive complete fun cfg cfg₁ atParent got =>
      ⟨.readReady pending.response, ?_⟩
    simp only [parentAdvance, atParent, positive, if_true, Nat.sub_zero, got, Option.map_some,
      Nat.zero_add]
  refine read.parentStep 0 fun cfg atParent atMerged atChild atPending => ?_
  simp only [parentAdvance, atParent, Nat.lt_irrefl, if_false]
  exact ⟨_, _, rfl, rfl, atMerged, atChild, atPending⟩

theorem Reached.sendStart {i : ℕ} (reached : Reached (.sendStart i) merged child pending)
    (inside : i < p.parallel) :
    Reached (.sendStart (i + 1)) merged child
      { pending with startSignal := pending.startSignal + 1 } := by
  refine reached.parentStep 0 fun cfg atParent atMerged atChild atPending => ?_
  subst atPending
  simp only [parentAdvance, atParent, inside, if_true]
  exact ⟨_, _, rfl, rfl, atMerged, atChild, by simp [Config.pending, Fifo.pending_write]⟩

/-- The 'done' bytes are read, all at once. -/
theorem Reached.collectDone (reached : Reached (.sendStart p.parallel) merged child pending)
    (positive : 0 < p.parallel) (complete : pending.response.length = p.parallel) :
    Reached (.tell 0) insertinit child { pending with response := [] } := by
  have reading : Reached (.done 0) merged child pending := by
    refine reached.parentStep 0 fun cfg atParent atMerged atChild atPending => ?_
    simp only [parentAdvance, atParent, Nat.lt_irrefl, if_false]
    exact ⟨_, _, rfl, rfl, atMerged, atChild, atPending⟩
  have read : Reached (.done p.parallel) merged child { pending with response := [] } := by
    refine reading.readAll positive complete fun cfg cfg₁ atParent got =>
      ⟨.readDone pending.response, ?_⟩
    simp only [parentAdvance, atParent, positive, if_true, Nat.sub_zero, got, Option.map_some,
      Nat.zero_add]
  refine read.parentStep 0 fun cfg atParent atMerged atChild atPending => ?_
  simp only [parentAdvance, atParent, Nat.lt_irrefl, if_false]
  exact ⟨_, _, rfl, rfl, rfl, atChild, atPending⟩

theorem Reached.tell {i : ℕ} (reached : Reached (.tell i) merged child pending)
    (inside : i < p.parallel) :
    Reached (.collect i []) merged child
      { pending with resultSignal := pending.resultSignal + 1 } := by
  refine reached.parentStep 0 fun cfg atParent atMerged atChild atPending => ?_
  subst atPending
  simp only [parentAdvance, atParent, inside, if_true]
  exact ⟨_, _, rfl, rfl, atMerged, atChild, by simp [Config.pending, Fifo.pending_write]⟩

/-- A whole record is read at once and merged. -/
theorem Reached.merge {i : ℕ} {r : ResultT}
    (reached : Reached (.collect i []) merged child pending)
    (complete : pending.response = record p.rSize c r) :
    Reached (.tell (i + 1)) (insertAll r.v merged) child { pending with response := [] } := by
  have length : pending.response.length = p.rSize := by rw [complete, length_record]
  have read : Reached (.collect i pending.response) merged child
      { pending with response := [] } := by
    refine reached.readAll p.rSize_pos length fun cfg cfg₁ atParent got =>
      ⟨.readResult pending.response, ?_⟩
    simp only [parentAdvance, atParent, List.length_nil, p.rSize_pos, if_true, Nat.sub_zero, got,
      Option.map_some, List.nil_append]
  refine read.parentStep 0 fun cfg atParent atMerged atChild atPending => ?_
  simp only [parentAdvance, atParent, complete, length_record, Nat.lt_irrefl, if_false,
    decode_record p.rSize_pos, Option.getD_some]
  exact ⟨_, _, rfl, rfl, congrArg (insertAll r.v) atMerged, atChild, atPending⟩

/-! ### The three loops -/

section Loops

variable {status : Child → Prop} {i : ℕ} (inside : i < p.parallel)
include inside

/-- A round brings one more child to a status. -/
theorem forall_lt_succ (reachedBy : status s)
    (before : ∀ c : Fin p.parallel, c.val < i → ∃ t ∈ child c, status t) (c : Fin p.parallel)
    (below : c.val < i + 1) :
    ∃ t ∈ Function.update child ⟨i, inside⟩ (some s) c, status t := by
  by_cases last : c = ⟨i, inside⟩
  · subst last
    exact ⟨s, Function.update_self .., reachedBy⟩
  · rw [Function.update_of_ne last]
    exact before c (Nat.lt_of_le_of_ne (Nat.le_of_lt_succ below) fun same => last (Fin.ext same))

/-- The children behind it keep theirs. -/
theorem forall_succ_le (before : ∀ c : Fin p.parallel, i ≤ c.val → ∃ t ∈ child c, status t)
    (c : Fin p.parallel) (above : i + 1 ≤ c.val) :
    ∃ t ∈ Function.update child ⟨i, inside⟩ (some s) c, status t := by
  have other : c ≠ ⟨i, inside⟩ := by
    rintro rfl
    exact Nat.not_succ_le_self i above
  rw [Function.update_of_ne other]
  exact before c (Nat.le_of_succ_le above)

end Loops

/-- The parent forks child after child, and each says 'ready'. -/
theorem exists_forked {i : ℕ} (within : i ≤ p.parallel) :
    ∃ (child : Fin p.parallel → Option Child) (response : List (Byte (Fin p.parallel))),
      (∀ c : Fin p.parallel, c.val < i → ∃ s ∈ child c, s.Waiting) ∧ response.length = i ∧
        Reached (.forking i) insertinit child ⟨response, 0, 0⟩ := by
  induction i with
  | zero =>
    exact ⟨fun _ => none, [], fun c below => absurd below (Nat.not_lt_zero _), rfl,
      [], .initial p, .nil, rfl, rfl, rfl, rfl⟩
  | succ i ih =>
    obtain ⟨child, response, waiting, length, reached⟩ := ih (Nat.le_of_succ_le within)
    -- no start signal is sent before all are forked
    obtain ⟨s, waits, worked⟩ : ∃ s, s.Waiting ∧ ReflTransGen (Works p ⟨i, within⟩)
        (initial p, ⟨response, 0, 0⟩) (s, ⟨response ++ [.ready ⟨i, within⟩], 0, 0⟩) :=
      exists_waiting rfl
    have after := (reached.fork within).worksOn (Function.update_self ..) worked
    rw [Function.update_idem] at after
    exact ⟨_, _, forall_lt_succ within waits waiting, by simp [length], after⟩

/-- The parent starts child after child, and each measures. -/
theorem exists_started (several : 1 < p.parallel) (single : p.repetitions ≤ 1) {i : ℕ}
    (within : i ≤ p.parallel) :
    ∃ (child : Fin p.parallel → Option Child) (response : List (Byte (Fin p.parallel))),
      (∀ c : Fin p.parallel, c.val < i → ∃ s ∈ child c, s.Measured) ∧
        (∀ c : Fin p.parallel, i ≤ c.val → ∃ s ∈ child c, s.Waiting) ∧ response.length = i ∧
          Reached (.sendStart i) insertinit child ⟨response, 0, 0⟩ := by
  induction i with
  | zero =>
    obtain ⟨child, response, waiting, length, reached⟩ := exists_forked (p := p) le_rfl
    exact ⟨child, [], fun c below => absurd below (Nat.not_lt_zero _),
      fun c _ => waiting c c.isLt, rfl, reached.collectReady (Nat.zero_lt_of_lt several) length⟩
  | succ i ih =>
    obtain ⟨child, response, measured, waiting, length, reached⟩ := ih (Nat.le_of_succ_le within)
    obtain ⟨s, here, waits⟩ := waiting ⟨i, within⟩ le_rfl
    obtain ⟨t, ⟨timing, fresh⟩, started⟩ : ∃ t, (t.Between .timingInterval ∧ t.r = insertinit) ∧
        ReflTransGen (Works p ⟨i, within⟩) (s, ⟨response, 1, 0⟩) (t, ⟨response, 0, 0⟩) :=
      exists_timing waits rfl
    obtain ⟨s', measures, worked⟩ : ∃ s', s'.Measured ∧ ReflTransGen (Works p ⟨i, within⟩)
        (t, ⟨response, 0, 0⟩) (s', ⟨response ++ [.done ⟨i, within⟩], 0, 0⟩) :=
      exists_measured several single timing fresh
    exact ⟨_, _, forall_lt_succ within measures measured, forall_succ_le within waiting,
      by simp [length], (reached.sendStart within).worksOn here (started.trans worked)⟩

/-- Merging a set of one entry adds one. -/
theorem N_insertAll_of_one {r : ResultT} (one : r.N = 1) (positive : r.Positive)
    (merged : ResultT) : (insertAll r.v merged).N = merged.N + 1 := by
  have cards := congrArg Multiset.card (coe_insertAll positive merged)
  rw [Multiset.card_add, Multiset.coe_card, Multiset.coe_card, Multiset.coe_card] at cards
  rw [ResultT.N] at one
  rw [ResultT.N, cards, one, Nat.add_comm]
  rfl

/-- The parent calls child after child, and each adds one entry. -/
theorem exists_told (several : 1 < p.parallel) (single : p.repetitions ≤ 1) {i : ℕ}
    (within : i ≤ p.parallel) :
    ∃ (child : Fin p.parallel → Option Child) (merged : ResultT),
      (∀ c : Fin p.parallel, i ≤ c.val → ∃ s ∈ child c, s.Measured) ∧ merged.N = i ∧
        Reached (.tell i) merged child ⟨[], 0, 0⟩ := by
  induction i with
  | zero =>
    obtain ⟨child, response, measured, -, length, reached⟩ :=
      exists_started several single (le_refl p.parallel)
    exact ⟨child, insertinit, fun c _ => measured c c.isLt, rfl,
      reached.collectDone (Nat.zero_lt_of_lt several) length⟩
  | succ i ih =>
    obtain ⟨child, merged, measured, size, reached⟩ := ih (Nat.le_of_succ_le within)
    obtain ⟨s, here, measures⟩ := measured ⟨i, within⟩ le_rfl
    obtain ⟨s', worked⟩ : ∃ s', ReflTransGen (Works p ⟨i, within⟩) (s, ⟨[], 0, 1⟩)
        (s', ⟨[] ++ record p.rSize ⟨i, within⟩ s.r, 0, 0⟩) := exists_sent measures rfl
    -- only the child called finds a result signal, and its record is all there is to read
    have sent := (reached.tell within).worksOn here worked
    refine ⟨_, insertAll s.r.v merged, forall_succ_le within measured, ?_, sent.merge rfl⟩
    rw [N_insertAll_of_one measures.2.1 measures.2.2, size]

/-- **The parent's wait can end.** With several children and at most one repetition
there is a run at the end of which the merged set has an entry from every child. -/
theorem exists_run_merged (several : 1 < p.parallel) (single : p.repetitions ≤ 1) :
    ∃ past cfg, Run (SystemStep p) (.initial p) past cfg ∧ cfg.parent = .tell p.parallel ∧
      cfg.merged.N = p.parallel := by
  obtain ⟨child, merged, -, size, past, cfg, run, atParent, rfl, -⟩ :=
    exists_told several single (le_refl p.parallel)
  exact ⟨past, cfg, run, atParent, size⟩

end Lmbench.Benchmp
