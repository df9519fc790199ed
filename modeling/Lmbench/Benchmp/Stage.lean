import Lmbench.Benchmp.Interval

/-!
# The stages of a child

Of everything a child does, the protocol with the parent depends on a few facts
only: whether it has said 'ready', how far it is from there to its exit, and the
result set it will send. `Child.stage` keeps these, and `stage_move` says that a
child in a system without signals follows the stage machine `Stage.Move`.

## Main results

* `stage_move` - a step of a child is a move of its stage
* `regular_move` - the invariant under which this holds
* `Child.Regular.record_fits` - a result set has room in a record
-/

namespace Lmbench.Benchmp

open Lib

/-- How far a child is. `starting` has seen the start signal and not read it,
`cooling` has still to say 'done', and `called` has seen the result signal and not
read it. -/
inductive Stage
  | warming
  | starting
  | timing
  | cooling
  | idle
  | called
  | sending (written : ℕ)
  | sent
  | leaving
deriving DecidableEq, Repr

/-- The stages in their order. -/
def Stage.rank : Stage → ℕ
  | .warming => 0
  | .starting => 1
  | .timing => 2
  | .cooling => 3
  | .idle => 4
  | .called => 5
  | .sending _ => 6
  | .sent => 7
  | .leaving => 8

/-- The bytes of its record that a child has written. -/
def Stage.progress (size : ℕ) : Stage → ℕ
  | .sending written => written
  | .sent | .leaving => size
  | _ => 0

/-- The stage of a child. -/
def Child.stage (c : Child) : Stage :=
  match c.state, c.pc with
  | .warmup, _ => .warming
  | .timingInterval, .takeStart => .starting
  | .timingInterval, _ => .timing
  | .cooldown, .retune _ | .cooldown, .reportDone => .cooling
  | .cooldown, .takeResult => .called
  | .cooldown, .sendResults sent => .sending sent
  | .cooldown, .finish | .cooldown, .takeExit => .sent
  | .cooldown, .exiting _ | .cooldown, .exited _ => .leaving
  -- between its 'done' and the result signal a child keeps on running the benchmark
  | .cooldown, _ => .idle

/-- An event that involves no pipe. -/
def Event.Inner : Event → Prop
  | .tau | .call .. | .stop _ | .getppid _ | .insert .. | .start _ | .exit _ => True
  | _ => False

theorem Event.Inner.ne {e e' : Event} (inner : e.Inner) (outer : ¬e'.Inner) : e ≠ e' := by
  rintro rfl
  exact outer inner

/-- The moves between stages of a child that sends the set `r` in `size` bytes. -/
inductive Stage.Move (size : ℕ) (r : ResultT) : Stage → Event → Stage → Prop
  | inner {s : Stage} {e : Event} (inner : e.Inner) : Move size r s e s
  -- by the last measurement or by a count that has become too large
  | cool {e : Event} (inner : e.Inner) : Move size r .timing e .cooling
  | notStarted : Move size r .warming (.pollStart false) .warming
  | started : Move size r .warming (.pollStart true) .starting
  | takeStart : Move size r .starting .readStart .timing
  | ready {s : Stage} (working : s = .warming ∨ s = .timing) : Move size r s .writeReady s
  | done : Move size r .cooling .writeDone .idle
  | notCalled : Move size r .idle (.pollResult false) .idle
  | called : Move size r .idle (.pollResult true) .called
  | takeResult : Move size r .called .readResult (.sending 0)
  | send {k : ℕ} (more : k + 1 < size) :
      Move size r (.sending k) (.writeResult r k) (.sending (k + 1))
  | sendLast {k : ℕ} (last : k + 1 = size) :
      Move size r (.sending k) (.writeResult r k) .sent
  | leave : Move size r .sent .readExit .leaving

/-- What holds of a child that received no signal and whose parent lives. -/
structure Child.Regular (p : Params) (c : Child) : Prop where
  placed : c.Placed p
  unsignalled : c.sigtermReceived = false
  positive : c.r.Positive
  entries : c.r.N ≤ c.i
  room : c.i ≤ max 1 p.repetitions
  more : c.state ≠ .cooldown → c.i < max 1 p.repetitions
  onPath : match c.pc with
    | .orphaned | .handler _ => False
    | .sendResults sent => sent < p.rSize
    | .exiting _ | .exited _ => c.state = .cooldown
    | _ => True

variable {p : Params} {c c' : Child} {e : Event}

/-- The result set fits the record that `sizeof_result` allocates. -/
theorem Child.Regular.record_fits (regular : c.Regular p) :
    p.rHeader + c.r.N * 16 ≤ p.rSize := by
  have entries := regular.entries
  have room := regular.room
  unfold Params.rSize sizeofResult tries
  split <;> omega

theorem regular_initial (p : Params) : (initial p).Regular p where
  placed := placed_initial p
  unsignalled := rfl
  positive := .insertinit
  entries := le_rfl
  room := Nat.zero_le _
  more := fun _ => by simp [initial]
  onPath := trivial

/-- Only a timing child changes its result set. -/
theorem r_move (move : Move p c e c') : c.state = .timingInterval ∨ c'.r = c.r := by
  cases move with
  | record here timing enough => exact .inl timing
  | armReceived here received =>
    refine .inr ?_
    unfold Child.enterSigterm
    split <;> rfl
  | keepTiming | coolDown => exact .inr (c.retune_r _ _)
  | _ => exact .inr rfl

theorem inner_callIf (present : Bool) (callback : Callback) (iterations : ℕ) :
    (callIf p present callback iterations).Inner := by
  unfold callIf
  split <;> trivial

theorem regular_move (regular : c.Regular p) (alive : e ≠ .getppid true)
    (move : Move p c e c') : c'.Regular p := by
  have placed := placed_move regular.placed move
  have unsignalled := quiet_move regular.unsignalled move
  obtain ⟨before, _, positive, entries, room, more, onPath⟩ := regular
  cases move with
  | armReceived here received => simp_all
  | parentDied => exact absurd rfl alive
  | record here timing enough =>
    -- there is room for one more, and the last one ends the timing
    have timed : c.i < max 1 p.repetitions := more (by simp [timing])
    have grown := N_insertsort_le c.savedTime c.savedN c.r
    refine ⟨placed, unsignalled, positive.insertsort _ _, ?_, ?_, ?_, trivial⟩
    · simp only [Child.record]
      omega
    · simp only [Child.record]
      omega
    · simp only [Child.record]
      split_ifs with reached
      · exact fun going => absurd rfl going
      · intro _
        omega
  | @keepTiming result here wild timing =>
    obtain ⟨_, iterations, same⟩ := before.retune_going here timing
    rw [same] at placed unsignalled ⊢
    exact ⟨placed, unsignalled, positive, entries, room, more, trivial⟩
  | @coolDown result here wild cooling =>
    obtain ⟨iterations, state, same, _⟩ := c.retune_cases (p := p) result wild
    rw [same] at cooling placed unsignalled ⊢
    exact ⟨placed, unsignalled, positive, entries, room, fun going => absurd cooling going,
      trivial⟩
  | startReady here warming =>
    exact ⟨placed, unsignalled, positive, entries, room, fun _ => more (by simp [warming]),
      trivial⟩
  | takeResult here =>
    exact ⟨placed, unsignalled, positive, entries, room, more, p.rSize_pos⟩
  | sendMore here again =>
    exact ⟨placed, unsignalled, positive, entries, room, more, again⟩
  | takeExit here =>
    simp only [Child.Placed, here] at before
    exact ⟨placed, unsignalled, positive, entries, room, more, before.2⟩
  | exit here =>
    simp only [here] at onPath
    exact ⟨placed, unsignalled, positive, entries, room, more, onPath⟩
  | orphaned here => simp [here] at onPath
  | handler here => simp [here] at onPath
  | _ => exact ⟨placed, unsignalled, positive, entries, room, more, trivial⟩

theorem Stage.Move.of_eq {size : ℕ} {r : ResultT} {s s' t t' : Stage} (before : s = t)
    (after : s' = t') (move : Stage.Move size r t e t') : Stage.Move size r s e s' :=
  before ▸ after ▸ move

/-- A count that has become too large ends the timing; after that it changes nothing. -/
theorem stage_cooled {result : ℚ} {wild : ℕ} (here : c.pc = .retune result)
    (warm : c.state ≠ .warmup) (cooling : (c.retune p result wild).state = .cooldown) :
    Stage.Move p.rSize c.r c.stage .tau
      ({ c.retune p result wild with pc := .reportDone } : Child).stage := by
  obtain ⟨iterations, state, same, _⟩ := c.retune_cases (p := p) result wild
  rw [same] at cooling ⊢
  have after : ({ c with iterations := iterations, state := state, pc := .reportDone } :
      Child).stage = .cooling := by simp_all [Child.stage]
  cases now : c.state with
  | warmup => exact absurd now warm
  | timingInterval => exact .of_eq (by simp [Child.stage, here, now]) after (.cool trivial)
  | cooldown => exact .of_eq (by simp [Child.stage, here, now]) after (.inner trivial)

/-- 'ready' is said in the first call, which may have seen the start signal. -/
theorem stage_ready {iterations : ℕ} (here : c.pc = .reportReady iterations)
    (going : c.state ≠ .cooldown) :
    Stage.Move p.rSize c.r c.stage .writeReady
      ({ c with needWarmup := false, pc := .begin iterations } : Child).stage := by
  cases state : c.state with
  | warmup =>
    exact .of_eq (by simp [Child.stage, state]) (by simp [Child.stage]) (.ready (.inl rfl))
  | timingInterval =>
    exact .of_eq (by simp [Child.stage, here, state]) (by simp [Child.stage])
      (.ready (.inr rfl))
  | cooldown => exact absurd state going

/-- **A child follows the stage machine.** -/
theorem stage_move (regular : c.Regular p) (alive : e ≠ .getppid true) (move : Move p c e c') :
    Stage.Move p.rSize c.r c.stage e c'.stage := by
  obtain ⟨placed, unsignalled, _, _, _, _, onPath⟩ := regular
  cases move with
  | armReceived here received => simp_all
  | parentDied => exact absurd rfl alive
  | orphaned here => simp [here] at onPath
  | handler here => simp [here] at onPath
  | startReady here warming =>
    exact .of_eq (by simp [Child.stage, warming]) rfl .started
  | startNotReady here warming =>
    exact .of_eq (by simp [Child.stage, warming]) (by simp [Child.stage, warming]) .notStarted
  | takeStart here =>
    simp only [Child.Placed, here] at placed
    exact .of_eq (by simp [Child.stage, here, placed]) (by simp [Child.stage, placed])
      .takeStart
  | ready here warm =>
    simp only [Child.Placed, here] at placed
    exact stage_ready here placed.2
  | record here timing enough =>
    have before : c.stage = .timing := by simp [Child.stage, here, timing]
    rcases c.record_state (p := p) with same | cooled
    · exact .of_eq before (by simp [Child.stage, same, timing]) (.inner trivial)
    · exact .of_eq before (by simp [Child.stage, cooled]) (.cool trivial)
  | @keepTiming result here wild going =>
    obtain ⟨timing, iterations, same⟩ := placed.retune_going here going
    rw [same]
    have before : c.stage = .timing := by simp [Child.stage, here, timing]
    exact .of_eq before (by simp [Child.stage, timing]) (.inner trivial)
  | @coolDown result here wild cooling =>
    simp only [Child.Placed, here] at placed
    exact stage_cooled here placed.2 cooling
  | done here =>
    simp only [Child.Placed, here] at placed
    exact .of_eq (by simp [Child.stage, here, placed]) (by simp [Child.stage, placed]) .done
  | resultReady here cooling =>
    exact .of_eq (by simp [Child.stage, here, cooling]) (by simp [Child.stage, cooling]) .called
  | resultNotReady here cooling =>
    exact .of_eq (by simp [Child.stage, here, cooling]) (by simp [Child.stage, cooling])
      .notCalled
  | takeResult here =>
    simp only [Child.Placed, here] at placed
    exact .of_eq (by simp [Child.stage, here, placed]) (by simp [Child.stage, placed])
      .takeResult
  | sendMore here more =>
    simp only [Child.Placed, here] at placed
    exact .of_eq (by simp [Child.stage, here, placed]) (by simp [Child.stage, placed])
      (.send more)
  | sendLast here last =>
    simp only [Child.Placed, here] at placed onPath
    exact .of_eq (by simp [Child.stage, here, placed]) (by simp [Child.stage, placed])
      (.sendLast (by omega))
  | takeExit here =>
    simp only [Child.Placed, here] at placed
    exact .of_eq (by simp [Child.stage, here, placed]) (by simp [Child.stage, placed]) .leave
  | enter | account | finish | begin =>
    -- a callback, made on the way
    refine .of_eq rfl ?_ (.inner (inner_callIf _ _ _))
    cases state : c.state <;> simp_all [Child.stage, Child.Placed, Child.beforeCleanup]
  | _ =>
    -- the child works on its own and stays where it is
    refine .of_eq rfl ?_ (.inner trivial)
    cases state : c.state <;> simp_all [Child.stage, Child.Placed, Child.armSigterm]

/-- 'ready' is said once, and `need_warmup` tells whether it has been. -/
theorem needWarmup_move (move : Move p c e c') :
    (e = .writeReady ∧ c.needWarmup = true ∧ c'.needWarmup = false) ∨
      (e ≠ .writeReady ∧ c'.needWarmup = c.needWarmup) := by
  cases move with
  | ready here warm => exact .inl ⟨rfl, warm, rfl⟩
  | keepTiming | coolDown => exact .inr ⟨nofun, c.retune_needWarmup _ _⟩
  | armReceived here received =>
    unfold Child.enterSigterm
    split <;> exact .inr ⟨nofun, rfl⟩
  | enter | account | finish | begin =>
    refine .inr ⟨?_, rfl⟩
    unfold callIf
    split <;> exact nofun
  | _ => exact .inr ⟨nofun, rfl⟩

/-- The state of a child, read off its stage. -/
theorem Child.state_iff_rank (c : Child) :
    (c.state = .warmup ↔ c.stage.rank = 0) ∧ (c.state = .cooldown ↔ 3 ≤ c.stage.rank) := by
  unfold Child.stage
  split <;> simp_all [Stage.rank]

/-- A record never has more bytes than it may. -/
theorem Child.Regular.progress_le (regular : c.Regular p) :
    c.stage.progress p.rSize ≤ p.rSize := by
  have onPath := regular.onPath
  unfold Child.stage
  split <;> simp_all [Stage.progress, le_of_lt]

/-- A child that has cooled down keeps its result set. -/
theorem Move.r_of_rank (move : Move p c e c') (late : 3 ≤ c.stage.rank) : c'.r = c.r := by
  have cooled := c.state_iff_rank.2.mpr late
  exact (r_move move).resolve_left (by simp [cooled])

namespace Stage.Move

variable {size : ℕ} {r : ResultT} {s s' : Stage}

/-- The stage `warming` ends when the start signal is seen. -/
theorem started_cases (move : Stage.Move size r s e s') :
    e = .pollStart true ∨ (1 ≤ s'.rank → 1 ≤ s.rank) := by
  cases move with
  | started => exact .inl rfl
  | inner | ready => exact .inr id
  | _ => simp [Stage.rank]

/-- 'done' is said once, on the way out of `cooling`. -/
theorem done_cases (move : Stage.Move size r s e s') :
    (e = .writeDone ∧ s.rank = 3 ∧ s'.rank = 4) ∨
      (e ≠ .writeDone ∧ (4 ≤ s.rank ↔ 4 ≤ s'.rank)) := by
  cases move with
  | done => exact .inl ⟨rfl, rfl, rfl⟩
  | inner inner => exact .inr ⟨inner.ne id, Iff.rfl⟩
  | cool inner => exact .inr ⟨inner.ne id, by simp [Stage.rank]⟩
  | ready => exact .inr ⟨nofun, Iff.rfl⟩
  | _ => exact .inr ⟨nofun, by simp [Stage.rank]⟩

/-- A result signal is read once, and then the record is sent. -/
theorem served_cases (move : Stage.Move size r s e s') :
    (e = .readResult ∧ s.rank = 5 ∧ s' = .sending 0) ∨
      (e ≠ .readResult ∧ (6 ≤ s.rank ↔ 6 ≤ s'.rank)) := by
  cases move with
  | takeResult => exact .inl ⟨rfl, rfl, rfl⟩
  | inner inner => exact .inr ⟨inner.ne id, Iff.rfl⟩
  | cool inner => exact .inr ⟨inner.ne id, by simp [Stage.rank]⟩
  | ready => exact .inr ⟨nofun, Iff.rfl⟩
  | _ => exact .inr ⟨nofun, by simp [Stage.rank]⟩

/-- A byte of a record is the next one of the child's set, and nothing else moves a
child that sends. -/
theorem written_cases (move : Stage.Move size r s e s') :
    (∃ k, e = .writeResult r k ∧ s = .sending k ∧ k < size ∧ s'.progress size = k + 1) ∨
      ((∀ r' k, e ≠ .writeResult r' k) ∧
        (6 ≤ s.rank → s'.progress size = s.progress size)) := by
  cases move with
  | @send k more => exact .inl ⟨k, rfl, rfl, by omega, rfl⟩
  | @sendLast k last => exact .inl ⟨k, rfl, rfl, by omega, last.symm⟩
  | inner inner => exact .inr ⟨fun _ _ => inner.ne id, fun _ => rfl⟩
  | cool inner => exact .inr ⟨fun _ _ => inner.ne id, by simp [Stage.rank]⟩
  | ready => exact .inr ⟨nofun, fun _ => rfl⟩
  | _ => exact .inr ⟨nofun, by simp [Stage.rank, Stage.progress]⟩

end Stage.Move

end Lmbench.Benchmp
