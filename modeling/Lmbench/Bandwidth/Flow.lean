import Lmbench.Bandwidth.Rounding
import Lmbench.Lib.Transition
import Mathlib.Algebra.GroupWithZero.Nat
import Mathlib.Data.List.Count
import Mathlib.Tactic.Ring

/-!
# The two processes of `bw_unix`

`reader` runs inside of `benchmp`; for each of its iterations it writes the byte count into
a pipe and then reads that many bytes from a socket. `writer` is a process of its own that
takes a count from the pipe and writes full messages until it has written as many bytes.
Both block: the reader on an empty socket and on a full pipe, the writer on an empty pipe and
on a full socket. A `write` of a message goes into the socket in pieces.

## Main results

* `sound_of_run` - what is written, read and asked for, after every interleaving
* `served_of_run` - for a count of full messages, every iteration comes to its end and leaves
  nothing behind
* `stuck_iff`, `hangs_iff` - the two processes can block each other if and only if the count is
  not one of full messages
-/

namespace Lmbench.Bandwidth

open Lib

/-- What the processes are started with, and how much the socket and the pipe hold. -/
structure Sizes where
  xfer : ℕ
  bytes : ℕ
  socketRoom : ℕ
  -- in messages, each of them a `size_t`
  controlRoom : ℕ

/-- Where `reader` is; between its iterations, and between its calls, it is idle. -/
inductive ReaderPc
  | idle
  | reading (todo done : ℕ)
deriving DecidableEq, Repr

/-- Where `writer` is; `part` of the message of the pending `write` is in the socket. -/
inductive WriterPc
  | waiting
  | writing (todo done part : ℕ)
deriving DecidableEq, Repr

/-- The two processes with what is between them. -/
structure Flow where
  reader : ReaderPc
  writer : WriterPc
  control : List ℕ
  socket : ℕ
deriving DecidableEq, Repr

/-- What can be seen of a step. -/
inductive Action
  | ask
  | read (n : ℕ)
  | complete
  | take
  | put (n : ℕ)
  | wrote
  | finish
deriving DecidableEq, Repr

/-- Behind `initialize`. -/
def Flow.initial : Flow := ⟨.idle, .waiting, [], 0⟩

/-- A step of one of the processes, none of which leaves its buffer of `XFERSIZE` bytes. -/
inductive Flow.Step (z : Sizes) : Flow → Action → Flow → Prop
  /-- `write(state->control[1], &todo, sizeof(todo))` -/
  | ask {f : Flow} : f.reader = .idle → f.control.length < z.controlRoom →
      Step z f .ask { f with reader := .reading z.bytes 0, control := f.control ++ [z.bytes] }
  /-- `read(state->pipes[0], state->buf, state->xfer)` -/
  | read {f : Flow} {todo done n : ℕ} : f.reader = .reading todo done → done < todo → 0 < n →
      n ≤ z.xfer → n ≤ XFERSIZE → n ≤ f.socket →
      Step z f (.read n) { f with reader := .reading todo (done + n), socket := f.socket - n }
  /-- the end of the loop of `reader` -/
  | complete {f : Flow} {todo done : ℕ} : f.reader = .reading todo done → todo ≤ done →
      Step z f .complete { f with reader := .idle }
  /-- `read(controlfd, &todo, sizeof(todo))` -/
  | take {f : Flow} {todo : ℕ} {later : List ℕ} : f.writer = .waiting →
      f.control = todo :: later →
      Step z f .take { f with writer := .writing todo 0 0, control := later }
  /-- some of the bytes of `write(writefd, buf, state->xfer)` -/
  | put {f : Flow} {todo done part n : ℕ} : f.writer = .writing todo done part → done < todo →
      0 < n → part + n ≤ z.xfer → part + n ≤ XFERSIZE → f.socket + n ≤ z.socketRoom →
      Step z f (.put n)
        { f with writer := .writing todo done (part + n), socket := f.socket + n }
  /-- the `write` returns -/
  | wrote {f : Flow} {todo done part : ℕ} : f.writer = .writing todo done part → done < todo →
      part = z.xfer → Step z f .wrote { f with writer := .writing todo (done + part) 0 }
  /-- the end of the loop of `writer` -/
  | finish {f : Flow} {todo done part : ℕ} : f.writer = .writing todo done part →
      todo ≤ done → Step z f .finish { f with writer := .waiting }

/-- The bytes that a step reads. -/
def Action.got : Action → ℕ
  | .read n => n
  | _ => 0

/-- The bytes that a step writes. -/
def Action.sent : Action → ℕ
  | .put n => n
  | _ => 0

def got (past : List Action) : ℕ := (past.map Action.got).sum

def sent (past : List Action) : ℕ := (past.map Action.sent).sum

/-- The iterations begun. -/
def asks (past : List Action) : ℕ := past.count .ask

/-- The byte count rounded up to full messages. -/
def Sizes.round (z : Sizes) : ℕ := (z.bytes + z.xfer - 1) / z.xfer * z.xfer

/-- What the reader has still to read. -/
def Flow.toRead (f : Flow) : ℕ :=
  match f.reader with
  | .idle => 0
  | .reading todo done => todo - done

/-- What the writer has still to write for the count it has taken. -/
def Flow.toWrite (z : Sizes) (f : Flow) : ℕ :=
  match f.writer with
  | .waiting => 0
  | .writing _ done part => z.round - done - part

variable {z : Sizes} {f f' : Flow} {e : Action} {past : List Action}

@[simp] theorem got_snoc (past : List Action) (e : Action) :
    got (past ++ [e]) = got past + e.got := by simp [got]

@[simp] theorem sent_snoc (past : List Action) (e : Action) :
    sent (past ++ [e]) = sent past + e.sent := by simp [sent]

@[simp] theorem asks_snoc (past : List Action) (e : Action) :
    asks (past ++ [e]) = asks past + if e = .ask then 1 else 0 := by
  simp [asks, List.count_append, List.count_singleton]

section Round

variable (positive : 0 < z.xfer)

include positive

theorem le_round : z.bytes ≤ z.round := by
  have upper := Nat.lt_div_mul_add (a := z.bytes + z.xfer - 1) positive
  unfold Sizes.round
  omega

theorem round_lt : z.round < z.bytes + z.xfer := by
  have lower := Nat.div_mul_le_self (z.bytes + z.xfer - 1) z.xfer
  unfold Sizes.round
  omega

theorem round_eq (whole : z.xfer ∣ z.bytes) : z.round = z.bytes := by
  have above := le_round positive
  have below := round_lt positive
  have multiple : z.xfer ∣ z.round := Dvd.intro_left _ rfl
  -- the difference of two multiples is less than `xfer`
  have rest : z.xfer ∣ z.round - z.bytes := Nat.dvd_sub multiple whole
  have zero := Nat.eq_zero_of_dvd_of_lt rest (by omega)
  omega

/-- A writer that has not written everything has room for one more message. -/
theorem add_xfer_le_round {done : ℕ} (multiple : z.xfer ∣ done) (more : done < z.bytes) :
    done + z.xfer ≤ z.round := by
  have above := le_round positive
  have gap : z.xfer ∣ z.round - done := Nat.dvd_sub (Dvd.intro_left _ rfl) multiple
  have at_least := Nat.le_of_dvd (by omega) gap
  omega

/-- A writer that has written everything has written full messages. -/
theorem eq_round {done : ℕ} (multiple : z.xfer ∣ done) (below : done ≤ z.round)
    (enough : z.bytes ≤ done) : done = z.round := by
  have upper := round_lt positive
  have gap : z.xfer ∣ z.round - done := Nat.dvd_sub (Dvd.intro_left _ rfl) multiple
  have zero := Nat.eq_zero_of_dvd_of_lt gap (by omega)
  omega

end Round

section Writer

/-- What holds of the two processes, whatever the sizes are. -/
structure Sound (z : Sizes) (past : List Action) (f : Flow) : Prop where
  requests : ∀ todo ∈ f.control, todo = z.bytes
  asked : ∀ todo done, f.reader = .reading todo done → todo = z.bytes
  taken : ∀ todo done part, f.writer = .writing todo done part →
    todo = z.bytes ∧ z.xfer ∣ done ∧ done ≤ z.round ∧ part ≤ z.xfer ∧ (todo ≤ done → part = 0)
  /-- what is not in the socket any more was read -/
  conserved : got past + f.socket = sent past
  /-- each request is written in full messages -/
  written : sent past + f.toWrite z + f.control.length * z.round = asks past * z.round
  socket_le : f.socket ≤ z.socketRoom
  control_le : f.control.length ≤ z.controlRoom

theorem sound_initial (z : Sizes) : Sound z [] .initial where
  requests := by
    intro todo member
    cases member
  asked := by
    intro todo done here
    cases here
  taken := by
    intro todo done part here
    cases here
  conserved := rfl
  written := by simp [Flow.initial, Flow.toWrite, sent, asks]
  socket_le := Nat.zero_le _
  control_le := Nat.zero_le _

theorem sound_step (positive : 0 < z.xfer) (sound : Sound z past f) (step : Flow.Step z f e f') :
    Sound z (past ++ [e]) f' := by
  obtain ⟨requests, asked, taken, conserved, written, socket_le, control_le⟩ := sound
  cases step with
  | ask here room =>
    refine ⟨?_, ?_, taken, ?_, ?_, socket_le, ?_⟩
    · intro todo member
      rcases List.mem_append.mp member with older | newest
      · exact requests todo older
      · exact List.mem_singleton.mp newest
    · intro todo done at_start
      cases at_start
      rfl
    · simpa [Action.got, Action.sent] using conserved
    · simp only [sent_snoc, asks_snoc, Action.sent, List.length_append, List.length_singleton,
        if_true, Nat.add_mul, Flow.toWrite] at written ⊢
      omega
    · simpa using Nat.succ_le_of_lt room
  | @read todo done n here more some_bytes fits inside there =>
    refine ⟨requests, ?_, taken, ?_, ?_, ?_, control_le⟩
    · rintro todo' done' ⟨⟩
      exact asked todo done here
    · simp only [got_snoc, sent_snoc, Action.got, Action.sent]
      omega
    · simpa [Action.sent, Flow.toWrite] using written
    · exact (Nat.sub_le _ _).trans socket_le
  | complete here enough =>
    refine ⟨requests, ?_, taken, ?_, ?_, socket_le, control_le⟩
    · intro todo done reading
      cases reading
    · simpa [Action.got, Action.sent] using conserved
    · simpa [Action.sent, Flow.toWrite] using written
  | @take todo later here first =>
    refine ⟨?_, asked, ?_, ?_, ?_, socket_le, ?_⟩
    · intro todo' member
      exact requests todo' (first ▸ List.mem_cons_of_mem _ member)
    · rintro todo' done' part' ⟨⟩
      exact ⟨requests todo (first ▸ List.mem_cons_self), Nat.dvd_zero _, Nat.zero_le _,
        Nat.zero_le _, fun _ => rfl⟩
    · simpa [Action.got, Action.sent] using conserved
    · simp only [sent_snoc, asks_snoc, Action.sent, Flow.toWrite, here, first, List.length_cons,
        Nat.add_mul, reduceCtorEq, if_false, Nat.add_zero] at written ⊢
      omega
    · rw [first] at control_le
      exact (Nat.le_succ _).trans control_le
  | @put todo done part n here more some_bytes fits inside room =>
    obtain ⟨rfl, multiple, below, -, -⟩ := taken todo done part here
    refine ⟨requests, asked, ?_, ?_, ?_, room, control_le⟩
    · rintro todo' done' part' ⟨⟩
      exact ⟨rfl, multiple, below, fits, fun enough => absurd enough (Nat.not_le.mpr more)⟩
    · simp only [got_snoc, sent_snoc, Action.got, Action.sent]
      omega
    · have room := add_xfer_le_round positive multiple more
      simp only [sent_snoc, asks_snoc, Action.sent, Flow.toWrite, here, reduceCtorEq,
        if_false, Nat.add_zero] at written ⊢
      omega
  | @wrote todo done part here more full =>
    obtain ⟨rfl, multiple, below, -, -⟩ := taken todo done part here
    have room := add_xfer_le_round positive multiple more
    refine ⟨requests, asked, ?_, ?_, ?_, socket_le, control_le⟩
    · rintro todo' done' part' ⟨⟩
      subst full
      exact ⟨rfl, Nat.dvd_add multiple (Nat.dvd_refl _), room, Nat.zero_le _, fun _ => rfl⟩
    · simpa [Action.got, Action.sent] using conserved
    · simp only [sent_snoc, asks_snoc, Action.sent, Flow.toWrite, here, reduceCtorEq,
        if_false, Nat.add_zero] at written ⊢
      omega
  | @finish todo done part here enough =>
    obtain ⟨rfl, multiple, below, -, nothing⟩ := taken todo done part here
    have all := eq_round positive multiple below enough
    refine ⟨requests, asked, ?_, ?_, ?_, socket_le, control_le⟩
    · intro todo' done' part' writing
      cases writing
    · simpa [Action.got, Action.sent] using conserved
    · simp only [sent_snoc, asks_snoc, Action.sent, Flow.toWrite, here, reduceCtorEq,
        if_false, Nat.add_zero] at written ⊢
      omega

theorem sound_of_run (positive : 0 < z.xfer) (run : Run (Flow.Step z) .initial past f) :
    Sound z past f :=
  run.invariant_history (sound_initial z) fun _ _ _ _ _ sound step =>
    sound_step positive sound step

end Writer

section Potential

/-- A bound on the steps to come without a further request. -/
def Flow.potential (z : Sizes) (f : Flow) : ℕ :=
  (match f.reader with
    | .idle => 0
    | .reading todo done => todo - done + 1) +
  f.control.length * (2 * z.round + 2) +
  match f.writer with
    | .waiting => 0
    | .writing _ done part => 2 * (z.round - done) - part + 1

/-- A request makes a bounded number of steps possible, and each step uses one up. -/
theorem potential_step (positive : 0 < z.xfer) (sound : Sound z past f)
    (step : Flow.Step z f e f') :
    f'.potential z + 1 ≤
      f.potential z + if e = .ask then z.bytes + 2 * z.round + 4 else 0 := by
  cases step with
  | ask here room =>
    simp only [Flow.potential, here, List.length_append, List.length_singleton, Nat.add_mul,
      if_true]
    omega
  | read here more some_bytes fits inside there =>
    simp only [Flow.potential, here, reduceCtorEq, if_false]
    omega
  | complete here enough =>
    simp only [Flow.potential, here, reduceCtorEq, if_false]
    omega
  | take here first =>
    simp only [Flow.potential, here, first, List.length_cons, Nat.add_mul, reduceCtorEq, if_false]
    omega
  | put here more some_bytes fits inside room =>
    obtain ⟨rfl, multiple, below, -, -⟩ := sound.taken _ _ _ here
    have room := add_xfer_le_round positive multiple more
    simp only [Flow.potential, here, reduceCtorEq, if_false]
    omega
  | wrote here more full =>
    obtain ⟨rfl, multiple, below, -, -⟩ := sound.taken _ _ _ here
    have room := add_xfer_le_round positive multiple more
    simp only [Flow.potential, here, reduceCtorEq, if_false]
    omega
  | finish here enough =>
    simp only [Flow.potential, here, reduceCtorEq, if_false]
    omega

theorem length_add_potential_le (positive : 0 < z.xfer)
    (run : Run (Flow.Step z) .initial past f) :
    past.length + f.potential z ≤ asks past * (z.bytes + 2 * z.round + 4) := by
  have bounded : Sound z past f ∧
      past.length + f.potential z ≤ asks past * (z.bytes + 2 * z.round + 4) := by
    apply run.invariant_history
    · exact ⟨sound_initial z, by simp [Flow.initial, Flow.potential]⟩
    · rintro past f e f' - ⟨sound, bound⟩ step
      have one := potential_step positive sound step
      refine ⟨sound_step positive sound step, ?_⟩
      rw [asks_snoc, List.length_append, List.length_singleton, Nat.add_mul]
      split_ifs at one ⊢ <;> omega
  exact bounded.2

end Potential

section Level

/-- No iteration reads more than it asked for. -/
structure Level (z : Sizes) (past : List Action) (f : Flow) : Prop where
  within : ∀ todo done, f.reader = .reading todo done → done ≤ todo
  read : got past + f.toRead = asks past * z.bytes

theorem level_initial (z : Sizes) : Level z [] .initial where
  within := by
    intro todo done here
    cases here
  read := by simp [Flow.initial, Flow.toRead, got, asks]

theorem level_step (level : Level z past f) (step : Flow.Step z f e f')
    (little : e.got ≤ f.toRead) : Level z (past ++ [e]) f' := by
  obtain ⟨within, read⟩ := level
  cases step with
  | ask here room =>
    refine ⟨?_, ?_⟩
    · rintro todo done ⟨⟩
      exact Nat.zero_le _
    · simp only [got_snoc, asks_snoc, Action.got, Flow.toRead, here, if_true,
        Nat.add_mul] at read ⊢
      omega
  | @read todo done n here more some_bytes fits inside there =>
    simp only [Action.got, Flow.toRead, here] at little
    refine ⟨?_, ?_⟩
    · rintro todo' done' ⟨⟩
      omega
    · simp only [got_snoc, asks_snoc, Action.got, Flow.toRead, here, reduceCtorEq, if_false,
        Nat.add_zero] at read ⊢
      omega
  | complete here enough =>
    refine ⟨?_, ?_⟩
    · intro todo done reading
      cases reading
    · simp only [got_snoc, asks_snoc, Action.got, Flow.toRead, here, reduceCtorEq, if_false,
        Nat.add_zero] at read ⊢
      omega
  | _ => exact ⟨within, by simpa [Action.got, Flow.toRead] using read⟩

/-- With full messages only, nothing but the iteration's own bytes is ever in the socket. -/
theorem got_le_toRead (positive : 0 < z.xfer) (whole : z.xfer ∣ z.bytes) (level : Level z past f)
    (sound : Sound z past f) (step : Flow.Step z f e f') : e.got ≤ f.toRead := by
  have written := sound.written
  have conserved := sound.conserved
  have read := level.read
  rw [round_eq positive whole] at written
  cases step with
  | read here more some_bytes fits inside there =>
    simp only [Action.got]
    omega
  | _ => exact Nat.zero_le _

theorem level_of_run (positive : 0 < z.xfer) (whole : z.xfer ∣ z.bytes)
    (run : Run (Flow.Step z) .initial past f) : Level z past f := by
  have both : Sound z past f ∧ Level z past f := by
    apply run.invariant_history
    · exact ⟨sound_initial z, level_initial z⟩
    · rintro past f e f' - ⟨sound, level⟩ step
      have little := got_le_toRead positive whole level sound step
      exact ⟨sound_step positive sound step, level_step level step little⟩
  exact both.2

end Level

section Progress

/-- A writer is not stopped by an empty socket. -/
theorem exists_step_of_writing {todo done part : ℕ} (inBuffer : z.xfer ≤ XFERSIZE)
    (room : 0 < z.socketRoom)
    (sound : Sound z past f) (empty : f.socket = 0) (here : f.writer = .writing todo done part) :
    ∃ e f', Flow.Step z f e f' := by
  obtain ⟨-, -, -, part_le, -⟩ := sound.taken todo done part here
  rcases Nat.lt_or_ge done todo with more | enough
  · rcases part_le.lt_or_eq with rest | full
    · exact ⟨_, _, .put here more Nat.one_pos rest (rest.trans_le inBuffer) (by omega)⟩
    · exact ⟨_, _, .wrote here more full⟩
  · exact ⟨_, _, .finish here enough⟩

/-- With full messages only, some process can go on. -/
theorem exists_step (positive : 0 < z.xfer) (inBuffer : z.xfer ≤ XFERSIZE)
    (room : 0 < z.socketRoom) (control : 0 < z.controlRoom) (whole : z.xfer ∣ z.bytes)
    (sound : Sound z past f)
    (level : Level z past f) :
    ∃ e f', Flow.Step z f e f' := by
  have written := sound.written
  have conserved := sound.conserved
  have read := level.read
  rw [round_eq positive whole] at written
  rcases Nat.eq_zero_or_pos f.socket with empty | some_bytes
  · cases atWriter : f.writer with
    | writing todo done part => exact exists_step_of_writing inBuffer room sound empty atWriter
    | waiting =>
      cases pending : f.control with
      | cons todo later => exact ⟨_, _, .take atWriter pending⟩
      | nil =>
        cases atReader : f.reader with
        | idle => exact ⟨_, _, .ask atReader (by simpa [pending] using control)⟩
        | reading todo done =>
          -- everything asked for is written, and everything written is read
          simp only [Flow.toWrite, Flow.toRead, atWriter, atReader, pending, List.length_nil,
            Nat.zero_mul] at written read
          exact ⟨_, _, .complete atReader (by omega)⟩
  · cases atReader : f.reader with
    | idle =>
      simp only [Flow.toRead, atReader] at read
      omega
    | reading todo done =>
      rcases Nat.lt_or_ge done todo with more | enough
      · exact ⟨_, _, .read atReader more Nat.one_pos positive (by decide) some_bytes⟩
      · exact ⟨_, _, .complete atReader enough⟩

end Progress

/-- What the benchmark needs of the two processes. -/
structure Served (z : Sizes) (past : List Action) (f : Flow) : Prop where
  /-- no process waits for the other one while that one waits for it -/
  proceeds : ∃ e f', Flow.Step z f e f'
  /-- between two iterations nothing is left in the socket and in the pipe -/
  settled : f.reader = .idle → f.socket = 0 ∧ f.control = [] ∧
    got past = asks past * z.bytes ∧ sent past = asks past * z.bytes
  /-- the iterations come to their end -/
  finite : past.length ≤ asks past * (3 * z.bytes + 4)

/-- **For a count of full messages every iteration is served**, if a message fits into the
buffer, however the two processes are scheduled and in whatever pieces the bytes arrive. -/
theorem served_of_run (positive : 0 < z.xfer) (inBuffer : z.xfer ≤ XFERSIZE)
    (some_bytes : 0 < z.bytes) (room : 0 < z.socketRoom) (control : 0 < z.controlRoom)
    (whole : z.xfer ∣ z.bytes) (run : Run (Flow.Step z) .initial past f) : Served z past f := by
  have sound := sound_of_run positive run
  have level := level_of_run positive whole run
  refine ⟨exists_step positive inBuffer room control whole sound level, ?_, ?_⟩
  · intro idle
    have written := sound.written
    have conserved := sound.conserved
    have read := level.read
    simp only [Flow.toRead, idle, Nat.add_zero] at read
    rw [round_eq positive whole] at written
    have pending : f.control.length * z.bytes = 0 := by omega
    have none_pending : f.control = [] := by
      rcases Nat.mul_eq_zero.mp pending with none_there | none_asked
      · exact List.eq_nil_of_length_eq_zero none_there
      · omega
    exact ⟨by omega, none_pending, read, by omega⟩
  · have bound := length_add_potential_le positive run
    rw [round_eq positive whole] at bound
    have factor : z.bytes + 2 * z.bytes + 4 = 3 * z.bytes + 4 := by ring
    rw [factor] at bound
    exact (Nat.le_add_right _ _).trans bound

/-- One iteration of a single message, whose bytes arrive one by one. -/
theorem served_of_run_bytewise :
    Served ⟨2, 2, 1, 1⟩
      [.ask, .take, .put 1, .read 1, .put 1, .wrote, .read 1, .complete, .finish]
      ⟨.idle, .waiting, [], 0⟩ := by
  have run : Run (Flow.Step ⟨2, 2, 1, 1⟩) .initial _ _ :=
    ((((((((Run.nil.snoc (.ask rfl Nat.one_pos)).snoc (.take rfl rfl)).snoc
      (.put rfl Nat.two_pos Nat.one_pos Nat.one_lt_two.le (by decide) le_rfl)).snoc
      (.read rfl Nat.two_pos Nat.one_pos Nat.one_lt_two.le (by decide) le_rfl)).snoc
      (.put rfl Nat.two_pos Nat.one_pos le_rfl (by decide) le_rfl)).snoc
      (.wrote rfl Nat.two_pos rfl)).snoc
      (.read rfl Nat.one_lt_two Nat.one_pos Nat.one_lt_two.le (by decide) le_rfl)).snoc
      (.complete rfl le_rfl)).snoc (.finish rfl le_rfl)
  exact served_of_run Nat.two_pos (by decide) Nat.two_pos Nat.one_pos Nat.one_pos (Nat.dvd_refl 2)
    run

section Stuck

/-- A reader that takes no more than it asked for can only be a few iterations ahead. -/
theorem asks_le (ragged : z.bytes < z.round) (sound : Sound z past f) (level : Level z past f) :
    asks past ≤ z.socketRoom + z.round + z.controlRoom * z.round := by
  have written := sound.written
  have conserved := sound.conserved
  have read := level.read
  have socket := sound.socket_le
  have control := Nat.mul_le_mul_right z.round sound.control_le
  have toWrite : f.toWrite z ≤ z.round := by
    unfold Flow.toWrite
    split <;> omega
  -- each iteration leaves at least one byte behind
  have behind : asks past * z.bytes + asks past ≤ asks past * z.round := by
    rw [← Nat.mul_succ]
    exact Nat.mul_le_mul_left _ ragged
  omega

variable (positive : 0 < z.xfer)

include positive

/-- Where something can be read, a single byte can. -/
theorem exists_little_step (step : Flow.Step z f e f') :
    ∃ e f', Flow.Step z f e f' ∧ e.got ≤ 1 := by
  cases step with
  | read here more some_bytes fits inside there =>
    exact ⟨_, _, .read here more Nat.one_pos positive (by decide) (some_bytes.trans_le there),
      le_rfl⟩
  | ask here room => exact ⟨_, _, .ask here room, Nat.zero_le _⟩
  | complete here enough => exact ⟨_, _, .complete here enough, Nat.zero_le _⟩
  | take here first => exact ⟨_, _, .take here first, Nat.zero_le _⟩
  | put here more some_bytes fits inside room =>
    exact ⟨_, _, .put here more some_bytes fits inside room, Nat.zero_le _⟩
  | wrote here more full => exact ⟨_, _, .wrote here more full, Nat.zero_le _⟩
  | finish here enough => exact ⟨_, _, .finish here enough, Nat.zero_le _⟩

theorem level_of_little_run
    (run : Run (fun f e f' => Flow.Step z f e f' ∧ e.got ≤ 1) .initial past f) :
    Sound z past f ∧ Level z past f := by
  apply run.invariant_history
  · exact ⟨sound_initial z, level_initial z⟩
  · rintro past f e f' - ⟨sound, level⟩ ⟨step, little⟩
    refine ⟨sound_step positive sound step, level_step level step ?_⟩
    cases step with
    | read here more some_bytes fits inside there =>
      simp only [Action.got] at little ⊢
      simp only [Flow.toRead, here]
      omega
    | _ => exact Nat.zero_le _

/-- **The two processes can block each other if and only if the byte count is not one of full
messages**: the rest of each message stays in the socket until that is full, and requests pile
up in the pipe until that is. -/
theorem stuck_iff (inBuffer : z.xfer ≤ XFERSIZE) (room : 0 < z.socketRoom)
    (control : 0 < z.controlRoom) :
    (∃ past f, Run (Flow.Step z) .initial past f ∧ ∀ e f', ¬ Flow.Step z f e f') ↔
      ¬ z.xfer ∣ z.bytes := by
  constructor
  · rintro ⟨past, f, run, stuck⟩ whole
    have sound := sound_of_run positive run
    have level := level_of_run positive whole run
    obtain ⟨e, f', step⟩ := exists_step positive inBuffer room control whole sound level
    exact stuck e f' step
  · intro partial_message
    by_contra never
    -- otherwise a run in which only single bytes are read goes on for as long as we like
    have proceeds : ∀ past f, Run (fun f e f' => Flow.Step z f e f' ∧ e.got ≤ 1) .initial past f →
        ∃ e f', Flow.Step z f e f' ∧ e.got ≤ 1 := by
      intro past f run
      have run' := run.mono fun _ _ _ step => step.1
      have moves : ∃ e f', Flow.Step z f e f' := by
        by_contra blocked
        exact never ⟨past, f, run', fun e f' step => blocked ⟨e, f', step⟩⟩
      obtain ⟨e, f', step⟩ := moves
      exact exists_little_step positive step
    have ragged : z.bytes < z.round := by
      apply (le_round positive).lt_of_ne
      intro same
      exact partial_message (same ▸ Dvd.intro_left _ rfl)
    let most := z.socketRoom + z.round + z.controlRoom * z.round
    obtain ⟨past, f, run, length⟩ :=
      Run.exists_length proceeds (most * (z.bytes + 2 * z.round + 4) + 1)
    obtain ⟨sound, level⟩ := level_of_little_run positive run
    have few : asks past ≤ most := asks_le ragged sound level
    have bound := length_add_potential_le positive (run.mono fun _ _ _ step => step.1)
    have short := Nat.mul_le_mul_right (z.bytes + 2 * z.round + 4) few
    omega

end Stuck

/-- What `main` starts the processes with. -/
def unixSizes (xfer bytes socketRoom controlRoom : ℕ) : Sizes where
  xfer := (Bandwidth.unix xfer bytes).1
  bytes := (Bandwidth.unix xfer bytes).2
  socketRoom := socketRoom
  controlRoom := controlRoom

/-- **The benchmark can hang if and only if the byte count that was asked for is not one of full
messages**: what `main` rounds it to is then none either. -/
theorem hangs_iff {xfer bytes socketRoom controlRoom : ℕ} (positive : 0 < xfer)
    (inBuffer : xfer ≤ XFERSIZE) (small : bytes < 2 ^ 62) (room : 0 < socketRoom)
    (control : 0 < controlRoom) :
    (∃ past f, Run (Flow.Step (unixSizes xfer bytes socketRoom controlRoom)) .initial past f ∧
      ∀ e f', ¬ Flow.Step (unixSizes xfer bytes socketRoom controlRoom) f e f') ↔
      ¬ xfer ∣ bytes := by
  rw [← dvd_addBytes_iff small]
  exact stuck_iff positive inBuffer room control

/-- `bw_unix -m 2 -M 3`, with a pipe of 64 KiB. -/
theorem hangs_iff_three : ∃ past f,
    Run (Flow.Step (unixSizes 2 3 212992 8192)) .initial past f ∧
      ∀ e f', ¬ Flow.Step (unixSizes 2 3 212992 8192) f e f' :=
  (hangs_iff Nat.two_pos (by decide) (by decide) (by decide) (by decide)).mpr (by decide)

end Lmbench.Bandwidth
