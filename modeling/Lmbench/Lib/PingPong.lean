import Lmbench.Lib.Transition
import Mathlib.Algebra.GroupWithZero.Nat
import Mathlib.Data.List.Basic
import Mathlib.Tactic.Ring

/-!
# Two parties that write and read in turn

A caller writes a message and reads; an answerer reads and writes a message. Between them are two
streams of bytes that hold so much each. A write waits until all of the message is in the stream,
and gets it there in pieces. A read takes what is there, up to the length of a message, and waits
only where nothing is.

Where every read takes a whole message, there is one message in all and the parties take turns. A
read that takes less lets its party write again, and the streams may fill up.

## Main results

* `turn_of_whole_run` - one message is on its way, if all reads are whole
* `exists_whole_step` - then the parties never wait for each other
* `stuck_iff` - in general they may, if and only if a message has more than one byte
-/

namespace Lmbench.Lib.PingPong

/-- The length of a message and what the two streams hold. -/
structure Sizes where
  message : ℕ
  there : ℕ
  back : ℕ

/-- What either party has left to write, and what is in either stream. A party that has nothing to
write reads. -/
structure Link where
  caller : ℕ
  there : ℕ
  answerer : ℕ
  back : ℕ
deriving DecidableEq, Repr

/-- So many bytes are written or read. -/
inductive Move
  | ask (n : ℕ)
  | get (n : ℕ)
  | hear (n : ℕ)
  | answer (n : ℕ)
deriving DecidableEq, Repr

/-- The caller is about to write. -/
def Link.start (z : Sizes) : Link := ⟨z.message, 0, 0, 0⟩

inductive Step (z : Sizes) : Link → Move → Link → Prop
  | ask {l : Link} {n : ℕ} (some_bytes : 0 < n) (left : n ≤ l.caller)
      (room : l.there + n ≤ z.there) :
      Step z l (.ask n) { l with caller := l.caller - n, there := l.there + n }
  | get {l : Link} {n : ℕ} (reads : l.caller = 0) (some_bytes : 0 < n) (asked : n ≤ z.message)
      (here : n ≤ l.back) :
      Step z l (.get n) { l with caller := z.message, back := l.back - n }
  | hear {l : Link} {n : ℕ} (reads : l.answerer = 0) (some_bytes : 0 < n) (asked : n ≤ z.message)
      (here : n ≤ l.there) :
      Step z l (.hear n) { l with answerer := z.message, there := l.there - n }
  | answer {l : Link} {n : ℕ} (some_bytes : 0 < n) (left : n ≤ l.answerer)
      (room : l.back + n ≤ z.back) :
      Step z l (.answer n) { l with answerer := l.answerer - n, back := l.back + n }

/-- A read takes so much at least. -/
def Move.ReadsAtLeast (k : ℕ) : Move → Prop
  | .get n | .hear n => k ≤ n
  | _ => True

/-- A read takes a single byte. -/
def Move.Little : Move → Prop
  | .get n | .hear n => n = 1
  | _ => True

variable {z : Sizes} {l l' : Link} {e : Move} {past : List Move}

/-- What a step does is seen in full. -/
theorem step_unique {l₁ l₂ : Link} (first : Step z l e l₁) (second : Step z l e l₂) :
    l₁ = l₂ := by
  cases first <;> cases second <;> rfl

section Whole

/-- The one message there is on its way to the answerer, or on its way back. -/
def Link.Turn (z : Sizes) (l : Link) : Prop :=
  l.answerer = 0 ∧ l.back = 0 ∧ l.caller + l.there = z.message ∨
    l.caller = 0 ∧ l.there = 0 ∧ l.answerer + l.back = z.message

theorem turn_step (turn : l.Turn z) (taken : Step z l e l')
    (whole : e.ReadsAtLeast z.message) : l'.Turn z := by
  cases taken with
  | ask some_bytes left room =>
    rcases turn with ⟨waits, none, total⟩ | ⟨nothing, -, -⟩
    · exact .inl ⟨waits, none, by dsimp only; omega⟩
    · omega
  | get reads some_bytes asked here =>
    rw [Move.ReadsAtLeast] at whole
    rcases turn with ⟨-, none, -⟩ | ⟨-, nothing, total⟩
    · omega
    · exact .inl ⟨by dsimp only; omega, by dsimp only; omega, by dsimp only; omega⟩
  | hear reads some_bytes asked here =>
    rw [Move.ReadsAtLeast] at whole
    rcases turn with ⟨-, none, total⟩ | ⟨-, nothing, -⟩
    · exact .inr ⟨by dsimp only; omega, by dsimp only; omega, by dsimp only; omega⟩
    · omega
  | answer some_bytes left room =>
    rcases turn with ⟨waits, -, -⟩ | ⟨reads, nothing, total⟩
    · omega
    · exact .inr ⟨reads, nothing, by dsimp only; omega⟩

/-- **The parties take turns** where every read takes a whole message. -/
theorem turn_of_whole_run
    (run : Run (fun l e l' => Step z l e l' ∧ e.ReadsAtLeast z.message) (Link.start z) past l) :
    l.Turn z := by
  apply run.invariant
  · exact .inl ⟨rfl, rfl, Nat.add_zero _⟩
  · rintro l e l' turn ⟨taken, whole⟩
    exact turn_step turn taken whole

/-- A party that takes its turn can go on. -/
theorem exists_whole_step (positive : 0 < z.message) (there : z.message ≤ z.there)
    (back : z.message ≤ z.back) (turn : l.Turn z) :
    ∃ e l', Step z l e l' ∧ e.ReadsAtLeast z.message := by
  rcases turn with ⟨waits, none, total⟩ | ⟨reads, nothing, total⟩
  · rcases Nat.eq_zero_or_pos l.caller with sent | left
    · exact ⟨_, _, .hear waits positive le_rfl (by omega), le_rfl⟩
    · exact ⟨_, _, .ask Nat.one_pos left (by omega), trivial⟩
  · rcases Nat.eq_zero_or_pos l.answerer with sent | left
    · exact ⟨_, _, .get reads positive le_rfl (by omega), le_rfl⟩
    · exact ⟨_, _, .answer Nat.one_pos left (by omega), trivial⟩

/-- A read of a message of one byte is whole. -/
theorem whole_of_one (one : z.message = 1) (taken : Step z l e l') :
    e.ReadsAtLeast z.message := by
  cases taken with
  | get reads some_bytes asked here | hear reads some_bytes asked here =>
    rw [one]
    exact some_bytes
  | ask | answer => trivial

end Whole

section Stuck

/-- The bytes that a step writes to the answerer, and back. -/
def Move.asked : Move → ℕ
  | .ask n => n
  | _ => 0

def Move.answered : Move → ℕ
  | .answer n => n
  | _ => 0

/-- The reads that a step makes. -/
def Move.gets : Move → ℕ
  | .get _ => 1
  | _ => 0

def Move.hears : Move → ℕ
  | .hear _ => 1
  | _ => 0

/-- The sum over all steps. -/
def sumOf (f : Move → ℕ) (past : List Move) : ℕ := (past.map f).sum

theorem sumOf_snoc (f : Move → ℕ) (past : List Move) (e : Move) :
    sumOf f (past ++ [e]) = sumOf f past + f e := by
  simp [sumOf]

/-- What is written and read where every read takes a single byte. -/
structure Counted (z : Sizes) (past : List Move) (l : Link) : Prop where
  asked : sumOf Move.asked past + l.caller = z.message * (sumOf Move.gets past + 1)
  answered : sumOf Move.answered past + l.answerer = z.message * sumOf Move.hears past
  there : l.there + sumOf Move.hears past = sumOf Move.asked past
  back : l.back + sumOf Move.gets past = sumOf Move.answered past
  caller_le : l.caller ≤ z.message
  answerer_le : l.answerer ≤ z.message
  there_le : l.there ≤ z.there
  back_le : l.back ≤ z.back
  length : past.length ≤ sumOf Move.asked past + sumOf Move.answered past +
    sumOf Move.gets past + sumOf Move.hears past

theorem counted_start (z : Sizes) : Counted z [] (Link.start z) := by
  constructor <;> simp [sumOf, Link.start]

theorem counted_step (counted : Counted z past l) (taken : Step z l e l') (little : e.Little) :
    Counted z (past ++ [e]) l' := by
  obtain ⟨asked, answered, there, back, caller_le, answerer_le, there_le, back_le, length⟩ :=
    counted
  cases taken with
  | ask some_bytes left room =>
    constructor <;> simp only [sumOf_snoc, Move.asked, Move.answered, Move.gets, Move.hears,
      List.length_append, List.length_singleton, Nat.add_zero] <;> omega
  | get reads some_bytes _ here =>
    obtain rfl := little
    have grown : z.message * (sumOf Move.gets past + 1 + 1) =
        z.message * (sumOf Move.gets past + 1) + z.message := by ring
    constructor <;> simp only [sumOf_snoc, Move.asked, Move.answered, Move.gets, Move.hears,
      List.length_append, List.length_singleton, Nat.add_zero, grown] <;> omega
  | hear reads some_bytes _ here =>
    obtain rfl := little
    have grown : z.message * (sumOf Move.hears past + 1) =
        z.message * sumOf Move.hears past + z.message := by ring
    constructor <;> simp only [sumOf_snoc, Move.asked, Move.answered, Move.gets, Move.hears,
      List.length_append, List.length_singleton, Nat.add_zero, grown] <;> omega
  | answer some_bytes left room =>
    constructor <;> simp only [sumOf_snoc, Move.asked, Move.answered, Move.gets, Move.hears,
      List.length_append, List.length_singleton, Nat.add_zero] <;> omega

/-- Where something can be read, a single byte can. -/
theorem exists_little_step (positive : 0 < z.message) (taken : Step z l e l') :
    ∃ e l', Step z l e l' ∧ e.Little := by
  cases taken with
  | ask some_bytes left room => exact ⟨_, _, .ask some_bytes left room, trivial⟩
  | get reads some_bytes asked here =>
    exact ⟨_, _, .get reads Nat.one_pos positive (some_bytes.trans_le here), rfl⟩
  | hear reads some_bytes asked here =>
    exact ⟨_, _, .hear reads Nat.one_pos positive (some_bytes.trans_le here), rfl⟩
  | answer some_bytes left room => exact ⟨_, _, .answer some_bytes left room, trivial⟩

/-- The most reads of the caller, and of the answerer, that there can be. -/
def Sizes.mostGets (z : Sizes) : ℕ := z.message * z.there + z.back + z.message

def Sizes.mostHears (z : Sizes) : ℕ := z.back + z.mostGets + z.message

/-- Each message that is heard bytewise is answered by as many as it has bytes, so the streams
fill up. -/
theorem Counted.gets_le (counted : Counted z past l) (long : 1 < z.message) :
    sumOf Move.gets past ≤ z.mostGets ∧ sumOf Move.hears past ≤ z.mostHears := by
  obtain ⟨asked, answered, there, back, caller_le, answerer_le, there_le, back_le, -⟩ := counted
  have heard : z.message * sumOf Move.gets past ≤ z.there + sumOf Move.hears past := by
    rw [Nat.mul_add] at asked
    omega
  have gotten : z.message * sumOf Move.hears past ≤ z.back + sumOf Move.gets past + z.message := by
    omega
  have both : z.message * (z.message * sumOf Move.gets past) ≤
      z.message * z.there + z.message * sumOf Move.hears past := by
    rw [← Nat.mul_add]
    exact Nat.mul_le_mul_left _ heard
  have twice : 2 * sumOf Move.gets past ≤ z.message * (z.message * sumOf Move.gets past) :=
    (Nat.mul_le_mul_right _ long).trans (Nat.le_mul_of_pos_left _ (by omega))
  have few : sumOf Move.gets past ≤ z.mostGets := by
    rw [Sizes.mostGets]
    omega
  have once : sumOf Move.hears past ≤ z.message * sumOf Move.hears past :=
    Nat.le_mul_of_pos_left _ (by omega)
  refine ⟨few, ?_⟩
  rw [Sizes.mostHears]
  omega

/-- **The parties can wait for each other if and only if a message has more than one byte.** -/
theorem stuck_iff (positive : 0 < z.message) (there : 0 < z.there) (back : 0 < z.back) :
    (∃ past l, Run (Step z) (Link.start z) past l ∧ ∀ e l', ¬ Step z l e l') ↔ 1 < z.message := by
  constructor
  · rintro ⟨past, l, run, stuck⟩
    by_contra short
    have one : z.message = 1 := by omega
    have whole := run.mono fun _ _ _ taken => And.intro taken (whole_of_one one taken)
    obtain ⟨e, l', taken, -⟩ :=
      exists_whole_step positive (one ▸ there) (one ▸ back) (turn_of_whole_run whole)
    exact stuck e l' taken
  · intro long
    by_contra never
    -- otherwise a run in which only single bytes are read goes on for as long as we like
    have proceeds : ∀ past l, Run (fun l e l' => Step z l e l' ∧ e.Little) (Link.start z) past l →
        ∃ e l', Step z l e l' ∧ e.Little := by
      intro past l run
      have moves : ∃ e l', Step z l e l' := by
        by_contra blocked
        refine never ⟨past, l, run.mono fun _ _ _ taken => taken.1, ?_⟩
        exact fun e l' taken => blocked ⟨e, l', taken⟩
      obtain ⟨e, l', taken⟩ := moves
      exact exists_little_step positive taken
    let most := z.message * (z.mostGets + 1) + z.message * z.mostHears + z.mostGets + z.mostHears
    obtain ⟨past, l, run, length⟩ := Run.exists_length proceeds (most + 1)
    have counted : Counted z past l :=
      run.invariant_history (counted_start z)
        fun past l e l' _ counted taken => counted_step counted taken.1 taken.2
    obtain ⟨gets, hears⟩ := counted.gets_le long
    have asked := Nat.mul_le_mul_left z.message (Nat.add_le_add_right gets 1)
    have answered := Nat.mul_le_mul_left z.message hears
    have bound := counted.length
    have := counted.asked
    have := counted.answered
    omega

end Stuck

end Lmbench.Lib.PingPong
