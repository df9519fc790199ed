import Lmbench.Lib.Transition
import Lmbench.Msgring.Rendezvous
import Mathlib.Tactic.Ring

/-!
# The stream of `bw_tcp`

A child of `bw_tcp` connects, sends its message size as decimal text and from then
on only reads. The server's `source` takes one `read` for the text, whatever part of
it that returns, and then writes messages of that size until the connection is gone.
A size of zero is the text with which `bw_tcp -S` ends the server.

Both sides see a stream: a `read` takes any part of what is there, and a `write` of
a message is put into the connection in pieces. A message that is too large for one
`write` ends `source`, as does a `valloc` that fails, and the child when it then finds
the end of the stream. The child counts an iteration when its byte count is used up,
and does not count what the last `read` brought beyond.

## Main definitions

* `sscanfLu` - `sscanf(scratch, "%lu", &nbytes)`
* `Link` - the child, the server and the connection
* `Step` - `initialize`, `loop_transfer` and `source`

## Main results

* `exists_toDigits_of_take` - a text that is cut is the text of a smaller, positive number
* `streams_of_run` - no child ends the server, no transfer gets stuck, and what is
  reported was read
-/

namespace Lmbench.BwTcp

open Lib Msgring.Rendezvous

/-- `sscanf(s, "%lu", &nbytes)`, none if it stores nothing. A number that does not
fit is `ULONG_MAX`, and a sign is allowed. -/
def sscanfLu (s : List Char) : Option ℕ :=
  let (negative, s) := splitSign (s.dropWhile isSpace)
  let digits := s.takeWhile Char.isDigit
  if digits = [] then none
  else
    let n := Nat.ofDigitChars 10 digits 0
    some (if 18446744073709551616 ≤ n then 18446744073709551615
      else if negative then (18446744073709551616 - n) % 18446744073709551616 else n)

/-- `char scratch[100]` -/
def scratchSize : ℕ := 100

/-- `bzero(scratch, 100)` and the bytes that were read over it. -/
def scratch (got : List Char) : List Char := got ++ List.replicate (scratchSize - got.length) nul

/-- The control message: `sprintf(buf, "%lu", msize)` with its NUL. -/
def control (msize : ℕ) : List Char := Nat.toDigits 10 msize ++ [nul]

/-- The most bytes that one `read` or `write` moves. -/
def maxTransfer : ℕ := 2147479552

/-- What the child is started with, and how much the connection holds. -/
structure Sizes where
  msize : ℕ
  move : ℕ
  room : ℕ

/-- Where the child is; in a call of `loop_transfer`, `iterations` are left behind
the one it is in. -/
inductive ChildPc
  | connected
  | idle
  | transfer (iterations todo : ℕ)
  | closed
  | exited
deriving DecidableEq, Repr

/-- Where `source` is; `left` bytes of its message are not in the connection yet. -/
inductive ServerPc
  | control
  /-- `nbytes` was not set. -/
  | undefined
  /-- `tcp_done` and the end of the whole server. -/
  | shutdown
  | sending (m left : ℕ)
  | exited
deriving DecidableEq, Repr

/-- The two processes with what is between them. -/
structure Link where
  child : ChildPc
  server : ServerPc
  text : List Char
  data : ℕ
deriving DecidableEq, Repr

/-- What can be seen of a step. -/
inductive Action
  | hello
  | call (iterations : ℕ)
  | read (c : ℕ)
  | iterate
  | close
  | eof
  | scan (k : ℕ)
  | noMemory
  | put (n : ℕ)
deriving DecidableEq

/-- Behind `tcp_connect`, for which the child has its buffer, and `tcp_accept`. -/
def Link.initial : Link := ⟨.connected, .control, [], 0⟩

/-- The top of the loop of `loop_transfer`. -/
def top (z : Sizes) : ℕ → ChildPc
  | 0 => .idle
  | iterations + 1 => .transfer iterations z.move

/-- What `source` does with the text. -/
def afterScan (text : List Char) : ServerPc :=
  match sscanfLu text with
  | none => .undefined
  | some 0 => .shutdown
  | some m => .sending m m

/-- What `source` does behind some bytes of a message: the next `write`, or the end of its loop
where the `write` has moved what it can and that is not the whole message. -/
def afterPut (m left n : ℕ) : ServerPc :=
  if left = n then .sending m m
  else if m - left + n = maxTransfer then .exited
  else .sending m (left - n)

/-- A step of one of the processes. -/
inductive Step (z : Sizes) : Link → Action → Link → Prop
  /-- `write(state->sock, buf, strlen(buf) + 1)` -/
  | hello {l : Link} : l.child = .connected →
      Step z l .hello { l with child := .idle, text := l.text ++ control z.msize }
  /-- a call of `loop_transfer` -/
  | call {l : Link} (iterations : ℕ) : l.child = .idle →
      Step z l (.call iterations) { l with child := top z iterations }
  /-- `c = read(state->sock, state->buf, state->msize)`; `todo -= c`, or as much as is left -/
  | read {l : Link} {iterations todo c : ℕ} : l.child = .transfer iterations todo → 0 < todo →
      0 < c → c ≤ z.msize → c ≤ maxTransfer → c ≤ l.data →
      Step z l (.read c)
        { l with child := .transfer iterations (todo - min c todo), data := l.data - c }
  /-- a `read` at the end of the stream, and `exit(1)` -/
  | eof {l : Link} {iterations todo : ℕ} : l.child = .transfer iterations todo → 0 < todo →
      l.data = 0 → l.server = .exited ∨ l.server = .shutdown →
      Step z l .eof { l with child := .exited }
  /-- the end of the loop over `todo` -/
  | iterate {l : Link} {iterations : ℕ} : l.child = .transfer iterations 0 →
      Step z l .iterate { l with child := top z iterations }
  /-- `close(state->sock)` -/
  | close {l : Link} : l.child = .idle → Step z l .close { l with child := .closed }
  /-- `read(data, scratch, 100)` and `sscanf` -/
  | scan {l : Link} {k : ℕ} : l.server = .control → 0 < k → k ≤ scratchSize →
      k ≤ l.text.length →
      Step z l (.scan k)
        { l with server := afterScan (scratch (l.text.take k)), text := l.text.drop k }
  /-- a `valloc(m)` that fails, and `exit(1)` -/
  | noMemory {l : Link} {k m left : ℕ} : l.server = .control → 0 < k → k ≤ scratchSize →
      k ≤ l.text.length → afterScan (scratch (l.text.take k)) = .sending m left →
      Step z l .noMemory { l with server := .exited, text := l.text.drop k }
  /-- some of the bytes of `write(data, buf, m)` -/
  | put {l : Link} {m left n : ℕ} : l.server = .sending m left → 0 < n → n ≤ left →
      m - left + n ≤ maxTransfer → l.data + n ≤ z.room →
      Step z l (.put n) { l with server := afterPut m left n, data := l.data + n }

/-- The bytes that the child has read. -/
def received (past : List Action) : ℕ :=
  (past.map fun | .read c => c | _ => 0).sum

/-- The iterations that the child has completed. -/
def iterations (past : List Action) : ℕ := past.count .iterate

variable {z : Sizes} {l l' : Link} {e : Action} {past : List Action} {n k m : ℕ}

/-! ### The text of the message size -/

/-- A front part of a decimal number is that of a smaller one, and not zero. -/
theorem exists_toDigits_of_take (positive : 0 < n) (bytes : 0 < k)
    (inside : k ≤ (Nat.toDigits 10 n).length) :
    ∃ m, 0 < m ∧ m ≤ n ∧ (Nat.toDigits 10 n).take k = Nat.toDigits 10 m := by
  induction n using Nat.strong_induction_on with
  | _ n ih =>
    rcases inside.lt_or_eq with proper | rfl
    · -- the last digit is cut off
      have large : 10 ≤ n := by
        by_contra small
        rw [Nat.toDigits_of_lt_base (by omega)] at proper
        simp only [List.length_singleton] at proper
        omega
      rw [Nat.toDigits_of_base_le (by decide) large] at proper ⊢
      rw [List.length_append, List.length_singleton] at proper
      obtain ⟨m, pos, le, same⟩ := ih (n / 10) (by omega) (by omega) (by omega)
      refine ⟨m, pos, by omega, ?_⟩
      rw [List.take_append_of_le_length (by omega), same]
    · exact ⟨n, positive, le_rfl, List.take_length⟩

/-- A digit is no sign. -/
theorem splitSign_of_isDigit {c : Char} {cs : List Char} (digit : c.isDigit) :
    splitSign (c :: cs) = (false, c :: cs) := by
  unfold splitSign
  split <;> simp_all

/-- The text of a number, with no digit behind it, is scanned as that number. -/
theorem sscanfLu_toDigits (word : n < 18446744073709551616) {junk : List Char}
    (ends : ∀ c ∈ junk.head?, c.isDigit = false) :
    sscanfLu (Nat.toDigits 10 n ++ junk) = some n := by
  have digits := isDigit_toDigits n
  obtain ⟨c, cs, split⟩ := List.exists_cons_of_ne_nil (Nat.toDigits_ne_nil (n := n) (b := 10))
  have value := Nat.ofDigitChars_ten_toDigits (n := n)
  rw [split] at digits value ⊢
  have first := digits c (by simp)
  have skipped : (c :: cs ++ junk).dropWhile isSpace = c :: (cs ++ junk) := by
    simp [isSpace_of_isDigit first]
  have taken : (c :: (cs ++ junk)).takeWhile Char.isDigit = c :: cs := by
    rw [← List.cons_append, List.takeWhile_append_of_pos digits]
    cases junk with
    | nil => simp
    | cons d ds => simp [ends d rfl]
  simp only [sscanfLu, skipped, splitSign_of_isDigit first, taken, value, reduceCtorEq,
    if_false, Bool.false_eq_true, if_neg (not_le.mpr word)]

theorem isDigit_nul : nul.isDigit = false := by decide

theorem head_replicate_nul (k : ℕ) : ∀ c ∈ (List.replicate k nul).head?, c.isDigit = false := by
  intro c member
  have same : c = nul := by
    cases k with
    | zero => simp at member
    | succ k => simpa [List.replicate_succ, eq_comm] using member
  rw [same, isDigit_nul]

/-- **Whatever part of the text arrives, the server sends messages.** They are no
larger than the child asked for. -/
theorem afterScan_control (positive : 0 < z.msize) (word : z.msize < 18446744073709551616)
    (bytes : 0 < k) : ∃ m, 0 < m ∧ m ≤ z.msize ∧
      afterScan (scratch ((control z.msize).take k)) = .sending m m := by
  -- in both cases the digits of a positive number stand before a NUL
  obtain ⟨m, junk, pos, le, same, ends⟩ : ∃ m junk, 0 < m ∧ m ≤ z.msize ∧
      scratch ((control z.msize).take k) = Nat.toDigits 10 m ++ junk ∧
      ∀ c ∈ junk.head?, c.isDigit = false := by
    unfold control
    rcases Nat.lt_or_ge (Nat.toDigits 10 z.msize).length k with whole | cut
    · refine ⟨z.msize, [nul] ++ List.replicate
        (scratchSize - (Nat.toDigits 10 z.msize ++ [nul]).length) nul, positive, le_rfl, ?_, ?_⟩
      · rw [scratch, List.take_of_length_le (by simpa using Nat.succ_le_of_lt whole),
          List.append_assoc]
      · simp [isDigit_nul]
    · obtain ⟨m, pos, le, same⟩ := exists_toDigits_of_take positive bytes cut
      refine ⟨m, List.replicate (scratchSize - (Nat.toDigits 10 m).length) nul, pos, le, ?_,
        head_replicate_nul _⟩
      rw [scratch, List.take_append_of_le_length cut, same]
  refine ⟨m, pos, le, ?_⟩
  obtain ⟨j, rfl⟩ := Nat.exists_eq_succ_of_ne_zero pos.ne'
  rw [same, afterScan, sscanfLu_toDigits (le.trans_lt word) ends]
  rfl

/-! ### A transfer -/

@[simp] theorem received_snoc (past : List Action) (e : Action) :
    received (past ++ [e]) = received past + match e with | .read c => c | _ => 0 := by
  simp [received]

@[simp] theorem iterations_snoc (past : List Action) (e : Action) :
    iterations (past ++ [e]) = iterations past + if e = .iterate then 1 else 0 := by
  simp [iterations, List.count_append, List.count_singleton]

/-- The server sends messages no larger than asked for, or has not read the text, or had no
memory for them. -/
def ServerSound (z : Sizes) (past : List Action) (l : Link) : Prop :=
  match l.server with
  | .control =>
    (l.child = .connected ∧ l.text = []) ∨ (l.child ≠ .connected ∧ l.text = control z.msize)
  | .sending m left => l.child ≠ .connected ∧ 0 < m ∧ m ≤ z.msize ∧ 0 < left ∧ left ≤ m
  | .exited => l.child ≠ .connected ∧ .noMemory ∈ past
  | _ => False

/-- The most that one iteration reads. -/
def Sizes.most (z : Sizes) : ℕ := z.move + (z.msize - 1)

/-- What was read, for the iterations that were made; a last `read` may bring more
than the iteration needs. A child exits where the server has. -/
def ChildSound (z : Sizes) (past : List Action) (l : Link) : Prop :=
  match l.child with
  | .transfer _ todo => todo ≤ z.move ∧
    iterations past * z.move + (z.move - todo) ≤ received past ∧
    received past ≤ iterations past * z.most + (z.move - todo) + if todo = 0 then z.msize - 1 else 0
  | .exited => .noMemory ∈ past
  | _ => iterations past * z.move ≤ received past ∧ received past ≤ iterations past * z.most

/-- A message of a size that one `write` moves is sent as a whole. -/
theorem afterPut_eq {left : ℕ} (small : m ≤ maxTransfer) (bytes : 0 < n) (part : n ≤ left)
    (inside : left ≤ m) : ∃ left', afterPut m left n = .sending m left' ∧ 0 < left' ∧
      left' ≤ m := by
  unfold afterPut
  by_cases whole : left = n
  · exact ⟨m, if_pos whole, by omega, le_rfl⟩
  · rw [if_neg whole, if_neg (by omega)]
    exact ⟨left - n, rfl, by omega, by omega⟩

theorem serverSound_step (positive : 0 < z.msize) (small : z.msize ≤ maxTransfer)
    (sound : ServerSound z past l) (step : Step z l e l') : ServerSound z (past ++ [e]) l' := by
  unfold ServerSound at sound ⊢
  cases step with
  | hello here =>
    dsimp only
    split at sound <;> rename_i server <;> simp_all
  | call n here =>
    dsimp only
    split at sound <;> rename_i server <;> cases n <;> simp_all [top]
  | read here | close here | eof here =>
    dsimp only
    split at sound <;> rename_i server <;> simp_all
  | @iterate k here =>
    dsimp only
    split at sound <;> rename_i server <;> cases k <;> simp_all [top]
  | scan here bytes fits inside =>
    rw [here] at sound
    rcases sound with ⟨_, empty⟩ | ⟨greeted, text⟩
    · simp only [empty, List.length_nil] at inside
      omega
    · rw [text]
      have word : z.msize < 18446744073709551616 := small.trans_lt (by decide)
      obtain ⟨m, pos, le, sends⟩ := afterScan_control positive word bytes
      simp only [sends]
      exact ⟨greeted, pos, le, pos, le_rfl⟩
  | noMemory here bytes fits inside sends =>
    rw [here] at sound
    rcases sound with ⟨_, empty⟩ | ⟨greeted, _⟩
    · simp only [empty, List.length_nil] at inside
      omega
    · exact ⟨greeted, List.mem_append_right _ List.mem_cons_self⟩
  | put here bytes part moved fits =>
    rw [here] at sound
    obtain ⟨greeted, pos, le, left, inside⟩ := sound
    obtain ⟨left', sends, more, inside'⟩ := afterPut_eq (le.trans small) bytes part inside
    simp only [sends]
    exact ⟨greeted, pos, le, more, inside'⟩

theorem childSound_step (positive : 0 < z.msize) (server : ServerSound z past l)
    (sound : ChildSound z past l) (step : Step z l e l') : ChildSound z (past ++ [e]) l' := by
  unfold ChildSound at sound ⊢
  cases step with
  | hello here | close here =>
    simp only [here] at sound
    simpa only [received_snoc, iterations_snoc, reduceCtorEq, if_false, Nat.add_zero] using sound
  | call n here =>
    simp only [here] at sound
    simp only [received_snoc, iterations_snoc, reduceCtorEq, if_false, Nat.add_zero]
    cases n with
    | zero => exact sound
    | succ n =>
      simp only [top, Nat.sub_self]
      omega
  | read here more bytes limit moved there =>
    simp only [here] at sound
    simp only [received_snoc, iterations_snoc, reduceCtorEq, if_false, Nat.add_zero]
    rw [if_neg (by omega)] at sound
    split <;> omega
  | eof here more empty gone =>
    unfold ServerSound at server
    rcases gone with gone | gone
    · rw [gone] at server
      exact List.mem_append_left _ server.2
    · rw [gone] at server
      exact server.elim
  | @iterate k here =>
    simp only [here, if_true] at sound
    simp only [received_snoc, iterations_snoc, if_true, Nat.add_zero, Nat.succ_mul]
    have most : z.most = z.move + (z.msize - 1) := rfl
    cases k with
    | zero =>
      simp only [top]
      omega
    | succ k =>
      simp only [top, Nat.sub_self]
      omega
  | scan | noMemory | put =>
    cases here : l.child with
    | exited =>
      rw [here] at sound
      exact List.mem_append_left _ sound
    | _ =>
      rw [here] at sound
      simpa only [here, received_snoc, iterations_snoc, reduceCtorEq, if_false, Nat.add_zero]
        using sound

/-- With full messages only, each iteration reads its byte count. -/
def Exact (z : Sizes) (past : List Action) (l : Link) : Prop :=
  match l.child with
  | .transfer _ todo => z.msize ∣ todo ∧
    received past + todo = iterations past * z.move + z.move
  | .exited => True
  | _ => received past = iterations past * z.move

theorem exact_step (full : z.msize ∣ z.move) (exactly : Exact z past l) (step : Step z l e l')
    (whole : ∀ c, e = .read c → c = z.msize) : Exact z (past ++ [e]) l' := by
  unfold Exact at exactly ⊢
  cases step with
  | hello here | close here =>
    simp only [here] at exactly
    simpa only [received_snoc, iterations_snoc, reduceCtorEq, if_false, Nat.add_zero] using exactly
  | call n here =>
    simp only [here] at exactly
    simp only [received_snoc, iterations_snoc, reduceCtorEq, if_false, Nat.add_zero]
    cases n with
    | zero => exact exactly
    | succ n => exact ⟨full, by omega⟩
  | @read iterations todo c here more bytes limit moved there =>
    simp only [here] at exactly
    simp only [received_snoc, iterations_snoc, reduceCtorEq, if_false, Nat.add_zero]
    obtain rfl := whole c rfl
    have fits : z.msize ≤ todo := Nat.le_of_dvd more exactly.1
    rw [Nat.min_eq_left fits]
    exact ⟨Nat.dvd_sub exactly.1 dvd_rfl, by omega⟩
  | @iterate k here =>
    simp only [here] at exactly
    simp only [received_snoc, iterations_snoc, if_true, Nat.add_zero, Nat.succ_mul]
    cases k with
    | zero =>
      simp only [top]
      omega
    | succ k => exact ⟨full, by omega⟩
  | eof => trivial
  | scan | noMemory | put =>
    simpa only [received_snoc, iterations_snoc, reduceCtorEq, if_false, Nat.add_zero] using exactly

/-- During a transfer one of the two processes can go on. -/
theorem exists_step (positive : 0 < z.msize) (small : z.msize ≤ maxTransfer) (room : 0 < z.room)
    (server : ServerSound z past l) (busy : l.child ≠ .idle) (opened : l.child ≠ .closed)
    (running : l.child ≠ .exited) : ∃ e l', Step z l e l' := by
  cases child : l.child with
  | idle => exact absurd child busy
  | closed => exact absurd child opened
  | exited => exact absurd child running
  | connected => exact ⟨_, _, .hello child⟩
  | transfer k todo =>
    rcases Nat.eq_zero_or_pos todo with rfl | more
    · exact ⟨_, _, .iterate child⟩
    · rcases Nat.eq_zero_or_pos l.data with empty | there
      · -- the child waits, and the server has something to send or to read, or is gone
        unfold ServerSound at server
        cases here : l.server with
        | control =>
          rw [here] at server
          obtain ⟨_, text⟩ := server.resolve_left fun early => by simp [child] at early
          exact ⟨_, _, .scan here Nat.one_pos (by decide) (by simp [text, control])⟩
        | sending m left =>
          rw [here] at server
          obtain ⟨-, -, le, bytes, inside⟩ := server
          exact ⟨_, _, .put here Nat.one_pos bytes (by omega) (by omega)⟩
        | exited => exact ⟨_, _, .eof child more empty (.inl here)⟩
        | undefined | shutdown =>
          rw [here] at server
          exact server.elim
      · exact ⟨_, _, .read child more Nat.one_pos positive (by decide) there⟩

/-- What a client of `bw_tcp` and its server can rely on. -/
structure Streams (z : Sizes) (past : List Action) (l : Link) : Prop where
  /-- the server has not read the text, sends, or had no memory -/
  server : l.server = .control ∨ (∃ m left, l.server = .sending m left ∧ 0 < m ∧ m ≤ z.msize) ∨
    l.server = .exited ∧ .noMemory ∈ past
  /-- one of the two can go on, as long as the child is in a transfer -/
  proceeds : l.child ≠ .idle → l.child ≠ .closed → l.child ≠ .exited → ∃ e l', Step z l e l'
  /-- the child exits only where the server had no memory -/
  exits : l.child = .exited → .noMemory ∈ past
  /-- between the calls, what was read is what is reported, up to the last message -/
  reads : l.child = .idle ∨ l.child = .closed →
    iterations past * z.move ≤ received past ∧
      received past ≤ iterations past * (z.move + (z.msize - 1)) ∧
      (z.msize ∣ z.move → (∀ c, .read c ∈ past → c = z.msize) →
        received past = iterations past * z.move)

/-- **The stream.** In every run of a child of `bw_tcp` and its server, whatever parts
the reads return: the server sends messages of a positive size, no larger than asked
for, so no child ends it; a transfer never gets stuck; and when the child is outside
of a transfer, it has read at least the bytes that are reported for its iterations,
and less than one message more for each. If all reads return full messages, it has
read exactly those. -/
theorem streams_of_run (positive : 0 < z.msize) (small : z.msize ≤ maxTransfer)
    (room : 0 < z.room) (run : Run (Step z) Link.initial past l) : Streams z past l := by
  obtain ⟨server, child⟩ : ServerSound z past l ∧ ChildSound z past l := by
    apply run.invariant_history
    · exact ⟨.inl ⟨rfl, rfl⟩, by simp [ChildSound, Link.initial, received, iterations]⟩
    · exact fun _ _ _ _ _ sound step => ⟨serverSound_step positive small sound.1 step,
        childSound_step positive sound.1 sound.2 step⟩
  refine ⟨?_, fun busy opened running => exists_step positive small room server busy opened
    running, fun exited => ?_, fun outside => ?_⟩
  · unfold ServerSound at server
    split at server
    · rename_i here
      exact .inl here
    · rename_i m left here
      exact .inr (.inl ⟨m, left, here, server.2.1, server.2.2.1⟩)
    · rename_i here
      exact .inr (.inr ⟨here, server.2⟩)
    · exact server.elim
  · rw [ChildSound, exited] at child
    exact child
  · have exactly : (∀ c, .read c ∈ past → c = z.msize) → z.msize ∣ z.move → Exact z past l := by
      intro whole full
      revert whole
      apply run.invariant_history
      · exact fun _ => by simp [Exact, Link.initial, received, iterations]
      · intro past s e t _ before step whole
        refine exact_step full (before fun c member => ?_) step fun c same => ?_
        · exact whole c (List.mem_append_left _ member)
        · exact whole c (by simp [same])
    unfold ChildSound at child
    unfold Exact at exactly
    rcases outside with here | here
    · rw [here] at child exactly
      exact ⟨child.1, child.2, fun full whole => exactly whole full⟩
    · rw [here] at child exactly
      exact ⟨child.1, child.2, fun full whole => exactly whole full⟩

/-- One iteration of 6 bytes with messages of 3 bytes. The last `read` finds 3 bytes
where one is missing: 8 bytes are read, and 6 are reported. -/
theorem streams_of_run_six : ∃ past l, Run (Step ⟨3, 6, 4⟩) Link.initial past l ∧
    l.child = .idle ∧ received past = 8 ∧ iterations past = 1 ∧ Streams ⟨3, 6, 4⟩ past l := by
  have start : Run (Step ⟨3, 6, 4⟩) Link.initial [] _ := .nil
  have asked := ((start.snoc (.hello rfl)).snoc (.call 1 rfl)).snoc
    (.scan (k := 1) rfl (by decide) (by decide) (by decide))
  have first := (asked.snoc
    (.put (n := 3) rfl (by decide) (by decide) (by decide) (by decide))).snoc
    (.read (c := 2) rfl (by decide) (by decide) (by decide) (by decide) (by decide))
  have second := (first.snoc
    (.put (n := 3) rfl (by decide) (by decide) (by decide) (by decide))).snoc
    (.read (c := 3) rfl (by decide) (by decide) (by decide) (by decide) (by decide))
  have third := (second.snoc
    (.put (n := 2) rfl (by decide) (by decide) (by decide) (by decide))).snoc
    (.read (c := 3) rfl (by decide) (by decide) (by decide) (by decide) (by decide))
  have run := third.snoc (.iterate rfl)
  exact ⟨_, _, run, by decide, by decide, by decide,
    streams_of_run (z := ⟨3, 6, 4⟩) (by decide) (by decide) (by decide) run⟩

end Lmbench.BwTcp
