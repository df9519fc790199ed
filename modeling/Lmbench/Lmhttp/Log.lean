import Lmbench.Lib.Interleaving
import Mathlib.Data.List.Basic
import Mathlib.Data.List.Flatten
import Mathlib.Data.List.Perm.Basic

/-!
# The log of `lmhttp`

Each worker gathers its entries in a buffer of its own and appends the buffer to the file that all
share when the next entry may not fit. `die` appends what is left. Nothing keeps a signal from
coming between the write and the statement that empties the buffer.

The workers are forked before anything is logged, so what they share is the file, which is opened
for appending. A signal stays blocked while its own handler runs, and not while that of another
does. A write takes all it is given.

## Main results

* `text_injective` - the file can be read back
* `Worker.Sound.step` - what one step of a worker keeps
* `logged_of_run` - what the workers leave in the file, in every order of steps and signals
-/

namespace Lmbench.Lmhttp.Log

open Lib

section Entries

/-- What `logit` prints: a line that leaves room for the NUL in its `buf`. -/
structure Entry where
  body : List Char
  line : '\n' ∉ body
  fits : body.length + 2 ≤ 1024 + 16
deriving DecidableEq, Repr

def Entry.text (e : Entry) : List Char := e.body ++ ['\n']

/-- The entries behind each other. -/
def text (es : List Entry) : List Char := es.flatMap Entry.text

/-- A number takes ten places at most. -/
theorem length_toDigits_le (n : UInt32) : (Nat.toDigits 10 n.toNat).length ≤ 10 := by
  rw [Nat.length_toDigits_le_iff (by decide) (by decide)]
  exact n.toNat_lt.trans (by decide)

/-- A number has no newline. -/
theorem newline_notMem_toDigits (n : ℕ) : '\n' ∉ Nat.toDigits 10 n := by
  intro member
  have digit := Nat.isDigit_of_mem_toDigits (by decide) (by decide) member
  exact absurd digit (by decide)

/-- `sprintf(buf, "%u %u %s %u\n", …)`, of a name that ends within `file`. -/
def entry (addr now : UInt32) (name : List Char) (size : UInt32) (line : '\n' ∉ name)
    (short : name.length < 100) : Entry where
  body := Nat.toDigits 10 addr.toNat ++ ' ' :: Nat.toDigits 10 now.toNat ++ ' ' :: name ++
    ' ' :: Nat.toDigits 10 size.toNat
  line := by
    simp [newline_notMem_toDigits, line]
  fits := by
    have := length_toDigits_le addr
    have := length_toDigits_le now
    have := length_toDigits_le size
    simp only [List.length_append, List.length_cons]
    omega

variable {e : Entry} {es es' : List Entry} {r : ℕ}

theorem Entry.length_text : e.text.length ≤ 1024 + 16 := by
  have := e.fits
  rw [Entry.text, List.length_append, List.length_singleton]
  omega

theorem text_append : text (es ++ es') = text es ++ text es' := List.flatMap_append

theorem text_singleton : text [e] = e.text := by simp [text]

/-- Entries end where their only newline is. -/
theorem text_injective : Function.Injective text := by
  intro es
  induction es with
  | nil =>
    intro es' same
    cases es' with
    | nil => rfl
    | cons e' es' => simp [text, Entry.text] at same
  | cons e es ih =>
    intro es' same
    cases es' with
    | nil => simp [text, Entry.text] at same
    | cons e' es' =>
      have split : e.body ++ '\n' :: text es = e'.body ++ '\n' :: text es' := by
        simpa [text, Entry.text] using same
      -- up to the first newline both are the same
      have body : e.body = e'.body := by
        have first := congrArg (List.takeWhile (· ≠ '\n')) split
        have upTo (f : Entry) (rest : List Char) :
            (f.body ++ '\n' :: rest).takeWhile (· ≠ '\n') = f.body := by
          rw [List.takeWhile_append_of_pos]
          · simp
          · intro c member
            exact decide_eq_true fun newline => f.line (newline ▸ member)
        rwa [upTo, upTo] at first
      have rest : text es = text es' := by
        rw [body] at split
        exact (List.cons.inj (List.append_cancel_left split)).2
      have first : e = e' := by
        cases e
        cases e'
        cases body
        rfl
      rw [first, ih rest]

end Entries

section Worker

/-- The signals that `die` handles. -/
inductive Signal
  | SIGINT
  | SIGHUP
  | SIGTERM
deriving DecidableEq, Repr

/-- How far a call of `die` is. -/
inductive DiePc
  | test
  | wrote
  | zeroed
deriving DecidableEq, Repr

/-- Where a worker is. -/
inductive Pc
  /-- outside of `logit` -/
  | serving
  /-- the entry may not fit -/
  | full (e : Entry)
  | wrote (e : Entry)
  /-- in front of `bcopy` -/
  | room (e : Entry)
  | copied (e : Entry)
  /-- in `die`; a handler that interrupted another one never returns to it -/
  | dying (blocked : List Signal) (pc : DiePc)
  /-- after `exit` in `source` or `rdwr` -/
  | exited (status : ℕ)
  /-- after `exit(1)` in `die` -/
  | died
deriving DecidableEq, Repr

/-- The signals that are blocked. -/
def Pc.blocked : Pc → List Signal
  | .dying blocked _ => blocked
  | _ => []

def Pc.Ended : Pc → Prop
  | .exited _ | .died => True
  | _ => False

/-- A worker: its `logbuf` and `nbytes`. -/
structure Worker where
  logbuf : List Char
  nbytes : ℕ
  pc : Pc
deriving DecidableEq, Repr

/-- `sizeof(logbuf)` -/
def logbufSize : ℕ := 64 * 1024

/-- The bytes buffered. -/
def Worker.buffered (w : Worker) : List Char := w.logbuf.take w.nbytes

/-- `bcopy(buf, &logbuf[nbytes], len)` -/
def Worker.bcopy (buf : List Char) (w : Worker) : List Char :=
  w.logbuf.take w.nbytes ++ buf ++ w.logbuf.drop (w.nbytes + buf.length)

/-- What a step of a worker shows. -/
inductive Logging
  | unseen
  | wrote (bytes : List Char)
  | logged (e : Entry)
  | signalled (signal : Signal)
deriving DecidableEq, Repr

/-- A step of a worker. -/
inductive Worker.Step : Worker → Logging → Worker → Prop
  /-- the test of `logit` -/
  | logit {w : Worker} (e : Entry) (pc : w.pc = .serving) :
      Step w .unseen
        { w with pc := if logbufSize ≤ w.nbytes + e.text.length then .full e else .room e }
  | write {w : Worker} {e : Entry} (pc : w.pc = .full e) :
      Step w (.wrote w.buffered) { w with pc := .wrote e }
  | reset {w : Worker} {e : Entry} (pc : w.pc = .wrote e) :
      Step w .unseen { w with nbytes := 0, pc := .room e }
  | bcopy {w : Worker} {e : Entry} (pc : w.pc = .room e) :
      Step w .unseen { w with logbuf := w.bcopy e.text, pc := .copied e }
  | count {w : Worker} {e : Entry} (pc : w.pc = .copied e) :
      Step w (.logged e) { w with nbytes := w.nbytes + e.text.length, pc := .serving }
  /-- the request was `EXIT`, or `rdwr` gives up -/
  | exit {w : Worker} (status : ℕ) (pc : w.pc = .serving) :
      Step w .unseen { w with pc := .exited status }
  /-- a signal, between any two statements -/
  | signal {w : Worker} (signal : Signal) (alive : ¬w.pc.Ended)
      (unblocked : signal ∉ w.pc.blocked) :
      Step w (.signalled signal) { w with pc := .dying (signal :: w.pc.blocked) .test }
  | dieEmpty {w : Worker} {blocked : List Signal} (pc : w.pc = .dying blocked .test)
      (empty : w.nbytes = 0) : Step w .unseen { w with pc := .died }
  | dieWrite {w : Worker} {blocked : List Signal} (pc : w.pc = .dying blocked .test)
      (left : w.nbytes ≠ 0) : Step w (.wrote w.buffered) { w with pc := .dying blocked .wrote }
  | dieReset {w : Worker} {blocked : List Signal} (pc : w.pc = .dying blocked .wrote) :
      Step w .unseen { w with nbytes := 0, pc := .dying blocked .zeroed }
  | dieExit {w : Worker} {blocked : List Signal} (pc : w.pc = .dying blocked .zeroed) :
      Step w .unseen { w with pc := .died }

/-- A worker that was just forked. -/
def Worker.start (logbuf : List Char) : Worker := ⟨logbuf, 0, .serving⟩

/-- The entries that were logged to the end. -/
def entries (events : List Logging) : List Entry :=
  events.filterMap fun
    | .logged e => some e
    | _ => none

def Logging.written : Logging → List (List Char)
  | .wrote bytes => [bytes]
  | _ => []

/-- What the writes put into the file, one after the other. -/
def writes (events : List Logging) : List (List Char) := events.flatMap Logging.written

/-- The last step was a write. -/
def justWrote (events : List Logging) : Bool :=
  match events.getLast? with
  | some (.wrote _) => true
  | _ => false

/-- A write that is followed by a signal. -/
def Logging.overtakenBy : Logging → Option Logging → ℕ
  | .wrote _, some (.signalled _) => 1
  | _, _ => 0

/-- How often a signal came between a write and the statement that empties the buffer. -/
def overtaken : List Logging → ℕ
  | [] => 0
  | l :: events => l.overtakenBy events.head? + overtaken events

end Worker

section Events

variable {events : List Logging} {e : Entry} {bytes : List Char} {signal : Signal}

theorem entries_snoc_logged : entries (events ++ [.logged e]) = entries events ++ [e] := by
  simp [entries]

theorem entries_snoc (l : Logging) (other : ∀ e, l ≠ .logged e) :
    entries (events ++ [l]) = entries events := by
  cases l with
  | logged e => exact absurd rfl (other e)
  | _ => simp [entries]

theorem writes_snoc (l : Logging) : writes (events ++ [l]) = writes events ++ l.written := by
  simp [writes]

theorem justWrote_snoc (l : Logging) : justWrote (events ++ [l]) = (l.written != []) := by
  rw [justWrote, List.getLast?_concat]
  cases l <;> rfl

theorem overtakenBy_none (l : Logging) : l.overtakenBy none = 0 := by
  cases l <;> rfl

/-- Only the last pair is new. -/
theorem overtaken_append_singleton (l l' : Logging) :
    overtaken (events ++ [l, l']) = overtaken (events ++ [l]) + l.overtakenBy (some l') := by
  induction events with
  | nil => simp [overtaken, overtakenBy_none]
  | cons first events ih =>
    have head : (events ++ [l, l']).head? = (events ++ [l]).head? := by
      cases events <;> rfl
    rw [List.cons_append, List.cons_append, overtaken, overtaken, ih, head, Nat.add_assoc]

theorem overtaken_snoc (l : Logging) (other : ∀ signal, l ≠ .signalled signal) :
    overtaken (events ++ [l]) = overtaken events := by
  have alone (l' : Logging) : l'.overtakenBy (some l) = 0 := by
    cases l with
    | signalled signal => exact absurd rfl (other signal)
    | _ => cases l' <;> rfl
  rcases List.eq_nil_or_concat events with rfl | ⟨before, last, rfl⟩
  · simp [overtaken, overtakenBy_none]
  · rw [List.concat_eq_append, List.append_assoc, List.singleton_append,
      overtaken_append_singleton, alone, Nat.add_zero]

theorem overtaken_snoc_signalled (events : List Logging) (signal : Signal) :
    overtaken (events ++ [.signalled signal]) = overtaken events + (justWrote events).toNat := by
  rcases List.eq_nil_or_concat events with rfl | ⟨before, last, rfl⟩
  · rfl
  · rw [List.concat_eq_append, List.append_assoc, List.singleton_append,
      overtaken_append_singleton, justWrote_snoc]
    cases last <;> rfl

end Events

section Buffer

variable {w w' : Worker} {l : Logging}

/-- The buffer is not overrun. -/
structure Worker.Fits (w : Worker) : Prop where
  size : w.logbuf.length = logbufSize
  nbytes_lt : w.nbytes < logbufSize
  room : ∀ e, w.pc = .room e ∨ w.pc = .copied e → w.nbytes + e.text.length < logbufSize
  copied : ∀ e, w.pc = .copied e →
    w.logbuf.take (w.nbytes + e.text.length) = w.buffered ++ e.text
  nodup : w.pc.blocked.Nodup

theorem Worker.Fits.length_buffered (fits : w.Fits) : w.buffered.length = w.nbytes := by
  rw [Worker.buffered, List.length_take, fits.size]
  exact Nat.min_eq_left fits.nbytes_lt.le

theorem logbufSize_pos : 0 < logbufSize := by decide

/-- A buffer that is empty takes every entry. -/
theorem length_text_lt (e : Entry) : e.text.length < logbufSize :=
  e.length_text.trans_lt (by decide)

theorem Worker.Fits.step (fits : w.Fits) (taken : Worker.Step w l w') : w'.Fits := by
  cases taken with
  | logit e pc =>
    refine ⟨fits.size, fits.nbytes_lt, ?_, ?_, ?_⟩
    · intro e' inside
      dsimp only at inside ⊢
      split_ifs at inside with less
      · simp at inside
      · obtain rfl : e = e' := by simpa using inside
        exact not_le.mp less
    · intro e' inside
      dsimp only at inside
      split_ifs at inside
    · dsimp only
      split_ifs <;> exact List.nodup_nil
  | write pc => exact ⟨fits.size, fits.nbytes_lt, by simp, by simp, List.nodup_nil⟩
  | reset pc =>
    refine ⟨fits.size, logbufSize_pos, ?_, by simp, List.nodup_nil⟩
    intro e' _
    rw [Nat.zero_add]
    exact length_text_lt e'
  | @bcopy e pc =>
    have below := fits.room e (.inl pc)
    have front := fits.length_buffered
    rw [Worker.buffered] at front
    refine ⟨?_, fits.nbytes_lt, ?_, ?_, List.nodup_nil⟩
    · simp only [Worker.bcopy, List.length_append, front, List.length_drop, fits.size]
      omega
    · intro e' inside
      obtain rfl : e = e' := by simpa using inside
      exact below
    · intro e' inside
      obtain rfl : e = e' := by simpa using inside
      have kept : (w.logbuf.take w.nbytes ++ e.text).length = w.nbytes + e.text.length := by
        rw [List.length_append, front]
      have again : (w.bcopy e.text).take w.nbytes = w.logbuf.take w.nbytes := by
        rw [Worker.bcopy, List.append_assoc, List.take_append_of_le_length front.ge,
          List.take_of_length_le front.le]
      change (w.bcopy e.text).take _ = (w.bcopy e.text).take w.nbytes ++ _
      rw [again, Worker.bcopy, ← kept, List.take_left']
      rfl
  | @count e pc =>
    exact ⟨fits.size, fits.room e (.inr pc), by simp, by simp, List.nodup_nil⟩
  | exit status pc => exact ⟨fits.size, fits.nbytes_lt, by simp, by simp, List.nodup_nil⟩
  | signal signal alive unblocked =>
    exact ⟨fits.size, fits.nbytes_lt, by simp, by simp, List.nodup_cons.mpr ⟨unblocked, fits.nodup⟩⟩
  | dieEmpty pc empty => exact ⟨fits.size, fits.nbytes_lt, by simp, by simp, List.nodup_nil⟩
  | dieWrite pc left =>
    have nodup := fits.nodup
    rw [pc] at nodup
    exact ⟨fits.size, fits.nbytes_lt, by simp, by simp, nodup⟩
  | dieReset pc =>
    have nodup := fits.nodup
    rw [pc] at nodup
    exact ⟨fits.size, logbufSize_pos, by simp, by simp, nodup⟩
  | dieExit pc => exact ⟨fits.size, fits.nbytes_lt, by simp, by simp, List.nodup_nil⟩

/-- There are three signals. -/
theorem length_le_of_nodup {signals : List Signal} (nodup : signals.Nodup) :
    signals.length ≤ 3 := by
  have sub : signals ⊆ [.SIGINT, .SIGHUP, .SIGTERM] := by
    intro signal _
    cases signal <;> simp
  exact (List.subperm_of_subset nodup sub).length_le

end Buffer

section Books

variable {w w' : Worker} {events : List Logging} {l : Logging} {flushed held : List Entry}
  {copies : ℕ} {buffered : List Char} {e : Entry} {signal : Signal} {blocked : List Signal}

/-- What is in the file: the entries `flushed` once, and the entries `held` behind them, as often
as the copies say. -/
structure Filed (flushed held : List Entry) (copies : ℕ) (events : List Logging) : Prop where
  logged : entries events = flushed ++ held
  written : (writes events).flatten =
    text flushed ++ (List.replicate copies (text held)).flatten

/-- How many copies there are, by where the worker is, and what of it is in the buffer still. -/
def Due (pc : Pc) (events : List Logging) (held buffered : List Char) (copies : ℕ) : Prop :=
  match pc with
  | .serving | .full _ | .room _ | .copied _ | .exited _ =>
    buffered = held ∧ copies = 0 ∧ overtaken events = 0 ∧ justWrote events = false
  | .wrote _ =>
    buffered = held ∧ copies = 1 ∧ overtaken events = 0 ∧ justWrote events = true
  | .dying blocked .test =>
    (buffered = held ∧ copies = overtaken events ∨
      buffered = [] ∧ copies = overtaken events + 1) ∧
      overtaken events ≤ blocked.length ∧ justWrote events = false
  | .dying blocked .wrote =>
    buffered = held ∧ copies = overtaken events + 1 ∧ overtaken events ≤ blocked.length ∧
      justWrote events = true
  | .dying blocked .zeroed =>
    buffered = [] ∧ copies = overtaken events + 1 ∧ overtaken events ≤ blocked.length ∧
      justWrote events = false
  | .died => copies = overtaken events + 1 ∧ overtaken events ≤ 3

/-- Bytes that are whole entries, each of them allowed. -/
def Whole (allowed : Entry → Prop) (bytes : List Char) : Prop :=
  ∃ es, (∀ e ∈ es, allowed e) ∧ bytes = text es

/-- A worker has accounted for its entries. -/
structure Worker.Books (events : List Logging) (w : Worker) : Prop where
  whole : ∀ bytes ∈ writes events, Whole (· ∈ entries events) bytes
  filed : ∃ flushed held copies, Filed flushed held copies events ∧
    Due w.pc events (text held) w.buffered copies

/-- A step that the file does not see. -/
theorem Filed.unseen (filed : Filed flushed held copies events) (quiet : l.written = [])
    (other : ∀ e, l ≠ .logged e) : Filed flushed held copies (events ++ [l]) where
  logged := by rw [entries_snoc l other, filed.logged]
  written := by rw [writes_snoc, quiet, List.append_nil, filed.written]

/-- One more copy. -/
theorem Filed.wrote (filed : Filed flushed held copies events) :
    Filed flushed held (copies + 1) (events ++ [.wrote (text held)]) where
  logged := by rw [entries_snoc _ (by simp), filed.logged]
  written := by
    rw [writes_snoc, List.flatten_append, filed.written, List.replicate_succ', List.flatten_append,
      List.append_assoc]
    simp [Logging.written]

/-- One copy of what is not held any more. -/
theorem Filed.flush (filed : Filed flushed held 1 events) :
    Filed (flushed ++ held) [] 0 events where
  logged := by rw [filed.logged, List.append_nil]
  written := by simp [filed.written, text_append]

theorem Filed.log (filed : Filed flushed held 0 events) :
    Filed flushed (held ++ [e]) 0 (events ++ [.logged e]) where
  logged := by rw [entries_snoc_logged, filed.logged, List.append_assoc]
  written := by simp [writes_snoc, Logging.written, filed.written]

/-- Nothing is held, as often as it may be. -/
theorem Filed.any (filed : Filed flushed held copies events) (empty : text held = []) (n : ℕ) :
    Filed flushed held n events where
  logged := filed.logged
  written := by
    have nothing (k : ℕ) : (List.replicate k (text held)).flatten = [] := by
      rw [empty, List.flatten_eq_nil_iff]
      exact fun _ member => List.eq_of_mem_replicate member
    rw [filed.written, nothing, nothing]

/-- What is written are entries that were logged. -/
theorem whole_snoc (whole : ∀ bytes ∈ writes events, Whole (· ∈ entries events) bytes)
    (fresh : ∀ bytes ∈ l.written, Whole (· ∈ entries events) bytes) :
    ∀ bytes ∈ writes (events ++ [l]), Whole (· ∈ entries (events ++ [l])) bytes := by
  intro bytes member
  have more : entries events ⊆ entries (events ++ [l]) := by
    rw [entries, entries, List.filterMap_append]
    exact List.subset_append_left _ _
  rw [writes_snoc, List.mem_append] at member
  rcases member with old | new
  · obtain ⟨es, logged, same⟩ := whole bytes old
    exact ⟨es, fun e inside => more (logged e inside), same⟩
  · obtain ⟨es, logged, same⟩ := fresh bytes new
    exact ⟨es, fun e inside => more (logged e inside), same⟩

/-- What is held was logged. -/
theorem Filed.held_logged (filed : Filed flushed held copies events) (same : buffered = text held) :
    ∀ bytes ∈ (Logging.wrote buffered).written, Whole (· ∈ entries events) bytes := by
  intro bytes member
  refine ⟨held, ?_, (List.mem_singleton.mp member).trans same⟩
  intro e inside
  rw [filed.logged]
  exact List.mem_append_right _ inside

theorem nothing_fresh (quiet : l.written = []) :
    ∀ bytes ∈ l.written, Whole (· ∈ entries events) bytes := by
  simp [quiet]

theorem overtaken_unseen : overtaken (events ++ [.unseen]) = overtaken events :=
  overtaken_snoc _ (by simp)

theorem justWrote_unseen : justWrote (events ++ [.unseen]) = false := by
  rw [justWrote_snoc]
  rfl

theorem due_unseen {held : List Char}
    (due : buffered = held ∧ copies = 0 ∧ overtaken events = 0 ∧ justWrote events = false) :
    buffered = held ∧ copies = 0 ∧ overtaken (events ++ [.unseen]) = 0 ∧
      justWrote (events ++ [.unseen]) = false :=
  ⟨due.1, due.2.1, overtaken_unseen.trans due.2.2.1, justWrote_unseen⟩

/-- A signal finds the last copy counted where it is not emptied from the buffer. -/
theorem Due.interrupted {pc : Pc} {held : List Char} (due : Due pc events held buffered copies)
    (alive : ¬pc.Ended) :
    Due (.dying (signal :: pc.blocked) .test) (events ++ [.signalled signal]) held buffered
      copies := by
  have later := overtaken_snoc_signalled events signal
  have quiet : justWrote (events ++ [.signalled signal]) = false := by
    rw [justWrote_snoc]
    rfl
  refine ⟨?_, ?_, quiet⟩
  · cases pc with
    | serving | full e | room e | copied e =>
      obtain ⟨same, rfl, none, idle⟩ := due
      exact .inl ⟨same, by rw [later, none, idle]; rfl⟩
    | wrote e =>
      obtain ⟨same, rfl, none, wrote⟩ := due
      exact .inl ⟨same, by rw [later, none, wrote]; rfl⟩
    | dying blocked pc =>
      cases pc with
      | test =>
        obtain ⟨which, -, idle⟩ := due
        rw [later, idle]
        exact which
      | wrote =>
        obtain ⟨same, rfl, -, wrote⟩ := due
        exact .inl ⟨same, by rw [later, wrote]; rfl⟩
      | zeroed =>
        obtain ⟨same, rfl, -, idle⟩ := due
        exact .inr ⟨same, by rw [later, idle]; rfl⟩
    | exited status | died => exact absurd trivial alive
  · rw [later]
    cases pc with
    | serving | full e | room e | copied e =>
      obtain ⟨-, -, none, idle⟩ := due
      rw [none, idle]
      exact Nat.zero_le _
    | wrote e =>
      obtain ⟨-, -, none, wrote⟩ := due
      rw [none, wrote]
      exact Nat.le_add_left _ _
    | dying blocked pc =>
      have few : overtaken events ≤ blocked.length := by
        cases pc with
        | test => exact due.2.1
        | wrote | zeroed => exact due.2.2.1
      exact Nat.add_le_add few (Bool.toNat_le _)
    | exited status | died => exact absurd trivial alive

/-- A step inside `logit` that moves nothing. -/
theorem Worker.Books.pass (books : w.Books events)
    (here : ∀ held buffered copies, Due w.pc events held buffered copies →
      Due w'.pc (events ++ [.unseen]) held buffered copies)
    (same : w'.buffered = w.buffered) : w'.Books (events ++ [.unseen]) := by
  obtain ⟨whole, flushed, held, copies, filed, due⟩ := books
  refine ⟨whole_snoc whole (nothing_fresh rfl), flushed, held, copies, ?_, ?_⟩
  · exact filed.unseen rfl (by simp)
  · rw [same]
    exact here _ _ _ due

theorem Worker.Books.step (fits : w.Fits) (books : w.Books events)
    (taken : Worker.Step w l w') : w'.Books (events ++ [l]) := by
  cases taken with
  | logit e pc =>
    refine books.pass ?_ rfl
    intro held buffered copies due
    rw [pc] at due
    dsimp only
    split_ifs <;> exact due_unseen due
  | write pc =>
    obtain ⟨whole, flushed, held, copies, filed, due⟩ := books
    rw [pc] at due
    obtain ⟨same, rfl, none, -⟩ := due
    refine ⟨whole_snoc whole (filed.held_logged same), flushed, held, 1, ?_, ?_⟩
    · rw [same]
      exact filed.wrote
    · refine ⟨same, rfl, ?_, ?_⟩
      · rw [overtaken_snoc _ (by simp), none]
      · rw [justWrote_snoc]
        rfl
  | reset pc =>
    obtain ⟨whole, flushed, held, copies, filed, due⟩ := books
    rw [pc] at due
    obtain ⟨-, rfl, none, -⟩ := due
    -- what is in the buffer no more is in the file once
    refine ⟨whole_snoc whole (nothing_fresh rfl), flushed ++ held, [], 0, ?_, ?_⟩
    · exact filed.flush.unseen rfl (by simp)
    · exact ⟨rfl, rfl, overtaken_unseen.trans none, justWrote_unseen⟩
  | @bcopy e pc =>
    refine books.pass ?_ ?_
    · intro held buffered copies due
      rw [pc] at due
      exact due_unseen due
    · have front := fits.length_buffered
      rw [Worker.buffered] at front
      change (w.bcopy e.text).take w.nbytes = w.logbuf.take w.nbytes
      rw [Worker.bcopy, List.append_assoc, List.take_append_of_le_length front.ge,
        List.take_of_length_le front.le]
  | @count e pc =>
    obtain ⟨whole, flushed, held, copies, filed, due⟩ := books
    rw [pc] at due
    obtain ⟨same, rfl, none, -⟩ := due
    refine ⟨whole_snoc whole (nothing_fresh rfl), flushed, held ++ [e], 0, filed.log, ?_⟩
    refine ⟨?_, rfl, ?_, ?_⟩
    · rw [text_append, text_singleton, ← same]
      exact fits.copied e pc
    · rw [overtaken_snoc _ (by simp), none]
    · rw [justWrote_snoc]
      rfl
  | exit status pc =>
    refine books.pass ?_ rfl
    intro held buffered copies due
    rw [pc] at due
    exact due_unseen due
  | signal signal alive unblocked =>
    obtain ⟨whole, flushed, held, copies, filed, due⟩ := books
    refine ⟨whole_snoc whole (nothing_fresh rfl), flushed, held, copies, ?_, due.interrupted alive⟩
    exact filed.unseen rfl (by simp)
  | @dieEmpty blocked pc empty =>
    obtain ⟨whole, flushed, held, copies, filed, due⟩ := books
    have few := fits.nodup
    rw [pc] at due few
    obtain ⟨which, bound, -⟩ := due
    have nothing : w.buffered = [] := by rw [Worker.buffered, empty, List.take_zero]
    have filed : Filed flushed held (overtaken events + 1) events := by
      rcases which with ⟨same, -⟩ | ⟨-, rfl⟩
      · exact filed.any (same.symm.trans nothing) _
      · exact filed
    refine ⟨whole_snoc whole (nothing_fresh rfl), flushed, held, _,
      filed.unseen rfl (by simp), ?_⟩
    rw [overtaken_unseen.symm]
    exact ⟨rfl, overtaken_unseen.le.trans (bound.trans (length_le_of_nodup few))⟩
  | @dieWrite blocked pc left =>
    obtain ⟨whole, flushed, held, copies, filed, due⟩ := books
    rw [pc] at due
    obtain ⟨which, bound, -⟩ := due
    have full : w.buffered ≠ [] := by
      intro empty
      exact left (by rw [← fits.length_buffered, empty]; rfl)
    rcases which with ⟨same, rfl⟩ | ⟨empty, -⟩
    · have count : overtaken (events ++ [.wrote w.buffered]) = overtaken events :=
        overtaken_snoc _ (by simp)
      refine ⟨whole_snoc whole (filed.held_logged same), flushed, held, _,
        same ▸ filed.wrote, same, ?_, ?_, ?_⟩
      · rw [count]
      · rw [count]
        exact bound
      · rw [justWrote_snoc]
        rfl
    · exact absurd empty full
  | @dieReset blocked pc =>
    obtain ⟨whole, flushed, held, copies, filed, due⟩ := books
    rw [pc] at due
    obtain ⟨-, rfl, bound, -⟩ := due
    refine ⟨whole_snoc whole (nothing_fresh rfl), flushed, held, _,
      filed.unseen rfl (by simp), rfl, ?_, ?_, justWrote_unseen⟩
    · rw [overtaken_unseen]
    · rw [overtaken_unseen]
      exact bound
  | @dieExit blocked pc =>
    obtain ⟨whole, flushed, held, copies, filed, due⟩ := books
    have few := fits.nodup
    rw [pc] at due few
    obtain ⟨-, rfl, bound, -⟩ := due
    refine ⟨whole_snoc whole (nothing_fresh rfl), flushed, held, _,
      filed.unseen rfl (by simp), ?_, ?_⟩
    · rw [overtaken_unseen]
    · exact overtaken_unseen.le.trans (bound.trans (length_le_of_nodup few))

end Books

section Runs

variable {ι : Type} [DecidableEq ι]

/-- What is appended to the file by all workers. -/
def logfile (past : List (ι × Logging)) : List Char := (writes (past.map Prod.snd)).flatten

/-- What a worker has done with its entries. -/
structure Logged (events : List Logging) (w : Worker) : Prop where
  size : w.logbuf.length = logbufSize
  nbytes_lt : w.nbytes < logbufSize
  /-- what is not in the file is in the buffer, where `exit` leaves it -/
  serving : (w.pc = .serving ∨ ∃ status, w.pc = .exited status) →
    (writes events).flatten ++ w.buffered = text (entries events)
  /-- a signal costs nothing, unless it overtakes the emptying of the buffer -/
  died : w.pc = .died → overtaken events = 0 → (writes events).flatten = text (entries events)
  /-- then the end of the file is repeated -/
  repeated : w.pc = .died → overtaken events ≤ 3 ∧ ∃ flushed held,
    entries events = flushed ++ held ∧ (writes events).flatten =
      text flushed ++ (List.replicate (overtaken events + 1) (text held)).flatten

variable {w : Worker} {events : List Logging} {past : List (ι × Logging)} {s : ι → Worker}
  {logbuf : ι → List Char}

theorem Worker.fits_start {logbuf : List Char} (size : logbuf.length = logbufSize) :
    (Worker.start logbuf).Fits :=
  ⟨size, logbufSize_pos, by simp [start], by simp [start], List.nodup_nil⟩

theorem Worker.books_start (logbuf : List Char) : (Worker.start logbuf).Books [] where
  whole := by simp [writes]
  filed := ⟨[], [], 0, ⟨rfl, rfl⟩, rfl, rfl, rfl, rfl⟩

/-- Wherever a worker is, it fits and has accounted for its entries. -/
theorem sound_of_run {logbuf : List Char} (size : logbuf.length = logbufSize)
    (run : Run Worker.Step (Worker.start logbuf) events w) : w.Fits ∧ w.Books events := by
  induction run with
  | nil => exact ⟨Worker.fits_start size, Worker.books_start logbuf⟩
  | snoc _ taken ih => exact ⟨ih.1.step taken, ih.2.step ih.1 taken⟩

theorem Worker.Books.logged (fits : w.Fits) (books : w.Books events) : Logged events w := by
  obtain ⟨-, flushed, held, copies, filed, due⟩ := books
  have ended (pc : w.pc = .died) : copies = overtaken events + 1 ∧ overtaken events ≤ 3 := by
    rw [pc] at due
    exact due
  refine ⟨fits.size, fits.nbytes_lt, ?_, ?_, ?_⟩
  · intro pc
    have same : w.buffered = text held ∧ copies = 0 := by
      rcases pc with pc | ⟨status, pc⟩ <;> rw [pc] at due <;> exact ⟨due.1, due.2.1⟩
    rw [filed.written, filed.logged, text_append, same.1, same.2]
    simp
  · intro pc once
    have count := (ended pc).1
    rw [filed.written, filed.logged, text_append, count, once]
    simp
  · intro pc
    obtain ⟨rfl, few⟩ := ended pc
    exact ⟨few, flushed, held, filed.logged, filed.written⟩

/-- Pieces that are whole make a whole. -/
theorem whole_flatten {allowed : Entry → Prop} {pieces : List (List Char)}
    (whole : ∀ bytes ∈ pieces, Whole allowed bytes) : Whole allowed pieces.flatten := by
  induction pieces with
  | nil => exact ⟨[], by simp, rfl⟩
  | cons bytes pieces ih =>
    obtain ⟨es, good, rfl⟩ := whole bytes List.mem_cons_self
    obtain ⟨rest, goods, same⟩ := ih fun bytes member =>
      whole bytes (List.mem_cons_of_mem _ member)
    refine ⟨es ++ rest, ?_, ?_⟩
    · intro e member
      exact (List.mem_append.mp member).elim (good e) (goods e)
    · rw [List.flatten_cons, same, text_append]

/-- A write to the file was one of a worker. -/
theorem exists_mem_writes_own {bytes : List Char} (member : bytes ∈ writes (past.map Prod.snd)) :
    ∃ i, bytes ∈ writes (own i past) := by
  rw [writes, List.mem_flatMap] at member
  obtain ⟨l, inside, here⟩ := member
  obtain ⟨⟨i, l⟩, there, rfl⟩ := List.mem_map.mp inside
  exact ⟨i, List.mem_flatMap.mpr ⟨l, mem_own.mpr there, here⟩⟩

/-- Whatever the order of the workers' steps and of the signals, the file is made of whole entries
and can be read back, no buffer is overrun, and of each worker the file has what it logged, in
order and once, as far as it is not in the buffer. `die` leaves nothing out, and repeats the end
of it for each signal that overtakes a write, of which there are three at most. -/
theorem logged_of_run (size : ∀ i, (logbuf i).length = logbufSize)
    (run : Run (Interleaved Worker.Step) (fun i => Worker.start (logbuf i)) past s) :
    (∀ i, Logged (own i past) (s i)) ∧
      ∃ es, logfile past = text es ∧ (∀ e ∈ es, ∃ i, e ∈ entries (own i past)) ∧
        ∀ es', logfile past = text es' → es' = es := by
  have sound (i : ι) := sound_of_run (size i) (run.own i)
  refine ⟨fun i => (sound i).2.logged (sound i).1, ?_⟩
  have whole : ∀ bytes ∈ writes (past.map Prod.snd),
      Whole (fun e => ∃ i, e ∈ entries (own i past)) bytes := by
    intro bytes member
    obtain ⟨i, mine⟩ := exists_mem_writes_own member
    obtain ⟨es, logged, same⟩ := (sound i).2.whole bytes mine
    exact ⟨es, fun e inside => ⟨i, logged e inside⟩, same⟩
  obtain ⟨es, logged, same⟩ := whole_flatten whole
  refine ⟨es, same, logged, ?_⟩
  intro es' again
  exact text_injective (again.symm.trans same)

/-- A worker with one entry, killed by a second signal while it handles the first. -/
theorem run_overtaken (logbuf : List Char) (e : Entry) :
    ∃ w, Run Worker.Step (Worker.start logbuf)
      [.unseen, .unseen, .logged e, .signalled .SIGTERM, .wrote e.text, .signalled .SIGHUP,
        .wrote e.text, .unseen, .unseen] w ∧ w.pc = .died := by
  have fits : ¬logbufSize ≤ 0 + e.text.length := by
    rw [Nat.zero_add]
    exact (length_text_lt e).not_ge
  have left : 0 + e.text.length ≠ 0 := by simp [Entry.text]
  let logbuf' := (Worker.start logbuf).bcopy e.text
  have all (pc : Pc) : Worker.buffered ⟨logbuf', 0 + e.text.length, pc⟩ = e.text := by
    simp [Worker.buffered, logbuf', Worker.bcopy, Worker.start]
  have opened : Worker.Step (Worker.start logbuf) .unseen ⟨logbuf, 0, .room e⟩ := by
    have taken := Worker.Step.logit (w := Worker.start logbuf) e rfl
    rwa [if_neg (show ¬logbufSize ≤ (Worker.start logbuf).nbytes + _ from fits)] at taken
  have overtakes (blocked : List Signal) :
      Worker.Step ⟨logbuf', 0 + e.text.length, .dying blocked .test⟩ (.wrote e.text)
        ⟨logbuf', 0 + e.text.length, .dying blocked .wrote⟩ := by
    have taken := Worker.Step.dieWrite (w := ⟨logbuf', _, .dying blocked .test⟩) rfl left
    rwa [all] at taken
  refine ⟨⟨logbuf', 0, .died⟩, ?_, rfl⟩
  have logged : Run Worker.Step (Worker.start logbuf) [.unseen, .unseen, .logged e]
      ⟨logbuf', 0 + e.text.length, .serving⟩ :=
    ((Run.nil.snoc opened).snoc (.bcopy rfl)).snoc (.count rfl)
  have first := (logged.snoc (.signal .SIGTERM id (by simp [Pc.blocked]))).snoc (overtakes _)
  have second := (first.snoc (.signal .SIGHUP id (by simp [Pc.blocked]))).snoc (overtakes _)
  exact (second.snoc (.dieReset rfl)).snoc (.dieExit rfl)

theorem logged_of_run_overtaken :
    ∃ past s, Run (Interleaved Worker.Step)
        (fun _ : Bool => Worker.start (List.replicate logbufSize ' ')) past s ∧
      (∀ i, Logged (own i past) (s i)) ∧ overtaken (own true past) = 1 := by
  obtain ⟨w, run, -⟩ := run_overtaken (List.replicate logbufSize ' ')
    (entry 1 2 ['a'] 3 (by decide) (by decide))
  have both := Run.alone (fun _ => Worker.start _) true run
  refine ⟨_, _, both, (logged_of_run (fun _ => List.length_replicate) both).1, ?_⟩
  rw [own_map]
  rfl

end Runs

end Lmbench.Lmhttp.Log
