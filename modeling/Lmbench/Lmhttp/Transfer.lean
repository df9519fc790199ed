import Mathlib.Data.Int.Basic
import Mathlib.Data.List.Basic
import Mathlib.Algebra.BigOperators.Group.List.Basic
import Mathlib.Algebra.GroupWithZero.Nat

/-!
# How `lmhttp` sends a file

`source` sends a file with `mmap_rdwr` or with `rdwr`, by its size as an `int`. A write
result is the number of bytes that the socket would take at most, or none if the write
fails. Reading and mapping the file succeed, and a read is only short at its end.

## Main results

* `mmap_delivered_iff`, `rdwr_delivered_iff` - when each loop delivers the file
* `delivered_iff` - when `source` delivers the file
-/

namespace Lmbench.Lmhttp

def XFERSIZE : ℕ := 64 * 1024

def MMAPS_BETTER : ℕ := 4 * 2 ^ 10

/-- What a call of `write` did. -/
inductive Event
  | accepted (bytes : List UInt8)
  | failed
deriving DecidableEq, Repr

/-- A transfer, with its calls of `write` so far. -/
structure Transfer where
  events : List Event
  ended : Bool
deriving DecidableEq, Repr

def Event.bytes : Event → List UInt8
  | .accepted bytes => bytes
  | .failed => []

/-- What was put on the socket. -/
def sent (events : List Event) : List UInt8 := events.flatMap Event.bytes

/-- The variables of `rdwr`: what is left in the file, the bytes of the last read, and
`i`. -/
structure Rdwr extends Transfer where
  unread : List UInt8
  buf : List UInt8
  i : ℤ

/-- The heads of both loops. -/
def Rdwr.next (s : Rdwr) : Rdwr :=
  if s.i < s.buf.length then s
  else if s.unread = [] then { s with ended := true }
  else { s with buf := s.unread.take XFERSIZE, unread := s.unread.drop XFERSIZE, i := 0 }

/-- One write of `rdwr`, from the front of the buffer; `beyond` stands in memory behind
the bytes of the last read. -/
def Rdwr.write (beyond : List UInt8) (s : Rdwr) (result : Option ℕ) : Rdwr :=
  -- `write(sock, buf, nread - i)`: the length moves on, the address does not
  let offered := (s.buf.length - s.i).toNat
  let nwrote : ℤ := match result with
    | none => -1
    | some k => (min k offered : ℕ)
  let event := match result with
    | none => .failed
    | some k => .accepted ((s.buf ++ beyond).take (min k offered))
  if s.ended then s
  -- `exit(1)`, which looks at `i` and not at `nwrote`
  else if s.i < 0 then { s with events := s.events ++ [event], ended := true }
  else Rdwr.next { s with events := s.events ++ [event], i := s.i + nwrote }

/-- `rdwr` -/
def rdwr (content beyond : List UInt8) (ws : List (Option ℕ)) : Transfer :=
  (ws.foldl (Rdwr.write beyond)
    (Rdwr.next ⟨⟨[], false⟩, content, [], 0⟩)).toTransfer

/-- The variables of `mmap_rdwr`. -/
structure MmapRdwr extends Transfer where
  done : ℕ

/-- One write of `mmap_rdwr`. -/
def MmapRdwr.write (buf : List UInt8) (size : ℕ) (s : MmapRdwr) (result : Option ℕ) :
    MmapRdwr :=
  if s.ended then s
  else
    match result with
    -- `break` on a failure
    | none => { s with events := s.events ++ [.failed], ended := true }
    | some k =>
      let wrote := min k (size - s.done)
      { events := s.events ++ [.accepted ((buf.drop s.done).take wrote)]
        done := s.done + wrote
        ended := decide (size ≤ s.done + wrote) }

/-- `mmap_rdwr` -/
def mmapRdwr (content : List UInt8) (size : ℕ) (ws : List (Option ℕ)) : Transfer :=
  (ws.foldl (MmapRdwr.write content size) ⟨⟨[], false⟩, 0⟩).toTransfer

/-- `size = sb.st_size`, an `int`. -/
def size (content : List UInt8) : ℤ := (content.length : ℤ).bmod (2 ^ 32)

/-- The part of `source` that sends the file. -/
def source (content beyond : List UInt8) (ws : List (Option ℕ)) : Transfer :=
  -- a file of 2 GiB may have a negative `size`, and is then sent by `rdwr`
  if size content > MMAPS_BETTER then mmapRdwr content (size content).toNat ws
  else rdwr content beyond ws

/-- The bytes of the file in order, each once, and none after a failure. -/
structure Orderly (content : List UInt8) (t : Transfer) : Prop where
  in_order : sent t.events <+: content
  whole : t.ended = true → .failed ∉ t.events → sent t.events = content
  stops : ∀ before after, t.events = before ++ .failed :: after →
    ∀ bytes, .accepted bytes ∉ after

/-- The file is delivered: enough writes that do not fail send all of it. -/
structure Delivered (content : List UInt8) (ws : List (Option ℕ)) (t : Transfer) : Prop
    extends Orderly content t where
  ends : (∀ w ∈ ws, w.isSome) → content.length ≤ ws.length → t.ended = true

/-- What the writes in front of the first failure would take together. -/
def offeredRoom (ws : List (Option ℕ)) : ℕ := ((ws.takeWhile Option.isSome).filterMap id).sum

/-- The front of `chunk`, which each write takes, is what is due of it, as long as no
write fails; after a failure in front of the byte `i` as many writes fail as it takes
`rdwr` to give up. -/
def Agree : List UInt8 → List UInt8 → ℕ → List (Option ℕ) → Prop
  | _, _, _, [] => True
  | _, _, i, none :: ws => ∀ w ∈ ws.take (i + 1), w = none
  | chunk, unread, i, some k :: ws =>
    let n := min k (chunk.length - i)
    chunk.take n = (chunk.drop i).take n ∧
      if i + n < chunk.length then Agree chunk unread (i + n) ws
      else unread = [] ∨ Agree (unread.take XFERSIZE) (unread.drop XFERSIZE) 0 ws

variable {content beyond chunk unread bytes : List UInt8} {ws : List (Option ℕ)}
  {events later : List Event} {result : Option ℕ} {k n total : ℕ}

section Events

theorem sent_append : sent (events ++ later) = sent events ++ sent later :=
  List.flatMap_append

theorem sent_accepted : sent (events ++ [.accepted bytes]) = sent events ++ bytes := by
  simp [sent, Event.bytes]

theorem sent_failed : sent (events ++ [.failed]) = sent events := by
  simp [sent, Event.bytes]

/-- Writes that all fail send nothing. -/
theorem sent_of_silent (silent : ∀ bytes, .accepted bytes ∉ events) : sent events = [] := by
  rw [sent, List.flatMap_eq_nil_iff]
  intro e mem
  cases e with
  | accepted bytes => exact absurd mem (silent bytes)
  | failed => rfl

/-- Nothing was sent after a failure when none has failed. -/
theorem stops_of_not_mem (none_failed : .failed ∉ events) :
    ∀ before after, events = before ++ .failed :: after → ∀ bytes, .accepted bytes ∉ after := by
  rintro before after rfl
  exact absurd (List.mem_append_right _ List.mem_cons_self) none_failed

/-- Nothing was sent after the first failure when nothing but failures follow it. -/
theorem stops_of_first_failure (none_failed : .failed ∉ events)
    (silent : ∀ bytes, .accepted bytes ∉ later) :
    ∀ before after, events ++ .failed :: later = before ++ .failed :: after →
      ∀ bytes, .accepted bytes ∉ after := by
  intro before after split bytes mem
  -- the first failure is the one in front of `later`
  rcases List.append_eq_append_iff.mp split with ⟨front, rfl, same⟩ | ⟨front, rfl, same⟩
  · have inside : .accepted bytes ∈ Event.failed :: later := by
      rw [same]
      exact List.mem_append_right _ (List.mem_cons_of_mem _ mem)
    rcases List.mem_cons.mp inside with now | now
    · cases now
    · exact silent bytes now
  · cases front with
    | nil =>
      obtain ⟨-, rfl⟩ := List.cons.inj same
      exact silent bytes mem
    | cons e front =>
      obtain ⟨rfl, -⟩ := List.cons.inj same
      exact none_failed (List.mem_append_right _ List.mem_cons_self)

end Events

theorem offeredRoom_some : offeredRoom (some k :: ws) = k + offeredRoom ws := by
  simp [offeredRoom]

/-- Enough writes that take something take everything. -/
theorem length_le_offeredRoom (positive : ∀ k, some k ∈ ws → 0 < k) (all : ∀ w ∈ ws, w.isSome) :
    ws.length ≤ offeredRoom ws := by
  induction ws with
  | nil => exact Nat.zero_le _
  | cons w ws ih =>
    obtain ⟨k, rfl⟩ := Option.isSome_iff_exists.mp (all w List.mem_cons_self)
    have first := positive k List.mem_cons_self
    have rest := ih (fun k mem => positive k (List.mem_cons_of_mem _ mem))
      (fun w mem => all w (List.mem_cons_of_mem _ mem))
    rw [offeredRoom_some, List.length_cons]
    omega

section Mmap

variable {s : MmapRdwr}

theorem MmapRdwr.foldl_of_ended (ended : s.ended = true) :
    ws.foldl (MmapRdwr.write content total) s = s :=
  List.foldl_fixed' (fun w => by simp [MmapRdwr.write, ended]) ws

/-- `mmap_rdwr` in front of its next write. -/
structure Mapped (content : List UInt8) (total : ℕ) (s : MmapRdwr) : Prop where
  live : s.ended = false
  none_failed : .failed ∉ s.events
  taken : sent s.events = content.take s.done
  below : s.done < total

/-- What `mmap_rdwr` does with all write results. -/
structure MmapResult (content : List UInt8) (total left : ℕ) (ws : List (Option ℕ))
    (t : Transfer) : Prop where
  in_order : sent t.events <+: content
  stops : ∀ before after, t.events = before ++ .failed :: after →
    ∀ bytes, .accepted bytes ∉ after
  whole : .failed ∉ t.events → t.ended = true → sent t.events = content.take total
  ended_iff : .failed ∉ t.events ∧ t.ended = true ↔ left ≤ offeredRoom ws

theorem Mapped.write_none (mapped : Mapped content total s) :
    MmapRdwr.write content total s none =
      { s with events := s.events ++ [.failed], ended := true } := by
  simp [MmapRdwr.write, mapped.live]

/-- A write that takes something takes the bytes that are due. -/
theorem Mapped.write_some (mapped : Mapped content total s) (k : ℕ) :
    ∃ events, MmapRdwr.write content total s (some k) =
        ⟨⟨events, decide (total ≤ s.done + min k (total - s.done))⟩,
          s.done + min k (total - s.done)⟩ ∧
      .failed ∉ events ∧ sent events = content.take (s.done + min k (total - s.done)) := by
  refine ⟨s.events ++ [.accepted ((content.drop s.done).take (min k (total - s.done)))],
    ?_, ?_, ?_⟩
  · simp [MmapRdwr.write, mapped.live]
  · simpa using mapped.none_failed
  · rw [sent_accepted, mapped.taken, List.take_add]

/-- No write is left: nothing has been said about the end. -/
theorem Mapped.result_nil (mapped : Mapped content total s) :
    MmapResult content total (total - s.done) [] s.toTransfer where
  in_order := mapped.taken ▸ List.take_prefix _ _
  stops := stops_of_not_mem mapped.none_failed
  whole := fun _ ended => absurd ended (by simp [mapped.live])
  ended_iff := by
    have below := mapped.below
    simp only [mapped.live, offeredRoom]
    simp
    omega

/-- A write that fails is the last. -/
theorem Mapped.result_failed (mapped : Mapped content total s) :
    MmapResult content total (total - s.done) (none :: ws)
      ⟨s.events ++ [.failed], true⟩ where
  in_order := by
    rw [sent_failed, mapped.taken]
    exact List.take_prefix _ _
  stops := stops_of_first_failure mapped.none_failed (by simp)
  whole := by simp
  ended_iff := by
    have below := mapped.below
    simp [offeredRoom]
    omega

theorem Mapped.foldl (mapped : Mapped content total s) :
    MmapResult content total (total - s.done) ws
      (ws.foldl (MmapRdwr.write content total) s).toTransfer := by
  induction ws generalizing s with
  | nil => exact mapped.result_nil
  | cons w ws ih =>
    have below := mapped.below
    cases w with
    | none =>
      rw [List.foldl_cons, mapped.write_none, MmapRdwr.foldl_of_ended rfl]
      exact mapped.result_failed
    | some k =>
      obtain ⟨events, goes, none_failed, taken⟩ := mapped.write_some k
      rw [List.foldl_cons, goes]
      set wrote := min k (total - s.done)
      -- the write that completes the mapped part ends the loop
      by_cases last : total ≤ s.done + wrote
      · have whole : s.done + wrote = total := by omega
        rw [MmapRdwr.foldl_of_ended (decide_eq_true last)]
        rw [whole] at taken
        exact {
          in_order := taken ▸ List.take_prefix _ _
          stops := stops_of_not_mem none_failed
          whole := fun _ _ => taken
          ended_iff := by
            rw [offeredRoom_some]
            simp only [none_failed, last, decide_true, not_false_eq_true, and_self, true_iff]
            omega }
      · have amount : wrote = k := by omega
        have later := @ih ⟨⟨_, _⟩, s.done + wrote⟩
          ⟨decide_eq_false last, none_failed, taken, Nat.not_le.mp last⟩
        refine ⟨later.in_order, later.stops, later.whole, later.ended_iff.trans ?_⟩
        change total - (s.done + wrote) ≤ offeredRoom ws ↔ _
        rw [amount, offeredRoom_some]
        omega

/-- **`mmap_rdwr`** delivers the file, if it is mapped whole or not all of the mapped part
is sent. -/
theorem mmap_delivered_iff (positive : ∀ k, some k ∈ ws → 0 < k) (some_bytes : 0 < total)
    (inside : total ≤ content.length) :
    Delivered content ws (mmapRdwr content total ws) ↔
      total = content.length ∨ offeredRoom ws < total := by
  have mapped : Mapped content total ⟨⟨[], false⟩, 0⟩ := ⟨rfl, by simp, rfl, some_bytes⟩
  have result := @Mapped.foldl content ws total _ mapped
  rw [Nat.sub_zero] at result
  constructor
  · intro delivered
    rw [or_iff_not_imp_right, Nat.not_lt]
    intro enough
    -- the mapped part is sent, so it is the file
    obtain ⟨none_failed, ended⟩ := result.ended_iff.mpr enough
    have mapped_part := result.whole none_failed ended
    have file : sent (mmapRdwr content total ws).events = content :=
      delivered.whole ended none_failed
    have same := congrArg List.length (mapped_part.symm.trans file)
    rw [List.length_take] at same
    omega
  · intro fits
    refine ⟨⟨result.in_order, fun ended none_failed => ?_, result.stops⟩, fun all long => ?_⟩
    · have enough := result.ended_iff.mp ⟨none_failed, ended⟩
      obtain rfl : total = content.length := fits.resolve_right (Nat.not_lt.mpr enough)
      exact (result.whole none_failed ended).trans List.take_length
    · have room := length_le_offeredRoom positive all
      exact (result.ended_iff.mpr (by omega)).2

end Mmap

section Rdwr

variable {s : Rdwr}

theorem Rdwr.write_of_ended (ended : s.ended = true) (result : Option ℕ) :
    s.write beyond result = s := by
  simp only [Rdwr.write, ended, if_true]

theorem Rdwr.foldl_of_ended (ended : s.ended = true) :
    ws.foldl (Rdwr.write beyond) s = s :=
  List.foldl_fixed' (Rdwr.write_of_ended ended) ws

theorem Rdwr.events_next : s.next.events = s.events := by
  rw [Rdwr.next]
  split
  · rfl
  · split <;> rfl

/-- The writes only add to what happened. -/
theorem Rdwr.events_foldl (ws : List (Option ℕ)) (s : Rdwr) :
    s.events <+: (ws.foldl (Rdwr.write beyond) s).events := by
  refine List.foldlRecOn (motive := (s.events <+: ·.events)) ws (Rdwr.write beyond)
    List.prefix_rfl fun s' sofar w _ => sofar.trans ?_
  simp only [Rdwr.write]
  split
  · exact List.prefix_rfl
  · split
    · exact List.prefix_append _ _
    · rw [Rdwr.events_next]
      exact List.prefix_append _ _

theorem sent_prefix (sub : events <+: later) : sent events <+: sent later := by
  obtain ⟨rest, rfl⟩ := sub
  rw [sent_append]
  exact List.prefix_append _ _

/-- `rdwr` in front of its next write, when `n` bytes of the block were sent and none
has failed. -/
structure Waiting (n : ℕ) (s : Rdwr) : Prop where
  live : s.ended = false
  none_failed : .failed ∉ s.events
  index : s.i = n
  below : n < s.buf.length

/-- So far the bytes of the file were sent. -/
abbrev Due (content : List UInt8) (n : ℕ) (s : Rdwr) : Prop :=
  content = sent s.events ++ s.buf.drop n ++ s.unread

/-- The first block, or the next one, or the end of the file. -/
theorem waiting_next (live : s.ended = false) (none_failed : .failed ∉ s.events)
    (used : ¬ s.i < s.buf.length) :
    (s.unread = [] ∧ s.next.ended = true) ∨
      (s.unread ≠ [] ∧ Waiting 0 s.next ∧ s.next.buf = s.unread.take XFERSIZE ∧
        s.next.unread = s.unread.drop XFERSIZE) := by
  rw [Rdwr.next, if_neg used]
  by_cases ends : s.unread = []
  · rw [if_pos ends]
    exact .inl ⟨ends, rfl⟩
  · rw [if_neg ends]
    refine .inr ⟨ends, ⟨live, none_failed, rfl, ?_⟩, rfl, rfl⟩
    have some_bytes := List.length_pos_of_ne_nil ends
    have block : 0 < XFERSIZE := by decide
    rw [List.length_take]
    omega

theorem Rdwr.next_of_lt (inside : s.i < s.buf.length) : s.next = s := if_pos inside

/-- A write that fails moves `i` back. -/
theorem Waiting.write_none (waiting : Waiting n s) :
    s.write beyond none = { s with events := s.events ++ [.failed], i := n - 1 } := by
  have below := waiting.below
  have index := waiting.index
  have inside : ¬ s.i < 0 := by omega
  simp only [Rdwr.write, waiting.live, Bool.false_eq_true, if_false, inside]
  rw [Rdwr.next_of_lt (by change s.i + -1 < s.buf.length; omega), index]
  rfl

/-- A write takes from the front of the block. -/
theorem Waiting.write_some (waiting : Waiting n s) (k : ℕ) :
    s.write beyond (some k) =
      Rdwr.next { s with
        events := s.events ++ [.accepted (s.buf.take (min k (s.buf.length - n)))]
        i := (n + min k (s.buf.length - n) : ℕ) } := by
  have below := waiting.below
  have index := waiting.index
  have inside : ¬ s.i < 0 := by omega
  have offered : ((s.buf.length : ℤ) - s.i).toNat = s.buf.length - n := by omega
  have front : (s.buf ++ beyond).take (min k (s.buf.length - n)) =
      s.buf.take (min k (s.buf.length - n)) :=
    List.take_append_of_le_length (by omega)
  simp only [Rdwr.write, waiting.live, Bool.false_eq_true, if_false, inside, offered, front]
  rw [index]
  push_cast
  rfl

/-- What a write that takes something does: the block goes on, the next one is read, or
the file ends. -/
inductive Stepped (s : Rdwr) (n : ℕ) (s' : Rdwr) : Prop
  | within (more : n < s.buf.length) (waiting : Waiting n s') (buf : s'.buf = s.buf)
      (unread : s'.unread = s.unread)
  | block (used : ¬ n < s.buf.length) (some_left : s.unread ≠ []) (waiting : Waiting 0 s')
      (buf : s'.buf = s.unread.take XFERSIZE) (unread : s'.unread = s.unread.drop XFERSIZE)
  | finish (used : ¬ n < s.buf.length) (none_left : s.unread = []) (ended : s'.ended = true)

theorem Waiting.step (waiting : Waiting n s) (k : ℕ) :
    (s.write beyond (some k)).events =
        s.events ++ [.accepted (s.buf.take (min k (s.buf.length - n)))] ∧
      Stepped s (n + min k (s.buf.length - n)) (s.write beyond (some k)) := by
  rw [waiting.write_some]
  set m := min k (s.buf.length - n)
  have none_failed : .failed ∉ s.events ++ [.accepted (s.buf.take m)] := by
    simpa using waiting.none_failed
  refine ⟨Rdwr.events_next, ?_⟩
  by_cases more : n + m < s.buf.length
  · rw [Rdwr.next_of_lt (Int.ofNat_lt.mpr more)]
    exact .within more ⟨waiting.live, none_failed, rfl, more⟩ rfl rfl
  · rcases @waiting_next { s with
        events := s.events ++ [.accepted (s.buf.take m)], i := (n + m : ℕ) }
      waiting.live none_failed (fun inside => more (Int.ofNat_lt.mp inside)) with
      ⟨none_left, ended⟩ | ⟨some_left, goes, buf, unread⟩
    · exact .finish more none_left ended
    · exact .block more some_left goes buf unread

/-- What follows a failure in front of the byte `n`. -/
theorem failing (live : s.ended = false) (index : s.i = (n : ℤ) - 1) (below : n < s.buf.length) :
    ∃ later, (ws.foldl (Rdwr.write beyond) s).events = s.events ++ later ∧
      ((∀ bytes, .accepted bytes ∉ later) ↔ ∀ w ∈ ws.take (n + 1), w = none) := by
  induction ws generalizing n s with
  | nil => exact ⟨[], by simp, by simp⟩
  | cons w ws ih =>
    cases w with
    | some k =>
      have accepts : ∃ bytes, (s.write beyond (some k)).events = s.events ++ [.accepted bytes] := by
        simp only [Rdwr.write, live, Bool.false_eq_true, if_false]
        split
        · exact ⟨_, rfl⟩
        · exact ⟨_, Rdwr.events_next⟩
      obtain ⟨bytes, accepts⟩ := accepts
      obtain ⟨rest, more⟩ := @Rdwr.events_foldl beyond ws (s.write beyond (some k))
      refine ⟨.accepted bytes :: rest, ?_, ?_⟩
      · rw [List.foldl_cons, ← more, accepts, List.append_assoc, List.singleton_append]
      · constructor
        · intro silent
          exact absurd List.mem_cons_self (silent bytes)
        · intro fails
          exact absurd (fails (some k) (by simp)) (by simp)
    | none =>
      cases n with
      | zero =>
        -- `i` is -1: one more call, and `exit(1)`
        have exits : s.write beyond none =
            { s with events := s.events ++ [.failed], ended := true } := by
          have outside : s.i < 0 := by omega
          simp only [Rdwr.write, live, Bool.false_eq_true, if_false, outside, if_true]
        refine ⟨[.failed], ?_, by simp⟩
        rw [List.foldl_cons, exits, Rdwr.foldl_of_ended rfl]
      | succ n =>
        have back : s.write beyond none =
            { s with events := s.events ++ [.failed], i := (n : ℤ) - 1 } := by
          have inside : ¬ s.i < 0 := by omega
          simp only [Rdwr.write, live, Bool.false_eq_true, if_false, inside]
          rw [Rdwr.next_of_lt (by change s.i + -1 < s.buf.length; omega)]
          congr 1
          omega
        obtain ⟨later, events, silent⟩ := @ih n
          { s with events := s.events ++ [.failed], i := (n : ℤ) - 1 } live rfl
          (Nat.lt_of_succ_lt below)
        refine ⟨.failed :: later, ?_, ?_⟩
        · rw [List.foldl_cons, back, events, List.append_assoc, List.singleton_append]
        · simpa using silent

/-- The bytes that are due next follow what was sent. -/
theorem Due.of_prefix (file : Due content n s) (small : k ≤ s.buf.length - n)
    (sub : sent s.events ++ s.buf.take k <+: content) :
    s.buf.take k = (s.buf.drop n).take k := by
  rw [file, List.append_assoc, List.prefix_append_right_inj] at sub
  have length : (s.buf.take k).length = k := by
    rw [List.length_take]
    omega
  rw [List.prefix_iff_eq_take, length, List.take_append_of_le_length] at sub
  · exact sub
  · rw [List.length_drop]
    exact small

/-- Behind a write that took the bytes that were due, the next ones are. -/
theorem Due.write {s' : Rdwr} (file : Due content n s)
    (due : s.buf.take k = (s.buf.drop n).take k)
    (events : s'.events = s.events ++ [.accepted (s.buf.take k)]) :
    content = sent s'.events ++ s.buf.drop (n + k) ++ s.unread := by
  rw [events, sent_accepted, due, List.append_assoc, List.append_assoc, ← List.drop_drop,
    ← List.append_assoc _ _ s.unread, List.take_append_drop, ← List.append_assoc]
  exact file

/-- Behind a write that failed nothing may be taken any more. -/
theorem Waiting.orderly_iff_of_failed (waiting : Waiting n s) (file : Due content n s) :
    Orderly content (ws.foldl (Rdwr.write beyond) (s.write beyond none)).toTransfer ↔
      ∀ w ∈ ws.take (n + 1), w = none := by
  obtain ⟨later, events, silent⟩ := @failing beyond ws n
    { s with events := s.events ++ [.failed], i := n - 1 } waiting.live rfl waiting.below
  rw [waiting.write_none, ← silent]
  rw [List.append_assoc, List.singleton_append] at events
  constructor
  · intro orderly
    exact orderly.stops s.events later events
  · intro quiet
    refine ⟨?_, fun _ none_failed => ?_, ?_⟩
    · rw [events, ← List.singleton_append, ← List.append_assoc, sent_append, sent_failed,
        sent_of_silent quiet, List.append_nil, file, List.append_assoc]
      exact List.prefix_append _ _
    · rw [events] at none_failed
      exact absurd (List.mem_append_right _ List.mem_cons_self) none_failed
    · rw [events]
      exact stops_of_first_failure waiting.none_failed quiet

/-- **`rdwr` within a block.** -/
theorem Waiting.orderly_iff (waiting : Waiting n s) (file : Due content n s) :
    Orderly content (ws.foldl (Rdwr.write beyond) s).toTransfer ↔
      Agree s.buf s.unread n ws := by
  induction ws generalizing s n with
  | nil =>
    refine iff_of_true ⟨?_, fun ended => ?_, stops_of_not_mem waiting.none_failed⟩ trivial
    · rw [file, List.append_assoc]
      exact List.prefix_append _ _
    · exact absurd ended (by simp [waiting.live])
  | cons w ws ih =>
    cases w with
    | none =>
      rw [List.foldl_cons, Agree]
      exact waiting.orderly_iff_of_failed file
    | some k =>
      obtain ⟨events, stepped⟩ := @Waiting.step beyond n s waiting k
      rw [List.foldl_cons, Agree]
      generalize s.write beyond (some k) = s' at events stepped
      set m := min k (s.buf.length - n)
      -- the front of the block is sent again; it may happen to be what is due
      by_cases due : s.buf.take m = (s.buf.drop n).take m
      · rw [and_iff_right due]
        have rest := file.write due events
        cases stepped with
        | within more goes buf unread =>
          rw [if_pos more, ih goes (by rw [Due, buf, unread]; exact rest), buf, unread]
        | block used some_left goes buf unread =>
          rw [List.drop_of_length_le (Nat.not_lt.mp used), List.append_nil] at rest
          have next : Due content 0 s' := by
            rw [Due, buf, unread, List.drop_zero, List.append_assoc, List.take_append_drop]
            exact rest
          rw [if_neg used, or_iff_right some_left, ih goes next, buf, unread]
        | finish used none_left ended =>
          rw [List.drop_of_length_le (Nat.not_lt.mp used), List.append_nil, none_left,
            List.append_nil] at rest
          have none_failed : .failed ∉ s'.events := by
            rw [events]
            simpa using waiting.none_failed
          rw [Rdwr.foldl_of_ended ended, if_neg used]
          exact iff_of_true ⟨rest ▸ List.prefix_rfl, fun _ _ => rest.symm,
            stops_of_not_mem none_failed⟩ (.inl none_left)
      · refine iff_of_false (fun orderly => due ?_) fun agree => due agree.1
        apply file.of_prefix (Nat.min_le_right _ _)
        have before := sent_prefix (@Rdwr.events_foldl beyond ws s')
        rw [events, sent_accepted] at before
        exact before.trans orderly.in_order

/-- Writes that all take something come to the end of the file. -/
theorem Waiting.ends (waiting : Waiting n s) (positive : ∀ k, some k ∈ ws → 0 < k)
    (all : ∀ w ∈ ws, w.isSome) (long : s.buf.length - n + s.unread.length ≤ ws.length) :
    (ws.foldl (Rdwr.write beyond) s).ended = true := by
  induction ws generalizing s n with
  | nil =>
    have below := waiting.below
    rw [List.length_nil] at long
    omega
  | cons w ws ih =>
    have below := waiting.below
    obtain ⟨k, rfl⟩ := Option.isSome_iff_exists.mp (all w List.mem_cons_self)
    have taken := positive k List.mem_cons_self
    have later := fun k mem => positive k (List.mem_cons_of_mem _ mem)
    have all' := fun w mem => all w (List.mem_cons_of_mem _ mem)
    obtain ⟨-, stepped⟩ := @Waiting.step beyond n s waiting k
    rw [List.length_cons] at long
    rw [List.foldl_cons]
    generalize s.write beyond (some k) = s' at stepped
    cases stepped with
    | within more goes buf unread =>
      apply ih goes later all'
      rw [buf, unread]
      omega
    | block used some_left goes buf unread =>
      apply ih goes later all'
      rw [buf, unread, List.length_take, List.length_drop]
      omega
    | finish used none_left ended => rw [Rdwr.foldl_of_ended ended, ended]

/-- **`rdwr`** delivers the file if all writes agree with what is due. -/
theorem rdwr_delivered_iff (positive : ∀ k, some k ∈ ws → 0 < k) :
    Delivered content ws (rdwr content beyond ws) ↔
      content = [] ∨ Agree (content.take XFERSIZE) (content.drop XFERSIZE) 0 ws := by
  have events : (Rdwr.next ⟨⟨[], false⟩, content, [], 0⟩).events = [] := Rdwr.events_next
  rw [rdwr]
  rcases @waiting_next ⟨⟨[], false⟩, content, [], 0⟩ rfl (by simp) (by simp) with
    ⟨empty, ended⟩ | ⟨some_bytes, waiting, buf, unread⟩
  · have empty : content = [] := empty
    rw [Rdwr.foldl_of_ended ended]
    refine iff_of_true ⟨⟨?_, fun _ _ => ?_, ?_⟩, fun _ _ => ended⟩ (.inl empty)
    · rw [events]
      exact List.nil_prefix
    · rw [events, empty]
      rfl
    · rw [events]
      exact stops_of_not_mem (by simp)
  · have some_bytes : content ≠ [] := some_bytes
    have buf : (Rdwr.next ⟨⟨[], false⟩, content, [], 0⟩).buf = content.take XFERSIZE := buf
    have unread : (Rdwr.next ⟨⟨[], false⟩, content, [], 0⟩).unread = content.drop XFERSIZE :=
      unread
    have file : Due content 0 (Rdwr.next ⟨⟨[], false⟩, content, [], 0⟩) := by
      rw [Due, events, buf, unread, List.drop_zero]
      simp [sent]
    have orderly := @Waiting.orderly_iff content beyond ws 0 _ waiting file
    rw [buf, unread] at orderly
    rw [or_iff_right some_bytes, ← orderly]
    constructor
    · intro delivered
      exact delivered.toOrderly
    · intro orderly
      refine ⟨orderly, fun all long => waiting.ends positive all ?_⟩
      rw [buf, unread, List.length_take, List.length_drop]
      omega

end Rdwr

section Source

theorem size_eq (content : List UInt8) : size content =
    if (content.length : ℤ) % 4294967296 < 2147483648 then (content.length : ℤ) % 4294967296
    else (content.length : ℤ) % 4294967296 - 4294967296 := rfl

theorem size_le (content : List UInt8) : size content ≤ content.length := by
  rw [size_eq]
  split <;> omega

/-- The size of a file from 2 GiB on is not the `int`. -/
theorem size_eq_iff : size content = content.length ↔ content.length < 2 ^ 31 := by
  rw [size_eq]
  split <;> omega

/-- Writes that take everything agree with what is due. -/
theorem agree_of_full (full : ∀ w ∈ ws, ∃ k, w = some k ∧ XFERSIZE ≤ k)
    (fits : chunk.length ≤ XFERSIZE) : Agree chunk unread 0 ws := by
  induction ws generalizing chunk unread with
  | nil => trivial
  | cons w ws ih =>
    obtain ⟨k, rfl, enough⟩ := full w List.mem_cons_self
    have whole : min k (chunk.length - 0) = chunk.length := by omega
    refine ⟨by simp, ?_⟩
    rw [whole, Nat.zero_add, if_neg (lt_irrefl _)]
    refine .inr (ih (fun w mem => full w (List.mem_cons_of_mem _ mem)) ?_)
    rw [List.length_take]
    exact Nat.min_le_left _ _

/-- When `source` delivers the file: the size fits an `int` where the file is mapped, or
not all of the mapped part is sent; elsewhere all writes agree with what is due. -/
def Sendable (content : List UInt8) (ws : List (Option ℕ)) : Prop :=
  if size content > MMAPS_BETTER then
    content.length < 2 ^ 31 ∨ offeredRoom ws < (size content).toNat
  else content = [] ∨ Agree (content.take XFERSIZE) (content.drop XFERSIZE) 0 ws

/-- **When the file is delivered.** -/
theorem delivered_iff (content beyond : List UInt8) (ws : List (Option ℕ))
    (positive : ∀ k, some k ∈ ws → 0 < k) :
    Delivered content ws (source content beyond ws) ↔ Sendable content ws := by
  rw [source, Sendable]
  by_cases mapped : size content > MMAPS_BETTER
  · have small : (size content).toNat ≤ content.length := by
      have := size_le content
      omega
    have some_bytes : 0 < (size content).toNat := by
      rw [MMAPS_BETTER] at mapped
      omega
    rw [if_pos mapped, if_pos mapped, mmap_delivered_iff positive some_bytes small,
      ← size_eq_iff]
    have same : (size content).toNat = content.length ↔ size content = content.length := by omega
    rw [same]
  · rw [if_neg mapped, if_neg mapped]
    exact rdwr_delivered_iff positive

theorem delivered_iff_partial :
    Delivered [1, 1] [some 1, some 2] (source [1, 1] [] [some 1, some 2]) ∧
      ¬Delivered [1, 2] [some 1, some 2] (source [1, 2] [] [some 1, some 2]) := by
  constructor
  · refine (delivered_iff [1, 1] [] [some 1, some 2] (by simp)).mpr ?_
    rw [Sendable, if_neg (by decide)]
    exact .inr ⟨by decide, ⟨by decide, .inl (by decide)⟩⟩
  · refine (delivered_iff [1, 2] [] [some 1, some 2] (by simp)).not.mpr ?_
    rw [Sendable, if_neg (by decide)]
    rintro (empty | agree)
    · cases empty
    · exact absurd agree.2.1 (by decide)

/-- A write that takes one byte of three is followed by a write from the front of the
buffer, and a write that fails by a write of one byte more than the file has. -/
theorem rdwr_resends :
    ¬ (∀ (content beyond : List UInt8) (ws : List (Option ℕ)), (∀ w ∈ ws, ∃ k > 0, w = some k) →
        content.length ≤ ws.length →
        sent (source content beyond ws).events = content) ∧
      ¬ (∀ (content beyond : List UInt8) (ws : List (Option ℕ)),
        (∀ k, some k ∈ ws → 0 < k) → ∀ before after,
        (source content beyond ws).events = before ++ .failed :: after →
        ∀ bytes, .accepted bytes ∉ after) := by
  constructor
  · intro always
    have same := always [1, 2, 3] [] [some 1, some 2, some 2] (by simp) (by decide)
    have resent : sent (source [1, 2, 3] [] [some 1, some 2, some 2]).events = [1, 1, 2] := by
      decide
    rw [resent] at same
    exact absurd same (by decide)
  · intro always
    have events : (source [1, 2, 3] [0] [none, some 4]).events =
        [] ++ .failed :: [.accepted [1, 2, 3, 0]] := by
      decide
    exact always [1, 2, 3] [0] [none, some 4] (by simp) _ _ events [1, 2, 3, 0]
      List.mem_cons_self

end Source

end Lmbench.Lmhttp
