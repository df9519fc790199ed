import Lmbench.Lib.Transition
import Lmbench.Msgring.Topology

/-!
# The hot potato

The processes of the ring pass one message on. `MsgSend` blocks until the message
has been received and replied to; a `jumper` replies before it forwards, so the
process before it runs on while the message travels. `iterator` sends the message
off and waits for it, once for each round, and `main` calls `run_iterator` twice.

Processes are numbered in the direction of the messages, the iterator first: number
`i` stands for the process `(procs - i) % procs` of `fork_msgring`.

## Main results

* `attachedTo_position` - the numbering follows the connections of the ring
* `Passing.step` - where the message can be, kept by every step
* `hotPotato` - no deadlock, at most one message, and exactly the reported passes
-/

namespace Lmbench.Msgring.HotPotato

/-- Where a process is. -/
inductive Pc
  /-- in `MsgReceive` -/
  | receive
  /-- before `MsgReply` to the sender -/
  | reply (sender : ℕ)
  /-- before or in `bread` -/
  | work
  /-- before `MsgSend` -/
  | send
  /-- in `MsgSend`, the message not received -/
  | sendBlocked
  /-- in `MsgSend`, the message not replied to -/
  | replyBlocked
  /-- the iterator, at its loop condition -/
  | test
  /-- the iterator, behind its loop -/
  | returned
deriving DecidableEq, Repr

/-- All processes, the counter of `iterator` and the calls of `run_iterator` that are
to come; and how many messages each process has sent and received, and how many
rounds the iterator has completed. -/
structure State where
  pc : ℕ → Pc
  rounds : ℕ
  calls : ℕ
  sent : ℕ → ℕ
  received : ℕ → ℕ
  completed : ℕ

/-- The process that `state.coid` leads to. -/
abbrev next (procs i : ℕ) : ℕ := (i + 1) % procs

/-- What follows `MsgSend`: the iterator has data to read, a jumper goes back to
`MsgReceive`. -/
def afterSend (i : ℕ) : Pc := if i = 0 then .work else .receive

/-- What follows `MsgReply`: the iterator is through with a round, a jumper has data
to read. -/
def afterReply (i : ℕ) : Pc := if i = 0 then .test else .work

/-- What follows `bread`. -/
def afterWork (i : ℕ) : Pc := if i = 0 then .receive else .send

/-- One step of process `i`, the sender of the message in the case of `receive`. -/
inductive Step (procs rounds : ℕ) : State → ℕ → State → Prop
  | call {s : State} (pc : s.pc 0 = .returned) (more : 0 < s.calls) :
      Step procs rounds s 0
        { s with pc := Function.update s.pc 0 .test, calls := s.calls - 1, rounds := rounds }
  | enter {s : State} (pc : s.pc 0 = .test) (more : 0 < s.rounds) :
      Step procs rounds s 0
        { s with pc := Function.update s.pc 0 .send, rounds := s.rounds - 1 }
  | leave {s : State} (pc : s.pc 0 = .test) (done : s.rounds = 0) :
      Step procs rounds s 0 { s with pc := Function.update s.pc 0 .returned }
  | send {s : State} {i : ℕ} (live : i < procs) (pc : s.pc i = .send) :
      Step procs rounds s i
        { s with
          pc := Function.update s.pc i .sendBlocked
          sent := Function.update s.sent i (s.sent i + 1) }
  | receive {s : State} {i : ℕ} (live : i < procs) (pc : s.pc i = .sendBlocked)
      (waits : s.pc (next procs i) = .receive) :
      Step procs rounds s i
        { s with
          pc := Function.update (Function.update s.pc i .replyBlocked) (next procs i) (.reply i)
          received :=
            Function.update s.received (next procs i) (s.received (next procs i) + 1) }
  | reply {s : State} {i sender : ℕ} (live : i < procs) (pc : s.pc i = .reply sender) :
      Step procs rounds s i
        { s with
          pc := Function.update (Function.update s.pc sender (afterSend sender)) i (afterReply i)
          completed := if i = 0 then s.completed + 1 else s.completed }
  | work {s : State} {i : ℕ} (live : i < procs) (pc : s.pc i = .work) :
      Step procs rounds s i { s with pc := Function.update s.pc i (afterWork i) }

/-- **The numbering.** In the ring that `fork_msgring` has built, the connection of
number `i` leads to number `next procs i`. -/
theorem attachedTo_position {procs i : ℕ} {r : System} (live : i < procs)
    (cycle : Lib.IsCycle r.attachedTo 0 (order procs)) :
    r.attachedTo ((procs - i) % procs) = some ((procs - next procs i) % procs) := by
  have positive : 0 < procs := by omega
  have visited : ∀ n < procs, (order procs)[n]? = some ((procs - n) % procs) := by
    intro n below
    simp [order, below]
  have length : (order procs).length = procs := by simp [order]
  have here := cycle.visits i
  have there := cycle.visits (i + 1)
  rw [length, Nat.mod_eq_of_lt live, visited i live] at here
  rw [length, visited _ (Nat.mod_lt _ positive), Lib.walk_succ, here] at there
  exact there

/-- The ring before `main` has called `run_iterator`. -/
def start (calls : ℕ) : State where
  pc i := if i = 0 then .returned else .receive
  rounds := 0
  calls := calls
  sent _ := 0
  received _ := 0
  completed := 0

/-! ### Where the message is -/

/-- How far the message has come when process `j` has received it. -/
def position (procs j : ℕ) : ℕ := if j = 0 then procs else j

/-- The message has come to position `h`, the iterator's being 0 at the start of a
round and `procs` at its end; `budget` is the number of rounds of all calls. -/
structure Passing (procs rounds budget : ℕ) (s : State) (h : ℕ) : Prop where
  h_le : h ≤ procs
  holder :
    match s.pc (h % procs) with
    | .test => h = 0
    | .returned => h = 0 ∧ s.rounds = 0
    | .reply i => 0 < h ∧ i = h - 1 ∧ s.pc i = .replyBlocked
    | .work => 0 < h ∧ h < procs
    | .send | .sendBlocked => h < procs
    | .receive | .replyBlocked => False
  /-- the sender that is not replied to yet is blocked; the iterator may be reading
  its data; all others wait -/
  others : ∀ j < procs, j ≠ h % procs →
    s.pc j = .receive ∨ (j = 0 ∧ s.pc j = .work) ∨
      (s.pc (h % procs) = .reply j ∧ s.pc j = .replyBlocked)
  received : ∀ j < procs,
    s.received j = s.completed + if position procs j ≤ h then 1 else 0
  sent : ∀ j < procs,
    s.sent j = s.completed + if j < h ∨ (j = h ∧ s.pc h = .sendBlocked) then 1 else 0
  accounted : s.completed + s.rounds +
    (if s.pc (h % procs) = .test ∨ s.pc (h % procs) = .returned then 0 else 1) +
    s.calls * rounds = budget

/-- A bound on the steps of the process that has the message until it is received. -/
def Pc.weight : Pc → ℕ
  | .reply _ => 8
  | .work => 6
  | .send => 5
  | _ => 4

/-- A bound on the steps ahead. -/
def ahead (procs rounds : ℕ) (s : State) (h : ℕ) : ℕ :=
  s.calls * (rounds * (8 * procs + 8) + 2) +
    if s.pc (h % procs) = .returned then 0
    else if s.pc (h % procs) = .test then s.rounds * (8 * procs + 8) + 1
    else s.rounds * (8 * procs + 8) + 8 * (procs - h) + (s.pc (h % procs)).weight +
      if s.pc 0 = .work then 1 else 0

/-- The message is somewhere in `t`, and there is less ahead than there was. -/
def Advances (procs rounds budget : ℕ) (s : State) (h : ℕ) (t : State) : Prop :=
  ∃ h', Passing procs rounds budget t h' ∧ ahead procs rounds t h' < ahead procs rounds s h

variable {procs rounds budget h i : ℕ} {s t : State}

theorem passing_start (calls : ℕ) (positive : 0 < procs) :
    Passing procs rounds (calls * rounds) (start calls) 0 where
  h_le := Nat.zero_le _
  holder := by simp [start]
  others := fun j _ other => .inl (by simpa [start] using other)
  received := fun j live => by
    have ahead : ¬ position procs j ≤ 0 := by
      unfold position
      split <;> omega
    simp [start, ahead]
  sent := fun j _ => by simp [start]
  accounted := by simp [start]

theorem indicator_le {p q : Prop} [Decidable p] [Decidable q] (imp : p → q) :
    (if p then 1 else 0 : ℕ) ≤ if q then 1 else 0 := by
  by_cases holds : p
  · simp [holds, imp holds]
  · simp [holds]

theorem next_ne (two : 2 ≤ procs) (live : i < procs) : next procs i ≠ i := by
  rw [next]
  rcases Nat.lt_or_ge (i + 1) procs with inside | beyond
  · rw [Nat.mod_eq_of_lt inside]
    omega
  · obtain rfl : procs = i + 1 := by omega
    rw [Nat.mod_self]
    omega

/-- A message that has come to position `i` gets to the next one by reaching the process
behind `i`. -/
theorem position_eq_succ_iff (live : i < procs) {j : ℕ} (below : j < procs) :
    position procs j = i + 1 ↔ j = next procs i := by
  unfold position next
  rcases Nat.lt_or_ge (i + 1) procs with inside | beyond
  · rw [Nat.mod_eq_of_lt inside]
    split <;> omega
  · obtain rfl : procs = i + 1 := by omega
    rw [Nat.mod_self]
    split <;> omega

namespace Passing

variable (passing : Passing procs rounds budget s h)
include passing

/-- Only the process that has the message is anywhere but in `MsgReceive`, in
`bread` or blocked behind it. -/
theorem eq_holder (live : i < procs) (receive : s.pc i ≠ .receive) (work : s.pc i ≠ .work)
    (blocked : s.pc i ≠ .replyBlocked) : i = h % procs := by
  by_contra other
  rcases passing.others i live other with same | ⟨-, same⟩ | ⟨-, same⟩
  · exact receive same
  · exact work same
  · exact blocked same

/-- While the message is not being received nobody is blocked in `MsgSend`. -/
theorem others_free (free : ∀ j, s.pc (h % procs) ≠ .reply j) {j : ℕ} (live : j < procs)
    (other : j ≠ h % procs) : s.pc j = .receive ∨ (j = 0 ∧ s.pc j = .work) := by
  rcases passing.others j live other with same | same | ⟨reply, -⟩
  · exact .inl same
  · exact .inr same
  · exact absurd reply (free j)

/-- Where the others are when only the process with the message has moved. -/
theorem others_of_move {new : Pc} (here : i = h % procs) (free : ∀ j, s.pc i ≠ .reply j) {j : ℕ}
    (live : j < procs) (other : j ≠ i) :
    Function.update s.pc i new j = .receive ∨
      (j = 0 ∧ Function.update s.pc i new j = .work) := by
  rw [Function.update_of_ne other]
  exact passing.others_free (here ▸ free) live (here ▸ other)

/-- Where the others are when the sender has got its reply. -/
theorem others_of_reply {sender : ℕ} (here : i = h % procs) (pc : s.pc i = .reply sender) {j : ℕ}
    (live : j < procs) (other : j ≠ i) :
    Function.update (Function.update s.pc sender (afterSend sender)) i (afterReply i) j = .receive ∨
      (j = 0 ∧
        Function.update (Function.update s.pc sender (afterSend sender)) i (afterReply i) j =
          .work) := by
  rw [Function.update_of_ne other]
  by_cases replied : j = sender
  · subst replied
    rw [Function.update_self, afterSend]
    split
    · rename_i zero
      exact .inr ⟨zero, rfl⟩
    · exact .inl rfl
  · rw [Function.update_of_ne replied]
    rcases passing.others j live (here ▸ other) with same | same | ⟨reply, -⟩
    · exact .inl same
    · exact .inr same
    · rw [← here, pc] at reply
      exact absurd (Pc.reply.inj reply).symm replied

theorem call (pc : s.pc 0 = .returned) (more : 0 < s.calls) (positive : 0 < procs) :
    Advances procs rounds budget s h
      { s with pc := Function.update s.pc 0 .test, calls := s.calls - 1, rounds := rounds } := by
  have here := passing.eq_holder positive (by simp [pc]) (by simp [pc]) (by simp [pc])
  have holder := passing.holder
  rw [← here, pc] at holder
  obtain ⟨rfl, spent⟩ := holder
  have total := passing.accounted
  obtain ⟨calls, more⟩ : ∃ calls, s.calls = calls + 1 := ⟨s.calls - 1, by omega⟩
  rw [more, Nat.add_mul] at total
  refine ⟨0, ?_, ?_⟩
  · exact
      { h_le := Nat.zero_le _
        holder := by simp
        others := fun j live other =>
          (passing.others_of_move here (by simp [pc]) live (by simpa using other)).imp_right .inl
        received := passing.received
        sent := fun j live => by simpa [pc] using passing.sent j live
        accounted := by
          simp [pc, spent] at total
          simp [more]
          omega }
  · simp [ahead, pc, more, Nat.add_mul]

theorem enter (pc : s.pc 0 = .test) (more : 0 < s.rounds) (positive : 0 < procs) :
    Advances procs rounds budget s h
      { s with pc := Function.update s.pc 0 .send, rounds := s.rounds - 1 } := by
  have here := passing.eq_holder positive (by simp [pc]) (by simp [pc]) (by simp [pc])
  have holder := passing.holder
  rw [← here, pc] at holder
  obtain rfl := holder
  have total := passing.accounted
  obtain ⟨left, more⟩ : ∃ left, s.rounds = left + 1 := ⟨s.rounds - 1, by omega⟩
  refine ⟨0, ?_, ?_⟩
  · exact
      { h_le := Nat.zero_le _
        holder := by simpa using positive
        others := fun j live other =>
          (passing.others_of_move here (by simp [pc]) live (by simpa using other)).imp_right .inl
        received := passing.received
        sent := fun j live => by simpa [pc] using passing.sent j live
        accounted := by
          simp [pc] at total
          simp [more]
          omega }
  · simp [ahead, pc, more, Nat.add_mul, Pc.weight]
    omega

theorem leave (pc : s.pc 0 = .test) (done : s.rounds = 0) (positive : 0 < procs) :
    Advances procs rounds budget s h { s with pc := Function.update s.pc 0 .returned } := by
  have here := passing.eq_holder positive (by simp [pc]) (by simp [pc]) (by simp [pc])
  have holder := passing.holder
  rw [← here, pc] at holder
  obtain rfl := holder
  refine ⟨0, ?_, ?_⟩
  · exact
      { h_le := Nat.zero_le _
        holder := by simpa using done
        others := fun j live other =>
          (passing.others_of_move here (by simp [pc]) live (by simpa using other)).imp_right .inl
        received := passing.received
        sent := fun j live => by simpa [pc] using passing.sent j live
        accounted := by simpa [pc] using passing.accounted }
  · simp [ahead, pc]

theorem send (live : i < procs) (pc : s.pc i = .send) :
    Advances procs rounds budget s h
      { s with
        pc := Function.update s.pc i .sendBlocked
        sent := Function.update s.sent i (s.sent i + 1) } := by
  have here := passing.eq_holder live (by simp [pc]) (by simp [pc]) (by simp [pc])
  have holder := passing.holder
  rw [← here, pc] at holder
  obtain rfl : i = h := here.trans (Nat.mod_eq_of_lt holder)
  refine ⟨i, ?_, ?_⟩
  · exact
      { h_le := live.le
        holder := by simpa [← here] using live
        others := fun j below other =>
          (passing.others_of_move here (by simp [pc]) below (here ▸ other)).imp_right .inl
        received := passing.received
        sent := fun j below => by
          have count := passing.sent j below
          rw [pc] at count
          simp only [Function.update_apply]
          split
          · rename_i same
            subst same
            simpa using count
          · rename_i away
            simpa [away] using count
        accounted := by simpa [← here, pc] using passing.accounted }
  · have working : Function.update s.pc i .sendBlocked 0 = .work ↔ s.pc 0 = .work := by
      rw [Function.update_apply]
      split
      · rename_i same
        simp [same, pc]
      · rfl
    simp [ahead, ← here, pc, working, Pc.weight]

/-- The process behind `i` is the one that has received one message more when the message has
come to it. -/
theorem received_next (at_h : h = i) (live : i < procs) {j : ℕ} (below : j < procs) :
    Function.update s.received (next procs i) (s.received (next procs i) + 1) j =
      s.completed + if position procs j ≤ i + 1 then 1 else 0 := by
  subst at_h
  have count := passing.received j below
  have arrives := position_eq_succ_iff live below
  rw [Function.update_apply]
  by_cases target : j = next procs h
  · have far := arrives.mpr target
    rw [if_pos target, ← target, count, far, if_neg (by omega), if_pos le_rfl]
  · have other : position procs j ≠ h + 1 := fun same => target (arrives.mp same)
    rw [if_neg target, count]
    congr 1
    exact if_congr (by omega) rfl rfl

/-- Its sender has sent as many as the processes before it. -/
theorem sent_next (at_h : h = i) (pc : s.pc i = .sendBlocked) {j : ℕ} (below : j < procs)
    {pc' : ℕ → Pc} (reading : pc' (next procs i) ≠ .sendBlocked) :
    s.sent j =
      s.completed + if j < i + 1 ∨ (j = i + 1 ∧ pc' (i + 1) = .sendBlocked) then 1 else 0 := by
  subst at_h
  rw [passing.sent j below]
  congr 1
  refine if_congr ?_ rfl rfl
  simp only [pc, and_true]
  constructor
  · rintro (before | rfl)
    · exact .inl (by omega)
    · exact .inl (Nat.lt_succ_self j)
  · rintro (before | ⟨rfl, blocked⟩)
    · omega
    · rw [next, Nat.mod_eq_of_lt below] at reading
      exact absurd blocked reading

theorem receive (two : 2 ≤ procs) (live : i < procs) (pc : s.pc i = .sendBlocked)
    (waits : s.pc (next procs i) = .receive) :
    Advances procs rounds budget s h
      { s with
        pc := Function.update (Function.update s.pc i .replyBlocked) (next procs i) (.reply i)
        received :=
          Function.update s.received (next procs i) (s.received (next procs i) + 1) } := by
  have here := passing.eq_holder live (by simp [pc]) (by simp [pc]) (by simp [pc])
  have holder := passing.holder
  rw [← here, pc] at holder
  obtain rfl : i = h := here.trans (Nat.mod_eq_of_lt holder)
  have apart : i ≠ (i + 1) % procs := (next_ne two live).symm
  refine ⟨i + 1, ?_, ?_⟩
  · exact
      { h_le := live
        holder := by simp [next, Function.update_of_ne apart]
        others := fun j below other => by
          simp only [next, Function.update_of_ne other, Function.update_self]
          by_cases sender : j = i
          · subst sender
            exact .inr (.inr ⟨rfl, Function.update_self ..⟩)
          · rw [Function.update_of_ne sender]
            rcases passing.others_free (by simp [← here, pc]) below (here ▸ sender) with
              same | same
            · exact .inl same
            · exact .inr (.inl same)
        received := fun j below => passing.received_next rfl live below
        sent := fun j below => passing.sent_next rfl pc below (by simp)
        accounted := by simpa [next, ← here, pc] using passing.accounted }
  · have working : Function.update (Function.update s.pc i .replyBlocked) ((i + 1) % procs)
        (.reply i) 0 = .work → s.pc 0 = .work := by
      intro work
      rw [Function.update_apply, Function.update_apply] at work
      split at work
      · simp at work
      · split at work
        · simp at work
        · exact work
    have reading := indicator_le working
    simp [ahead, next, ← here, pc, Pc.weight] at reading ⊢
    omega

/-- `MsgReply` in a jumper: the sender goes on, and the jumper has data to read before
it forwards the message. -/
theorem reply_jumper {sender : ℕ} (live : i < procs) (jumper : i ≠ 0)
    (pc : s.pc i = .reply sender) :
    Advances procs rounds budget s h
      { s with
        pc := Function.update (Function.update s.pc sender (afterSend sender)) i (afterReply i)
        completed := if i = 0 then s.completed + 1 else s.completed } := by
  have here := passing.eq_holder live (by simp [pc]) (by simp [pc]) (by simp [pc])
  have holder := passing.holder
  rw [← here, pc] at holder
  obtain ⟨positive, rfl, blocked⟩ := holder
  have inside : h < procs := by
    have within := passing.h_le
    rcases Nat.lt_or_eq_of_le within with inside | rfl
    · exact inside
    · rw [Nat.mod_self] at here
      exact absurd here jumper
  obtain rfl : i = h := here.trans (Nat.mod_eq_of_lt inside)
  have after : afterReply i = .work := if_neg jumper
  refine ⟨i, ?_, ?_⟩
  · exact
      { h_le := live.le
        holder := by simpa [← here, after] using ⟨positive, live⟩
        others := fun j below other =>
          (passing.others_of_reply here pc below (here ▸ other)).imp_right .inl
        received := by simpa [jumper] using passing.received
        sent := fun j below => by simpa [jumper, pc, after] using passing.sent j below
        accounted := by simpa [← here, pc, after, jumper] using passing.accounted }
  · have reading : (if Function.update (Function.update s.pc (i - 1) (afterSend (i - 1))) i
        (afterReply i) 0 = Pc.work then 1 else 0 : ℕ) ≤ 1 := by
      split <;> simp
    simp [ahead, ← here, pc, after, Pc.weight] at reading ⊢
    omega

/-- `MsgReply` in the iterator, which ends a round. -/
theorem reply_iterator {sender : ℕ} (two : 2 ≤ procs) (pc : s.pc 0 = .reply sender) :
    Advances procs rounds budget s h
      { s with
        pc := Function.update (Function.update s.pc sender (afterSend sender)) 0 (afterReply 0)
        completed := s.completed + 1 } := by
  have live : 0 < procs := by omega
  have here := passing.eq_holder live (by simp [pc]) (by simp [pc]) (by simp [pc])
  have holder := passing.holder
  rw [← here, pc] at holder
  obtain ⟨positive, rfl, blocked⟩ := holder
  obtain rfl : h = procs := by
    rcases Nat.lt_or_eq_of_le passing.h_le with inside | same
    · rw [Nat.mod_eq_of_lt inside] at here
      omega
    · exact same
  have far : ∀ j < h, position h j ≤ h ∧ ¬ position h j ≤ 0 := by
    intro j below
    unfold position
    split <;> omega
  refine ⟨0, ?_, ?_⟩
  · exact
      { h_le := Nat.zero_le _
        holder := by simp [afterReply]
        others := fun j below other =>
          (passing.others_of_reply here pc below (by simpa using other)).imp_right .inl
        received := fun j below => by
          rw [passing.received j below, if_pos (far j below).1, if_neg (far j below).2]
        sent := fun j below => by
          rw [passing.sent j below, if_pos (.inl below), if_neg]
          simp [afterReply]
        accounted := by
          have total := passing.accounted
          simp [← here, pc] at total
          simp [afterReply]
          omega }
  · simp [ahead, ← here, pc, afterReply, Pc.weight]

/-- `bread` in the process that has the message, which forwards it next. -/
theorem work_holder (here : i = h % procs) (live : i < procs) (pc : s.pc i = .work) :
    Advances procs rounds budget s h
      { s with pc := Function.update s.pc i (afterWork i) } := by
  have holder := passing.holder
  rw [← here, pc] at holder
  obtain rfl : i = h := here.trans (Nat.mod_eq_of_lt holder.2)
  have after : afterWork i = .send := if_neg holder.1.ne'
  refine ⟨i, ?_, ?_⟩
  · exact
      { h_le := live.le
        holder := by simpa [← here, after] using live
        others := fun j below other =>
          (passing.others_of_move here (by simp [pc]) below (here ▸ other)).imp_right .inl
        received := passing.received
        sent := fun j below => by simpa [pc, after] using passing.sent j below
        accounted := by simpa [← here, pc, after] using passing.accounted }
  · have reading : (if Function.update s.pc i .send 0 = .work then 1 else 0 : ℕ) ≤
        if s.pc 0 = .work then 1 else 0 := by
      refine indicator_le fun work => ?_
      rw [Function.update_of_ne holder.1.ne] at work
      exact work
    simp [ahead, ← here, pc, after, Pc.weight] at reading ⊢
    omega

/-- `bread` in the iterator, while the message is on its way through the jumpers. -/
theorem work_iterator (elsewhere : 0 ≠ h % procs) (pc : s.pc 0 = .work) :
    Advances procs rounds budget s h
      { s with pc := Function.update s.pc 0 (afterWork 0) } := by
  have holder := passing.holder
  have kept : Function.update s.pc 0 (afterWork 0) (h % procs) = s.pc (h % procs) :=
    Function.update_of_ne elsewhere.symm _ _
  -- a process that replies to the iterator finds it blocked, and it is not
  have free : s.pc (h % procs) ≠ .reply 0 := by
    intro reply
    simp [reply, pc] at holder
  refine ⟨h, ?_, ?_⟩
  · exact
      { h_le := passing.h_le
        holder := by
          simp only [kept]
          revert holder
          cases holding : s.pc (h % procs) with
          | reply j =>
            rintro ⟨positive, same, blocked⟩
            have away : j ≠ 0 := by
              rintro rfl
              exact free holding
            exact ⟨positive, same, by rw [Function.update_of_ne away]; exact blocked⟩
          | _ => exact id
        others := fun j below other => by
          by_cases iterator : j = 0
          · subst iterator
            exact .inl (by simp [afterWork])
          · simp only [kept, Function.update_of_ne iterator]
            exact passing.others j below other
        received := passing.received
        sent := fun j below => by
          rw [passing.sent j below]
          congr 1
          refine if_congr (or_congr_right (and_congr_right fun same => ?_)) rfl rfl
          subst same
          rw [Nat.mod_eq_of_lt below] at kept
          simp only [kept]
        accounted := by simpa only [kept] using passing.accounted }
  · have idle : s.pc (h % procs) ≠ .test ∧ s.pc (h % procs) ≠ .returned := by
      constructor
      all_goals
        intro holding
        rw [holding] at holder
        simp_all
    have after : afterWork 0 = .receive := rfl
    rw [after] at kept
    simp [ahead, kept, pc, idle, after]

/-- `bread`, in the process that has the message or in the iterator meanwhile. -/
theorem work (live : i < procs) (pc : s.pc i = .work) :
    Advances procs rounds budget s h
      { s with pc := Function.update s.pc i (afterWork i) } := by
  by_cases here : i = h % procs
  · exact passing.work_holder here live pc
  · obtain rfl : i = 0 := by
      rcases passing.others i live here with same | same | ⟨-, same⟩
      · simp [pc] at same
      · exact same.1
      · simp [pc] at same
    exact passing.work_iterator here pc

/-- **One step.** Whichever process takes it, the message is somewhere in the ring
and there is less ahead. -/
theorem step (two : 2 ≤ procs) (taken : Step procs rounds s i t) :
    Advances procs rounds budget s h t := by
  have positive : 0 < procs := by omega
  cases taken with
  | call pc more => exact passing.call pc more positive
  | enter pc more => exact passing.enter pc more positive
  | leave pc done => exact passing.leave pc done positive
  | send live pc => exact passing.send live pc
  | receive live pc waits => exact passing.receive two live pc waits
  | reply live pc =>
    by_cases iterator : i = 0
    · subst iterator
      rw [if_pos rfl]
      exact passing.reply_iterator two pc
    · exact passing.reply_jumper live iterator pc
  | work live pc => exact passing.work live pc

/-- Until `main` has made all its calls, some process can take a step. -/
theorem exists_step (two : 2 ≤ procs) (unfinished : s.pc 0 = .returned → 0 < s.calls) :
    ∃ i t, Step procs rounds s i t := by
  have live : h % procs < procs := Nat.mod_lt _ (by omega)
  have holder := passing.holder
  cases pc : s.pc (h % procs) with
  | receive | replyBlocked => simp [pc] at holder
  | reply sender => exact ⟨_, _, .reply live pc⟩
  | work => exact ⟨_, _, .work live pc⟩
  | send => exact ⟨_, _, .send live pc⟩
  | test =>
    rw [pc] at holder
    obtain rfl := holder
    rcases Nat.eq_zero_or_pos s.rounds with done | more
    · exact ⟨_, _, .leave (by simpa using pc) done⟩
    · exact ⟨_, _, .enter (by simpa using pc) more⟩
  | returned =>
    rw [pc] at holder
    obtain ⟨rfl, -⟩ := holder
    have pc : s.pc 0 = .returned := by simpa using pc
    exact ⟨_, _, .call pc (unfinished pc)⟩
  | sendBlocked =>
    rw [pc] at holder
    rw [Nat.mod_eq_of_lt holder] at pc
    -- the receiver waits, unless it is the iterator still reading its data
    by_cases waits : s.pc (next procs h) = .receive
    · exact ⟨_, _, .receive holder pc waits⟩
    · have target : next procs h < procs := Nat.mod_lt _ (by omega)
      have away : next procs h ≠ h % procs := by
        rw [Nat.mod_eq_of_lt holder]
        exact next_ne two holder
      have free : ∀ j, s.pc (h % procs) ≠ .reply j := by simp [Nat.mod_eq_of_lt holder, pc]
      rcases passing.others_free free target away with same | ⟨-, work⟩
      · exact absurd same waits
      · exact ⟨_, _, .work target work⟩

/-- Two processes are never blocked in `MsgSend` at once. -/
theorem blocked_unique {j : ℕ} (hi : i < procs) (hj : j < procs)
    (blockedI : s.pc i = .sendBlocked ∨ s.pc i = .replyBlocked)
    (blockedJ : s.pc j = .sendBlocked ∨ s.pc j = .replyBlocked) : i = j := by
  have sender : ∀ k < procs, (s.pc k = .sendBlocked ∨ s.pc k = .replyBlocked) →
      (k = h % procs ∧ s.pc (h % procs) = .sendBlocked) ∨ s.pc (h % procs) = .reply k := by
    intro k live blocked
    by_cases here : k = h % procs
    · subst here
      rcases blocked with send | reply
      · exact .inl ⟨rfl, send⟩
      · have holder := passing.holder
        simp [reply] at holder
    · rcases passing.others k live here with same | ⟨-, same⟩ | ⟨reply, -⟩
      · simp [same] at blocked
      · simp [same] at blocked
      · exact .inr reply
  rcases sender i hi blockedI with ⟨rfl, pc⟩ | pc <;>
    rcases sender j hj blockedJ with ⟨rfl, pc'⟩ | pc'
  · rfl
  · simp [pc] at pc'
  · simp [pc'] at pc
  · exact Pc.reply.inj (pc.symm.trans pc')

/-- Between two rounds the ring is idle, and every process has sent and received as
many messages as rounds are completed. -/
theorem idle (positive : 0 < procs) (between : s.pc 0 = .test ∨ s.pc 0 = .returned) {j : ℕ}
    (live : j < procs) :
    s.received j = s.completed ∧ s.sent j = s.completed ∧ (j ≠ 0 → s.pc j = .receive) := by
  have here : 0 = h % procs := by
    rcases between with pc | pc
    all_goals exact passing.eq_holder positive (by simp [pc]) (by simp [pc]) (by simp [pc])
  obtain rfl : h = 0 := by
    have holder := passing.holder
    rw [← here] at holder
    rcases between with pc | pc
    · rwa [pc] at holder
    · rw [pc] at holder
      exact holder.1
  have far : ¬ position procs j ≤ 0 := by
    unfold position
    split <;> omega
  have received := passing.received j live
  have sent := passing.sent j live
  have free : s.pc 0 ≠ .sendBlocked := by rcases between with pc | pc <;> simp [pc]
  refine ⟨by simpa [far] using received, by simpa [free] using sent, fun jumper => ?_⟩
  have quiet : ∀ k, s.pc (0 % procs) ≠ .reply k := by
    intro k
    rcases between with pc | pc <;> simp [pc]
  rcases passing.others_free quiet live (by simpa using jumper) with same | ⟨zero, -⟩
  · exact same
  · exact absurd zero jumper

end Passing

/-! ### All schedules -/

/-- The message is somewhere, and the steps taken and ahead stay within the bound. -/
def OnTrack (procs rounds calls : ℕ) (past : List ℕ) (s : State) : Prop :=
  ∃ h, Passing procs rounds (calls * rounds) s h ∧
    past.length + ahead procs rounds s h ≤ calls * (rounds * (8 * procs + 8) + 2)

theorem onTrack_of_run {calls : ℕ} {past : List ℕ} (two : 2 ≤ procs)
    (run : Lib.Run (Step procs rounds) (start calls) past s) :
    OnTrack procs rounds calls past s := by
  have initial : OnTrack procs rounds calls [] (start calls) :=
    ⟨0, passing_start calls (by omega), by simp [ahead, start]⟩
  refine run.invariant_history initial ?_
  rintro past s i t - ⟨h, passing, spent⟩ taken
  obtain ⟨h', there, less⟩ := passing.step two taken
  refine ⟨h', there, ?_⟩
  rw [List.length_append, List.length_singleton]
  omega

/-- **The hot potato.** In every schedule at most one message is not replied to; some
process can go on until `main` has made its calls, which takes a bounded number of
steps; between two rounds every process has received each message that was forwarded
to it, one for each completed round; and the calls made so far account for exactly
`procs * rounds` passes each. -/
theorem hotPotato {calls : ℕ} {past : List ℕ} (two : 2 ≤ procs)
    (run : Lib.Run (Step procs rounds) (start calls) past s) :
    (∀ i < procs, ∀ j < procs, (s.pc i = .sendBlocked ∨ s.pc i = .replyBlocked) →
      (s.pc j = .sendBlocked ∨ s.pc j = .replyBlocked) → i = j) ∧
    ((s.pc 0 = .returned → 0 < s.calls) → ∃ i t, Step procs rounds s i t) ∧
    past.length ≤ calls * (rounds * (8 * procs + 8) + 2) ∧
    (s.pc 0 = .test ∨ s.pc 0 = .returned → ∀ j < procs,
      s.received j = s.completed ∧ s.received (next procs j) = s.sent j ∧
        (j ≠ 0 → s.pc j = .receive)) ∧
    (s.pc 0 = .returned → s.completed = rounds * (calls - s.calls) ∧
      ∑ j ∈ Finset.range procs, s.received j = procs * rounds * (calls - s.calls)) := by
  obtain ⟨h, passing, spent⟩ := onTrack_of_run two run
  have positive : 0 < procs := by omega
  refine ⟨fun i hi j hj => passing.blocked_unique hi hj, passing.exists_step two,
    (Nat.le_add_right _ _).trans spent, ?_, ?_⟩
  · intro between j live
    obtain ⟨received, sent, waits⟩ := passing.idle positive between live
    have target : next procs j < procs := Nat.mod_lt _ positive
    exact ⟨received, (passing.idle positive between target).1.trans sent.symm, waits⟩
  · intro returned
    have here : 0 = h % procs := passing.eq_holder positive (by simp [returned])
      (by simp [returned]) (by simp [returned])
    have holder := passing.holder
    have total := passing.accounted
    rw [← here, returned] at holder total
    have made : s.completed = rounds * (calls - s.calls) := by
      rw [Nat.mul_comm, Nat.sub_mul]
      simp [holder.2] at total
      omega
    refine ⟨made, ?_⟩
    have each : ∀ j ∈ Finset.range procs, s.received j = s.completed := fun j member =>
      (passing.idle positive (.inr returned) (Finset.mem_range.mp member)).1
    rw [Finset.sum_const_nat each, Finset.card_range, made, Nat.mul_assoc]

/-- One round with two processes: the first of the two calls. -/
theorem exists_run_pair :
    ∃ past s, Lib.Run (Step 2 1) (start 2) past s ∧ s.pc 0 = .returned ∧ s.calls = 1 := by
  have off := ((Lib.Run.nil.snoc (@Step.call 2 1 (start 2) rfl (by decide))).snoc
    (@Step.enter 2 1 _ rfl (by decide))).snoc (@Step.send 2 1 _ 0 (by decide) rfl)
  have forward := ((off.snoc (@Step.receive 2 1 _ 0 (by decide) rfl rfl)).snoc
    (@Step.reply 2 1 _ 1 0 (by decide) rfl)).snoc (@Step.work 2 1 _ 1 (by decide) rfl)
  have back := ((forward.snoc (@Step.send 2 1 _ 1 (by decide) rfl)).snoc
    (@Step.work 2 1 _ 0 (by decide) rfl)).snoc (@Step.receive 2 1 _ 1 (by decide) rfl rfl)
  exact ⟨_, _, (back.snoc (@Step.reply 2 1 _ 0 1 (by decide) rfl)).snoc
    (@Step.leave 2 1 _ rfl rfl), rfl, rfl⟩

theorem hotPotato_pair :
    ∃ past s, Lib.Run (Step 2 1) (start 2) past s ∧ s.pc 0 = .returned ∧
      ∑ j ∈ Finset.range 2, s.received j = 2 := by
  obtain ⟨past, s, run, returned, calls⟩ := exists_run_pair
  obtain ⟨-, -, -, -, passes⟩ := hotPotato le_rfl run
  have counted := (passes returned).2
  rw [calls] at counted
  exact ⟨past, s, run, returned, counted⟩

end Lmbench.Msgring.HotPotato
