import Lmbench.Lib.Transition
import Mathlib.Algebra.Group.Nat.Defs
import Mathlib.Data.List.Basic

/-!
# The attempts of `tcp_connect`

`tcp_connect` calls itself when the other side is not there yet, and counts the calls in a
static variable. A connection resets the count, giving up does not.

The address that is looked up, and the port and the options of the socket, are left out: no count
depends on them.

## Main results

* `returned_cases` - what a call leaves: the count, and the sockets that are open
* `tcpConnect_spec` - what a call does that starts from a small count
* `fair_iff` - which calls, after which calls, make their eleven attempts
-/

namespace Lmbench.Tcp

open Lib

/-- The errors of `connect` that are told apart. -/
inductive Errno
  | ECONNRESET
  | ECONNREFUSED
  | EAGAIN
  | other
deriving DecidableEq, Repr

/-- What comes of `socket` and `connect`. -/
inductive Attempt
  | noSocket
  | connected
  | failed (errno : Errno)
deriving DecidableEq, Repr

/-- The end of a call: the socket, if the result is not -1, or the end of the process. -/
inductive Outcome
  | returned (sock : Option ℕ)
  | exit (status : ℕ)
deriving DecidableEq, Repr

/-- The static count, the number of sockets made so far, and those that are open. -/
structure Client where
  tries : ℕ
  sockets : ℕ
  opened : List ℕ
deriving DecidableEq, Repr

/-- The process at its start. -/
def start : Client := ⟨0, 0, []⟩

/-- `socket(AF_INET, SOCK_STREAM, IPPROTO_TCP)`. -/
def Client.socket (c : Client) : Client :=
  { c with sockets := c.sockets + 1, opened := c.sockets :: c.opened }

/-- `close(sock)`. -/
def Client.close (c : Client) (sock : ℕ) : Client := { c with opened := c.opened.erase sock }

/-- `errno == ECONNRESET || errno == ECONNREFUSED || errno == EAGAIN`. -/
def Errno.Transient (errno : Errno) : Prop :=
  errno = .ECONNRESET ∨ errno = .ECONNREFUSED ∨ errno = .EAGAIN

instance (errno : Errno) : Decidable errno.Transient := by unfold Errno.Transient; infer_instance

/-- `tcp_connect(host, prog, rdwr)`, with what comes of one attempt after the other. None if there
are more attempts, or if the count overflows. -/
def tcpConnect : List Attempt → Client → Option (Outcome × Client)
  | [], _ => none
  | .noSocket :: _, c => some (.exit 1, c)
  | .connected :: _, c => some (.returned c.sockets, { c.socket with tries := 0 })
  | .failed errno :: later, c =>
    if errno.Transient then
      let c' := c.socket.close c.sockets
      if c'.tries = 2 ^ 31 - 1 then none
      else
        let c' := { c' with tries := c'.tries + 1 }
        if 10 < c'.tries then some (.returned none, c') else tcpConnect later c'
    else some (.exit 4, c.socket)

/-- A call that has returned. -/
structure Call where
  attempts : List Attempt
  sock : Option ℕ
deriving DecidableEq, Repr

/-- One call after the other. -/
def Call.Step (c : Client) (call : Call) (c' : Client) : Prop :=
  tcpConnect call.attempts c = some (.returned call.sock, c')

/-- The attempts that a call returns after. -/
def Attempt.Expected (a : Attempt) : Prop :=
  a = .connected ∨ ∃ errno, errno.Transient ∧ a = .failed errno

/-- The call returns with -1 only after eleven attempts, and with a socket if one of the first
eleven connects. If it returns with -1, no socket is left open. -/
structure Fair (c : Client) (attempts : List Attempt) (sock : Option ℕ) (c' : Client) : Prop where
  returns : tcpConnect attempts c = some (.returned sock, c')
  budget : sock = none → c'.sockets = c.sockets + 11
  connects : Attempt.connected ∈ attempts.take 11 → ∃ n ∈ c'.opened, sock = some n
  closes : sock = none → c'.opened = c.opened

variable {c c' : Client} {errno : Errno} {attempts later : List Attempt} {sock : Option ℕ}
  {past : List Call}

@[simp] theorem Client.close_socket (c : Client) :
    c.socket.close c.sockets = { c with sockets := c.sockets + 1 } := by
  simp [socket, close]

@[simp] theorem tcpConnect_connected : tcpConnect (.connected :: later) c =
    some (.returned c.sockets, { c.socket with tries := 0 }) := rfl

/-- What one attempt does that is not successful. -/
theorem tcpConnect_failed (transient : errno.Transient) : tcpConnect (.failed errno :: later) c =
    if c.tries = 2 ^ 31 - 1 then none
    else if 10 ≤ c.tries then
      some (.returned none, { c with tries := c.tries + 1, sockets := c.sockets + 1 })
    else tcpConnect later { c with tries := c.tries + 1, sockets := c.sockets + 1 } := by
  rw [tcpConnect, if_pos transient]
  simp only [Client.close_socket, Nat.lt_succ_iff]

/-- A call that gives up leaves a large count and no socket open, one that connects leaves no count
and its own socket open. -/
theorem returned_cases (returned : tcpConnect attempts c = some (.returned sock, c')) :
    (sock = none ∧ 10 < c'.tries ∧ c'.opened = c.opened) ∨
      ∃ n, sock = some n ∧ c'.tries = 0 ∧ c'.opened = n :: c.opened := by
  induction attempts generalizing c with
  | nil => simp [tcpConnect] at returned
  | cons a later ih =>
    cases a with
    | noSocket => simp [tcpConnect] at returned
    | connected =>
      simp only [tcpConnect_connected, Option.some.injEq, Prod.mk.injEq,
        Outcome.returned.injEq] at returned
      obtain ⟨rfl, rfl⟩ := returned
      exact .inr ⟨c.sockets, rfl, rfl, rfl⟩
    | failed errno =>
      by_cases transient : errno.Transient
      · rw [tcpConnect_failed transient] at returned
        split_ifs at returned with overflow last
        · simp only [Option.some.injEq, Prod.mk.injEq, Outcome.returned.injEq] at returned
          obtain ⟨rfl, rfl⟩ := returned
          exact .inl ⟨rfl, Nat.lt_succ_of_le last, rfl⟩
        · -- the calls inside each other share the count and the sockets
          exact (ih returned :)
      · simp [tcpConnect, transient] at returned

/-- A call that gives up leaves no socket open. -/
theorem opened_of_failed (returned : tcpConnect attempts c = some (.returned none, c')) :
    c'.opened = c.opened := by
  rcases returned_cases returned with ⟨-, -, closed⟩ | ⟨n, connected, -⟩
  · exact closed
  · cases connected

/-- A call that starts from a small count makes the attempts that are left. -/
theorem tcpConnect_spec (small : c.tries ≤ 10) (expected : ∀ a ∈ attempts, a.Expected)
    (enough : 11 ≤ c.tries + attempts.length) :
    ∃ sock c', tcpConnect attempts c = some (.returned sock, c') ∧
      (sock = none → c'.sockets = c.sockets + (11 - c.tries)) ∧
      (Attempt.connected ∈ attempts.take (11 - c.tries) → ∃ n ∈ c'.opened, sock = some n) := by
  induction attempts generalizing c with
  | nil => rw [List.length_nil] at enough; omega
  | cons a later ih =>
    have others : ∀ b ∈ later, b.Expected := fun b hb => expected b (List.mem_cons_of_mem a hb)
    rw [List.length_cons] at enough
    rcases expected a List.mem_cons_self with rfl | ⟨errno, transient, rfl⟩
    · exact ⟨some c.sockets, _, tcpConnect_connected, by simp, fun _ => ⟨c.sockets, by
        simp [Client.socket], rfl⟩⟩
    · rw [tcpConnect_failed transient, if_neg (by omega)]
      split_ifs with last
      · obtain last : c.tries = 10 := by omega
        exact ⟨none, _, rfl, by simp [last], by simp [last]⟩
      · obtain ⟨sock, c', returned, budget, connects⟩ :=
          @ih { c with tries := c.tries + 1, sockets := c.sockets + 1 }
            (show c.tries + 1 ≤ 10 by omega) others (show 11 ≤ c.tries + 1 + later.length by omega)
        have left : 11 - c.tries = 11 - (c.tries + 1) + 1 := by omega
        refine ⟨sock, c', returned, fun failed => ?_, fun member => ?_⟩
        · rw [budget failed]
          show c.sockets + 1 + (11 - (c.tries + 1)) = c.sockets + (11 - c.tries)
          omega
        · rw [left, List.take_succ_cons, List.mem_cons] at member
          exact connects (member.resolve_left (by simp))

/-- After the calls so far the count is nought, unless the last of them gave up. -/
theorem tries_of_run (run : Run Call.Step start past c) :
    ((∀ call ∈ past.getLast?, call.sock ≠ none) → c.tries = 0) ∧
      ((∃ call ∈ past.getLast?, call.sock = none) → 10 < c.tries) := by
  cases run with
  | nil => simp [start]
  | snoc before taken =>
    rcases returned_cases taken with ⟨failed, large, -⟩ | ⟨n, connected, zero, -⟩
    · simp [failed, large]
    · simp [connected, zero]

/-- A call makes its eleven attempts unless the last call before it gave up and its own first
attempt fails: then it gives up at once. -/
theorem fair_iff (run : Run Call.Step start past c) (expected : ∀ a ∈ attempts, a.Expected)
    (enough : 11 ≤ attempts.length) :
    (∃ sock c', Fair c attempts sock c') ↔
      (∀ call ∈ past.getLast?, call.sock ≠ none) ∨ attempts.head? = some .connected := by
  obtain ⟨reset, stale⟩ := tries_of_run run
  constructor
  · rintro ⟨sock, c', fair⟩
    by_contra neither
    obtain ⟨gaveUp, first⟩ := not_or.mp neither
    have large := stale (by simpa using gaveUp)
    obtain - | ⟨a, later⟩ := attempts
    · simp at enough
    rcases expected a List.mem_cons_self with rfl | ⟨errno, transient, rfl⟩
    · exact first rfl
    · have returns := fair.returns
      rw [tcpConnect_failed transient, if_pos (Nat.le_of_lt large)] at returns
      split_ifs at returns with overflow
      simp only [Option.some.injEq, Prod.mk.injEq, Outcome.returned.injEq] at returns
      obtain ⟨rfl, rfl⟩ := returns
      have budget := fair.budget rfl
      simp at budget
  · rintro (kept | first)
    · have zero := reset kept
      obtain ⟨sock, c', returned, budget, connects⟩ :=
        @tcpConnect_spec c attempts (by omega) expected (by omega)
      rw [zero] at budget connects
      exact ⟨sock, c', returned, budget, connects,
        fun failed => opened_of_failed (failed ▸ returned)⟩
    · obtain ⟨later, rfl⟩ : ∃ later, attempts = .connected :: later := by
        cases attempts with
        | nil => simp at first
        | cons a later => exact ⟨later, by simpa using first⟩
      exact ⟨some c.sockets, _, tcpConnect_connected, by simp,
        fun _ => ⟨c.sockets, by simp [Client.socket], rfl⟩, by simp⟩

/-- Behind a call that gave up and one that connected at once, a call that is connected by its
fourth attempt. -/
theorem fair_fourth : ∃ c, Run Call.Step start
      [⟨List.replicate 11 (.failed .ECONNREFUSED), none⟩, ⟨[.connected], some 11⟩] c ∧
    ∃ sock c', Fair c
      (List.replicate 3 (.failed .ECONNREFUSED) ++ List.replicate 8 .connected) sock c' := by
  have gaveUp : Call.Step start ⟨List.replicate 11 (.failed .ECONNREFUSED), none⟩ ⟨11, 11, []⟩ := by
    unfold Call.Step
    decide +kernel
  have connected : Call.Step ⟨11, 11, []⟩ ⟨[.connected], some 11⟩ ⟨0, 12, [11]⟩ := by
    unfold Call.Step
    decide +kernel
  have run := (Run.nil.snoc gaveUp).snoc connected
  exact ⟨_, run, (fair_iff run (by simp [Attempt.Expected, Errno.Transient]) (by decide)).mpr
    (Or.inl (by simp))⟩

/-- After a call that gave up, one refusal is enough: the second attempt would connect. -/
theorem not_fair_second : ∃ c, Call.Step start ⟨List.replicate 11 (.failed .ECONNREFUSED), none⟩ c ∧
    ¬ ∃ sock c', Fair c (.failed .ECONNREFUSED :: List.replicate 10 .connected) sock c' := by
  refine ⟨⟨11, 11, []⟩, by unfold Call.Step; decide +kernel, ?_⟩
  rintro ⟨sock, c', fair⟩
  have returns : tcpConnect (.failed .ECONNREFUSED :: List.replicate 10 .connected) ⟨11, 11, []⟩ =
      some (.returned none, ⟨12, 12, []⟩) := by decide +kernel
  rw [fair.returns] at returns
  simp only [Option.some.injEq, Prod.mk.injEq, Outcome.returned.injEq] at returns
  obtain ⟨rfl, rfl⟩ := returns
  exact absurd (fair.budget rfl) (by decide)

end Lmbench.Tcp
