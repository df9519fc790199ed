import Lmbench.Lib.Endian
import Lmbench.Lib.PingPong

/-!
# The exchanges of `lat_tcp`

`init` sends the message size in front of everything else, and `doclient` writes a message and
reads in turn. `doserver` takes the size first and then reads and writes messages of that size.
Neither looks at how much a `read` has got, other than the server at the size itself.

## Main results

* `ntohl_htonl` - the size arrives, whatever the byte orders of the two machines
* `refines_of_run` - the connection is one of two parties that write and read in turn
* `blocked_iff` - client and server can block each other if and only if a message has more than
  one byte
-/

namespace Lmbench.LatTcp

open Lib Lib.PingPong

/-- The message size, the byte orders of the two machines, and what the sockets hold. -/
structure Config where
  msize : ℕ
  clientLittle : Bool
  serverLittle : Bool
  room : ℕ
  back : ℕ

def htonl (little : Bool) (x : ℕ) : ℕ := decode little (encode false 4 x)

def ntohl (little : Bool) (x : ℕ) : ℕ := decode false (encode little 4 x)

/-- `write(state->sock, &msize, sizeof(int))` -/
def Config.header (cfg : Config) : List UInt8 :=
  encode cfg.clientLittle 4 (htonl cfg.clientLittle cfg.msize)

inductive ClientPc
  | writing (left : ℕ)
  | reading
deriving DecidableEq, Repr

inductive ServerPc
  /-- in front of `read(sock, &n, sizeof(int))` -/
  | header
  | reading (msize : ℕ)
  | writing (msize left : ℕ)
  /-- after `tcp_done` and `kill` -/
  | shutDown
deriving DecidableEq, Repr

/-- The two processes, and what is on the connection: the size and messages one way, messages the
other. -/
structure Connection where
  client : ClientPc
  server : ServerPc
  size : List UInt8
  toServer : ℕ
  toClient : ℕ
deriving DecidableEq, Repr

/-- Behind `init`. -/
def Connection.start (cfg : Config) : Connection :=
  ⟨.writing cfg.msize, .header, cfg.header, 0, 0⟩

/-- What is seen of a step. -/
inductive Action
  | greet (n : ℕ)
  | move (e : Move)
deriving DecidableEq, Repr

inductive Connection.Step (cfg : Config) : Connection → Action → Connection → Prop
  /-- `read(sock, &n, sizeof(int)) == sizeof(int)` -/
  | greet {c : Connection} (pc : c.server = .header) :
      Step cfg c (.greet 4)
        { c with
          server := .reading (ntohl cfg.serverLittle (decode cfg.serverLittle c.size)), size := [] }
  /-- less is taken for a connection with no data -/
  | shutDown {c : Connection} {n : ℕ} (pc : c.server = .header) (short : n < 4) :
      Step cfg c (.greet n) { c with server := .shutDown, size := c.size.drop n }
  /-- some of the bytes of `write(sock, state->buf, state->msize)` -/
  | clientWrite {c : Connection} {left n : ℕ} (pc : c.client = .writing left)
      (some_bytes : 0 < n) (most : n ≤ left)
      (room : c.size.length + c.toServer + n ≤ cfg.room) :
      Step cfg c (.move (.ask n))
        { c with
          client := if left - n = 0 then .reading else .writing (left - n)
          toServer := c.toServer + n }
  /-- `read(sock, state->buf, state->msize)` -/
  | clientRead {c : Connection} {n : ℕ} (pc : c.client = .reading) (some_bytes : 0 < n)
      (most : n ≤ cfg.msize) (here : n ≤ c.toClient) :
      Step cfg c (.move (.get n))
        { c with client := .writing cfg.msize, toClient := c.toClient - n }
  /-- `read(sock, buf, msize)` -/
  | serverRead {c : Connection} {msize n : ℕ} (pc : c.server = .reading msize)
      (some_bytes : 0 < n) (most : n ≤ msize) (here : n ≤ c.toServer) :
      Step cfg c (.move (.hear n))
        { c with server := .writing msize msize, toServer := c.toServer - n }
  /-- some of the bytes of `write(sock, buf, msize)` -/
  | serverWrite {c : Connection} {msize left n : ℕ} (pc : c.server = .writing msize left)
      (some_bytes : 0 < n) (most : n ≤ left) (room : c.toClient + n ≤ cfg.back) :
      Step cfg c (.move (.answer n))
        { c with
          server := if left - n = 0 then .reading msize else .writing msize (left - n)
          toClient := c.toClient + n }

/-- The connection as two parties that write and read in turn. -/
def Connection.link (c : Connection) : Link where
  caller := match c.client with | .writing left => left | .reading => 0
  there := c.toServer
  answerer := match c.server with | .writing _ left => left | _ => 0
  back := c.toClient

def Config.sizes (cfg : Config) : Sizes := ⟨cfg.msize, cfg.room, cfg.back⟩

def Action.moves : Action → List Move
  | .greet _ => []
  | .move e => [e]

variable {cfg : Config} {c c' : Connection} {a : Action} {past : List Action}

/-- **The size arrives** between any two machines. -/
theorem ntohl_htonl (clientLittle serverLittle : Bool) (n : ℕ) :
    ntohl serverLittle (decode serverLittle
      (encode clientLittle 4 (htonl clientLittle n))) = n % 2 ^ 32 := by
  have length : (encode false 4 n).length = 4 := length_encode _ _ _
  have sent : encode clientLittle 4 (htonl clientLittle n) = encode false 4 n := by
    have back := encode_decode clientLittle (encode false 4 n)
    rwa [length] at back
  have received := encode_decode serverLittle (encode false 4 n)
  rw [length] at received
  rw [sent, ntohl, received, decode_encode]
  rfl

/-- What holds of a connection wherever it is. -/
structure Sound (cfg : Config) (c : Connection) : Prop where
  client : ∀ left, c.client = .writing left → 0 < left
  header : c.server = .header → c.size = cfg.header
  reading : ∀ msize, c.server = .reading msize → msize = cfg.msize ∧ c.size = []
  writing : ∀ msize left, c.server = .writing msize left →
    msize = cfg.msize ∧ c.size = [] ∧ 0 < left

section Refinement

variable (positive : 0 < cfg.msize) (small : cfg.msize < 2 ^ 31)

theorem header_size (small : cfg.msize < 2 ^ 31) :
    ntohl cfg.serverLittle (decode cfg.serverLittle cfg.header) = cfg.msize := by
  rw [Config.header, ntohl_htonl]
  exact Nat.mod_eq_of_lt (small.trans (by decide))

include positive in
theorem sound_start : Sound cfg (.start cfg) := by
  refine ⟨?_, fun _ => rfl, by simp [Connection.start], by simp [Connection.start]⟩
  rintro left ⟨⟩
  exact positive

include positive small in
theorem Sound.step (sound : Sound cfg c) (taken : Connection.Step cfg c a c') : Sound cfg c' := by
  obtain ⟨client, header, reading, writing⟩ := sound
  cases taken with
  | greet pc =>
    refine ⟨client, by simp, ?_, by simp⟩
    rintro msize ⟨⟩
    rw [header pc]
    exact ⟨header_size small, rfl⟩
  | shutDown pc short => exact ⟨client, by simp, by simp, by simp⟩
  | @clientWrite left n pc some_bytes most room =>
    refine ⟨?_, header, reading, writing⟩
    intro left' here
    dsimp only at here
    split_ifs at here with all
    obtain rfl := ClientPc.writing.inj here
    omega
  | clientRead pc some_bytes most here =>
    refine ⟨?_, header, reading, writing⟩
    rintro left ⟨⟩
    exact positive
  | @serverRead msize n pc some_bytes most here =>
    refine ⟨client, by simp, by simp, ?_⟩
    rintro msize' left ⟨⟩
    obtain ⟨same, empty⟩ := reading msize pc
    exact ⟨same, empty, same ▸ positive⟩
  | @serverWrite msize left n pc some_bytes most room =>
    obtain ⟨same, empty, -⟩ := writing msize left pc
    refine ⟨client, ?_, ?_, ?_⟩
    · dsimp only
      split_ifs <;> simp
    · intro msize' here
      dsimp only at here
      split_ifs at here
      obtain rfl := ServerPc.reading.inj here
      exact ⟨same, empty⟩
    · intro msize' left' here
      dsimp only at here
      split_ifs at here
      obtain ⟨rfl, rfl⟩ := ServerPc.writing.inj here
      exact ⟨same, empty, by omega⟩

/-- A step moves the link, or nothing of it. -/
theorem Sound.refines (sound : Sound cfg c) (taken : Connection.Step cfg c a c') :
    a.moves = [] ∧ c'.link = c.link ∨
      ∃ e, a.moves = [e] ∧ PingPong.Step cfg.sizes c.link e c'.link := by
  cases taken with
  | greet pc => exact .inl ⟨rfl, by simp [Connection.link, pc]⟩
  | shutDown pc short => exact .inl ⟨rfl, by simp [Connection.link, pc]⟩
  | @clientWrite left n pc some_bytes most room =>
    refine .inr ⟨_, rfl, ?_⟩
    have taken := PingPong.Step.ask (z := cfg.sizes) (l := c.link) some_bytes
      (by simpa [Connection.link, pc] using most)
      (by
        simp only [Connection.link, Config.sizes]
        omega)
    convert taken using 1
    simp only [Connection.link, pc]
    congr 1
    split_ifs with all
    · exact all.symm
    · rfl
  | clientRead pc some_bytes most here =>
    refine .inr ⟨_, rfl, ?_⟩
    exact .get (by simp [Connection.link, pc]) some_bytes most here
  | @serverRead msize n pc some_bytes most here =>
    obtain ⟨rfl, -⟩ := sound.reading msize pc
    refine .inr ⟨_, rfl, ?_⟩
    exact .hear (by simp [Connection.link, pc]) some_bytes most here
  | @serverWrite msize left n pc some_bytes most room =>
    refine .inr ⟨_, rfl, ?_⟩
    have taken := PingPong.Step.answer (z := cfg.sizes) (l := c.link) some_bytes
      (by simpa [Connection.link, pc] using most) room
    convert taken using 1
    simp only [Connection.link, pc]
    congr 1
    split_ifs with all
    · exact all.symm
    · rfl

include positive small in
theorem sound_of_run (run : Run (Connection.Step cfg) (.start cfg) past c) : Sound cfg c :=
  run.invariant (sound_start positive) fun _ _ _ sound taken => sound.step positive small taken

include positive small in
/-- **A connection is two parties that write and read in turn**, on either side of the size. -/
theorem refines_of_run (run : Run (Connection.Step cfg) (.start cfg) past c) :
    Run (PingPong.Step cfg.sizes) (.start cfg.sizes) (past.flatMap Action.moves) c.link := by
  induction run with
  | nil => exact .nil
  | @snoc past c c' a before taken ih =>
    rw [List.flatMap_append, List.flatMap_singleton]
    rcases (sound_of_run positive small before).refines taken with ⟨none, same⟩ | ⟨e, one, step⟩
    · rw [none, List.append_nil, same]
      exact ih
    · rw [one]
      exact ih.snoc step

/-- The server has taken the size. -/
def Connection.Greeted (c : Connection) : Prop := c.server ≠ .header ∧ c.server ≠ .shutDown

/-- Where the size is taken, the processes can do what the parties can. -/
theorem Sound.lifts (sound : Sound cfg c) (greeted : c.Greeted) {e : Move} {l : Link}
    (step : PingPong.Step cfg.sizes c.link e l) :
    ∃ c', Connection.Step cfg c (.move e) c' ∧ c'.Greeted ∧ c'.link = l := by
  have empty : c.size = [] := by
    cases pc : c.server with
    | header => exact absurd pc greeted.1
    | shutDown => exact absurd pc greeted.2
    | reading msize => exact (sound.reading msize pc).2
    | writing msize left => exact (sound.writing msize left pc).2.1
  have client : c.link.caller = 0 → c.client = .reading := by
    intro none
    cases pc : c.client with
    | reading => rfl
    | writing left =>
      have := sound.client left pc
      simp only [Connection.link, pc] at none
      omega
  have server : c.link.answerer = 0 → c.server = .reading cfg.msize := by
    intro none
    cases pc : c.server with
    | header => exact absurd pc greeted.1
    | shutDown => exact absurd pc greeted.2
    | reading msize => rw [(sound.reading msize pc).1]
    | writing msize left =>
      have := (sound.writing msize left pc).2.2
      simp only [Connection.link, pc] at none
      omega
  have moved : ∃ c', Connection.Step cfg c (.move e) c' ∧ c'.Greeted := by
    cases step with
    | @ask n some_bytes left room =>
      cases pc : c.client with
      | reading =>
        simp only [Connection.link, pc] at left
        omega
      | writing most =>
        simp only [Connection.link, pc] at left
        refine ⟨_, .clientWrite pc some_bytes left ?_, greeted⟩
        rw [empty, List.length_nil, Nat.zero_add]
        exact room
    | get reads some_bytes asked here =>
      exact ⟨_, .clientRead (client reads) some_bytes asked here, greeted⟩
    | hear reads some_bytes asked here =>
      exact ⟨_, .serverRead (server reads) some_bytes asked here, by simp [Connection.Greeted]⟩
    | @answer n some_bytes left room =>
      cases pc : c.server with
      | header => exact absurd pc greeted.1
      | shutDown => exact absurd pc greeted.2
      | reading msize =>
        simp only [Connection.link, pc] at left
        omega
      | writing msize most =>
        simp only [Connection.link, pc] at left
        refine ⟨_, .serverWrite pc some_bytes left room, ?_⟩
        dsimp only [Connection.Greeted]
        split_ifs <;> simp
  obtain ⟨c', taken, still⟩ := moved
  refine ⟨c', taken, still, ?_⟩
  rcases sound.refines taken with ⟨none, -⟩ | ⟨e', one, step'⟩
  · cases none
  · cases one
    exact step_unique step' step

include positive small in
/-- What the parties can do, the processes can do once the size is taken. -/
theorem exists_run {moves : List Move} {l : Link}
    (run : Run (PingPong.Step cfg.sizes) (.start cfg.sizes) moves l) :
    ∃ past c, Run (Connection.Step cfg) (.start cfg) past c ∧ c.Greeted ∧ c.link = l := by
  induction run with
  | nil =>
    refine ⟨_, _, Run.nil.snoc (.greet rfl), ?_, rfl⟩
    simp [Connection.Greeted]
  | snoc _ taken ih =>
    obtain ⟨past, c, before, greeted, rfl⟩ := ih
    have sound := sound_of_run positive small before
    obtain ⟨c', step, still, same⟩ := sound.lifts greeted taken
    exact ⟨_, c', before.snoc step, still, same⟩

include positive small in
/-- **Client and server can block each other if and only if a message has more than one byte**: a
message that is read in pieces is answered once for each of them. -/
theorem blocked_iff (room : 0 < cfg.room) (back : 0 < cfg.back) :
    (∃ past c, Run (Connection.Step cfg) (.start cfg) past c ∧ c.server ≠ .shutDown ∧
      ∀ a c', ¬ Connection.Step cfg c a c') ↔ 1 < cfg.msize := by
  rw [show cfg.msize = cfg.sizes.message from rfl, ← stuck_iff positive room back]
  constructor
  · rintro ⟨past, c, run, alive, blocked⟩
    have greeted : c.Greeted := ⟨fun pc => blocked _ _ (.greet pc), alive⟩
    refine ⟨_, _, refines_of_run positive small run, ?_⟩
    intro e l step
    obtain ⟨c', taken, -⟩ := (sound_of_run positive small run).lifts greeted step
    exact blocked _ _ taken
  · rintro ⟨moves, l, run, stuck⟩
    obtain ⟨past, c, run', greeted, rfl⟩ := exists_run positive small run
    refine ⟨past, c, run', greeted.2, ?_⟩
    intro a c' taken
    rcases (sound_of_run positive small run').refines taken with ⟨none, -⟩ | ⟨e, -, step⟩
    · -- only the size is read without a move
      cases taken with
      | greet pc | shutDown pc => exact greeted.1 pc
      | _ => cases none
    · exact stuck _ _ step

end Refinement

/-- `lat_tcp -m 2` -/
theorem blocked_iff_two : ∃ past c,
    Run (Connection.Step ⟨2, true, false, 87380, 16384⟩) (.start ⟨2, true, false, 87380, 16384⟩)
        past c ∧ c.server ≠ .shutDown ∧
      ∀ a c', ¬ Connection.Step ⟨2, true, false, 87380, 16384⟩ c a c' := by
  refine (blocked_iff ?_ ?_ ?_ ?_).mpr ?_ <;> decide

end Lmbench.LatTcp
