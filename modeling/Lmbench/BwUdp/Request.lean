import Lmbench.Lib.Endian
import Lmbench.Machine

/-!
# The request of `bw_udp`

The client sends how much to move and in which pieces as two `long` in its own byte
order. The server takes each for a word in network order and of 32 bits. For every
request it sends until the amount is used up, and exits if a piece is no datagram; the
client counts its amount down once, in front of all requests.

## Main results

* `decodeField_encodeLong_iff` - when a number survives
* `survives_iff` - when the request survives and the server sends what is waited for
-/

namespace Lmbench.BwUdp

variable (dm : DataModel)

/-- One more than the largest `long`. -/
def longMax : ℕ := 2 ^ (8 * dm.sizeofLong - 1)

/-- The `long` with these bits. -/
def toLong (x : ℕ) : ℤ := if x < longMax dm then x else x - 256 ^ dm.sizeofLong

/-- A `long` in memory. -/
def encodeLong (x : ℤ) : List UInt8 :=
  Lib.encode dm.littleEndian dm.sizeofLong (x % 256 ^ dm.sizeofLong).toNat

/-- `ntohl(x)`: the bytes of a 32-bit word, read with the most significant first. -/
def ntohl (x : ℕ) : ℕ := Lib.decode false (Lib.encode dm.littleEndian 4 x)

/-- `ntohl(*(long*)buf)` as a `long`; the argument is converted to 32 bits. -/
def decodeField (buf : List UInt8) : ℤ :=
  toLong dm (ntohl dm (Lib.decode dm.littleEndian buf % 2 ^ 32))

/-- `control` -/
def request (move msize : ℤ) : List UInt8 := encodeLong dm move ++ encodeLong dm msize

/-- `nbytes` and `msize` of the server. -/
def decodeRequest (buf : List UInt8) : ℤ × ℤ :=
  (decodeField dm (buf.take dm.sizeofLong),
    decodeField dm ((buf.drop dm.sizeofLong).take dm.sizeofLong))

/-- `while (nbytes > 0) { ...; nbytes -= msize; }` on both sides: the number of passes
and `nbytes` behind them, for some number of passes at most. -/
def passes (msize : ℤ) : ℕ → ℤ → Option (ℕ × ℤ)
  | 0, nbytes => if 0 < nbytes then none else some (0, nbytes)
  | left + 1, nbytes =>
    if 0 < nbytes then (passes msize left (nbytes - msize)).map fun (k, rest) => (k + 1, rest)
    else some (0, nbytes)

/-- The whole loop, or none if it does not end. -/
def pieces (msize nbytes : ℤ) : Option (ℕ × ℤ) := passes msize nbytes.toNat nbytes

/-- How many datagrams `loop_transfer` waits for, from some `nbytes` on. -/
def clientWaits (msize : ℤ) : ℕ → ℤ → Option ℕ
  | 0, _ => some 0
  | iterations + 1, nbytes => do
    let (k, nbytes) ← pieces msize nbytes
    -- `nbytes` is not set back to `move` for the next request
    let rest ← clientWaits msize iterations nbytes
    some (k + rest)

/-- The most that `sendto` puts in one datagram: what is left of 65535 bytes behind both
headers. -/
def largestDatagram : ℤ := 65507

/-- How many datagrams `server_main` sends, when it gets the request so many times; none
if `sendto` fails, and the server exits, or the loop does not end. -/
def serverSends (buf : List UInt8) : ℕ → Option ℕ
  | 0 => some 0
  | iterations + 1 => do
    -- every request is decoded afresh
    let (nbytes, msize) := decodeRequest dm buf
    -- a negative size is a large one as a `size_t`
    if 0 < nbytes ∧ (msize < 0 ∨ largestDatagram < msize) then none
    else
      let (k, _) ← pieces msize nbytes
      let rest ← serverSends buf iterations
      some (k + rest)

/-- The server gets the numbers of the client and sends what is waited for. -/
def Survives (move msize : ℤ) (iterations : ℕ) : Prop :=
  decodeRequest dm (request dm move msize) = (move, msize) ∧
    ∃ k, serverSends dm (request dm move msize) iterations = some k ∧
      clientWaits msize iterations move = some k

/-- The number fits in 32 bits, which read the same both ways on a little-endian host. -/
def Intact (x : ℤ) : Prop :=
  x < 2 ^ 32 ∧ (dm.littleEndian = true →
    (Lib.encode true 4 x.toNat).reverse = Lib.encode true 4 x.toNat)

variable {dm} {x move msize nbytes : ℤ} {n left iterations k : ℕ}

section Fields

theorem longMax_le : 2 ^ 31 ≤ longMax dm := by
  have wide := dm.four_le_int.trans dm.int_le_long
  exact Nat.pow_le_pow_right (by decide) (by omega)

theorem two_mul_longMax : 2 * longMax dm = 256 ^ dm.sizeofLong := by
  have wide := dm.four_le_int.trans dm.int_le_long
  have bits : 8 * dm.sizeofLong = 8 * dm.sizeofLong - 1 + 1 := by omega
  have bytes : 256 ^ dm.sizeofLong = 2 ^ (8 * dm.sizeofLong) := by
    rw [Nat.pow_mul]
  rw [bytes, longMax]
  conv_rhs => rw [bits, Nat.pow_succ, Nat.mul_comm]

/-- Only small words are `long`s that are not negative. -/
theorem toLong_eq_iff (small : n < 256 ^ dm.sizeofLong) (nonneg : 0 ≤ x)
    (fits : x < longMax dm) : toLong dm n = x ↔ n = x := by
  rw [toLong]
  split
  · exact Iff.rfl
  · constructor
    · intro negative
      have : (n : ℤ) < (256 ^ dm.sizeofLong : ℕ) := by exact_mod_cast small
      push_cast at this
      omega
    · intro same
      omega

theorem ntohl_lt (n : ℕ) : ntohl dm n < 2 ^ 32 := by
  have below := Lib.decode_lt false (Lib.encode dm.littleEndian 4 n)
  rwa [Lib.length_encode] at below

/-- A 32-bit word is the same in network order on a big-endian host, and on a
little-endian one if its bytes read the same both ways. -/
theorem ntohl_eq_iff (small : n < 2 ^ 32) : ntohl dm n = n ↔
    (dm.littleEndian = true → (Lib.encode true 4 n).reverse = Lib.encode true 4 n) := by
  have word : n % 256 ^ 4 = n := Nat.mod_eq_of_lt small
  rw [ntohl]
  cases dm.littleEndian with
  | false =>
    rw [Lib.decode_encode, word]
    exact ⟨fun _ little => absurd little (by decide), fun _ => rfl⟩
  | true =>
    have swapped : Lib.decode false (Lib.encode true 4 n) =
        Lib.decode true (Lib.encode true 4 n).reverse :=
      (@Lib.decode_reverse true (Lib.encode true 4 n)).symm
    have plain : Lib.decode true (Lib.encode true 4 n) = n := by rw [Lib.decode_encode, word]
    have both := @Lib.decode_reverse_eq_iff true (Lib.encode true 4 n)
    rw [plain] at both
    rw [swapped, both]
    exact ⟨fun same _ => same, fun same => same rfl⟩

/-- **When a number survives.** -/
theorem decodeField_encodeLong_iff (nonneg : 0 ≤ x) (fits : x < longMax dm) :
    decodeField dm (encodeLong dm x) = x ↔ Intact dm x := by
  obtain ⟨n, rfl⟩ := Int.eq_ofNat_of_zero_le nonneg
  have range := @two_mul_longMax dm
  have below : n < 256 ^ dm.sizeofLong := by omega
  have sent : encodeLong dm n = Lib.encode dm.littleEndian dm.sizeofLong n := by
    have whole : ((n : ℤ) % 256 ^ dm.sizeofLong).toNat = n := by
      have value : (n : ℤ) % 256 ^ dm.sizeofLong = ((n % 256 ^ dm.sizeofLong : ℕ) : ℤ) := by
        push_cast
        rfl
      rw [value, Int.toNat_natCast, Nat.mod_eq_of_lt below]
    rw [encodeLong, whole]
  have word : 2 ^ 32 ≤ 256 ^ dm.sizeofLong := by
    have wide := @longMax_le dm
    omega
  rw [decodeField, sent, Lib.decode_encode, Nat.mod_eq_of_lt below,
    toLong_eq_iff ((ntohl_lt _).trans_le word) nonneg fits, Intact, Int.toNat_natCast]
  constructor
  · intro same
    have same : ntohl dm (n % 2 ^ 32) = n := by exact_mod_cast same
    have small : n < 2 ^ 32 := same ▸ ntohl_lt _
    rw [Nat.mod_eq_of_lt small] at same
    exact ⟨by exact_mod_cast small, (ntohl_eq_iff small).mp same⟩
  · rintro ⟨small, reads⟩
    have small : n < 2 ^ 32 := by exact_mod_cast small
    rw [Nat.mod_eq_of_lt small, (ntohl_eq_iff small).mpr reads]

end Fields

section Loops

/-- A loop that counts down by a positive amount ends. -/
theorem passes_of_pos (positive : 1 ≤ msize) (enough : nbytes ≤ left) :
    ∃ k rest, passes msize left nbytes = some (k, rest) ∧ rest ≤ 0 ∧ (k = 0 ↔ nbytes ≤ 0) := by
  induction left generalizing nbytes with
  | zero =>
    have done : ¬ 0 < nbytes := by omega
    exact ⟨0, nbytes, if_neg done, by omega, by omega⟩
  | succ left ih =>
    by_cases more : 0 < nbytes
    · obtain ⟨k, rest, later, ended, -⟩ := @ih (nbytes - msize) (by omega)
      refine ⟨k + 1, rest, ?_, ended, by omega⟩
      rw [passes, if_pos more, later, Option.map_some]
    · refine ⟨0, nbytes, ?_, by omega, by omega⟩
      rw [passes, if_neg more]

theorem pieces_of_pos (positive : 1 ≤ msize) (nbytes : ℤ) :
    ∃ k rest, pieces msize nbytes = some (k, rest) ∧ rest ≤ 0 ∧ (k = 0 ↔ nbytes ≤ 0) :=
  passes_of_pos positive (Int.self_le_toNat nbytes)

theorem pieces_of_nonpos (done : nbytes ≤ 0) : pieces msize nbytes = some (0, nbytes) := by
  have none_left : nbytes.toNat = 0 := Int.toNat_of_nonpos done
  rw [pieces, none_left, passes, if_neg (by omega)]

/-- An amount of full pieces. -/
theorem passes_mul (positive : 1 ≤ msize) (k : ℕ) (enough : k ≤ left) :
    passes msize left (k * msize) = some (k, 0) := by
  induction k generalizing left with
  | zero => cases left <;> simp [passes]
  | succ k ih =>
    obtain ⟨more, rfl⟩ := Nat.exists_eq_succ_of_ne_zero (by omega : left ≠ 0)
    have amount : 0 < ((k + 1 : ℕ) : ℤ) * msize := Int.mul_pos (by omega) (by omega)
    have rest : ((k + 1 : ℕ) : ℤ) * msize - msize = k * msize := by
      rw [Int.natCast_succ, Int.add_mul, Int.one_mul, Int.add_sub_cancel]
    rw [passes, if_pos amount, rest, ih (by omega), Option.map_some]

theorem pieces_mul (positive : 1 ≤ msize) (k : ℕ) : pieces msize (k * msize) = some (k, 0) := by
  apply passes_mul positive
  have least : (k : ℤ) * 1 ≤ k * msize := Int.mul_le_mul_of_nonneg_left positive (by omega)
  omega

/-- The client waits for nothing once its amount is used up. -/
theorem clientWaits_of_nonpos (done : nbytes ≤ 0) (iterations : ℕ) :
    clientWaits msize iterations nbytes = some 0 := by
  induction iterations with
  | zero => rfl
  | succ iterations ih =>
    rw [clientWaits, pieces_of_nonpos done]
    simp [ih]

/-- The client waits for the answer to its first request only. -/
theorem clientWaits_succ {rest : ℤ} (loop : pieces msize nbytes = some (k, rest))
    (ended : rest ≤ 0) : clientWaits msize (iterations + 1) nbytes = some k := by
  rw [clientWaits, loop]
  simp [clientWaits_of_nonpos ended]

/-- The server sends as much for every request. -/
theorem serverSends_eq {buf : List UInt8} {rest : ℤ}
    (decoded : decodeRequest dm buf = (nbytes, msize))
    (sendable : ¬(0 < nbytes ∧ (msize < 0 ∨ largestDatagram < msize)))
    (loop : pieces msize nbytes = some (k, rest)) (iterations : ℕ) :
    serverSends dm buf iterations = some (iterations * k) := by
  induction iterations with
  | zero => simp [serverSends]
  | succ iterations ih =>
    rw [serverSends, decoded]
    simp only [if_neg sendable, loop, Option.bind_eq_bind, Option.bind_some, ih]
    rw [Nat.succ_mul, Nat.add_comm]

/-- It exits at the first piece that is no datagram. -/
theorem serverSends_of_large {buf : List UInt8} (decoded : decodeRequest dm buf = (nbytes, msize))
    (large : 0 < nbytes ∧ (msize < 0 ∨ largestDatagram < msize)) (iterations : ℕ) :
    serverSends dm buf (iterations + 1) = none := by
  rw [serverSends, decoded]
  simp only [if_pos large]

end Loops

theorem decodeRequest_request (dm : DataModel) (move msize : ℤ) :
    decodeRequest dm (request dm move msize) =
      (decodeField dm (encodeLong dm move), decodeField dm (encodeLong dm msize)) := by
  have first : (encodeLong dm move).length = dm.sizeofLong := Lib.length_encode _ _ _
  have second : (encodeLong dm msize).length = dm.sizeofLong := Lib.length_encode _ _ _
  rw [decodeRequest, request, List.take_left' first, List.drop_left' first,
    List.take_of_length_le second.le]

/-- **When the request survives.** Both numbers must; and there is nothing to move, or no
request, or one request for pieces that are datagrams. -/
theorem survives_iff (dm : DataModel) (move msize : ℤ) (iterations : ℕ) (nonneg : 0 ≤ move)
    (fits : move < longMax dm) (positive : 1 ≤ msize) (fits' : msize < longMax dm) :
    Survives dm move msize iterations ↔ (Intact dm move ∧ Intact dm msize) ∧
      (move = 0 ∨ iterations = 0 ∨ iterations = 1 ∧ msize ≤ largestDatagram) := by
  have numbers : decodeRequest dm (request dm move msize) = (move, msize) ↔
      Intact dm move ∧ Intact dm msize := by
    rw [decodeRequest_request, Prod.mk.injEq, decodeField_encodeLong_iff nonneg fits,
      decodeField_encodeLong_iff (by omega) fits']
  rw [Survives, ← numbers]
  apply and_congr_right
  intro decoded
  obtain ⟨k, rest, loop, ended, none_sent⟩ := pieces_of_pos positive move
  cases iterations with
  | zero => simp [clientWaits, serverSends]
  | succ iterations =>
    rw [clientWaits_succ loop ended]
    by_cases large : 0 < move ∧ (msize < 0 ∨ largestDatagram < msize)
    · -- the server has exited
      rw [serverSends_of_large decoded large]
      constructor
      · rintro ⟨_, sent, _⟩
        cases sent
      · omega
    · rw [serverSends_eq decoded large loop]
      constructor
      · rintro ⟨_, sent, waited⟩
        obtain rfl := Option.some.inj sent
        have equal := Option.some.inj waited
        rcases Nat.eq_zero_or_pos k with nothing | some_waited
        · exact .inl (by omega)
        · have once : (iterations + 1) * k = 1 * k := by rw [← equal, Nat.one_mul]
          have one := Nat.eq_of_mul_eq_mul_right some_waited once
          omega
      · rintro (nothing | never | ⟨one, _⟩)
        · have none_waited : k = 0 := none_sent.mpr nothing.le
          exact ⟨k, by rw [none_waited, Nat.mul_zero], rfl⟩
        · omega
        · exact ⟨k, by rw [one, Nat.one_mul], rfl⟩

/-- A big-endian host with a `long` of 4 bytes. -/
def bigEndian : DataModel := { DataModel.ilp32 with littleEndian := false }

theorem survives_iff_bigEndian : Survives bigEndian 1024 512 1 :=
  (survives_iff bigEndian 1024 512 1 (by decide) (by decide) (by decide) (by decide)).mpr
    ⟨⟨⟨by decide, nofun⟩, ⟨by decide, nofun⟩⟩, by decide⟩

/-- A little-endian host swaps the bytes of both numbers, and after a second request the
server sends what nobody waits for. -/
theorem request_lost :
    ¬ (∀ (dm : DataModel) (move msize : ℤ), 0 ≤ move → move < 2 ^ 32 → move < longMax dm →
        1 ≤ msize → msize < longMax dm →
        decodeRequest dm (request dm move msize) = (move, msize)) ∧
      ¬ (∀ (dm : DataModel) (move msize : ℤ) (iterations : ℕ), 0 ≤ move → move < 2 ^ 32 →
        move < longMax dm → 1 ≤ msize → msize < longMax dm →
        serverSends dm (request dm move msize) iterations = clientWaits msize iterations move) := by
  constructor
  · intro always
    have same := always .lp64 1024 1024 (by decide) (by decide) (by decide) (by decide) (by decide)
    have swapped : decodeRequest .lp64 (request .lp64 1024 1024) = (262144, 262144) := by decide
    rw [swapped] at same
    exact absurd same (by decide)
  · intro always
    have same := always bigEndian 1024 512 2 (by decide) (by decide) (by decide) (by decide)
      (by decide)
    have four : serverSends bigEndian (request bigEndian 1024 512) 2 = some 4 := by decide
    have two : clientWaits 512 2 1024 = some 2 := by decide
    rw [four, two] at same
    exact absurd same (by decide)

end Lmbench.BwUdp
