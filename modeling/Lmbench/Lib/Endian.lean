import Mathlib.Data.Nat.Basic
import Mathlib.Data.List.Basic
import Mathlib.Algebra.Group.Nat.Defs

/-!
# Words in memory

A word of some number of bytes, least or most significant byte first, as the bytes
that stand in memory or travel in a message.

## Main results

* `decode_encode`, `encode_decode` - writing a word and reading it back
* `decode_injective` - different bytes are different words
* `decode_reverse_eq_iff` - reading in the other byte order gives the same word exactly
  if the bytes read the same both ways
-/

namespace Lmbench.Lib

/-- The bytes of a word of `n` bytes, least significant first. -/
def lowFirst : ℕ → ℕ → List UInt8
  | 0, _ => []
  | n + 1, x => UInt8.ofNat x :: lowFirst n (x / 256)

/-- The word whose bytes these are, least significant first. -/
def ofLowFirst : List UInt8 → ℕ
  | [] => 0
  | b :: bytes => b.toNat + 256 * ofLowFirst bytes

/-- The bytes of a word as they stand in memory. -/
def encode (littleEndian : Bool) (n x : ℕ) : List UInt8 :=
  if littleEndian then lowFirst n x else (lowFirst n x).reverse

/-- The word that stands in memory. -/
def decode (littleEndian : Bool) (bytes : List UInt8) : ℕ :=
  if littleEndian then ofLowFirst bytes else ofLowFirst bytes.reverse

variable {littleEndian : Bool} {n x y : ℕ} {bytes : List UInt8}

@[simp] theorem length_lowFirst (n x : ℕ) : (lowFirst n x).length = n := by
  induction n generalizing x with
  | zero => rfl
  | succ n ih => simp [lowFirst, ih]

@[simp] theorem length_encode (littleEndian : Bool) (n x : ℕ) :
    (encode littleEndian n x).length = n := by
  cases littleEndian <;> simp [encode]

theorem ofLowFirst_lowFirst (n x : ℕ) : ofLowFirst (lowFirst n x) = x % 256 ^ n := by
  induction n generalizing x with
  | zero => simp [lowFirst, ofLowFirst, Nat.mod_one]
  | succ n ih =>
    have first : (UInt8.ofNat x).toNat = x % 256 := by simp
    rw [lowFirst, ofLowFirst, ih, first, Nat.pow_succ, Nat.mul_comm (256 ^ n), Nat.mod_mul]

theorem lowFirst_ofLowFirst (bytes : List UInt8) :
    lowFirst bytes.length (ofLowFirst bytes) = bytes := by
  induction bytes with
  | nil => rfl
  | cons b bytes ih =>
    have small : b.toNat < 256 := b.toNat_lt
    have first : UInt8.ofNat (b.toNat + 256 * ofLowFirst bytes) = b := by
      apply UInt8.toNat_inj.mp
      rw [UInt8.toNat_ofNat']
      omega
    have later : (b.toNat + 256 * ofLowFirst bytes) / 256 = ofLowFirst bytes := by omega
    rw [List.length_cons, lowFirst, ofLowFirst, first, later, ih]

/-- Writing a word and reading it back, up to the width of the word. -/
theorem decode_encode (littleEndian : Bool) (n x : ℕ) :
    decode littleEndian (encode littleEndian n x) = x % 256 ^ n := by
  cases littleEndian <;> simp [decode, encode, ofLowFirst_lowFirst]

/-- Reading bytes and writing them back. -/
theorem encode_decode (littleEndian : Bool) (bytes : List UInt8) :
    encode littleEndian bytes.length (decode littleEndian bytes) = bytes := by
  cases littleEndian with
  | true => simpa [decode, encode] using lowFirst_ofLowFirst bytes
  | false =>
    have back := lowFirst_ofLowFirst bytes.reverse
    rw [List.length_reverse] at back
    simp [decode, encode, back]

theorem decode_lt (littleEndian : Bool) (bytes : List UInt8) :
    decode littleEndian bytes < 256 ^ bytes.length := by
  have back := decode_encode littleEndian bytes.length (decode littleEndian bytes)
  rw [encode_decode] at back
  rw [back]
  exact Nat.mod_lt _ (Nat.pow_pos (by decide))

/-- Different bytes are different words. -/
theorem decode_injective {bytes' : List UInt8} (length : bytes.length = bytes'.length)
    (same : decode littleEndian bytes = decode littleEndian bytes') : bytes = bytes' := by
  rw [← encode_decode littleEndian bytes, ← encode_decode littleEndian bytes', length, same]

/-- Reading in the other byte order is reading the bytes backwards. -/
theorem decode_reverse (bytes : List UInt8) :
    decode littleEndian bytes.reverse = decode (!littleEndian) bytes := by
  cases littleEndian <;> simp [decode]

/-- A word is the same in both byte orders exactly if its bytes read the same both
ways. -/
theorem decode_reverse_eq_iff (bytes : List UInt8) :
    decode littleEndian bytes.reverse = decode littleEndian bytes ↔ bytes.reverse = bytes :=
  ⟨fun same => decode_injective bytes.length_reverse same, fun same => by rw [same]⟩

end Lmbench.Lib
