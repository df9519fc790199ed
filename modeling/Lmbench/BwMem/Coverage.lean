import Mathlib.Algebra.Group.Nat.Defs
import Mathlib.Algebra.GroupWithZero.Nat
import Mathlib.Data.List.Nodup
import Mathlib.Data.List.ProdSigma
import Mathlib.Data.List.Range

/-!
# What the loops of `bw_mem` touch

The seven hand-written loops go through the buffer in chunks of 512 bytes with an unrolled
body, and stop at `lastone`, 512 bytes in front of the end. `main` reports `nbytes` for
each iteration.

## Main results

* `loop_eq` - the chunks that a loop goes through
* `accesses_eq` - the accesses of one iteration
* `touches_iff` - when the words of the buffer are touched
* `coversReported_iff` - when that is also the amount reported
-/

namespace Lmbench.BwMem

/-- How a word is accessed: `p[i]` is read or written, or `dst[i]` is written. -/
inductive Op
  | load
  | store
  | storeDst
deriving DecidableEq, Repr

/-- The body of a loop: the arguments of `DOIT`, and what it does with each. -/
structure Body where
  indices : List ℕ
  ops : List Op
deriving DecidableEq, Repr

/-- `DOIT(0) DOIT(1) DOIT(2)` and so on. -/
def everyWord : List ℕ :=
  [0, 1, 2, 3, 4, 5, 6, 7, 8, 9, 10, 11, 12, 13, 14, 15, 16, 17, 18, 19, 20, 21, 22, 23, 24, 25,
   26, 27, 28, 29, 30, 31, 32, 33, 34, 35, 36, 37, 38, 39, 40, 41, 42, 43, 44, 45, 46, 47, 48,
   49, 50, 51, 52, 53, 54, 55, 56, 57, 58, 59, 60, 61, 62, 63, 64, 65, 66, 67, 68, 69, 70, 71,
   72, 73, 74, 75, 76, 77, 78, 79, 80, 81, 82, 83, 84, 85, 86, 87, 88, 89, 90, 91, 92, 93, 94,
   95, 96, 97, 98, 99, 100, 101, 102, 103, 104, 105, 106, 107, 108, 109, 110, 111, 112, 113, 114,
   115, 116, 117, 118, 119, 120, 121, 122, 123, 124, 125, 126, 127]

/-- `DOIT(0) DOIT(4) DOIT(8)` and so on. -/
def everyFourth : List ℕ :=
  [0, 4, 8, 12, 16, 20, 24, 28, 32, 36, 40, 44, 48, 52, 56, 60, 64, 68, 72, 76, 80, 84, 88, 92,
   96, 100, 104, 108, 112, 116, 120, 124]

/-- `sum += p[i]+ ...` -/
def rd : Body := ⟨everyFourth, [.load]⟩

/-- `p[i] = 1;` -/
def wr : Body := ⟨everyFourth, [.store]⟩

/-- `sum += p[i]; p[i] = 1;` -/
def rdwr : Body := ⟨everyFourth, [.load, .store]⟩

/-- `dst[i] = p[i];` -/
def mcp : Body := ⟨everyFourth, [.load, .storeDst]⟩

/-- `p[i]= ... 1` -/
def fwr : Body := ⟨everyWord, [.store]⟩

/-- `sum += p[i]+ ...` -/
def frd : Body := ⟨everyWord, [.load]⟩

/-- `dst[i]=p[i];` -/
def fcp : Body := ⟨everyWord, [.load, .storeDst]⟩

/-- What `bw_mem` is asked to do. -/
inductive What
  | rd
  | wr
  | rdwr
  | cp
  | fwr
  | frd
  | fcp
deriving DecidableEq, Repr

/-- The loop that `main` measures. -/
def What.body : What → Body
  | .rd => BwMem.rd
  | .wr => BwMem.wr
  | .rdwr => BwMem.rdwr
  | .cp => BwMem.mcp
  | .fwr => BwMem.fwr
  | .frd => BwMem.frd
  | .fcp => BwMem.fcp

/-- The distance, in words, of the words that are to be touched: a stride, or every word. -/
def What.spacing : What → ℕ
  | .rd => 4
  | .wr => 4
  | .rdwr => 4
  | .cp => 4
  | .fwr => 1
  | .frd => 1
  | .fcp => 1

namespace Body

variable (f : Body)

/-- The accesses of one chunk from word `p` on, with the index of the word. -/
def chunk (p : ℕ) : List (Op × ℕ) := f.indices.flatMap fun i => f.ops.map fun op => (op, p + i)

/-- `while (p <= lastone)`, where `lastone` is 512 bytes in front of the end of the buffer.
None if `fuel` is used up. -/
def loop (nbytes : ℕ) : ℕ → ℕ → Option (List (Op × ℕ))
  | fuel, p =>
    if 4 * p + 512 ≤ nbytes then
      match fuel with
      | 0 => none
      | fuel + 1 => (loop nbytes fuel (p + 128)).map (f.chunk p ++ ·)
    else some []

/-- Every `spacing`-th word of the first `nbytes` bytes is accessed in each way once, and no
other word is. -/
def Touches (spacing nbytes : ℕ) (l : List (Op × ℕ)) : Prop :=
  ∀ op i, l.count (op, i) = if op ∈ f.ops ∧ i < nbytes / 4 ∧ spacing ∣ i then 1 else 0

/-- One iteration ends, touches the words that it is to touch, and they stand for `nbytes`
bytes of memory in each way of access. -/
def CoversReported (spacing nbytes : ℕ) : Prop :=
  ∀ fuel ≥ nbytes / 512, ∃ l, f.loop nbytes fuel 0 = some l ∧ f.Touches spacing nbytes l ∧
    4 * spacing * l.length = f.ops.length * nbytes

variable {f : Body} {nbytes p q m fuel spacing : ℕ}

/-- The chunks that a loop goes through, from the `k`-th on. -/
theorem loop_eq (k : ℕ) (chunks : nbytes / 512 = k + q) (enough : q ≤ fuel) :
    f.loop nbytes fuel (128 * k) =
      some ((List.range' k q).flatMap fun i => f.chunk (128 * i)) := by
  induction q generalizing k fuel with
  | zero =>
    have behind : ¬ 4 * (128 * k) + 512 ≤ nbytes := by omega
    cases fuel <;> simp [loop, behind]
  | succ q ih =>
    obtain ⟨more, rfl⟩ := Nat.exists_eq_succ_of_ne_zero (by omega : fuel ≠ 0)
    have inside : 4 * (128 * k) + 512 ≤ nbytes := by omega
    have next : 128 * k + 128 = 128 * (k + 1) := (Nat.mul_succ 128 k).symm
    rw [loop, if_pos inside, next, ih (k + 1) (by omega) (by omega), Option.map_some,
      List.range'_succ, List.flatMap_cons]

/-- Blocks of `m` numbers each, one behind the other. -/
theorem flatMap_range_mul {α : Type*} (g : ℕ → List α) (m q : ℕ) :
    ((List.range q).flatMap fun i => (List.range m).flatMap fun j => g (m * i + j)) =
      (List.range (m * q)).flatMap g := by
  induction q with
  | zero => rfl
  | succ q ih =>
    rw [List.range_succ, List.flatMap_append, ih, Nat.mul_succ, List.range_add,
      List.flatMap_append, List.flatMap_map]
    simp

/-- The accesses of one iteration, if the indices are the multiples of `spacing` in a chunk:
the multiples of `spacing` in all chunks. -/
theorem accesses_eq (indices : f.indices = (List.range m).map (spacing * ·))
    (chunk : spacing * m = 128) (enough : nbytes / 512 ≤ fuel) :
    f.loop nbytes fuel 0 = some ((List.range (m * (nbytes / 512)) ×ˢ f.ops).map
      fun x => (x.2, spacing * x.1)) := by
  have whole := @loop_eq f nbytes (nbytes / 512) fuel 0 (by omega) enough
  rw [Nat.mul_zero] at whole
  simp only [SProd.sprod, List.product]
  rw [whole, ← List.range_eq_range', List.map_flatMap, ← flatMap_range_mul]
  congr 2
  funext i
  rw [Body.chunk, indices, List.flatMap_map]
  congr 1
  funext j
  rw [List.map_map]
  congr 1
  funext op
  simp only [Function.comp, Prod.mk.injEq, true_and]
  rw [Nat.mul_add, ← Nat.mul_assoc, chunk]

/-- How often a word is accessed. -/
theorem count_accesses (once : f.ops.Nodup) (positive : 0 < spacing) (n : ℕ) (op : Op) (i : ℕ) :
    ((List.range n ×ˢ f.ops).map fun x => (x.2, spacing * x.1)).count (op, i) =
      if op ∈ f.ops ∧ i < spacing * n ∧ spacing ∣ i then 1 else 0 := by
  have apart : ∀ x y : ℕ × Op, (x.2, spacing * x.1) = (y.2, spacing * y.1) → x = y := by
    rintro ⟨j, op⟩ ⟨k, op'⟩ same
    rw [Prod.mk.injEq] at same
    exact Prod.ext (Nat.eq_of_mul_eq_mul_left positive same.2) same.1
  have nodup : ((List.range n ×ˢ f.ops).map fun x => (x.2, spacing * x.1)).Nodup :=
    (List.nodup_range.product once).map fun x y => apart x y
  rw [nodup.count]
  refine if_congr ?_ rfl rfl
  simp only [List.mem_map, Prod.exists, List.mem_product, List.mem_range, Prod.mk.injEq]
  constructor
  · rintro ⟨j, _, ⟨below, way⟩, rfl, rfl⟩
    exact ⟨way, Nat.mul_lt_mul_of_pos_left below positive, Nat.dvd_mul_right _ _⟩
  · rintro ⟨way, below, j, rfl⟩
    exact ⟨j, op, ⟨Nat.lt_of_mul_lt_mul_left below, way⟩, rfl, rfl⟩

end Body

variable {nbytes fuel : ℕ}

namespace What

/-- The indices of each body are the multiples of its spacing in a chunk, and each is
accessed in different ways. -/
theorem regular (w : What) : ∃ m, w.body.indices = (List.range m).map (w.spacing * ·) ∧
    w.spacing * m = 128 ∧ w.body.ops.Nodup ∧ w.body.ops ≠ [] := by
  have four : everyFourth = (List.range 32).map (4 * ·) := by decide
  have one : everyWord = (List.range 128).map (1 * ·) := by decide
  cases w
  case rd | wr | rdwr | cp => exact ⟨32, four, rfl, by decide, by decide⟩
  case fwr | frd | fcp => exact ⟨128, one, rfl, by decide, by decide⟩

theorem spacing_pos (w : What) : 0 < w.spacing := by cases w <;> decide

/-- The number of accesses in one iteration, and how often each word is accessed. -/
theorem accesses (w : What) (enough : nbytes / 512 ≤ fuel) :
    ∃ l, w.body.loop nbytes fuel 0 = some l ∧
      w.spacing * l.length = 128 * (nbytes / 512) * w.body.ops.length ∧
      ∀ op i, l.count (op, i) =
        if op ∈ w.body.ops ∧ i < 128 * (nbytes / 512) ∧ w.spacing ∣ i then 1 else 0 := by
  obtain ⟨m, indices, chunk, once, -⟩ := w.regular
  refine ⟨_, Body.accesses_eq indices chunk enough, ?_, fun op i => ?_⟩
  · rw [List.length_map, List.length_product, List.length_range, ← Nat.mul_assoc, ← Nat.mul_assoc,
      chunk]
  · rw [Body.count_accesses once w.spacing_pos, ← Nat.mul_assoc, chunk]

/-- The words are touched exactly if no full word is left behind the last chunk. -/
theorem touches_iff (w : What) {l : List (Op × ℕ)} (enough : nbytes / 512 ≤ fuel)
    (ends : w.body.loop nbytes fuel 0 = some l) :
    w.body.Touches w.spacing nbytes l ↔ nbytes % 512 < 4 := by
  obtain ⟨m, -, chunk, -, ways⟩ := w.regular
  obtain ⟨_, result, -, count⟩ := w.accesses enough
  obtain rfl := Option.some.inj (result.symm.trans ends)
  constructor
  · intro touches
    obtain ⟨op, way⟩ := List.exists_mem_of_ne_nil _ ways
    -- the first word behind the last chunk
    have first := touches op (128 * (nbytes / 512))
    have aligned : w.spacing ∣ 128 * (nbytes / 512) :=
      Nat.dvd_trans (chunk ▸ Nat.dvd_mul_right _ _) (Nat.dvd_mul_right _ _)
    rw [count, if_neg (by omega)] at first
    by_contra left
    rw [if_pos ⟨way, by omega, aligned⟩] at first
    omega
  · intro rest op i
    have same : nbytes / 4 = 128 * (nbytes / 512) := by omega
    rw [count, same]

/-- The memory that stands behind the accesses of an iteration is what is reported for each
way of access exactly if the buffer is full chunks. -/
theorem amount_iff (w : What) {n : ℕ}
    (length : w.spacing * n = 128 * (nbytes / 512) * w.body.ops.length) :
    4 * w.spacing * n = w.body.ops.length * nbytes ↔ 512 ∣ nbytes := by
  obtain ⟨_, -, -, -, ways⟩ := w.regular
  have memory : 4 * w.spacing * n = w.body.ops.length * (512 * (nbytes / 512)) := by
    rw [Nat.mul_assoc, length, Nat.mul_comm w.body.ops.length, ← Nat.mul_assoc, ← Nat.mul_assoc]
  rw [memory]
  constructor
  · intro same
    have whole := Nat.eq_of_mul_eq_mul_left (List.length_pos_iff.mpr ways) same
    omega
  · intro full
    rw [Nat.mul_div_cancel' full]

/-- As much as is reported is touched exactly if the buffer is full chunks. -/
theorem coversReported_iff (w : What) : w.body.CoversReported w.spacing nbytes ↔ 512 ∣ nbytes := by
  constructor
  · intro covers
    obtain ⟨l, ends, -, reported⟩ := covers _ le_rfl
    obtain ⟨_, result, length, -⟩ := @accesses nbytes _ w le_rfl
    obtain rfl := Option.some.inj (result.symm.trans ends)
    exact (w.amount_iff length).mp reported
  · intro full fuel enough
    obtain ⟨l, ends, length, -⟩ := w.accesses enough
    exact ⟨l, ends, (w.touches_iff enough ends).mpr (by omega), (w.amount_iff length).mpr full⟩

/-- `bw_mem 600 frd` leaves the last 88 bytes alone. -/
theorem not_coversReported_frd : ¬ What.frd.body.CoversReported What.frd.spacing 600 := by
  intro covers
  obtain ⟨l, ends, -, reported⟩ := covers _ le_rfl
  obtain ⟨_, result, length, -⟩ := @accesses 600 _ .frd le_rfl
  obtain rfl := Option.some.inj (result.symm.trans ends)
  have accesses : 1 * _ = 128 := length
  have bytes : 4 * 1 * _ = 600 := reported
  omega

end What

end Lmbench.BwMem
