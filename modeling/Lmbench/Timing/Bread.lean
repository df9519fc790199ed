import Lmbench.Machine

/-!
# `bread`

`bread` adds up the words of a buffer in three loops: 128 words at a time, then 16, then one.
Each loop begins where the one before it has stopped, and looks ahead to see whether another pass
fits.

## Main results

* `loop_spec` - a loop goes on with the sum, and leaves less than it takes in one pass
* `bread_eq` - every word is read once, from first to last
-/

namespace Lmbench.Timing

/-- A `long`. -/
abbrev Long (dm : DataModel) := BitVec (8 * dm.sizeofLong)

/-- `sum`, `p` and `next`, and the addresses that were read. -/
structure Bread (dm : DataModel) where
  sum : Long dm
  p : ℤ
  next : ℤ
  reads : List ℤ

section Model

variable (dm : DataModel) (mem : ℤ → Long dm)

/-- The address of `p[i]`. -/
def element (p : ℤ) (i : ℕ) : ℤ := p + i * dm.sizeofLong

/-- `p[i]+p[j]+...`. -/
def addition (p : ℤ) : List ℕ → Long dm
  | [] => 0
  | i :: more => more.foldl (fun sum j => sum + mem (element dm p j)) (mem (element dm p i))

/-- A pass of a loop that takes `n` words: the sum of those at `indices`, and `p = next,
next += n`. -/
def breadPass (n : ℕ) (indices : List ℕ) (s : Bread dm) : Bread dm where
  sum := s.sum + addition dm mem s.p indices
  p := s.next
  next := element dm s.next n
  reads := s.reads ++ indices.map (element dm s.p)

/-- The passes up to `last`. None if `fuel` is used up. -/
def breadLoop (last : ℤ) (n : ℕ) (indices : List ℕ) : ℕ → Bread dm → Option (Bread dm)
  | fuel, s =>
    if s.next ≤ last then
      match fuel with
      | 0 => none
      | fuel + 1 => breadLoop last n indices fuel (breadPass dm mem n indices s)
    else some s

/-- The words of a pass of the first loop. -/
def row128 : List ℕ :=
  [0, 1, 2, 3, 4, 5, 6, 7,
   8, 9, 10, 11, 12, 13, 14,
   15, 16, 17, 18, 19, 20, 21,
   22, 23, 24, 25, 26, 27, 28,
   29, 30, 31, 32, 33, 34, 35,
   36, 37, 38, 39, 40, 41, 42,
   43, 44, 45, 46, 47, 48, 49,
   50, 51, 52, 53, 54, 55, 56,
   57, 58, 59, 60, 61, 62, 63,
   64, 65, 66, 67, 68, 69, 70,
   71, 72, 73, 74, 75, 76, 77,
   78, 79, 80, 81, 82, 83, 84,
   85, 86, 87, 88, 89, 90, 91,
   92, 93, 94, 95, 96, 97, 98,
   99, 100, 101, 102, 103, 104,
   105, 106, 107, 108, 109, 110,
   111, 112, 113, 114, 115, 116,
   117, 118, 119, 120, 121, 122,
   123, 124, 125, 126, 127]

/-- The words of a pass of the second loop. -/
def row16 : List ℕ :=
  [0, 1, 2, 3, 4, 5, 6, 7,
   8, 9, 10, 11, 12, 13, 14,
   15]

/-- `next = p + n` and the loop. -/
def breadFrom (last : ℤ) (n : ℕ) (indices : List ℕ) (fuel : ℕ) (s : Bread dm) :
    Option (Bread dm) :=
  breadLoop dm mem last n indices fuel { s with next := element dm s.p n }

/-- `bread(buf, nbytes)` and the addresses it reads. -/
def bread (fuel : ℕ) (buf nbytes : ℤ) : Option (Long dm × List ℤ) := do
  let s ← breadFrom dm mem (buf + nbytes) 128 row128 fuel ⟨0, buf, buf, []⟩
  let s ← breadFrom dm mem (buf + nbytes) 16 row16 fuel s
  let s ← breadFrom dm mem (buf + nbytes) 1 [0] fuel s
  return (s.sum, s.reads)

/-- How many words there are. -/
def words (nbytes : ℤ) : ℕ := (max nbytes 0 / dm.sizeofLong).toNat

/-- The plain loop: `for (i = 0; i < k; ++i) sum += p[i];`. -/
def plainSum (buf : ℤ) (k : ℕ) : Long dm :=
  (List.range k).foldl (fun sum i => sum + mem (element dm buf i)) 0

end Model

variable {dm : DataModel} {mem : ℤ → Long dm} {buf nbytes : ℤ} {n j fuel : ℕ}

theorem row128_eq : row128 = List.range 128 := by decide

theorem row16_eq : row16 = List.range 16 := by decide

theorem element_add (p : ℤ) (i j : ℕ) : element dm (element dm p i) j = element dm p (i + j) := by
  unfold element
  push_cast
  ring

/-- The words that lie before the end. -/
theorem element_le_iff (positive : 0 < j) :
    element dm buf j ≤ buf + nbytes ↔ j ≤ words dm nbytes := by
  have size := dm.sizeofLong_pos
  have quotient : (j : ℤ) ≤ max nbytes 0 / dm.sizeofLong ↔ j * dm.sizeofLong ≤ max nbytes 0 :=
    Int.le_ediv_iff_mul_le (by omega)
  have room : (0 : ℤ) < j * dm.sizeofLong := by positivity
  unfold element words
  omega

/-- The words of a pass, added one by one. -/
theorem add_addition (sum : Long dm) (p : ℤ) (indices : List ℕ) :
    sum + addition dm mem p indices =
      indices.foldl (fun sum j => sum + mem (element dm p j)) sum := by
  cases indices with
  | nil => exact BitVec.add_zero sum
  | cons i more =>
    rw [addition, List.foldl_cons]
    generalize mem (element dm p i) = start
    induction more generalizing start with
    | nil => rfl
    | cons j more ih => rw [List.foldl_cons, List.foldl_cons, ih, BitVec.add_assoc]

/-- The words before `j` have been read, each once, and those from `j` on have not. -/
structure ReadUpTo (mem : ℤ → Long dm) (buf : ℤ) (j : ℕ) (s : Bread dm) : Prop where
  sum : s.sum = plainSum dm mem buf j
  p : s.p = element dm buf j
  reads : s.reads = (List.range j).map (element dm buf)

/-- A pass reads the next words. -/
theorem ReadUpTo.breadPass {s : Bread dm} (read : ReadUpTo mem buf j s)
    (next : s.next = element dm buf (j + n)) :
    ReadUpTo mem buf (j + n) (breadPass dm mem n (List.range n) s) where
  sum := by
    rw [Timing.breadPass, add_addition, read.sum, read.p, plainSum, plainSum, List.range_add,
      List.foldl_append, List.foldl_map]
    simp only [element_add]
  p := next
  reads := by
    have rows : (List.range n).map (element dm (element dm buf j)) =
        (List.range n).map (element dm buf ∘ fun i => j + i) :=
      List.map_congr_left fun i _ => element_add buf j i
    rw [Timing.breadPass, read.reads, read.p, List.range_add, List.map_append, List.map_map, rows]

/-- A loop goes on where the one before it has stopped, and leaves less than it takes in one
pass. -/
theorem loop_spec {s : Bread dm} (positive : 0 < n) (read : ReadUpTo mem buf j s)
    (next : s.next = element dm buf (j + n)) (inside : j ≤ words dm nbytes)
    (enough : words dm nbytes ≤ j + fuel) :
    ∃ k s', breadLoop dm mem (buf + nbytes) n (List.range n) fuel s = some s' ∧
      ReadUpTo mem buf k s' ∧ k ≤ words dm nbytes ∧ words dm nbytes < k + n := by
  have fits : s.next ≤ buf + nbytes ↔ j + n ≤ words dm nbytes := by
    rw [next, element_le_iff (by omega)]
  induction fuel generalizing j s with
  | zero =>
    unfold breadLoop
    rw [if_neg (by rw [fits]; omega)]
    exact ⟨j, s, rfl, read, inside, by omega⟩
  | succ fuel ih =>
    unfold breadLoop
    by_cases more : j + n ≤ words dm nbytes
    · rw [if_pos (fits.mpr more)]
      have after : (breadPass dm mem n (List.range n) s).next = element dm buf (j + n + n) := by
        rw [breadPass, next, element_add]
      exact ih (read.breadPass next) after more (by omega)
        (by rw [after, element_le_iff (by omega)])
    · rw [if_neg (by rwa [fits])]
      exact ⟨j, s, rfl, read, inside, by omega⟩

/-- One loop after the other. -/
theorem breadFrom_spec {s : Bread dm} (positive : 0 < n) (read : ReadUpTo mem buf j s)
    (inside : j ≤ words dm nbytes) (enough : words dm nbytes ≤ fuel) :
    ∃ k s', breadFrom dm mem (buf + nbytes) n (List.range n) fuel s = some s' ∧
      ReadUpTo mem buf k s' ∧ k ≤ words dm nbytes ∧ words dm nbytes < k + n :=
  loop_spec positive ⟨read.sum, read.p, read.reads⟩
    (show element dm s.p n = element dm buf (j + n) by rw [read.p, element_add]) inside (by omega)

theorem words_le (nbytes : ℤ) : words dm nbytes ≤ nbytes.toNat := by
  have quotient : max nbytes 0 / dm.sizeofLong ≤ max nbytes 0 :=
    Int.ediv_le_self _ (Int.le_max_right nbytes 0)
  unfold words
  omega

/-- **Every word is read once**, from first to last, whatever the number of bytes is. -/
theorem bread_eq (mem : ℤ → Long dm) (buf nbytes : ℤ) (fuel : ℕ) (enough : nbytes ≤ fuel) :
    bread dm mem fuel buf nbytes =
      some (plainSum dm mem buf (words dm nbytes),
        (List.range (words dm nbytes)).map (element dm buf)) := by
  have fuelled : words dm nbytes ≤ fuel := (words_le nbytes).trans (by omega)
  have start : ReadUpTo mem buf 0 (⟨0, buf, buf, []⟩ : Bread dm) :=
    ⟨rfl, by simp [element], rfl⟩
  obtain ⟨j, s, passed, read, inside, -⟩ :=
    breadFrom_spec (show 0 < 128 by decide) start (Nat.zero_le _) fuelled
  obtain ⟨k, t, passed', read', inside', -⟩ :=
    breadFrom_spec (show 0 < 16 by decide) read inside fuelled
  obtain ⟨l, u, passed'', read'', inside'', near⟩ :=
    breadFrom_spec Nat.one_pos read' inside' fuelled
  obtain rfl : l = words dm nbytes := by omega
  rw [bread, row128_eq, row16_eq, show [0] = List.range 1 from rfl, passed]
  simp only [Option.bind_eq_bind, Option.bind_some, passed', passed'', read''.sum, read''.reads]
  rfl

/-- 1163 bytes are 145 words, one pass of each loop. -/
theorem bread_threePasses : bread .lp64 (fun p => BitVec.ofInt _ p) 1163 1000 1163 =
    some (BitVec.ofNat _ 228520, (List.range 145).map fun i => 1000 + (i : ℤ) * 8) :=
  (@bread_eq .lp64 (fun p => BitVec.ofInt _ p) 1000 1163 1163 (by decide)).trans
    (by decide +kernel)

end Lmbench.Timing
