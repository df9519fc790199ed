import Mathlib.Algebra.Order.Floor.Div
import Mathlib.Data.List.Nodup
import Mathlib.Algebra.BigOperators.Group.List.Basic
import Mathlib.Data.Nat.ModEq

/-!
# Trees that are filled from the left

`m` leaves are put under a root of some depth, where a node has at most `b` entries:
each child is filled up before the next one is made. A node is addressed by the numbers
of the children on the way to it, so that the root is `[]`.

## Main results

* `length_leaves`, `length_nodes` - all leaves are there, and how many other nodes there are
* `nodup_leaves_nodes` - all addresses are different
* `parent_of_mem_leaves`, `parentsFirst_nodes` - every node is an entry of a node made before
-/

namespace Lmbench.Lib.FillTree

/-- How many of `m` leaves are in the child `i`, where a child takes up to `c`. -/
def share (c m i : ℕ) : ℕ := min c (m - i * c)

/-- The addresses of the leaves, from left to right. -/
def leaves (b : ℕ) : ℕ → ℕ → List (List ℕ)
  | 0, m => (List.range m).map fun i => [i]
  | d + 1, m => (List.range (m ⌈/⌉ b ^ (d + 1))).flatMap fun i =>
      (leaves b d (share (b ^ (d + 1)) m i)).map (i :: ·)

/-- The addresses of the other nodes without the root, each in front of its children. -/
def nodes (b : ℕ) : ℕ → ℕ → List (List ℕ)
  | 0, _ => []
  | d + 1, m => (List.range (m ⌈/⌉ b ^ (d + 1))).flatMap fun i =>
      [i] :: (nodes b d (share (b ^ (d + 1)) m i)).map (i :: ·)

variable {b c d e i k m q r : ℕ} {a : List ℕ}

section Share

@[simp] theorem share_le : share c m i ≤ c := Nat.min_le_left _ _

/-- Children of which the first `q` are full. -/
theorem share_of_lt (full : i < q) : share c (q * c + r) i = c := by
  have room : (i + 1) * c ≤ q * c := Nat.mul_le_mul_right c full
  rw [Nat.succ_mul] at room
  rw [share]
  omega

theorem share_last (small : r ≤ c) : share c (q * c + r) q = r := by
  rw [share, Nat.add_sub_cancel_left, Nat.min_eq_right small]

/-- What a count that is additive over full children is for all children together. -/
theorem sum_share {f : ℕ → ℕ} (zero : f 0 = 0)
    (additive : ∀ q r, r ≤ c → f (q * c + r) = f (q * c) + f r) (fits : m ≤ q * c) :
    ((List.range q).map fun i => f (share c m i)).sum = f m := by
  induction q generalizing m with
  | zero =>
    obtain rfl : m = 0 := by omega
    exact zero.symm
  | succ q ih =>
    rw [List.range_succ, List.map_append, List.sum_append, List.map_singleton, List.sum_singleton]
    rcases Nat.le_total m (q * c) with earlier | last
    · have unused : share c m q = 0 := by rw [share, Nat.sub_eq_zero_of_le earlier, Nat.min_zero]
      rw [ih earlier, unused, zero, Nat.add_zero]
    · obtain ⟨r, rfl⟩ := Nat.exists_eq_add_of_le last
      have small : r ≤ c := by
        rw [Nat.succ_mul] at fits
        omega
      have full : (List.range q).map (fun i => f (share c (q * c + r) i)) =
          (List.range q).map fun i => f (share c (q * c) i) := by
        apply List.map_congr_left
        intro i below
        have below := List.mem_range.mp below
        rw [share_of_lt below, ← Nat.add_zero (q * c), share_of_lt below]
      rw [full, ih le_rfl, share_last small, additive q r small]

end Share

section CeilDiv

theorem le_ceilDiv_mul (positive : 0 < c) (m : ℕ) : m ≤ m ⌈/⌉ c * c := by
  rw [Nat.mul_comm]
  exact (ceilDiv_le_iff_le_mul positive).mp le_rfl

theorem ceilDiv_le_iff (positive : 0 < c) : m ⌈/⌉ c ≤ q ↔ m ≤ q * c := by
  rw [ceilDiv_le_iff_le_mul positive, Nat.mul_comm]

theorem lt_ceilDiv_iff (positive : 0 < c) : i < m ⌈/⌉ c ↔ i * c < m := by
  rw [← Nat.not_le, ceilDiv_le_iff positive, Nat.not_le]

theorem ceilDiv_ceilDiv (hc : 0 < c) (he : 0 < e) : m ⌈/⌉ c ⌈/⌉ e = m ⌈/⌉ (c * e) := by
  apply eq_of_forall_ge_iff
  intro q
  rw [ceilDiv_le_iff he, ceilDiv_le_iff hc, ceilDiv_le_iff (Nat.mul_pos hc he), Nat.mul_assoc,
    Nat.mul_comm e c]

/-- Rounding up does not see whole multiples. -/
theorem mul_add_ceilDiv (positive : 0 < e) (whole : e ∣ c) (q r : ℕ) :
    (q * c + r) ⌈/⌉ e = q * c ⌈/⌉ e + r ⌈/⌉ e := by
  obtain ⟨k, rfl⟩ := whole
  have multiple : q * (e * k) = e * (q * k) := Nat.mul_left_comm q e k
  have exact_part : e * (q * k) ⌈/⌉ e = q * k := smul_ceilDiv positive (q * k)
  have regroup : e * (q * k) + r + e - 1 = r + e - 1 + e * (q * k) := by omega
  rw [multiple, exact_part, Nat.ceilDiv_eq_add_pred_div, Nat.ceilDiv_eq_add_pred_div, regroup,
    Nat.add_mul_div_left _ _ positive, Nat.add_comm]

end CeilDiv

section Length

/-- All leaves are there. -/
theorem length_leaves (positive : 0 < b) (d m : ℕ) : (leaves b d m).length = m := by
  induction d generalizing m with
  | zero => simp [leaves]
  | succ d ih =>
    simp only [leaves, List.length_flatMap, List.length_map, ih]
    exact sum_share (f := id) rfl (fun _ _ _ => rfl) (le_ceilDiv_mul (Nat.pow_pos positive) m)

/-- The other nodes: one level after the other, each with a node for so many leaves as a
node of that level takes. -/
theorem length_nodes (positive : 0 < b) (d m : ℕ) :
    (nodes b d m).length = ((List.range d).map fun k => m ⌈/⌉ b ^ (k + 1)).sum := by
  induction d generalizing m with
  | zero => rfl
  | succ d ih =>
    have powers : ∀ k, 0 < b ^ k := fun k => Nat.pow_pos positive
    -- the levels below the children
    have below : ((List.range (m ⌈/⌉ b ^ (d + 1))).map fun i =>
        ((List.range d).map fun k => share (b ^ (d + 1)) m i ⌈/⌉ b ^ (k + 1)).sum).sum =
        ((List.range d).map fun k => m ⌈/⌉ b ^ (k + 1)).sum := by
      apply sum_share (f := fun x => ((List.range d).map fun k => x ⌈/⌉ b ^ (k + 1)).sum)
      · simp
      · intro q r _
        rw [← List.sum_map_add]
        congr 1
        apply List.map_congr_left
        intro k level
        apply mul_add_ceilDiv (powers _)
        apply Nat.pow_dvd_pow
        have := List.mem_range.mp level
        omega
      · exact le_ceilDiv_mul (powers _) m
    simp only [nodes, List.length_flatMap, List.length_cons, List.length_map, ih]
    rw [List.sum_map_add, below, List.range_succ, List.map_append, List.sum_append]
    simp [Nat.add_comm]

end Length

section Shape

theorem length_of_mem_leaves (mem : a ∈ leaves b d m) : a.length = d + 1 := by
  induction d generalizing m a with
  | zero =>
    obtain ⟨i, -, rfl⟩ := List.mem_map.mp mem
    rfl
  | succ d ih =>
    obtain ⟨i, -, mem⟩ := List.mem_flatMap.mp mem
    obtain ⟨a, below, rfl⟩ := List.mem_map.mp mem
    rw [List.length_cons, ih below]

theorem length_of_mem_nodes (mem : a ∈ nodes b d m) : 0 < a.length ∧ a.length ≤ d := by
  induction d generalizing m a with
  | zero => cases mem
  | succ d ih =>
    obtain ⟨i, -, mem⟩ := List.mem_flatMap.mp mem
    rcases List.mem_cons.mp mem with rfl | mem
    · simp
    · obtain ⟨a, below, rfl⟩ := List.mem_map.mp mem
      have inside := ih below
      rw [List.length_cons]
      omega

/-- Lists that begin differently for each child. -/
theorem nodup_flatMap_of_head {f : ℕ → List (List ℕ)} (each : ∀ i < q, (f i).Nodup)
    (heads : ∀ i, ∀ a ∈ f i, a.head? = some i) : ((List.range q).flatMap f).Nodup := by
  rw [List.nodup_flatMap]
  refine ⟨fun i below => each i (List.mem_range.mp below), ?_⟩
  apply List.nodup_range.imp
  intro i j differ a first second
  have same := (heads i a first).symm.trans (heads j a second)
  exact differ (Option.some.inj same)

theorem nodup_leaves : (leaves b d m).Nodup := by
  induction d generalizing m with
  | zero => exact List.nodup_range.map fun i j same => by simpa using same
  | succ d ih =>
    apply nodup_flatMap_of_head
    · intro i _
      exact ih.map (List.cons_injective)
    · intro i a mem
      obtain ⟨a, -, rfl⟩ := List.mem_map.mp mem
      rfl

theorem nodup_nodes : (nodes b d m).Nodup := by
  induction d generalizing m with
  | zero => exact List.nodup_nil
  | succ d ih =>
    apply nodup_flatMap_of_head
    · intro i _
      refine List.nodup_cons.mpr ⟨?_, ih.map List.cons_injective⟩
      intro mem
      obtain ⟨a, mem, same⟩ := List.mem_map.mp mem
      have longer := (length_of_mem_nodes mem).1
      obtain rfl : a = [] := by simpa using same
      exact absurd longer (lt_irrefl 0)
    · intro i a mem
      rcases List.mem_cons.mp mem with rfl | mem
      · rfl
      · obtain ⟨a, -, rfl⟩ := List.mem_map.mp mem
        rfl

/-- All addresses are different. -/
theorem nodup_leaves_nodes (b d m : ℕ) : (leaves b d m ++ nodes b d m).Nodup := by
  apply nodup_leaves.append nodup_nodes
  intro a leaf node
  have first := length_of_mem_leaves leaf
  have second := length_of_mem_nodes node
  omega

end Shape

section Parents

/-- Each node is one of the first `b` entries of a node that is there before it, where
`seen` are there from the start. -/
def ParentsFirst (b : ℕ) : List (List ℕ) → List (List ℕ) → Prop
  | _, [] => True
  | seen, a :: l => (∃ p ∈ seen, ∃ i < b, a = p ++ [i]) ∧ ParentsFirst b (seen ++ [a]) l

variable {seen seen' l l' : List (List ℕ)}

theorem ParentsFirst.mono (first : ParentsFirst b seen l) (sub : seen ⊆ seen') :
    ParentsFirst b seen' l := by
  induction l generalizing seen seen' with
  | nil => trivial
  | cons a l ih =>
    obtain ⟨⟨p, mem, i, below, rfl⟩, rest⟩ := first
    refine ⟨⟨p, sub mem, i, below, rfl⟩, ih rest ?_⟩
    exact List.append_subset.mpr
      ⟨List.subset_append_of_subset_left _ sub, List.subset_append_right _ _⟩

theorem parentsFirst_append : ParentsFirst b seen (l ++ l') ↔
    ParentsFirst b seen l ∧ ParentsFirst b (seen ++ l) l' := by
  induction l generalizing seen with
  | nil => simp [ParentsFirst]
  | cons a l ih =>
    rw [List.cons_append, ParentsFirst, ParentsFirst, ih, and_assoc, List.append_assoc,
      List.singleton_append]

/-- The nodes under the child `i`. -/
theorem ParentsFirst.map_cons (first : ParentsFirst b seen l) (i : ℕ) :
    ParentsFirst b (seen.map (i :: ·)) (l.map (i :: ·)) := by
  induction l generalizing seen with
  | nil => trivial
  | cons a l ih =>
    obtain ⟨⟨p, mem, j, below, rfl⟩, rest⟩ := first
    refine ⟨⟨i :: p, List.mem_map_of_mem mem, j, below, rfl⟩, ?_⟩
    have later := ih rest
    rwa [List.map_append] at later

/-- An entry in the middle. -/
theorem ParentsFirst.split (first : ParentsFirst b seen (l ++ a :: l')) :
    ∃ p ∈ seen ++ l, ∃ i < b, a = p ++ [i] :=
  (parentsFirst_append.mp first).2.1

/-- The children fit in their parent. -/
theorem children_le (positive : 0 < b) (fits : m ≤ b ^ (d + 2)) : m ⌈/⌉ b ^ (d + 1) ≤ b := by
  rw [ceilDiv_le_iff (Nat.pow_pos positive)]
  rwa [Nat.pow_succ, Nat.mul_comm] at fits

/-- Every inner node is an entry of a node made before. -/
theorem parentsFirst_nodes (positive : 0 < b) (fits : m ≤ b ^ (d + 1)) :
    ParentsFirst b [[]] (nodes b d m) := by
  induction d generalizing m with
  | zero => trivial
  | succ d ih =>
    have children := children_le positive fits
    rw [nodes]
    revert children
    -- the children one after the other
    induction m ⌈/⌉ b ^ (d + 1) with
    | zero => exact fun _ => trivial
    | succ q before =>
      intro room
      rw [List.range_succ, List.flatMap_append, parentsFirst_append]
      refine ⟨before (by omega), ?_⟩
      rw [List.flatMap_singleton]
      refine ⟨⟨[], List.mem_append_left _ List.mem_cons_self, q, room, rfl⟩, ?_⟩
      have under := (ih (share_le (c := b ^ (d + 1)) (m := m) (i := q))).map_cons q
      apply under.mono
      intro p mem
      obtain rfl : p = [q] := by simpa using mem
      exact List.mem_append_right _ List.mem_cons_self

/-- Where the parent of an inner node stands. -/
theorem ParentsFirst.exists_index (first : ParentsFirst b [[]] l) (here : l[k]? = some a) :
    ∃ j ≤ k, ∃ p, ([] :: l)[j]? = some p ∧ ∃ i < b, a = p ++ [i] := by
  have split : l = l.take k ++ a :: l.drop (k + 1) := by
    obtain ⟨inside, rfl⟩ := List.getElem?_eq_some_iff.mp here
    rw [List.getElem_cons_drop, List.take_append_drop]
  rw [split] at first
  obtain ⟨p, earlier, i, below, rfl⟩ := first.split
  have front : [[]] ++ l.take k = ([] :: l).take (k + 1) := rfl
  rw [front] at earlier
  obtain ⟨j, found⟩ := List.getElem?_of_mem earlier
  rw [List.getElem?_take] at found
  split_ifs at found with inside
  exact ⟨j, Nat.le_of_lt_succ inside, p, found, i, below, rfl⟩

/-- Every inner node is an entry of an inner node or of the root. -/
theorem parent_of_mem_nodes (positive : 0 < b) (fits : m ≤ b ^ (d + 1)) (mem : a ∈ nodes b d m) :
    ∃ p ∈ [] :: nodes b d m, ∃ i < b, a = p ++ [i] := by
  obtain ⟨k, here⟩ := List.getElem?_of_mem mem
  obtain ⟨j, -, p, found, parent⟩ := (parentsFirst_nodes positive fits).exists_index here
  exact ⟨p, List.mem_of_getElem? found, parent⟩

/-- Every leaf is an entry of an inner node or of the root. -/
theorem parent_of_mem_leaves (fits : m ≤ b ^ (d + 1))
    (mem : a ∈ leaves b d m) : ∃ p ∈ [] :: nodes b d m, ∃ i < b, a = p ++ [i] := by
  induction d generalizing m a with
  | zero =>
    obtain ⟨i, below, rfl⟩ := List.mem_map.mp mem
    rw [zero_add, pow_one] at fits
    have below := List.mem_range.mp below
    exact ⟨[], List.mem_cons_self, i, by omega, rfl⟩
  | succ d ih =>
    obtain ⟨q, child, mem⟩ := List.mem_flatMap.mp mem
    obtain ⟨a, below, rfl⟩ := List.mem_map.mp mem
    obtain ⟨p, node, i, room, rfl⟩ := ih share_le below
    refine ⟨q :: p, List.mem_cons_of_mem _ ?_, i, room, rfl⟩
    rw [nodes, List.mem_flatMap]
    refine ⟨q, child, ?_⟩
    rcases List.mem_cons.mp node with rfl | node
    · exact List.mem_cons_self
    · exact List.mem_cons_of_mem _ (List.mem_map_of_mem node)

end Parents

end Lmbench.Lib.FillTree
