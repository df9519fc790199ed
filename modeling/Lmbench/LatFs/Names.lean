import Lmbench.Lib.FillTree
import Mathlib.Data.Nat.Digits.Defs

/-!
# The directory tree of `lat_fs`

`setup_names` first counts the directories by dividing again and again, and then
`setup_names_recurse` makes them and the file names from the top down. An access outside
of `names` or `dirs`, or to a name that is not set, gives no result. The numbers are
natural numbers; `plan_eq` bounds them.

## Main results

* `plan_eq` - the number of directories and the depth, and how large they are
* `setupNamesRecurse_eq` - the recursion fills a tree from the left
* `setupNames_laidOut` - what is planned is what is made
-/

namespace Lmbench.LatFs

open Lib.FillTree

abbrev Path := List Char

/-- `"%s/%ld"` -/
def child (basename : Path) (i : ℕ) : Path := basename ++ '/' :: Nat.toDigits 10 i

/-- The directory of an entry. -/
def parent (path : Path) : Path := ((path.reverse.dropWhile (· ≠ '/')).drop 1).reverse

/-- `struct _state` and the two counters of `setup_names`. -/
structure State where
  max : ℕ
  n : ℕ
  names : List (Option Path)
  dirs : List (Option Path)
  foff : ℕ
  doff : ℕ
deriving DecidableEq, Repr

/-- `state->dirs[++(*doff)] = strdup(name)` -/
def addDir (basename : Path) (i : ℕ) (s : State) : Option State :=
  if s.doff + 1 < s.dirs.length then
    some { s with dirs := s.dirs.set (s.doff + 1) (some (child basename i)), doff := s.doff + 1 }
  else none

/-- `state->names[(*foff)++] = strdup(name)` -/
def addName (basename : Path) (i : ℕ) (s : State) : Option State :=
  if s.foff < s.names.length then
    some { s with names := s.names.set s.foff (some (child basename i)), foff := s.foff + 1 }
  else none

/-- `state->dirs[*doff]` -/
def State.basename (s : State) : Option Path := s.dirs[s.doff]?.join

/-- The loop over the files of a directory, with `left` of `max` passes left. -/
def nameFiles (basename : Path) : ℕ → ℕ → State → Option State
  | 0, _, s => some s
  | left + 1, i, s =>
    if s.foff < s.n then (addName basename i s).bind (nameFiles basename left (i + 1))
    else some s

/-- The loop over the directories of a directory. -/
def makeDirs (recurse : State → Option State) (basename : Path) (ndirs : ℕ) :
    ℕ → ℕ → State → Option State
  | 0, _, s => some s
  | left + 1, i, s =>
    if i < ndirs ∧ s.foff < s.n then do
      let s ← addDir basename i s
      let s ← recurse s
      makeDirs recurse basename ndirs left (i + 1) s
    else some s

/-- `setup_names_recurse`; `count` is `max` to the power of the depth. -/
def setupNamesRecurse : ℕ → State → Option State
  | 0, s => do
    let basename ← s.basename
    nameFiles basename s.max 0 s
  | depth + 1, s => do
    let basename ← s.basename
    let count := s.max ^ (depth + 1)
    -- one directory more than the whole ones that the files left would fill
    let ndirs := (s.n - s.foff) / count + 1
    makeDirs (setupNamesRecurse depth) basename ndirs s.max 0 s

/-- `x / max`, and one more if a remainder is left. -/
def ceilStep (max x : ℕ) : ℕ := x / max + if x % max = 0 then 0 else 1

/-- The loop that counts directories, for some number of passes at most. -/
def countDirs (max : ℕ) : ℕ → ℕ → ℕ → ℕ → Option (ℕ × ℕ)
  -- with a `max` of 1 and two files the loop does not end, and the passes run out
  | 0, ndirs, total, depth => if ndirs ≤ 1 then some (total, depth) else none
  | passes + 1, ndirs, total, depth =>
    if ndirs ≤ 1 then some (total, depth)
    else countDirs max passes (ceilStep max ndirs) (total + ceilStep max ndirs) (depth + 1)

/-- `state->ndirs` and `depth`. -/
def plan (iterations max : ℕ) : Option (ℕ × ℕ) :=
  countDirs max iterations (ceilStep max iterations) (ceilStep max iterations) 0

/-- `setup_names`, with the name that `tempnam` has made. -/
def setupNames (iterations max : ℕ) (dirname : Path) : Option State := do
  let (ndirs, depth) ← plan iterations max
  setupNamesRecurse depth
    { max := max
      n := iterations
      names := List.replicate iterations none
      dirs := (List.replicate ndirs none).set 0 (some dirname)
      foff := 0
      doff := 0 }

/-- The name of the node at an address. -/
def render (dirname : Path) (a : List ℕ) : Path := a.foldl child dirname

variable {dirname basename p q : Path} {a a' : List ℕ} {i j k d left m max n ndirs count : ℕ}
  {files dirs : List Path} {s : State}

section Paths

theorem render_nil : render dirname [] = dirname := rfl

theorem render_snoc : render dirname (a ++ [i]) = child (render dirname a) i := by
  simp [render]

/-- An entry is in its directory: the number has no slash. -/
theorem parent_child (p : Path) (i : ℕ) : parent (child p i) = p := by
  have digits : ∀ c ∈ (Nat.toDigits 10 i).reverse, (c ≠ '/' : Bool) = true := by
    intro c mem
    have digit := Nat.isDigit_of_mem_toDigits (by decide) (by decide) (List.mem_reverse.mp mem)
    rw [decide_eq_true_eq]
    rintro rfl
    exact absurd digit (by decide)
  have last : (child p i).reverse = (Nat.toDigits 10 i).reverse ++ '/' :: p.reverse := by
    simp [child]
  rw [parent, last, List.dropWhile_append_of_pos digits]
  simp

theorem child_injective (same : child p i = child q j) : p = q ∧ i = j := by
  have directory : p = q := by
    rw [← parent_child p i, same, parent_child]
  subst directory
  have digits : Nat.toDigits 10 i = Nat.toDigits 10 j := by
    simpa [child] using same
  have back := congrArg (Nat.ofDigitChars 10 · 0) digits
  simp only [Nat.ofDigitChars_ten_toDigits] at back
  exact ⟨rfl, back⟩

theorem length_lt_child : p.length < (child p i).length := by
  rw [child, List.length_append, List.length_cons]
  omega

theorem length_le_render : dirname.length ≤ (render dirname a).length := by
  induction a using List.reverseRecOn with
  | nil => exact le_rfl
  | append_singleton a i ih =>
    rw [render_snoc]
    exact ih.trans length_lt_child.le

/-- Different nodes have different names. -/
theorem render_injective (dirname : Path) : Function.Injective (render dirname) := by
  intro a
  induction a using List.reverseRecOn with
  | nil =>
    intro a' same
    rcases List.eq_nil_or_concat a' with rfl | ⟨a', j, rfl⟩
    · rfl
    · rw [List.concat_eq_append, render_snoc, render_nil] at same
      have longer : (render dirname a').length < dirname.length := by
        conv_rhs => rw [same]
        exact length_lt_child
      exact absurd length_le_render (Nat.not_le.mpr longer)
  | append_singleton a i ih =>
    intro a' same
    rcases List.eq_nil_or_concat a' with rfl | ⟨a', j, rfl⟩
    · rw [render_snoc, render_nil] at same
      have longer : (render dirname a).length < dirname.length := by
        conv_rhs => rw [← same]
        exact length_lt_child
      exact absurd length_le_render (Nat.not_le.mpr longer)
    · rw [List.concat_eq_append, render_snoc, render_snoc] at same
      obtain ⟨directories, rfl⟩ := child_injective same
      rw [List.concat_eq_append, ih directories]

end Paths

section Fill

/-- The state when these file and directory names are set. -/
def filled (max n ndirs : ℕ) (files dirs : List Path) : State where
  max := max
  n := n
  names := files.map some ++ List.replicate (n - files.length) none
  dirs := dirs.map some ++ List.replicate (ndirs - dirs.length) none
  foff := files.length
  doff := dirs.length - 1

/-- The next element of an array that is filled from the front. -/
theorem set_filled {α : Type*} (l : List α) (x : α) (room : l.length < n) :
    (l.map some ++ List.replicate (n - l.length) none).set l.length (some x) =
      (l ++ [x]).map some ++ List.replicate (n - (l ++ [x]).length) none := by
  obtain ⟨k, rfl⟩ := Nat.exists_eq_add_of_lt room
  have rest : l.length + k + 1 - l.length = k + 1 := by omega
  have rest' : l.length + k + 1 - (l ++ [x]).length = k := by
    rw [List.length_append, List.length_singleton]
    omega
  rw [rest, rest', List.replicate_succ, List.set_append_right _ _ (by simp)]
  simp

theorem addName_filled (room : files.length < n) (i : ℕ) :
    addName basename i (filled max n ndirs files dirs) =
      some (filled max n ndirs (files ++ [child basename i]) dirs) := by
  have inside : (filled max n ndirs files dirs).foff <
      (filled max n ndirs files dirs).names.length := by
    simp only [filled, List.length_append, List.length_map, List.length_replicate]
    omega
  rw [addName, if_pos inside]
  simp only [filled, set_filled files _ room, List.length_append, List.length_singleton]

theorem addDir_filled (some_dir : dirs ≠ []) (room : dirs.length < ndirs) (i : ℕ) :
    addDir basename i (filled max n ndirs files dirs) =
      some (filled max n ndirs files (dirs ++ [child basename i])) := by
  have positive : 0 < dirs.length := List.length_pos_of_ne_nil some_dir
  have next : dirs.length - 1 + 1 = dirs.length := by omega
  have inside : (filled max n ndirs files dirs).doff + 1 <
      (filled max n ndirs files dirs).dirs.length := by
    simp only [filled, List.length_append, List.length_map, List.length_replicate]
    omega
  rw [addDir, if_pos inside]
  simp only [filled, next, set_filled dirs _ room, List.length_append, List.length_singleton]
  congr 2

theorem basename_filled : (filled max n ndirs files (dirs ++ [p])).basename = some p := by
  simp [State.basename, filled]

theorem nameFiles_succ : nameFiles basename (left + 1) i (filled max n ndirs files dirs) =
    if files.length < n then
      (addName basename i (filled max n ndirs files dirs)).bind (nameFiles basename left (i + 1))
    else some (filled max n ndirs files dirs) := rfl

theorem makeDirs_succ {recurse : State → Option State} :
    makeDirs recurse basename count (left + 1) i (filled max n ndirs files dirs) =
    if i < count ∧ files.length < n then
      (addDir basename i (filled max n ndirs files dirs)).bind fun s =>
        (recurse s).bind (makeDirs recurse basename count left (i + 1))
    else some (filled max n ndirs files dirs) := rfl

/-- The files of one directory. -/
theorem nameFiles_filled (left i : ℕ) (files : List Path) :
    nameFiles basename left i (filled max n ndirs files dirs) =
      some (filled max n ndirs
        (files ++ (List.range' i (min left (n - files.length))).map (child basename)) dirs) := by
  induction left generalizing i files with
  | zero => simp [nameFiles]
  | succ left ih =>
    rw [nameFiles_succ]
    by_cases room : files.length < n
    · have passes : min (left + 1) (n - files.length) =
          min left (n - (files ++ [child basename i]).length) + 1 := by
        rw [List.length_append, List.length_singleton]
        omega
      rw [if_pos room, addName_filled room, Option.bind_some, ih, passes,
        List.range'_succ, List.map_cons, List.append_assoc, List.singleton_append]
    · have passes : min (left + 1) (n - files.length) = 0 := by omega
      rw [if_neg room, passes]
      simp

/-- The names under a node. -/
def under (dirname : Path) (a : List ℕ) (l : List (List ℕ)) : List Path :=
  l.map fun c => render dirname (a ++ c)

@[simp] theorem length_under (dirname : Path) (a : List ℕ) (l : List (List ℕ)) :
    (under dirname a l).length = l.length := List.length_map _

theorem under_map_cons (l : List (List ℕ)) :
    under dirname a (l.map (i :: ·)) = under dirname (a ++ [i]) l := by
  simp [under]

theorem under_cons (b : List ℕ) (l : List (List ℕ)) :
    under dirname a (b :: l) = render dirname (a ++ b) :: under dirname a l := rfl

theorem under_append (l l' : List (List ℕ)) :
    under dirname a (l ++ l') = under dirname a l ++ under dirname a l' := List.map_append

/-- What is put under a node: so many files as fit and are left. -/
abbrev budget (max n d : ℕ) (files : List Path) : ℕ := min (max ^ (d + 1)) (n - files.length)

/-- What `setup_names_recurse` is to do at some depth. -/
def Fills (dirname : Path) (max n ndirs d : ℕ) : Prop :=
  ∀ (a : List ℕ) (files dirs : List Path),
    dirs.length + 1 + (nodes max d (budget max n d files)).length ≤ ndirs →
    setupNamesRecurse d (filled max n ndirs files (dirs ++ [render dirname a])) =
      some (filled max n ndirs
        (files ++ under dirname a (leaves max d (budget max n d files)))
        (dirs ++ [render dirname a] ++ under dirname a (nodes max d (budget max n d files))))

theorem fills_zero : Fills dirname max n ndirs 0 := by
  intro a files dirs _
  have entries : under dirname a (leaves max 0 (budget max n 0 files)) =
      (List.range' 0 (min max (n - files.length))).map (child (render dirname a)) := by
    simp [under, leaves, render_snoc, List.range_eq_range', budget]
  rw [setupNamesRecurse, basename_filled, entries, nodes, under, List.map_nil, List.append_nil]
  exact nameFiles_filled max 0 files

section Directory

variable {m : ℕ} {files₀ : List Path}

/-- A child is made as long as files are left for it. -/
theorem guard_iff (positive : 0 < max) (hm : m = budget max n (d + 1) files₀)
    (hfiles : files.length = files₀.length + min (i * max ^ (d + 1)) m) (hi : i < max) :
    (i < (n - files₀.length) / max ^ (d + 1) + 1 ∧ files.length < n) ↔
      i < m ⌈/⌉ max ^ (d + 1) := by
  have unit : 0 < max ^ (d + 1) := Nat.pow_pos positive
  rw [lt_ceilDiv_iff unit, Nat.lt_succ_iff, Nat.le_div_iff_mul_le unit]
  have powers : max ^ (d + 1 + 1) = max * max ^ (d + 1) := by rw [Nat.pow_succ, Nat.mul_comm]
  have inside : (i + 1) * max ^ (d + 1) ≤ max * max ^ (d + 1) := Nat.mul_le_mul_right _ hi
  rw [Nat.succ_mul] at inside
  simp only [budget, powers] at hm
  omega

/-- What a child is given. -/
theorem budget_eq_share (positive : 0 < max) (hm : m = budget max n (d + 1) files₀)
    (hfiles : files.length = files₀.length + min (i * max ^ (d + 1)) m)
    (hi : i < m ⌈/⌉ max ^ (d + 1)) : budget max n d files = share (max ^ (d + 1)) m i := by
  have unit : 0 < max ^ (d + 1) := Nat.pow_pos positive
  rw [lt_ceilDiv_iff unit] at hi
  have powers : max ^ (d + 1 + 1) = max * max ^ (d + 1) := by rw [Nat.pow_succ, Nat.mul_comm]
  simp only [budget, powers] at hm
  have below : i < max := by
    apply Nat.lt_of_mul_lt_mul_right (a := max ^ (d + 1))
    omega
  have inside : (i + 1) * max ^ (d + 1) ≤ max * max ^ (d + 1) := Nat.mul_le_mul_right _ below
  rw [Nat.succ_mul] at inside
  rw [budget, share]
  omega

/-- The directories from the child `i` on, in a directory that is given `m` files. -/
theorem makeDirs_filled (positive : 0 < max) (fills : Fills dirname max n ndirs d)
    (hm : m = budget max n (d + 1) files₀) (hi : i + k = m ⌈/⌉ max ^ (d + 1))
    (hfiles : files.length = files₀.length + min (i * max ^ (d + 1)) m) (some_dir : dirs ≠ [])
    (room : dirs.length + ((List.range' i k).flatMap fun i =>
      [i] :: (nodes max d (share (max ^ (d + 1)) m i)).map (i :: ·)).length ≤ ndirs) :
    makeDirs (setupNamesRecurse d) (render dirname a) ((n - files₀.length) / max ^ (d + 1) + 1)
        (max - i) i (filled max n ndirs files dirs) =
      some (filled max n ndirs
        (files ++ under dirname a ((List.range' i k).flatMap fun i =>
          (leaves max d (share (max ^ (d + 1)) m i)).map (i :: ·)))
        (dirs ++ under dirname a ((List.range' i k).flatMap fun i =>
          [i] :: (nodes max d (share (max ^ (d + 1)) m i)).map (i :: ·)))) := by
  induction k generalizing i files dirs with
  | zero =>
    cases left : max - i with
    | zero => simp [makeDirs, under]
    | succ left =>
      have done := (guard_iff positive hm hfiles (by omega)).not.mpr (by omega)
      rw [makeDirs_succ, if_neg done]
      simp [under]
  | succ k ih =>
    have child_left : i < m ⌈/⌉ max ^ (d + 1) := by omega
    have given := budget_eq_share positive hm hfiles child_left
    have fits : m ≤ max ^ (d + 2) := by
      rw [hm]
      exact Nat.min_le_left _ _
    have below : i < max := lt_of_lt_of_le child_left (children_le positive fits)
    have go := (guard_iff positive hm hfiles below).mpr child_left
    have pass : max - i = max - (i + 1) + 1 := by omega
    -- the child, what is put into it, and the other children
    simp only [List.range'_succ, List.flatMap_cons, List.length_append, List.length_cons,
      List.length_map] at room
    have filled_child := fills (a ++ [i]) files dirs (by rw [given]; omega)
    rw [pass, makeDirs_succ, if_pos go, addDir_filled some_dir (by omega), Option.bind_some,
      ← render_snoc, filled_child, Option.bind_some, given, ih]
    · simp [List.range'_succ, under_append, under_cons, under_map_cons, List.append_assoc]
    · omega
    · rw [List.length_append, length_under, length_leaves positive, hfiles, Nat.succ_mul, share]
      rw [lt_ceilDiv_iff (Nat.pow_pos positive)] at child_left
      omega
    · simp
    · simp only [List.length_append, List.length_singleton, length_under]
      omega

theorem fills_succ (positive : 0 < max) (fills : Fills dirname max n ndirs d) :
    Fills dirname max n ndirs (d + 1) := by
  intro a files dirs room
  have made := @makeDirs_filled dirname a 0 (budget max n (d + 1) files ⌈/⌉ max ^ (d + 1)) d max n
    ndirs files (dirs ++ [render dirname a]) _ files positive fills rfl (by omega) (by simp)
    (by simp)
  rw [setupNamesRecurse, basename_filled]
  rw [nodes, List.range_eq_range'] at room ⊢
  rw [leaves, List.range_eq_range']
  apply made
  rwa [List.length_append, List.length_singleton]

end Directory

/-- **The recursion fills a tree from the left.** -/
theorem setupNamesRecurse_eq (positive : 0 < max) (d : ℕ) : Fills dirname max n ndirs d := by
  induction d with
  | zero => exact fills_zero
  | succ d ih => exact fills_succ positive ih

end Fill

section Plan

theorem ceilStep_eq (positive : 0 < max) (x : ℕ) : ceilStep max x = x ⌈/⌉ max := by
  have rest : x % max ⌈/⌉ max = if x % max = 0 then 0 else 1 := by
    split
    · rename_i none_left
      rw [none_left, zero_ceilDiv]
    · rename_i some_left
      have small := Nat.mod_lt x positive
      apply le_antisymm
      · rw [ceilDiv_le_iff positive]
        omega
      · rw [Nat.succ_le_iff, lt_ceilDiv_iff positive]
        omega
  have whole : x / max * max ⌈/⌉ max = x / max := by
    rw [Nat.mul_comm]
    exact smul_ceilDiv positive (x / max)
  conv_rhs => rw [← Nat.div_add_mod' x max, mul_add_ceilDiv positive dvd_rfl, whole, rest]
  rfl

/-- How many directories there are from the first `d` levels above the files. -/
def levels (max n d : ℕ) : ℕ := ((List.range d).map fun k => n ⌈/⌉ max ^ (k + 1)).sum

theorem levels_succ : levels max n (d + 1) = levels max n d + n ⌈/⌉ max ^ (d + 1) := by
  simp [levels, List.range_succ]

/-- What the count is for: the least depth for which one directory is left. -/
structure Planned (n max k depth ndirs : ℕ) : Prop where
  ndirs : ndirs = levels max n (depth + 1)
  fits : n ≤ max ^ (depth + 1)
  least : depth = k ∨ max ^ depth < n

theorem planned_last (positive : 0 < max) (last : n ⌈/⌉ max ^ (k + 1) ≤ 1) :
    Planned n max k k (levels max n (k + 1)) := by
  rw [ceilDiv_le_iff (Nat.pow_pos positive), Nat.one_mul] at last
  exact ⟨rfl, last, .inl rfl⟩

/-- Counting ends, each pass leaves fewer directories. -/
theorem countDirs_planned (two_le : 2 ≤ max) {passes : ℕ} (enough : n ⌈/⌉ max ^ (k + 1) ≤ passes) :
    ∃ ndirs depth, countDirs max passes (n ⌈/⌉ max ^ (k + 1)) (levels max n (k + 1)) k =
      some (ndirs, depth) ∧ Planned n max k depth ndirs := by
  have positive : 0 < max := by omega
  have unit : ∀ k, 0 < max ^ k := fun k => Nat.pow_pos positive
  induction passes generalizing k with
  | zero =>
    have last : n ⌈/⌉ max ^ (k + 1) ≤ 1 := by omega
    exact ⟨_, _, by rw [countDirs, if_pos last], planned_last positive last⟩
  | succ passes ih =>
    by_cases last : n ⌈/⌉ max ^ (k + 1) ≤ 1
    · exact ⟨_, _, by rw [countDirs, if_pos last], planned_last positive last⟩
    · have next : ceilStep max (n ⌈/⌉ max ^ (k + 1)) = n ⌈/⌉ max ^ (k + 1 + 1) := by
        rw [ceilStep_eq positive, ceilDiv_ceilDiv (unit _) positive, ← Nat.pow_succ]
      have fewer : n ⌈/⌉ max ^ (k + 1 + 1) ≤ passes := by
        rw [Nat.pow_succ, ← ceilDiv_ceilDiv (unit _) positive, ceilDiv_le_iff positive]
        calc n ⌈/⌉ max ^ (k + 1) ≤ passes + 1 := enough
          _ ≤ passes * 2 := by omega
          _ ≤ passes * max := Nat.mul_le_mul_left _ two_le
      obtain ⟨ndirs, depth, counts, planned⟩ := ih fewer
      refine ⟨ndirs, depth, ?_, planned.ndirs, planned.fits, ?_⟩
      · rw [countDirs, if_neg last, next, ← levels_succ]
        exact counts
      · rcases planned.least with rfl | deeper
        · have several : 1 * max ^ (k + 1) < n := (lt_ceilDiv_iff (unit _)).mp (Nat.not_le.mp last)
          rw [Nat.one_mul] at several
          exact .inr several
        · exact .inr deeper

/-- **The plan.** -/
theorem plan_eq (two_le : 2 ≤ max) : ∃ ndirs depth,
    plan n max = some (ndirs, depth) ∧ Planned n max 0 depth ndirs := by
  have first : ceilStep max n = n ⌈/⌉ max ^ (0 + 1) := by
    rw [ceilStep_eq (by omega), zero_add, pow_one]
  have enough : n ⌈/⌉ max ^ (0 + 1) ≤ n := by
    rw [zero_add, pow_one, ceilDiv_le_iff (by omega)]
    exact Nat.le_mul_of_pos_right n (by omega)
  obtain ⟨ndirs, depth, counts, planned⟩ := countDirs_planned two_le enough
  have only : levels max n (0 + 1) = n ⌈/⌉ max ^ (0 + 1) := by simp [levels]
  rw [only] at counts
  refine ⟨ndirs, depth, ?_, planned⟩
  rw [plan, first]
  exact counts

namespace Planned

variable {depth : ℕ}

/-- The root and the inner nodes. -/
theorem ndirs_eq (planned : Planned n max 0 depth ndirs) (two_le : 2 ≤ max) (some_file : 0 < n) :
    ndirs = 1 + (nodes max depth n).length := by
  have positive : 0 < max := by omega
  have root : n ⌈/⌉ max ^ (depth + 1) = 1 := by
    apply le_antisymm
    · rw [ceilDiv_le_iff (Nat.pow_pos positive), Nat.one_mul]
      exact planned.fits
    · rw [Nat.succ_le_iff, lt_ceilDiv_iff (Nat.pow_pos positive), Nat.zero_mul]
      exact some_file
  rw [planned.ndirs, levels_succ, root, length_nodes positive, levels, Nat.add_comm]

end Planned

end Plan

/-- The entries of a directory among the files and directories that were made. -/
def State.entries (s : State) (dir : Path) : List Path :=
  ((s.names ++ s.dirs.tail).filterMap id).filter fun path => parent path = dir

/-- The tree is as planned. -/
structure LaidOut (iterations max ndirs : ℕ) (s : State) : Prop where
  foff : s.foff = iterations
  doff : s.doff = ndirs - 1
  length_names : s.names.length = iterations
  length_dirs : s.dirs.length = ndirs
  named : ∀ name ∈ s.names, name.isSome
  distinct : (s.names ++ s.dirs).Nodup
  entries_le : ∀ dir, some dir ∈ s.dirs → (s.entries dir).length ≤ max
  parents : ∀ k, 0 < k → k < ndirs → ∃ j < k, ∃ dir path,
    s.dirs[j]? = some (some dir) ∧ s.dirs[k]? = some (some path) ∧ parent path = dir

section LaidOut

variable {depth : ℕ}

/-- The file names of a tree. -/
abbrev fileNames (dirname : Path) (max n depth : ℕ) : List Path :=
  (leaves max depth n).map (render dirname)

/-- The names of the root and the other directories of a tree. -/
abbrev dirNames (dirname : Path) (max n depth : ℕ) : List Path :=
  ([] :: nodes max depth n).map (render dirname)

/-- The names are those of a tree that is filled from the left. -/
theorem setupNames_eq (two_le : 2 ≤ max) (some_file : 0 < n)
    (planned : plan n max = some (ndirs, depth)) (hplan : Planned n max 0 depth ndirs)
    (dirname : Path) :
    setupNames n max dirname =
      some (filled max n ndirs (fileNames dirname max n depth) (dirNames dirname max n depth)) := by
  have positive : 0 < max := by omega
  have whole : budget max n depth [] = n := Nat.min_eq_right hplan.fits
  have room := hplan.ndirs_eq two_le some_file
  have fills := @setupNamesRecurse_eq dirname max n ndirs positive depth [] [] []
    (by rw [whole, room]; simp)
  have begins : (⟨max, n, List.replicate n none, (List.replicate ndirs none).set 0 (some dirname),
      0, 0⟩ : State) = filled max n ndirs [] ([] ++ [render dirname []]) := by
    obtain ⟨rest, rfl⟩ : ∃ rest, ndirs = rest + 1 := ⟨_, by rw [room, Nat.add_comm]⟩
    simp [filled, List.replicate_succ, render_nil]
  rw [setupNames, planned]
  change setupNamesRecurse depth ⟨max, n, _, _, 0, 0⟩ = _
  rw [begins, fills, whole]
  simp [under, render_nil]

/-- All names are different. -/
theorem nodup_names (dirname : Path) (max n depth : ℕ) :
    (fileNames dirname max n depth ++ dirNames dirname max n depth).Nodup := by
  rw [← List.map_append]
  apply List.Nodup.map (render_injective dirname)
  rw [List.nodup_middle, List.nodup_cons, List.mem_append]
  refine ⟨?_, nodup_leaves_nodes max depth n⟩
  -- the root is no other node
  rintro (leaf | node)
  · exact absurd (length_of_mem_leaves leaf) (by simp)
  · exact absurd (length_of_mem_nodes node).1 (lt_irrefl 0)

/-- Every name but the root's is one of the first `max` entries of a directory. -/
theorem exists_parent (two_le : 2 ≤ max) (fits : n ≤ max ^ (depth + 1)) {path : Path}
    (made : path ∈ fileNames dirname max n depth ++ (dirNames dirname max n depth).tail) :
    ∃ dir ∈ dirNames dirname max n depth, ∃ i < max, path = child dir i := by
  have positive : 0 < max := by omega
  have address : ∃ a, path = render dirname a ∧
      ∃ p ∈ [] :: nodes max depth n, ∃ i < max, a = p ++ [i] := by
    rcases List.mem_append.mp made with file | dir
    · obtain ⟨a, leaf, rfl⟩ := List.mem_map.mp file
      exact ⟨a, rfl, parent_of_mem_leaves fits leaf⟩
    · obtain ⟨a, node, rfl⟩ := List.mem_map.mp dir
      exact ⟨a, rfl, parent_of_mem_nodes positive fits node⟩
  obtain ⟨_, rfl, p, node, i, below, rfl⟩ := address
  exact ⟨_, List.mem_map_of_mem node, i, below, render_snoc⟩

/-- No directory gets more than `max` entries. -/
theorem length_entries_le (two_le : 2 ≤ max) (fits : n ≤ max ^ (depth + 1)) (dir : Path) :
    ((fileNames dirname max n depth ++ (dirNames dirname max n depth).tail).filter
      fun path => parent path = dir).length ≤ max := by
  have sub : ((fileNames dirname max n depth ++ (dirNames dirname max n depth).tail).filter
      fun path => parent path = dir) ⊆ (List.range max).map (child dir) := by
    intro path mem
    obtain ⟨made, inside⟩ := List.mem_filter.mp mem
    obtain ⟨p, -, i, below, rfl⟩ := exists_parent two_le fits made
    obtain rfl : p = dir := by simpa [parent_child] using inside
    exact List.mem_map_of_mem (List.mem_range.mpr below)
  have distinct : ((fileNames dirname max n depth ++ (dirNames dirname max n depth).tail).filter
      fun path => parent path = dir).Nodup := by
    apply List.Nodup.filter
    exact List.Nodup.sublist ((List.tail_sublist _).append_left _)
      (nodup_names dirname max n depth)
  simpa using (distinct.subperm sub).length_le

/-- Every directory but the root stands behind its parent. -/
theorem exists_earlier_parent (two_le : 2 ≤ max) (fits : n ≤ max ^ (depth + 1))
    (positive_k : 0 < k) {path : Path} (here : (dirNames dirname max n depth)[k]? = some path) :
    ∃ j < k, ∃ dir, (dirNames dirname max n depth)[j]? = some dir ∧ parent path = dir := by
  obtain ⟨k, rfl⟩ := Nat.exists_eq_succ_of_ne_zero positive_k.ne'
  obtain ⟨a, node, rfl⟩ : ∃ a, (nodes max depth n)[k]? = some a ∧ render dirname a = path := by
    simpa using here
  obtain ⟨j, earlier, p, found, i, -, rfl⟩ :=
    (parentsFirst_nodes (by omega) fits).exists_index node
  refine ⟨j, by omega, render dirname p, ?_, ?_⟩
  · rw [List.getElem?_map, found, Option.map_some]
  · rw [render_snoc, parent_child]

/-- What is planned is what is made. -/
theorem laidOut_filled (two_le : 2 ≤ max) (some_file : 0 < n)
    (hplan : Planned n max 0 depth ndirs) (dirname : Path) :
    LaidOut n max ndirs
      (filled max n ndirs (fileNames dirname max n depth) (dirNames dirname max n depth)) := by
  have positive : 0 < max := by omega
  have files : (fileNames dirname max n depth).length = n := by
    rw [List.length_map, length_leaves positive]
  have dirs : (dirNames dirname max n depth).length = ndirs := by
    rw [List.length_map, List.length_cons, hplan.ndirs_eq two_le some_file, Nat.add_comm]
  have none_left : n - (fileNames dirname max n depth).length = 0 := by omega
  have none_left' : ndirs - (dirNames dirname max n depth).length = 0 := by omega
  have names_eq : (filled max n ndirs (fileNames dirname max n depth)
      (dirNames dirname max n depth)).names = (fileNames dirname max n depth).map some := by
    simp only [filled, none_left, List.replicate_zero, List.append_nil]
  have dirs_eq : (filled max n ndirs (fileNames dirname max n depth)
      (dirNames dirname max n depth)).dirs = (dirNames dirname max n depth).map some := by
    simp only [filled, none_left', List.replicate_zero, List.append_nil]
  generalize hs : filled max n ndirs (fileNames dirname max n depth)
    (dirNames dirname max n depth) = s at names_eq dirs_eq
  exact {
    foff := by rw [← hs]; exact files
    doff := by rw [← hs]; exact congrArg (· - 1) dirs
    length_names := by rw [names_eq, List.length_map, files]
    length_dirs := by rw [dirs_eq, List.length_map, dirs]
    named := by
      rw [names_eq]
      intro name mem
      obtain ⟨path, -, rfl⟩ := List.mem_map.mp mem
      rfl
    distinct := by
      rw [names_eq, dirs_eq, ← List.map_append]
      exact (nodup_names dirname max n depth).map (Option.some_injective _)
    entries_le := by
      intro dir _
      have paths : (s.names ++ s.dirs.tail).filterMap id =
          fileNames dirname max n depth ++ (dirNames dirname max n depth).tail := by
        rw [names_eq, dirs_eq, ← List.map_tail, ← List.map_append, List.filterMap_map]
        exact List.filterMap_some
      rw [State.entries, paths]
      exact length_entries_le two_le hplan.fits dir
    parents := by
      intro k positive_k below
      obtain ⟨path, here⟩ : ∃ path, (dirNames dirname max n depth)[k]? = some path :=
        ⟨_, List.getElem?_eq_getElem (by rw [dirs]; exact below)⟩
      obtain ⟨j, earlier, dir, found, inside⟩ :=
        exists_earlier_parent two_le hplan.fits positive_k here
      refine ⟨j, earlier, dir, path, ?_, ?_, inside⟩
      · rw [dirs_eq, List.getElem?_map, found, Option.map_some]
      · rw [dirs_eq, List.getElem?_map, here, Option.map_some] }

end LaidOut

end Lmbench.LatFs
