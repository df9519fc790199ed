import Mathlib.Data.List.Nodup
import Mathlib.Data.List.Induction
import Mathlib.Algebra.BigOperators.Group.List.Basic
import Mathlib.Algebra.GroupWithZero.Nat
import Mathlib.Logic.Function.Basic

/-!
# A tree of files and directories

A file system gives a node to some names, and every name that has a node has a directory
as its parent. The commands that change it fail where the POSIX calls do; a directory is
removed only when it has no entries.

## Main definitions

* `FileTree` - the nodes of names, closed under parents
* `perform`, `performAll` - one command, and a list of commands of which none fails

## Main results

* `performAll_mkdirs` - directories of which each has its parent there before it
* `performAll_rmdirs` - removing them in the opposite order gives back the old tree
* `performAll_fill` - files that are made and written piece by piece
* `performAll_unlinks` - files that are removed, in any order
-/

namespace Lmbench.Lib

inductive Node
  | file (size : ℕ)
  | dir
deriving DecidableEq, Repr

/-- The nodes of the names; `parent` is the directory a name is an entry of. -/
@[ext] structure FileTree {P : Type*} (parent : P → P) where
  node : P → Option Node
  closed : ∀ p, node p ≠ none → node (parent p) = some .dir

/-- A file with `n` bytes more. -/
def Node.grow (n : ℕ) : Node → Node
  | .file size => .file (size + n)
  | .dir => .dir

/-- The calls that change a file system; `write` is to the end of a file. -/
inductive Command (P : Type*)
  | mkdir (p : P)
  | creat (p : P)
  | write (p : P) (n : ℕ)
  | unlink (p : P)
  | rmdir (p : P)
deriving DecidableEq, Repr

namespace FileTree

variable {P : Type*} {parent : P → P} {t t' t'' : FileTree parent} {p q : P} {n size : ℕ}
  {x : Option Node}

/-- A name without entries. -/
def Empty (t : FileTree parent) (p : P) : Prop := ∀ q, parent q = p → t.node q = none

/-- Only directories have entries. -/
theorem empty_of_ne_dir (no_dir : t.node p ≠ some .dir) : t.Empty p := by
  intro q inside
  by_contra present
  apply no_dir
  rw [← inside]
  exact t.closed q present

def IsFile (t : FileTree parent) (p : P) : Prop := ∃ size, t.node p = some (.file size)

theorem IsFile.empty (file : t.IsFile p) : t.Empty p := by
  obtain ⟨size, here⟩ := file
  exact empty_of_ne_dir (by simp [here])

theorem IsFile.inside (file : t.IsFile p) : t.node (parent p) = some .dir := by
  obtain ⟨size, here⟩ := file
  exact t.closed p (by simp [here])

open Classical in
/-- The tree with another node, or none, for a name without entries. -/
noncomputable def put (t : FileTree parent) (p : P) (x : Option Node) (empty : t.Empty p)
    (inside : x = none ∨ t.node (parent p) = some .dir) : FileTree parent where
  node := Function.update t.node p x
  closed := by
    intro q present
    by_cases same : q = p
    · subst same
      have there : t.node (parent q) = some .dir := by
        apply inside.resolve_left
        simpa using present
      have other : parent q ≠ q := by
        intro loop
        rw [loop, empty q loop] at there
        cases there
      rwa [Function.update_of_ne other]
    · rw [Function.update_of_ne same] at present
      have other : parent q ≠ p := fun entry => present (empty q entry)
      rw [Function.update_of_ne other]
      exact t.closed q present

open Classical in
/-- A command, unless it fails. -/
noncomputable def perform : Command P → FileTree parent → Option (FileTree parent)
  | .mkdir p, t =>
    if ok : t.node p = none ∧ t.node (parent p) = some .dir then
      some (t.put p (some .dir) (empty_of_ne_dir (by simp [ok.1])) (.inr ok.2))
    else none
  | .creat p, t =>
    if ok : t.node p ≠ some .dir ∧ t.node (parent p) = some .dir then
      some (t.put p (some (.file 0)) (empty_of_ne_dir ok.1) (.inr ok.2))
    else none
  | .write p n, t =>
    if ok : t.IsFile p then
      some (t.put p ((t.node p).map (Node.grow n)) ok.empty (.inr ok.inside))
    else none
  | .unlink p, t => if ok : t.IsFile p then some (t.put p none ok.empty (.inl rfl)) else none
  | .rmdir p, t =>
    if ok : t.node p = some .dir ∧ t.Empty p then some (t.put p none ok.2 (.inl rfl)) else none

/-- Commands of which none fails. -/
noncomputable def performAll (commands : List (Command P)) (t : FileTree parent) :
    Option (FileTree parent) := commands.foldlM (fun t command => perform command t) t

section Commands

/-- What a command does to the nodes. -/
structure Sets (t : FileTree parent) (p : P) (x : Option Node) (t' : FileTree parent) : Prop where
  self : t'.node p = x
  of_ne : ∀ q, q ≠ p → t'.node q = t.node q

theorem sets_put (empty : t.Empty p) (inside : x = none ∨ t.node (parent p) = some .dir) :
    t.Sets p x (t.put p x empty inside) where
  self := by simp [put]
  of_ne := by
    intro q other
    simp [put, other]

theorem perform_mkdir (absent : t.node p = none) (inside : t.node (parent p) = some .dir) :
    ∃ t', perform (.mkdir p) t = some t' ∧ t.Sets p (some .dir) t' := by
  rw [perform, dif_pos ⟨absent, inside⟩]
  exact ⟨_, rfl, sets_put _ _⟩

theorem perform_creat (no_dir : t.node p ≠ some .dir) (inside : t.node (parent p) = some .dir) :
    ∃ t', perform (.creat p) t = some t' ∧ t.Sets p (some (.file 0)) t' := by
  rw [perform, dif_pos ⟨no_dir, inside⟩]
  exact ⟨_, rfl, sets_put _ _⟩

theorem perform_write (here : t.node p = some (.file size)) (n : ℕ) :
    ∃ t', perform (.write p n) t = some t' ∧ t.Sets p (some (.file (size + n))) t' := by
  have grown : (t.node p).map (Node.grow n) = some (.file (size + n)) := by
    rw [here]
    rfl
  rw [perform, dif_pos ⟨size, here⟩, ← grown]
  exact ⟨_, rfl, sets_put _ _⟩

theorem perform_unlink (file : t.IsFile p) :
    ∃ t', perform (.unlink p) t = some t' ∧ t.Sets p none t' := by
  rw [perform, dif_pos file]
  exact ⟨_, rfl, sets_put _ _⟩

theorem perform_rmdir (here : t.node p = some .dir) (empty : t.Empty p) :
    ∃ t', perform (.rmdir p) t = some t' ∧ t.Sets p none t' := by
  rw [perform, dif_pos ⟨here, empty⟩]
  exact ⟨_, rfl, sets_put _ _⟩

end Commands

section Lists

@[simp] theorem performAll_nil : performAll [] t = some t := rfl

theorem performAll_cons (command : Command P) (commands : List (Command P)) :
    performAll (command :: commands) t = (perform command t).bind (performAll commands) := by
  rw [performAll, List.foldlM_cons]
  rfl

theorem performAll_append (commands later : List (Command P)) :
    performAll (commands ++ later) t = (performAll commands t).bind (performAll later) := by
  rw [performAll, List.foldlM_append]
  rfl

variable {ps : List P} {ns : List ℕ}

/-- Directories are made, each after its parent. -/
theorem performAll_mkdirs (ps : List P) (distinct : ps.Nodup)
    (absent : ∀ p ∈ ps, t.node p = none)
    (parents : ∀ (k : ℕ) (p : P), ps[k]? = some p →
      (∃ j < k, ps[j]? = some (parent p)) ∨ t.node (parent p) = some .dir) :
    ∃ t', performAll (ps.map .mkdir) t = some t' ∧ (∀ p ∈ ps, t'.node p = some .dir) ∧
      ∀ q, q ∉ ps → t'.node q = t.node q := by
  induction ps using List.reverseRecOn with
  | nil => exact ⟨t, rfl, by simp, by simp⟩
  | append_singleton ps p ih =>
    obtain ⟨t', made, dirs, others⟩ := ih (List.Nodup.of_append_left distinct)
      (fun q mem => absent q (List.mem_append_left _ mem)) (by
        intro k q here
        obtain ⟨room, -⟩ := List.getElem?_eq_some_iff.mp here
        rcases parents k q (by rw [List.getElem?_append_left room, here]) with earlier | old
        · obtain ⟨j, below, found⟩ := earlier
          have early : j < ps.length := Nat.lt_trans below room
          exact .inl ⟨j, below, by rwa [List.getElem?_append_left early] at found⟩
        · exact .inr old)
    have new : p ∉ ps := by
      intro mem
      exact List.disjoint_of_nodup_append distinct mem (List.mem_singleton.mpr rfl)
    have still_absent : t'.node p = none := by
      rw [others p new]
      exact absent p (List.mem_append_right _ (List.mem_singleton.mpr rfl))
    have inside : t'.node (parent p) = some .dir := by
      rcases parents ps.length p (by simp) with earlier | old
      · obtain ⟨j, below, found⟩ := earlier
        rw [List.getElem?_append_left below] at found
        exact dirs _ (List.mem_of_getElem? found)
      · by_cases mem : parent p ∈ ps
        · exact dirs _ mem
        · rw [others _ mem, old]
    obtain ⟨t'', last, sets⟩ := perform_mkdir still_absent inside
    refine ⟨t'', ?_, ?_, ?_⟩
    · rw [List.map_append, performAll_append, made, Option.bind_some, List.map_singleton,
        performAll_cons, last, Option.bind_some, performAll_nil]
    · intro q mem
      by_cases same : q = p
      · rw [same, sets.self]
      · rw [sets.of_ne q same]
        exact dirs q ((List.mem_append.mp mem).resolve_right (by simpa using same))
    · intro q mem
      rw [List.mem_append, List.mem_singleton, not_or] at mem
      rw [sets.of_ne q mem.2, others q mem.1]

/-- Removing a directory that has just been made. -/
theorem perform_rmdir_mkdir (made : perform (.mkdir p) t = some t') :
    perform (.rmdir p) t' = some t := by
  obtain ⟨absent, inside⟩ : t.node p = none ∧ t.node (parent p) = some .dir := by
    by_contra fails
    rw [perform, dif_neg fails] at made
    cases made
  obtain ⟨t₁, same, sets⟩ := perform_mkdir absent inside
  obtain rfl : t₁ = t' := Option.some.inj (same.symm.trans made)
  have empty : t₁.Empty p := by
    intro q entry
    have other : q ≠ p := by
      rintro rfl
      rw [entry, absent] at inside
      cases inside
    rw [sets.of_ne q other]
    exact empty_of_ne_dir (by simp [absent]) q entry
  obtain ⟨t₂, removed, back⟩ := perform_rmdir sets.self empty
  rw [removed]
  congr 1
  ext1
  funext q
  by_cases same : q = p
  · rw [same, back.self, absent]
  · rw [back.of_ne q same, sets.of_ne q same]

/-- Removing directories in the opposite order gives back the old tree. -/
theorem performAll_rmdirs (made : performAll (ps.map .mkdir) t = some t') :
    performAll (ps.reverse.map .rmdir) t' = some t := by
  induction ps generalizing t with
  | nil =>
    rw [List.map_nil, performAll_nil] at made
    exact made.symm
  | cons p ps ih =>
    rw [List.map_cons, performAll_cons, Option.bind_eq_some_iff] at made
    obtain ⟨t₁, first, rest⟩ := made
    rw [List.reverse_cons, List.map_append, performAll_append, ih rest, Option.bind_some,
      List.map_singleton, performAll_cons, perform_rmdir_mkdir first, Option.bind_some,
      performAll_nil]

/-- The end of a file is moved by each piece. -/
theorem performAll_writes (ns : List ℕ) (here : t.node p = some (.file size)) :
    ∃ t', performAll (ns.map (.write p)) t = some t' ∧
      t.Sets p (some (.file (size + ns.sum))) t' := by
  induction ns generalizing t size with
  | nil => exact ⟨t, rfl, here, fun _ _ => rfl⟩
  | cons n ns ih =>
    obtain ⟨t₁, first, sets⟩ := perform_write here n
    obtain ⟨t₂, rest, sets'⟩ := ih sets.self
    refine ⟨t₂, ?_, ?_, ?_⟩
    · rw [List.map_cons, performAll_cons, first, Option.bind_some, rest]
    · rw [sets'.self, List.sum_cons, Nat.add_assoc]
    · intro q other
      rw [sets'.of_ne q other, sets.of_ne q other]

/-- A file that is made, or made empty, and written in pieces. -/
def fill (ns : List ℕ) (p : P) : List (Command P) := .creat p :: ns.map (.write p)

theorem performAll_fill_one (ns : List ℕ) (no_dir : t.node p ≠ some .dir)
    (inside : t.node (parent p) = some .dir) :
    ∃ t', performAll (fill ns p) t = some t' ∧ t.Sets p (some (.file ns.sum)) t' := by
  obtain ⟨t₁, first, sets⟩ := perform_creat no_dir inside
  obtain ⟨t₂, rest, sets'⟩ := performAll_writes ns sets.self
  refine ⟨t₂, ?_, ?_, ?_⟩
  · rw [fill, performAll_cons, first, Option.bind_some, rest]
  · rw [sets'.self, Nat.zero_add]
  · intro q other
    rw [sets'.of_ne q other, sets.of_ne q other]

/-- Files that are made and written in pieces, in directories that are there. -/
theorem performAll_fill (ps : List P) (ns : List ℕ)
    (no_dir : ∀ p ∈ ps, t.node p ≠ some .dir)
    (inside : ∀ p ∈ ps, t.node (parent p) = some .dir) :
    ∃ t', performAll (ps.flatMap (fill ns)) t = some t' ∧
      (∀ p ∈ ps, t'.node p = some (.file ns.sum)) ∧ ∀ q, q ∉ ps → t'.node q = t.node q := by
  induction ps generalizing t with
  | nil => exact ⟨t, rfl, by simp, by simp⟩
  | cons p ps ih =>
    have no_dir_p := no_dir p List.mem_cons_self
    obtain ⟨t₁, first, sets⟩ :=
      performAll_fill_one ns no_dir_p (inside p List.mem_cons_self)
    obtain ⟨t₂, rest, files, others⟩ := ih (t := t₁)
      (by
        intro q mem
        by_cases same : q = p
        · simp [same, sets.self]
        · rw [sets.of_ne q same]
          exact no_dir q (List.mem_cons_of_mem _ mem))
      (by
        intro q mem
        have there := inside q (List.mem_cons_of_mem _ mem)
        have other : parent q ≠ p := by
          rintro rfl
          exact no_dir_p there
        rw [sets.of_ne _ other, there])
    refine ⟨t₂, ?_, ?_, ?_⟩
    · rw [List.flatMap_cons, performAll_append, first, Option.bind_some, rest]
    · intro q mem
      by_cases later : q ∈ ps
      · exact files q later
      · obtain rfl := (List.mem_cons.mp mem).resolve_right later
        rw [others q later, sets.self]
    · intro q mem
      rw [List.mem_cons, not_or] at mem
      rw [others q mem.2, sets.of_ne q mem.1]

/-- Files that are removed one after the other. -/
theorem performAll_unlinks (ps : List P) (distinct : ps.Nodup) (files : ∀ p ∈ ps, t.IsFile p) :
    ∃ t', performAll (ps.map .unlink) t = some t' ∧ (∀ p ∈ ps, t'.node p = none) ∧
      ∀ q, q ∉ ps → t'.node q = t.node q := by
  induction ps generalizing t with
  | nil => exact ⟨t, rfl, by simp, by simp⟩
  | cons p ps ih =>
    rw [List.nodup_cons] at distinct
    obtain ⟨t₁, first, sets⟩ := perform_unlink (files p List.mem_cons_self)
    obtain ⟨t₂, rest, gone, others⟩ := ih (t := t₁) distinct.2 (by
      intro q mem
      obtain ⟨size, here⟩ := files q (List.mem_cons_of_mem _ mem)
      have other : q ≠ p := by
        rintro rfl
        exact distinct.1 mem
      exact ⟨size, by rw [sets.of_ne q other, here]⟩)
    refine ⟨t₂, ?_, ?_, ?_⟩
    · rw [List.map_cons, performAll_cons, first, Option.bind_some, rest]
    · intro q mem
      rcases List.mem_cons.mp mem with rfl | later
      · rw [others q distinct.1, sets.self]
      · exact gone q later
    · intro q mem
      rw [List.mem_cons, not_or] at mem
      rw [others q mem.2, sets.of_ne q mem.1]

end Lists

end FileTree

end Lmbench.Lib
