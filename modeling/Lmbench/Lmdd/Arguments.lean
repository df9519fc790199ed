import Mathlib.Data.List.Basic
import Mathlib.Data.List.Infix

/-!
# The arguments of `lmdd`

Every argument of `lmdd` is `name=value`. `main` first lets `chkarg` look for the name in
a table, and then looks for the arguments of each name. The two do not compare in the
same way: `chkarg` is content when it gets as far as the `=`.

Strings are lists of their characters.

## Main results

* `chkarg_eq_ok_iff` - `chkarg` accepts what begins like a name
* `acceptsExactly_iff` - when that is the same as being one
-/

namespace Lmbench.Lmdd

/-- The macros that add names to the table, or take one out. -/
structure Macros where
  dbg : Bool
  oDirect : Bool
  flush : Bool
  rusage : Bool
  hpux : Bool
  useBds : Bool
  sgi : Bool
  oSync : Bool
deriving DecidableEq

/-- The names of `cmds[]`, each with the condition under which it is compiled. -/
def cmdTable : List (String × (Macros → Bool)) :=
  let always := fun _ => true
  [("bs", always), ("bufs", always), ("count", always), ("debug", (·.dbg)),
    ("direct", (·.oDirect)), ("idirect", (·.oDirect)), ("odirect", (·.oDirect)),
    ("flush", (·.flush)), ("fork", always), ("fsync", always), ("if", always), ("ipat", always),
    ("label", always), ("mismatch", always), ("move", always), ("of", always), ("opat", always),
    ("print", always), ("rand", always), ("poff", always), ("rusage", (·.rusage)),
    ("skip", always), ("sync", always), ("touch", always), ("usleep", (!·.hpux)),
    ("hash", always), ("append", always), ("rtmax", always), ("wtmax", always),
    ("rtmin", always), ("wtmin", always), ("realtime", always), ("notrunc", always),
    ("end", always), ("start", always), ("time", always), ("srand", always), ("padin", always),
    ("awrite", (·.useBds)), ("norepeat", always), ("mpin", (·.sgi)), ("timeopen", always),
    ("nocreate", always), ("osync", (·.oSync))]

/-- `cmds[]`. -/
def cmds (macros : Macros) : List (List Char) :=
  (cmdTable.filter fun e => e.2 macros).map fun e => e.1.toList

/-- `for (a = arg, b = cmds[i]; *a && *b && *a == *b; a++, b++);` and then `*a`. -/
def scan : List Char → List Char → Option Char
  | [], _ => none
  | a :: _, [] => some a
  | a :: as, b :: bs => if a = b then scan as bs else some a

/-- `chkarg(arg)`, or what it prints before it exits. -/
def chkarg (macros : Macros) (arg : List Char) : Except (List Char) Unit :=
  if (cmds macros).any fun name => scan arg name = some '=' then .ok ()
  else .error ("Bad arg: ".toList ++ arg ++ ", possible arguments are: ".toList ++
    (cmds macros).flatMap (· ++ [' ']) ++ ['\n'])

/-- `!strncmp(av[i], s, len)`, where `len` is the length of `s`. -/
def sameStart (arg s : List Char) : Bool := s.isPrefixOf arg

/-- The value of the first argument that `getarg(s, ac, av)` finds. -/
def getarg (s : List Char) (av : List (List Char)) : Option (List Char) :=
  (av.tail.find? (sameStart · s)).map (·.drop s.length)

/-- The text of a string before its first `=`. -/
def nameOf (arg : List Char) : List Char := arg.takeWhile (· ≠ '=')

/-- Exactly the options are accepted: strings with a `=`, behind a name of the table. And what is
accepted will be found. -/
def AcceptsExactly (macros : Macros) (arg : List Char) : Prop :=
  (chkarg macros arg = .ok () ↔ '=' ∈ arg ∧ nameOf arg ∈ cmds macros) ∧
    (chkarg macros arg = .ok () →
      ∃ name ∈ cmds macros, (getarg (name ++ ['=']) [[], arg]).isSome)

/-- No name has a `=` in it. -/
theorem equals_notMem {macros : Macros} {name : List Char} (listed : name ∈ cmds macros) :
    '=' ∉ name := by
  obtain ⟨e, member, rfl⟩ := List.mem_map.mp listed
  have all : ∀ e ∈ cmdTable, '=' ∉ e.1.toList := by decide
  exact all e (List.mem_of_mem_filter member)

/-- The scan gets to a `=` if all before it is the beginning of the name. -/
theorem scan_eq_iff {arg name : List Char} (plain : '=' ∉ name) :
    scan arg name = some '=' ↔ '=' ∈ arg ∧ nameOf arg <+: name := by
  induction arg generalizing name with
  | nil => simp [scan]
  | cons a as ih =>
    by_cases equals : a = '='
    · subst equals
      have stops : scan ('=' :: as) name = some '=' := by
        cases name with
        | nil => rfl
        | cons b bs =>
          rw [List.mem_cons, not_or] at plain
          exact if_neg plain.1
      simp [stops, nameOf]
    · have text : nameOf (a :: as) = a :: nameOf as :=
        List.takeWhile_cons_of_pos (by simpa using equals)
      rw [text, List.mem_cons, or_iff_right (Ne.symm equals)]
      cases name with
      | nil => simp [scan, equals]
      | cons b bs =>
        rw [List.mem_cons, not_or] at plain
        rw [scan, List.cons_prefix_cons]
        by_cases same : a = b
        · rw [if_pos same, ih plain.2]
          simp [same]
        · rw [if_neg same]
          simp [same, equals]

/-- **What is accepted**: strings with a `=`, behind the beginning of a name. -/
theorem chkarg_eq_ok_iff {macros : Macros} {arg : List Char} :
    chkarg macros arg = .ok () ↔ '=' ∈ arg ∧ ∃ name ∈ cmds macros, nameOf arg <+: name := by
  have accepted : chkarg macros arg = .ok () ↔
      ∃ name ∈ cmds macros, scan arg name = some '=' := by
    rw [chkarg]
    split
    · rename_i some
      simpa using some
    · rename_i none
      simpa using none
  rw [accepted]
  constructor
  · rintro ⟨name, listed, stops⟩
    obtain ⟨equals, starts⟩ := (scan_eq_iff (equals_notMem listed)).mp stops
    exact ⟨equals, name, listed, starts⟩
  · rintro ⟨equals, name, listed, starts⟩
    exact ⟨name, listed, (scan_eq_iff (equals_notMem listed)).mpr ⟨equals, starts⟩⟩

/-- An argument is found by the text before its `=`. -/
theorem nameOf_append_starts {arg : List Char} (equals : '=' ∈ arg) :
    nameOf arg ++ ['='] <+: arg := by
  induction arg with
  | nil => exact absurd equals List.not_mem_nil
  | cons a as ih =>
    by_cases same : a = '='
    · subst same
      exact ⟨as, rfl⟩
    · have text : nameOf (a :: as) = a :: nameOf as :=
        List.takeWhile_cons_of_pos (by simpa using same)
      rw [List.mem_cons, or_iff_right (Ne.symm same)] at equals
      rw [text, List.cons_append, List.cons_prefix_cons]
      exact ⟨rfl, ih equals⟩

theorem getarg_isSome_iff {name arg : List Char} :
    (getarg (name ++ ['=']) [[], arg]).isSome ↔ name ++ ['='] <+: arg := by
  rw [getarg, Option.isSome_map, List.find?_isSome]
  simp [sameStart]

/-- **When exactly the options are accepted.** For every string and whatever is compiled: that it
is accepted if and only if it has a name of the table before its first `=`, and then found,
holds unless it has something there that is only the beginning of a name. -/
theorem acceptsExactly_iff (macros : Macros) (arg : List Char) :
    AcceptsExactly macros arg ↔
      '=' ∉ arg ∨ nameOf arg ∈ cmds macros ∨ ∀ name ∈ cmds macros, ¬nameOf arg <+: name := by
  rw [AcceptsExactly, chkarg_eq_ok_iff]
  constructor
  · rintro ⟨exactly, _⟩
    by_contra other
    simp only [not_or, not_not, not_forall] at other
    obtain ⟨equals, unlisted, name, listed, starts⟩ := other
    exact unlisted (exactly.mp ⟨equals, name, listed, starts⟩).2
  · intro fine
    have exactly : ('=' ∈ arg ∧ ∃ name ∈ cmds macros, nameOf arg <+: name) ↔
        '=' ∈ arg ∧ nameOf arg ∈ cmds macros := by
      refine and_congr_right fun equals => ⟨?_, fun listed => ⟨_, listed, List.prefix_rfl⟩⟩
      rintro ⟨name, listed, starts⟩
      rcases fine with none | listed' | never
      · exact absurd equals none
      · exact listed'
      · exact absurd starts (never name listed)
    refine ⟨exactly, fun accepted => ⟨nameOf arg, (exactly.mp accepted).2, ?_⟩⟩
    exact getarg_isSome_iff.mpr (nameOf_append_starts accepted.1)

/-- `cou=5` begins like a count, and nothing looks for it. -/
def abbreviated : List Char := "cou=5".toList

/-- **The slip.** An abbreviation is accepted. -/
theorem not_acceptsExactly :
    ¬∀ (macros : Macros) (arg : List Char), AcceptsExactly macros arg := by
  intro always
  let macros : Macros := ⟨false, false, false, false, false, false, false, false⟩
  have accepted : chkarg macros abbreviated = .ok () :=
    chkarg_eq_ok_iff.mpr ⟨by decide, "count".toList, by decide, by decide⟩
  have listed := ((always macros abbreviated).1.mp accepted).2
  exact absurd listed (by decide)

end Lmbench.Lmdd
