import Mathlib.Data.List.Basic

/-!
# `getopt`

The option parser that the programs share. Besides `optind` it keeps a static
cursor `n` inside the word it is in, so that a call may stop between two letters
of a group. A call is a function of both, and of the argument vector and the
option string.

Strings are lists of their characters without the terminating NUL, which reading
past the last character finds as `none`.

## Main results

* `accept_flag_grouped`, `accept_flag_last`, `accept_attached`, `accept_bare`,
  `accept_separate` - what a call does at a letter of each kind, and where it leaves
  the cursor
* `getopt_of_stop` - where it returns `EOF`
-/

namespace Lmbench.Options

/-- A C string. -/
abbrev CString := List Char

/-- What a call returns; `assert` may also end the program. -/
inductive Reply
  | eof
  | letter (c : Char)
  | aborted
deriving DecidableEq, Repr

/-- The variables of the parser: `optind`, `optarg`, `optopt` and the static `n`. -/
structure Scanner where
  optind : ℕ
  n : ℕ
  optarg : Option CString
  optopt : Option Char
deriving DecidableEq, Repr

/-- The first lines of a call: `optind = 0` restarts the scan. -/
def Scanner.restart (g : Scanner) : Scanner :=
  if g.optind = 0 then { g with optind := 1, n := 1 } else g

/-- There is no option at the scanner: the arguments are used up, or the word is an
operand. -/
def AtEnd (av : List CString) (g : Scanner) : Prop :=
  av.length ≤ g.optind ∨ (av.getD g.optind [])[0]? ≠ some '-' ∨
    (av.getD g.optind [])[1]? = none

instance (av : List CString) (g : Scanner) : Decidable (AtEnd av g) := by
  unfold AtEnd
  infer_instance

/-- The part of a call behind the search for the letter; `t` is the found letter
and `mark` what follows it in the option string. -/
def accept (av : List CString) (t : Char) (mark : Option Char) (g : Scanner) :
    Reply × Scanner :=
  let word := av.getD g.optind []
  -- a plain letter: the next call is inside the word, or at the next word
  if mark ≠ some ':' ∧ mark ≠ some '|' ∧ mark ≠ some ';' then
    if word[g.n + 1]? = none then (.letter t, { g with optind := g.optind + 1, n := 1 })
    else (.letter t, { g with n := g.n + 1 })
  -- cozied up to the flag
  else if word[g.n + 1]? ≠ none then
    (.letter t, { g with optarg := some (word.drop (g.n + 1)), optind := g.optind + 1, n := 1 })
  else if mark = some '|' then
    (.letter t, { g with optarg := none, optind := g.optind + 1, n := 1 })
  -- here the cursor stays where it was
  else if mark = some ';' then
    (.letter '?', { g with optarg := none, optind := g.optind + 1, optopt := some t })
  -- `:` takes the next word, unless there is none or it looks like an option
  else if g.optind + 1 = av.length ∨ (av.getD (g.optind + 1) [])[0]? = some '-' then
    (.letter '?', { g with optopt := word[g.n]? })
  else
    (.letter t,
      { g with optarg := some (av.getD (g.optind + 1) []), optind := g.optind + 2, n := 1 })

/-- `getopt`. -/
def getopt (av : List CString) (opts : CString) (g : Scanner) : Reply × Scanner :=
  let g := g.restart
  if AtEnd av g then (.eof, g)
  else
    match (av.getD g.optind [])[g.n]? with
    -- `assert(av[optind][n])`
    | none => (.aborted, g)
    | some c =>
      match opts.dropWhile (· ≠ c) with
      | [] => (.letter '?', { g with optopt := some c })
      | t :: rest => accept av t rest.head? g

/-- The calls that a program makes one after the other: what each returned and
where `optarg` pointed then, and the variables at the end. -/
def calls (av : List CString) (opts : CString) :
    ℕ → Scanner → List (Reply × Option CString) × Scanner
  | 0, g => ([], g)
  | k + 1, g =>
    let (reply, next) := getopt av opts g
    let (later, last) := calls av opts k next
    ((reply, next.optarg) :: later, last)

theorem calls_add (av : List CString) (opts : CString) (j k : ℕ) (g : Scanner) :
    calls av opts (j + k) g =
      ((calls av opts j g).1 ++ (calls av opts k (calls av opts j g).2).1,
        (calls av opts k (calls av opts j g).2).2) := by
  induction j generalizing g with
  | zero => simp [calls]
  | succ j ih => simp [Nat.add_right_comm j 1 k, calls, ih]

theorem getopt_restart (av : List CString) (opts : CString) (g : Scanner) :
    getopt av opts g.restart = getopt av opts g := by
  have idempotent : g.restart.restart = g.restart := by
    unfold Scanner.restart
    split <;> simp_all
  simp only [getopt, idempotent]

theorem calls_restart (av : List CString) (opts : CString) (k : ℕ) (g : Scanner) :
    calls av opts (k + 1) g.restart = calls av opts (k + 1) g := by
  simp only [calls, getopt_restart]

/-! ### The two places where a call may start -/

/-- The scanner stands in front of a word: `before` is done with, `after` is not. -/
structure InFront (av : List CString) (g : Scanner) (before after : List CString) : Prop where
  av_eq : av = before ++ after
  started : before ≠ []
  optind_eq : g.optind = before.length
  n_eq : g.n = 1

/-- The scanner stands inside an option word, the letters `read` behind it and
`rest` ahead. -/
structure Inside (av : List CString) (g : Scanner) (before : List CString) (read rest : CString)
    (after : List CString) : Prop where
  av_eq : av = before ++ ('-' :: (read ++ rest)) :: after
  started : before ≠ []
  optind_eq : g.optind = before.length
  n_eq : g.n = read.length + 1

variable {av before after : List CString} {opts read rest : CString} {g : Scanner} {c : Char}

theorem InFront.inside (here : InFront av g before (('-' :: rest) :: after)) :
    Inside av g before [] rest after where
  av_eq := here.av_eq
  started := here.started
  optind_eq := here.optind_eq
  n_eq := here.n_eq

namespace Inside

theorem restart_eq (here : Inside av g before read rest after) : g.restart = g := by
  have positive := List.length_pos_iff.mpr here.started
  rw [Scanner.restart, if_neg]
  have := here.optind_eq
  omega

theorem word_eq (here : Inside av g before read rest after) :
    av.getD g.optind [] = '-' :: (read ++ rest) := by
  simp [here.av_eq, here.optind_eq]

theorem ahead (here : Inside av g before read rest after) (k : ℕ) :
    (av.getD g.optind [])[g.n + k]? = rest[k]? := by
  have shift : read.length + 1 + k = read.length + k + 1 := by omega
  rw [here.word_eq, here.n_eq, shift, List.getElem?_cons_succ,
    List.getElem?_append_right (by omega)]
  congr 1
  omega

theorem not_atEnd (here : Inside av g before read (c :: rest) after) : ¬ AtEnd av g := by
  have length : av.length = before.length + (after.length + 1) := by simp [here.av_eq]
  unfold AtEnd
  rw [here.word_eq]
  rintro (done | other | single)
  · have := here.optind_eq
    omega
  · simp at other
  · cases read <;> simp at single

/-- A call inside a word hands the letter it stands at to the search and then to
`accept`. -/
theorem getopt_eq {found : CString} (here : Inside av g before read (c :: rest) after)
    (search : opts.dropWhile (· ≠ c) = c :: found) :
    getopt av opts g = accept av c found.head? g := by
  have letter : (av.getD g.optind [])[g.n]? = some c := by simpa using here.ahead 0
  simp only [getopt, here.restart_eq, if_neg here.not_atEnd, letter, search]

/-! What `accept` does at each kind of letter, and where the scanner is afterwards. -/

theorem accept_flag_grouped {d : Char} {mark : Option Char}
    (here : Inside av g before read (c :: d :: rest) after)
    (plain : mark ≠ some ':' ∧ mark ≠ some '|' ∧ mark ≠ some ';') :
    ∃ next, accept av c mark g = (.letter c, next) ∧
      Inside av next before (read ++ [c]) (d :: rest) after := by
  have more : (av.getD g.optind [])[g.n + 1]? = some d := by simpa using here.ahead 1
  refine ⟨{ g with n := g.n + 1 }, ?_, ?_⟩
  · rw [accept, if_pos plain, more]
    rfl
  · exact ⟨by simpa using here.av_eq, here.started, here.optind_eq, by simp [here.n_eq]⟩

theorem accept_flag_last {mark : Option Char} (here : Inside av g before read [c] after)
    (plain : mark ≠ some ':' ∧ mark ≠ some '|' ∧ mark ≠ some ';') :
    ∃ next, accept av c mark g = (.letter c, next) ∧
      InFront av next (before ++ ['-' :: (read ++ [c])]) after := by
  have last : (av.getD g.optind [])[g.n + 1]? = none := by simpa using here.ahead 1
  refine ⟨{ g with optind := g.optind + 1, n := 1 }, ?_, ?_⟩
  · rw [accept, if_pos plain, if_pos last]
  · exact ⟨by simpa using here.av_eq, by simp, by simp [here.optind_eq], rfl⟩

theorem accept_attached {mark : Option Char}
    (here : Inside av g before read (c :: rest) after) (nonempty : rest ≠ [])
    (takes : mark = some ':' ∨ mark = some '|' ∨ mark = some ';') :
    ∃ next, accept av c mark g = (.letter c, next) ∧ next.optarg = some rest ∧
      InFront av next (before ++ ['-' :: (read ++ c :: rest)]) after := by
  have more : (av.getD g.optind [])[g.n + 1]? ≠ none := by
    rw [here.ahead 1]
    cases rest <;> simp_all
  have argument : (av.getD g.optind []).drop (g.n + 1) = rest := by
    rw [here.word_eq, here.n_eq]
    simp [List.drop_append]
  have takes' : ¬ (mark ≠ some ':' ∧ mark ≠ some '|' ∧ mark ≠ some ';') := by tauto
  refine ⟨{ g with optarg := some rest, optind := g.optind + 1, n := 1 }, ?_, rfl, ?_⟩
  · rw [accept, if_neg takes', if_pos more, argument]
  · exact ⟨by simpa using here.av_eq, by simp, by simp [here.optind_eq], rfl⟩

theorem accept_bare (here : Inside av g before read [c] after) :
    ∃ next, accept av c (some '|') g = (.letter c, next) ∧ next.optarg = none ∧
      InFront av next (before ++ ['-' :: (read ++ [c])]) after := by
  have last : (av.getD g.optind [])[g.n + 1]? = none := by simpa using here.ahead 1
  refine ⟨{ g with optarg := none, optind := g.optind + 1, n := 1 }, ?_, rfl, ?_⟩
  · rw [accept, if_neg (by simp), if_neg (by simpa using last), if_pos rfl]
  · exact ⟨by simpa using here.av_eq, by simp, by simp [here.optind_eq], rfl⟩

theorem accept_separate {arg : CString} (here : Inside av g before read [c] (arg :: after))
    (noDash : arg[0]? ≠ some '-') :
    ∃ next, accept av c (some ':') g = (.letter c, next) ∧ next.optarg = some arg ∧
      InFront av next (before ++ ['-' :: (read ++ [c]), arg]) after := by
  have last : (av.getD g.optind [])[g.n + 1]? = none := by simpa using here.ahead 1
  have following : av.getD (g.optind + 1) [] = arg := by
    simp [here.av_eq, here.optind_eq]
  have another : ¬ (g.optind + 1 = av.length ∨ (av.getD (g.optind + 1) [])[0]? = some '-') := by
    rw [following]
    rintro (final | dash)
    · simp [here.av_eq, here.optind_eq] at final
    · exact noDash dash
  refine ⟨{ g with optarg := some arg, optind := g.optind + 2, n := 1 }, ?_, rfl, ?_⟩
  · rw [accept, if_neg (by simp), if_neg (by simpa using last), if_neg (by simp),
      if_neg (by simp), if_neg another, following]
  · exact ⟨by simpa using here.av_eq, by simp, by simp [here.optind_eq], rfl⟩

end Inside

/-- **Where a scan ends.** In front of an operand, or of nothing, a call returns
`EOF` and keeps its place. -/
theorem getopt_of_stop (here : InFront av g before after)
    (stops : ∀ word ∈ after.head?, word[0]? ≠ some '-' ∨ word = ['-']) :
    getopt av opts g = (.eof, g) := by
  have positive := List.length_pos_iff.mpr here.started
  have same : g.restart = g := by
    rw [Scanner.restart, if_neg]
    have := here.optind_eq
    omega
  have finished : AtEnd av g := by
    have length : av.length = before.length + after.length := by simp [here.av_eq]
    cases after with
    | nil =>
      left
      simp [length, here.optind_eq]
    | cons word later =>
      have current : av.getD g.optind [] = word := by simp [here.av_eq, here.optind_eq]
      right
      rw [current]
      rcases stops word rfl with operand | rfl
      · exact .inl operand
      · exact .inr rfl
  rw [getopt, same, if_pos finished]

end Lmbench.Options
