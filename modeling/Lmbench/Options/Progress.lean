import Lmbench.Options.Spelling
import Mathlib.Data.List.GetD

/-!
# Whether a loop over `getopt` ends

A program calls `getopt` until it returns `EOF`. Every other call should move the cursor
`(optind, n)`, and none should find it behind the end of a word. Where the words can be read
in one way or another this is so; a letter that cannot be read is reported over and over.

## Main results

* `LoopEnds.of_next`, `LoopEnds.next` - the property of a loop, one call at a time
* `loopEnds_iff` - the command lines over which the loop ends
-/

namespace Lmbench.Options

/-- The cursor moves on, in lexicographic order. -/
def Scanner.Before (g next : Scanner) : Prop :=
  g.optind < next.optind ∨ g.optind = next.optind ∧ g.n < next.n

section Loop

variable (av : List CString) (opts : CString) (g : Scanner)

/-- The variables after `k` calls. -/
def stateAt (k : ℕ) : Scanner := (calls av opts k g).2

/-- What the call of number `k` returns. -/
def replyAt (k : ℕ) : Reply := (getopt av opts (stateAt av opts g k)).1

/-- In a loop until `EOF`: each call before moves the cursor on from where it begins, no assertion
fails, and the loop ends. -/
structure LoopEnds : Prop where
  advances : ∀ k, (∀ j ≤ k, replyAt av opts g j ≠ .eof) →
    (stateAt av opts g k).restart.Before (stateAt av opts g (k + 1))
  asserts : ∀ k, (∀ j < k, replyAt av opts g j ≠ .eof) → replyAt av opts g k ≠ .aborted
  ends : ∃ k, replyAt av opts g k = .eof

end Loop

/-- What an option takes by the character behind it in the option string. -/
def takesOfMark : Option Char → Takes
  | some ':' => .argument
  | some '|' => .optional
  | some ';' => .attached
  | _ => .nothing

/-- What a letter takes, if it is in the option string. -/
def takesOf (opts : CString) (c : Char) : Option Takes :=
  match opts.dropWhile (· ≠ c) with
  | [] => none
  | _ :: rest => some (takesOfMark rest.head?)

/-- The words that are left can be read from the character `n` of the first on: up to an operand
every letter is an option, and one that takes an argument finds it, in its word or in the
next. -/
inductive Readable (opts : CString) : ℕ → List CString → Prop
  | finished (n : ℕ) : Readable opts n []
  | operand {word : CString} (n : ℕ) (rest : List CString)
      (operand : word[0]? ≠ some '-' ∨ word[1]? = none) : Readable opts n (word :: rest)
  | flag {n : ℕ} {word : CString} {rest : List CString} {c : Char} (letter : word[n]? = some c)
      (takes : takesOf opts c = some .nothing) (more : word[n + 1]? ≠ none)
      (later : Readable opts (n + 1) (word :: rest)) : Readable opts n (word :: rest)
  | last {n : ℕ} {word : CString} {rest : List CString} {c : Char} (letter : word[n]? = some c)
      (takes : takesOf opts c = some .nothing ∨ takesOf opts c = some .optional)
      (final : word[n + 1]? = none) (later : Readable opts 1 rest) : Readable opts n (word :: rest)
  | attached {n : ℕ} {word : CString} {rest : List CString} {c : Char} {kind : Takes}
      (letter : word[n]? = some c) (takes : takesOf opts c = some kind) (one : kind ≠ .nothing)
      (more : word[n + 1]? ≠ none) (later : Readable opts 1 rest) : Readable opts n (word :: rest)
  /-- The argument is missing from its word, and the next word is read from the same place on. -/
  | missing {n : ℕ} {word : CString} {rest : List CString} {c : Char} (letter : word[n]? = some c)
      (takes : takesOf opts c = some .attached) (final : word[n + 1]? = none)
      (later : Readable opts n rest) : Readable opts n (word :: rest)
  | separate {n : ℕ} {word arg : CString} {rest : List CString} {c : Char}
      (letter : word[n]? = some c) (takes : takesOf opts c = some .argument)
      (final : word[n + 1]? = none) (noDash : arg[0]? ≠ some '-') (later : Readable opts 1 rest) :
      Readable opts n (word :: arg :: rest)

/-! ### The loop, one call at a time -/

section Loop

variable {av : List CString} {opts : CString} {g : Scanner}

theorem replyAt_succ (k : ℕ) :
    replyAt av opts g (k + 1) = replyAt av opts (getopt av opts g).2 k := rfl

theorem LoopEnds.of_eof (eof : (getopt av opts g).1 = .eof) : LoopEnds av opts g where
  advances k none := absurd eof (none 0 (Nat.zero_le k))
  asserts k none := by
    cases k with
    | zero =>
      show (getopt av opts g).1 ≠ _
      rw [eof]
      exact Reply.noConfusion
    | succ k => exact absurd eof (none 0 (Nat.succ_pos k))
  ends := ⟨0, eof⟩

/-- A call that moves on may come before a loop that ends. -/
theorem LoopEnds.of_next (kept : (getopt av opts g).1 ≠ .aborted)
    (moves : g.restart.Before (getopt av opts g).2)
    (next : LoopEnds av opts (getopt av opts g).2) : LoopEnds av opts g where
  advances k none := by
    cases k with
    | zero => exact moves
    | succ k => exact next.advances k fun j hj => none (j + 1) (by omega)
  asserts k none := by
    cases k with
    | zero => exact kept
    | succ k => exact next.asserts k fun j hj => none (j + 1) (by omega)
  ends := by
    obtain ⟨k, eof⟩ := next.ends
    exact ⟨k + 1, eof⟩

/-- In a loop that ends a call that does not return `EOF` moves on, and the rest ends too. -/
theorem LoopEnds.next (loop : LoopEnds av opts g) (goes : (getopt av opts g).1 ≠ .eof) :
    (getopt av opts g).1 ≠ .aborted ∧ g.restart.Before (getopt av opts g).2 ∧
      LoopEnds av opts (getopt av opts g).2 := by
  refine ⟨loop.asserts 0 fun j hj => absurd hj (Nat.not_lt_zero j), loop.advances 0 fun j hj => ?_,
    fun k none => loop.advances (k + 1) fun j hj => ?_,
    fun k none => loop.asserts (k + 1) fun j hj => ?_, ?_⟩
  · obtain rfl := Nat.le_zero.mp hj
    exact goes
  · cases j with
    | zero => exact goes
    | succ j => exact none j (by omega)
  · cases j with
    | zero => exact goes
    | succ j => exact none j (by omega)
  · obtain ⟨k, eof⟩ := loop.ends
    cases k with
    | zero => exact absurd eof goes
    | succ k => exact ⟨k, eof⟩

end Loop

/-! ### One call by the words that are left -/

theorem takesOfMark_nothing {mark : Option Char} (plain : takesOfMark mark = .nothing) :
    mark ≠ some ':' ∧ mark ≠ some '|' ∧ mark ≠ some ';' := by
  refine ⟨?_, ?_, ?_⟩ <;>
    · rintro rfl
      cases plain

theorem takesOfMark_marked {mark : Option Char} {kind : Takes} (marked : takesOfMark mark = kind)
    (one : kind ≠ .nothing) : mark = kind.marks.head? := by
  unfold takesOfMark at marked
  split at marked
  · exact marked ▸ rfl
  · exact marked ▸ rfl
  · exact marked ▸ rfl
  · exact absurd marked.symm one

/-- A letter that ends its word and takes an argument from the next. -/
theorem accept_argument {av : List CString} {g : Scanner} {t : Char}
    (final : (av.getD g.optind [])[g.n + 1]? = none) :
    accept av t (some ':') g =
      if g.optind + 1 = av.length ∨ (av.getD (g.optind + 1) [])[0]? = some '-' then
        (.letter '?', { g with optopt := (av.getD g.optind [])[g.n]? })
      else (.letter t,
        { g with optarg := some (av.getD (g.optind + 1) []), optind := g.optind + 2, n := 1 }) := by
  rw [accept, if_neg (by simp), if_neg (by simpa using final), if_neg (by simp), if_neg (by simp)]

/-- The parser is at the character `n` of the first of these words. -/
structure Stands (av : List CString) (g : Scanner) (n : ℕ) (words : List CString) : Prop where
  started : g.optind ≠ 0
  n_eq : g.n = n
  drop_eq : av.drop g.optind = words

section Call

variable {av rest : List CString} {opts word : CString} {g : Scanner} {n : ℕ} {c : Char}

theorem Stands.restart_eq {words : List CString} (here : Stands av g n words) : g.restart = g :=
  if_neg here.started

theorem Stands.split (here : Stands av g n (word :: rest)) :
    g.optind < av.length ∧ av.getD g.optind [] = word ∧ av.drop (g.optind + 1) = rest := by
  have inside : g.optind < av.length := by
    by_contra outside
    have := here.drop_eq
    rw [List.drop_eq_nil_of_le (Nat.not_lt.mp outside)] at this
    cases this
  have both := here.drop_eq
  rw [List.drop_eq_getElem_cons inside] at both
  injection both with first others
  exact ⟨inside, by rw [List.getD_eq_getElem _ _ inside, first], others⟩

/-- A call at the end of the options. -/
theorem Stands.getopt_eof {words : List CString} (here : Stands av g n words)
    (stops : ∀ word ∈ words.head?, word[0]? ≠ some '-' ∨ word[1]? = none) :
    (getopt av opts g).1 = .eof := by
  have atEnd : AtEnd av g := by
    cases words with
    | nil => exact .inl (List.drop_eq_nil_iff.mp here.drop_eq)
    | cons word rest =>
      obtain ⟨_, current, _⟩ := here.split
      right
      rw [current]
      exact stops word rfl
  rw [getopt, here.restart_eq, if_pos atEnd]

variable (here : Stands av g n (word :: rest)) (option : word[0]? = some '-' ∧ word[1]? ≠ none)
include here option

theorem Stands.not_atEnd : ¬AtEnd av g := by
  obtain ⟨inside, current, _⟩ := here.split
  rw [AtEnd, current]
  rintro (done | operand | single)
  · omega
  · exact operand option.1
  · exact option.2 single

theorem Stands.getopt_past (past : word[n]? = none) : (getopt av opts g).1 = .aborted := by
  obtain ⟨_, current, _⟩ := here.split
  rw [getopt, here.restart_eq, if_neg (here.not_atEnd option), current, here.n_eq, past]

/-- A letter that is not in the option string leaves the cursor where it is. -/
theorem Stands.getopt_unknown (letter : word[n]? = some c) (unknown : takesOf opts c = none) :
    getopt av opts g = (.letter '?', { g with optopt := some c }) := by
  obtain ⟨_, current, _⟩ := here.split
  have search : opts.dropWhile (· ≠ c) = [] := by
    rw [takesOf] at unknown
    split at unknown
    · assumption
    · cases unknown
  rw [getopt, here.restart_eq, if_neg (here.not_atEnd option), current, here.n_eq, letter]
  simp only [search]

theorem Stands.getopt_known {kind : Takes} (letter : word[n]? = some c)
    (known : takesOf opts c = some kind) :
    ∃ t mark, takesOfMark mark = kind ∧ getopt av opts g = accept av t mark g := by
  obtain ⟨_, current, _⟩ := here.split
  rw [takesOf] at known
  rw [getopt, here.restart_eq, if_neg (here.not_atEnd option), current, here.n_eq, letter]
  simp only
  cases search : opts.dropWhile (· ≠ c) with
  | nil =>
    rw [search] at known
    cases known
  | cons t later =>
    rw [search] at known
    injection known with mark
    exact ⟨t, later.head?, mark, rfl⟩

theorem Stands.moves_flag (letter : word[n]? = some c) (takes : takesOf opts c = some .nothing)
    (more : word[n + 1]? ≠ none) :
    ∃ t next, getopt av opts g = (.letter t, next) ∧ g.Before next ∧
      Stands av next (n + 1) (word :: rest) := by
  obtain ⟨t, mark, plain, call⟩ := here.getopt_known option letter takes
  obtain ⟨_, current, _⟩ := here.split
  refine ⟨t, { g with n := g.n + 1 }, ?_, .inr ⟨rfl, Nat.lt_succ_self _⟩, here.started, ?_, ?_⟩
  · rw [call, accept, if_pos (takesOfMark_nothing plain), current, here.n_eq, if_neg more]
  · exact congrArg (· + 1) here.n_eq
  · exact here.drop_eq

theorem Stands.moves_last (letter : word[n]? = some c)
    (takes : takesOf opts c = some .nothing ∨ takesOf opts c = some .optional)
    (final : word[n + 1]? = none) :
    ∃ t next, getopt av opts g = (.letter t, next) ∧ g.Before next ∧ Stands av next 1 rest := by
  obtain ⟨_, current, following⟩ := here.split
  rcases takes with takes | takes
  · obtain ⟨t, mark, plain, call⟩ := here.getopt_known option letter takes
    refine ⟨t, { g with optind := g.optind + 1, n := 1 }, ?_, .inl (Nat.lt_succ_self _),
      Nat.succ_ne_zero _, rfl, following⟩
    rw [call, accept, if_pos (takesOfMark_nothing plain), current, here.n_eq, if_pos final]
  · obtain ⟨t, mark, marked, call⟩ := here.getopt_known option letter takes
    obtain rfl := takesOfMark_marked marked Takes.noConfusion
    refine ⟨t, { g with optarg := none, optind := g.optind + 1, n := 1 }, ?_,
      .inl (Nat.lt_succ_self _), Nat.succ_ne_zero _, rfl, following⟩
    rw [call, accept, current, here.n_eq, final]
    rfl

theorem Stands.moves_attached {kind : Takes} (letter : word[n]? = some c)
    (takes : takesOf opts c = some kind) (one : kind ≠ .nothing) (more : word[n + 1]? ≠ none) :
    ∃ t next, getopt av opts g = (.letter t, next) ∧ g.Before next ∧ Stands av next 1 rest := by
  obtain ⟨_, current, following⟩ := here.split
  obtain ⟨t, mark, marked, call⟩ := here.getopt_known option letter takes
  obtain rfl := takesOfMark_marked marked one
  have argument : ¬(kind.marks.head? ≠ some ':' ∧ kind.marks.head? ≠ some '|' ∧
      kind.marks.head? ≠ some ';') := by
    cases kind with
    | nothing => exact absurd rfl one
    | argument | optional | attached => decide
  refine ⟨t, { g with optarg := some (word.drop (n + 1)), optind := g.optind + 1, n := 1 }, ?_,
    .inl (Nat.lt_succ_self _), Nat.succ_ne_zero _, rfl, following⟩
  rw [call, accept, if_neg argument, current, here.n_eq, if_pos more]

/-- An argument that is missing from its word: the next call is at the next word, with the
character that this call was at. -/
theorem Stands.moves_missing (letter : word[n]? = some c) (takes : takesOf opts c = some .attached)
    (final : word[n + 1]? = none) :
    ∃ next, getopt av opts g = (.letter '?', next) ∧ g.Before next ∧ Stands av next n rest := by
  obtain ⟨_, current, following⟩ := here.split
  obtain ⟨t, mark, marked, call⟩ := here.getopt_known option letter takes
  obtain rfl := takesOfMark_marked marked Takes.noConfusion
  refine ⟨{ g with optarg := none, optind := g.optind + 1, optopt := some t }, ?_,
    .inl (Nat.lt_succ_self _), Nat.succ_ne_zero _, here.n_eq, following⟩
  rw [call, accept, current, here.n_eq, final]
  rfl

/-- Without a next word for the argument the cursor stays. -/
theorem Stands.stays_separate (letter : word[n]? = some c)
    (takes : takesOf opts c = some .argument) (final : word[n + 1]? = none)
    (none : ∀ arg ∈ rest.head?, arg[0]? = some '-') :
    getopt av opts g = (.letter '?', { g with optopt := some c }) := by
  obtain ⟨inside, current, following⟩ := here.split
  obtain ⟨t, mark, marked, call⟩ := here.getopt_known option letter takes
  obtain rfl := takesOfMark_marked marked Takes.noConfusion
  have missing : g.optind + 1 = av.length ∨ (av.getD (g.optind + 1) [])[0]? = some '-' := by
    cases rest with
    | nil =>
      have := List.drop_eq_nil_iff.mp following
      omega
    | cons arg later =>
      have there : Stands av { g with optind := g.optind + 1 } n (arg :: later) :=
        ⟨Nat.succ_ne_zero _, here.n_eq, following⟩
      right
      rw [there.split.2.1]
      exact none arg rfl
  have last : (av.getD g.optind [])[g.n + 1]? = Option.none := by rwa [current, here.n_eq]
  exact call.trans ((accept_argument last).trans (by
    rw [if_pos missing, current, here.n_eq, letter]))

end Call

theorem Stands.moves_separate {av later : List CString} {opts word arg : CString} {g : Scanner}
    {n : ℕ} {c : Char} (here : Stands av g n (word :: arg :: later))
    (option : word[0]? = some '-' ∧ word[1]? ≠ none) (letter : word[n]? = some c)
    (takes : takesOf opts c = some .argument) (final : word[n + 1]? = none)
    (noDash : arg[0]? ≠ some '-') :
    ∃ t next, getopt av opts g = (.letter t, next) ∧ g.Before next ∧ Stands av next 1 later := by
  obtain ⟨inside, current, following⟩ := here.split
  obtain ⟨t, mark, marked, call⟩ := here.getopt_known option letter takes
  obtain rfl := takesOfMark_marked marked Takes.noConfusion
  have there : Stands av { g with optind := g.optind + 1 } n (arg :: later) :=
    ⟨Nat.succ_ne_zero _, here.n_eq, following⟩
  obtain ⟨another, argument, behind⟩ := there.split
  have found : ¬(g.optind + 1 = av.length ∨ (av.getD (g.optind + 1) [])[0]? = some '-') := by
    rw [argument]
    rintro (last | dash)
    · exact absurd last (Nat.ne_of_lt another)
    · exact noDash dash
  refine ⟨t, { g with optarg := some arg, optind := g.optind + 2, n := 1 }, ?_,
    .inl (Nat.lt_add_of_pos_right (by decide)), Nat.succ_ne_zero _, rfl, behind⟩
  have last : (av.getD g.optind [])[g.n + 1]? = none := by rwa [current, here.n_eq]
  exact call.trans ((accept_argument last).trans (by rw [if_neg found, argument]))

/-! ### The words over which the loop ends -/

section Words

variable {av words : List CString} {opts : CString} {g : Scanner} {n : ℕ}

/-- A call that moves on, to words over which the loop ends. -/
theorem Stands.loopEnds_of_move (here : Stands av g n words) {c : Char} {next : Scanner}
    (call : getopt av opts g = (.letter c, next)) (moves : g.Before next)
    (later : LoopEnds av opts next) : LoopEnds av opts g := by
  refine .of_next ?_ ?_ ?_
  · rw [call]
    exact Reply.noConfusion
  · rwa [here.restart_eq, call]
  · rwa [call]

/-- A call stops, or there is a word to be read. -/
theorem stops_or_option (word : CString) :
    (word[0]? ≠ some '-' ∨ word[1]? = none) ∨ (word[0]? = some '-' ∧ word[1]? ≠ none) := by
  tauto

/-- **Over words that can be read the loop ends.** -/
theorem Readable.loopEnds (readable : Readable opts n words) (here : Stands av g n words) :
    LoopEnds av opts g := by
  -- words that begin with an operand end the loop at once
  have atOperand {word : CString} {rest : List CString} {g : Scanner} {n : ℕ}
      (here : Stands av g n (word :: rest)) (operand : word[0]? ≠ some '-' ∨ word[1]? = none) :
      LoopEnds av opts g := by
    refine .of_eof (here.getopt_eof fun first member => ?_)
    obtain rfl := Option.some.inj member
    exact operand
  induction readable generalizing g with
  | finished n => exact .of_eof (here.getopt_eof fun word member => by cases member)
  | operand n rest operand => exact atOperand here operand
  | @flag n word rest c letter takes more _ ih =>
    rcases stops_or_option word with operand | option
    · exact atOperand here operand
    · obtain ⟨t, next, call, moves, there⟩ := here.moves_flag option letter takes more
      exact here.loopEnds_of_move call moves (ih there)
  | @last n word rest c letter takes final _ ih =>
    rcases stops_or_option word with operand | option
    · exact atOperand here operand
    · obtain ⟨t, next, call, moves, there⟩ := here.moves_last option letter takes final
      exact here.loopEnds_of_move call moves (ih there)
  | @attached n word rest c kind letter takes one more _ ih =>
    rcases stops_or_option word with operand | option
    · exact atOperand here operand
    · obtain ⟨t, next, call, moves, there⟩ := here.moves_attached option letter takes one more
      exact here.loopEnds_of_move call moves (ih there)
  | @missing n word rest c letter takes final _ ih =>
    rcases stops_or_option word with operand | option
    · exact atOperand here operand
    · obtain ⟨next, call, moves, there⟩ := here.moves_missing option letter takes final
      exact here.loopEnds_of_move call moves (ih there)
  | @separate n word arg rest c letter takes final noDash _ ih =>
    rcases stops_or_option word with operand | option
    · exact atOperand here operand
    · obtain ⟨t, next, call, moves, there⟩ :=
        here.moves_separate option letter takes final noDash
      exact here.loopEnds_of_move call moves (ih there)

/-- A call that leaves the cursor where it is is made over and over. -/
theorem Stands.not_loopEnds_of_stay (here : Stands av g n words) {c : Char} {next : Scanner}
    (call : getopt av opts g = (.letter c, next)) (optind : next.optind = g.optind)
    (same : next.n = g.n) : ¬LoopEnds av opts g := by
  intro loop
  have goes : (getopt av opts g).1 ≠ .eof := by
    rw [call]
    exact Reply.noConfusion
  have moves := (loop.next goes).2.1
  rw [here.restart_eq, call] at moves
  rcases moves with later | ⟨_, further⟩
  · exact absurd later (by simp only [optind, Nat.lt_irrefl, not_false_eq_true])
  · exact absurd further (by simp only [same, Nat.lt_irrefl, not_false_eq_true])

/-- If the loop ends, and what the next call leaves can be read, so can what this call is at. -/
theorem Stands.readable_of_later (here : Stands av g n words) (loop : LoopEnds av opts g)
    (later : ∀ c next m left, getopt av opts g = (.letter c, next) → Stands av next m left →
      Readable opts m left) : Readable opts n words := by
  cases words with
  | nil => exact .finished n
  | cons word rest =>
    rcases stops_or_option word with operand | option
    · exact .operand n rest operand
    cases letter : word[n]? with
    | none =>
      have aborted : (getopt av opts g).1 = .aborted := here.getopt_past option letter
      exact absurd aborted (loop.asserts 0 fun j hj => absurd hj (Nat.not_lt_zero j))
    | some c =>
      cases takes : takesOf opts c with
      | none =>
        have stays := here.getopt_unknown option letter takes
        exact absurd loop (here.not_loopEnds_of_stay stays rfl rfl)
      | some kind =>
        by_cases final : word[n + 1]? = none
        · cases kind with
          | nothing =>
            obtain ⟨t, next, call, _, there⟩ := here.moves_last option letter (.inl takes) final
            exact .last letter (.inl takes) final (later t next 1 rest call there)
          | optional =>
            obtain ⟨t, next, call, _, there⟩ := here.moves_last option letter (.inr takes) final
            exact .last letter (.inr takes) final (later t next 1 rest call there)
          | attached =>
            obtain ⟨next, call, _, there⟩ := here.moves_missing option letter takes final
            exact .missing letter takes final (later '?' next n rest call there)
          | argument =>
            by_cases none : ∀ arg ∈ rest.head?, arg[0]? = some '-'
            · have stays := here.stays_separate option letter takes final none
              exact absurd loop (here.not_loopEnds_of_stay stays rfl rfl)
            · cases rest with
              | nil => exact absurd (fun arg member => by cases member) none
              | cons arg others =>
                have noDash : arg[0]? ≠ some '-' := fun dash => none fun first member => by
                  obtain rfl := Option.some.inj member
                  exact dash
                obtain ⟨t, next, call, _, there⟩ :=
                  here.moves_separate option letter takes final noDash
                exact .separate letter takes final noDash (later t next 1 others call there)
        · by_cases plain : kind = .nothing
          · subst plain
            obtain ⟨t, next, call, _, there⟩ := here.moves_flag option letter takes final
            exact .flag letter takes final (later t next (n + 1) (word :: rest) call there)
          · obtain ⟨t, next, call, _, there⟩ :=
              here.moves_attached option letter takes plain final
            exact .attached letter takes plain final (later t next 1 rest call there)

/-- **And where it ends the words can be read.** The induction is on the calls that are left. -/
theorem LoopEnds.readable (loop : LoopEnds av opts g) (here : Stands av g n words) :
    Readable opts n words := by
  obtain ⟨k, eof⟩ := loop.ends
  induction k generalizing g n words with
  | zero =>
    refine here.readable_of_later loop fun c next m left call _ => ?_
    have letter : replyAt av opts g 0 = .letter c := congrArg Prod.fst call
    rw [letter] at eof
    cases eof
  | succ k ih =>
    refine here.readable_of_later loop fun c next m left call there => ?_
    have goes : (getopt av opts g).1 ≠ .eof := by
      rw [call]
      exact Reply.noConfusion
    have following := (loop.next goes).2.2
    rw [replyAt_succ, call] at eof
    rw [call] at following
    exact ih following there eof

end Words

theorem Scanner.restart_started (g : Scanner) : g.restart.optind ≠ 0 := by
  unfold restart
  split
  · exact Nat.one_ne_zero
  · assumption

/-- Restarting before the first call makes no difference. -/
theorem loopEnds_restart {av : List CString} {opts : CString} {g : Scanner} :
    LoopEnds av opts g.restart ↔ LoopEnds av opts g := by
  have twice : g.restart.restart = g.restart := if_neg g.restart_started
  by_cases eof : (getopt av opts g).1 = .eof
  · exact iff_of_true (.of_eof (by rwa [getopt_restart])) (.of_eof eof)
  · constructor
    · intro loop
      obtain ⟨kept, moves, next⟩ := loop.next (by rwa [getopt_restart])
      rw [getopt_restart] at kept moves next
      exact .of_next kept (twice ▸ moves) next
    · intro loop
      obtain ⟨kept, moves, next⟩ := loop.next eof
      refine .of_next ?_ ?_ ?_
      · rwa [getopt_restart]
      · rwa [getopt_restart, twice]
      · rwa [getopt_restart]

/-- **When a loop over `getopt` ends.** For every argument vector, every option string and every
state of the parser: each call that does not return `EOF` moves the cursor on, no assertion
fails and `EOF` is reached, if and only if the words from the cursor on can be read. -/
theorem loopEnds_iff (av : List CString) (opts : CString) (g : Scanner) :
    LoopEnds av opts g ↔ Readable opts g.restart.n (av.drop g.restart.optind) := by
  have here : Stands av g.restart g.restart.n (av.drop g.restart.optind) :=
    ⟨g.restart_started, rfl, rfl⟩
  rw [← loopEnds_restart]
  exact ⟨fun loop => loop.readable here, fun readable => readable.loopEnds here⟩

/-- `a.out -z`, where `-z` is not an option. -/
def unknownLetter : List CString := ["a.out".toList, "-z".toList]

/-- **The slip.** An unknown letter is reported for ever. -/
theorem not_loopEnds :
    ¬∀ (av : List CString) (opts : CString) (g : Scanner), g.optind = 0 → LoopEnds av opts g := by
  intro always
  have loop := always unknownLetter "fnpsx:y|".toList ⟨0, 0, none, none⟩ rfl
  obtain ⟨_, later | ⟨_, further⟩, _⟩ := loop.next (by decide)
  · exact absurd later (by decide)
  · exact absurd further (by decide)

end Lmbench.Options
