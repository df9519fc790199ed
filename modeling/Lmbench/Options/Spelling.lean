import Lmbench.Options.Getopt
import Mathlib.Data.List.Forall2

/-!
# Spelling a list of options, and reading it back

An option table says for each letter whether it takes an argument and where that
may stand. A command line is spelled in words, each a group of plain letters that
may end in one letter with an argument. Whatever the grouping, `getopt` gives the
items back.

## Main results

* `OptionTable.search` - what the search of `getopt` finds in an option string
* `calls_group` - the calls inside one word
* `getopt_recovers` - the calls over a whole command line
-/

namespace Lmbench.Options

/-- What an option letter takes: nothing, an argument (`:`), an argument in the same
word or none (`|`), or an argument in the same word (`;`). -/
inductive Takes
  | nothing
  | argument
  | optional
  | attached
deriving DecidableEq, Repr

/-- What stands behind such a letter in an option string. -/
def Takes.marks : Takes → CString
  | .nothing => []
  | .argument => [':']
  | .optional => ['|']
  | .attached => [';']

/-- The letters that `getopt` cannot have as options. -/
def reserved : CString := [':', '|', ';', '-']

/-- The options of a program. -/
structure OptionTable where
  entries : List (Char × Takes)
  distinct : (entries.map Prod.fst).Nodup
  letters : ∀ e ∈ entries, e.1 ∉ reserved

/-- The option string. -/
def OptionTable.opts (table : OptionTable) : CString :=
  table.entries.flatMap fun e => e.1 :: e.2.marks

/-- An option on the command line. -/
structure Item where
  letter : Char
  takes : Takes
  arg : Option CString
deriving DecidableEq, Repr

/-- The end of a word that is not a plain letter. -/
inductive Tail (table : OptionTable)
  /-- `-r<arg>` -/
  | attached (c : Char) (takes : Takes) (arg : CString) (entry : (c, takes) ∈ table.entries)
      (one : takes ≠ .nothing) (nonempty : arg ≠ [])
  /-- `-r <arg>` -/
  | separate (c : Char) (arg : CString) (entry : (c, .argument) ∈ table.entries)
      (noDash : arg[0]? ≠ some '-')
  /-- `-y` -/
  | bare (c : Char) (entry : (c, .optional) ∈ table.entries)

/-- An option word: plain letters and possibly one that takes an argument. -/
structure Group (table : OptionTable) where
  flags : CString
  tail : Option (Tail table)
  plain : ∀ c ∈ flags, (c, .nothing) ∈ table.entries
  nonempty : tail = none → flags ≠ []

variable {table : OptionTable}

/-- The item that ends a word. -/
def Tail.item : Tail table → Item
  | .attached c takes arg _ _ _ => ⟨c, takes, some arg⟩
  | .separate c arg _ _ => ⟨c, .argument, some arg⟩
  | .bare c _ => ⟨c, .optional, none⟩

/-- The letters it adds to the word. -/
def Tail.text : Tail table → CString
  | .attached c _ arg _ _ _ => c :: arg
  | .separate c _ _ _ => [c]
  | .bare c _ => [c]

/-- The word it adds. -/
def Tail.extra : Tail table → List CString
  | .attached .. => []
  | .separate _ arg _ _ => [arg]
  | .bare .. => []

namespace Group

/-- The items a word spells. -/
def items (group : Group table) : List Item :=
  group.flags.map (fun c => ⟨c, .nothing, none⟩) ++ (group.tail.map Tail.item).toList

/-- The words they are spelled with. -/
def words (group : Group table) : List CString :=
  ('-' :: (group.flags ++ (group.tail.map Tail.text).getD [])) ::
    (group.tail.map Tail.extra).getD []

end Group

/-- A call has returned the item: its letter, and its argument in `optarg` if the
letter may have one. -/
def Recovers (item : Item) (call : Reply × Option CString) : Prop :=
  call.1 = .letter item.letter ∧ (item.takes ≠ .nothing → call.2 = item.arg)

/-! ### The search in the option string -/

/-- No letter of another entry is met on the way to a letter. -/
theorem OptionTable.search {c : Char} {takes : Takes} (entry : (c, takes) ∈ table.entries) :
    ∃ later : List (Char × Takes), (∀ e ∈ later, e.1 ∉ reserved) ∧
      table.opts.dropWhile (· ≠ c) =
        c :: (takes.marks ++ later.flatMap fun e => e.1 :: e.2.marks) := by
  obtain ⟨before, later, split⟩ := List.append_of_mem entry
  have distinct := table.distinct
  have letters := table.letters
  rw [split] at distinct letters
  have skipped : ∀ x ∈ before.flatMap (fun e => e.1 :: e.2.marks), x ≠ c := by
    intro x member same
    obtain ⟨e, earlier, place⟩ := List.mem_flatMap.mp member
    subst same
    rcases List.mem_cons.mp place with letter | mark
    · have twice : x ∈ before.map Prod.fst := List.mem_map.mpr ⟨e, earlier, letter.symm⟩
      simp only [List.map_append, List.map_cons, List.nodup_append, List.mem_cons] at distinct
      exact distinct.2.2 _ twice _ (.inl rfl) rfl
    · have foreign : x ∉ reserved := letters (x, takes) (by simp)
      apply foreign
      rcases e with ⟨_, _ | _ | _ | _⟩ <;> simp_all [Takes.marks, reserved]
  refine ⟨later, fun e member => letters e (by simp [member]), ?_⟩
  rw [OptionTable.opts, split, List.flatMap_append, List.dropWhile_append_of_pos
    (by simpa using skipped)]
  simp

theorem OptionTable.search_flag {c : Char} (entry : (c, .nothing) ∈ table.entries) :
    ∃ found, table.opts.dropWhile (· ≠ c) = c :: found ∧ found.head? ≠ some ':' ∧
      found.head? ≠ some '|' ∧ found.head? ≠ some ';' := by
  obtain ⟨later, letters, search⟩ := OptionTable.search entry
  refine ⟨_, search, ?_⟩
  cases later with
  | nil => simp [Takes.marks]
  | cons e rest =>
    have foreign := letters e (by simp)
    simp only [reserved, List.mem_cons, not_or] at foreign
    simp [Takes.marks, foreign]

theorem OptionTable.search_marked {c mark : Char} {takes : Takes}
    (entry : (c, takes) ∈ table.entries) (marked : takes.marks = [mark]) :
    ∃ found, table.opts.dropWhile (· ≠ c) = c :: found ∧ found.head? = some mark := by
  obtain ⟨later, -, search⟩ := OptionTable.search entry
  exact ⟨_, search, by simp [marked]⟩

/-! ### The calls inside one word -/

section Words

variable {av before after : List CString} {read : CString} {g : Scanner}

/-- The call at the letter that ends a word with its argument. -/
theorem getopt_tail (tail : Tail table)
    (here : Inside av g before read tail.text (tail.extra ++ after)) :
    ∃ reply next, getopt av table.opts g = (reply, next) ∧
      Recovers tail.item (reply, next.optarg) ∧
      InFront av next (before ++ ('-' :: (read ++ tail.text)) :: tail.extra) after := by
  cases tail with
  | attached c takes arg entry one nonempty =>
    obtain ⟨mark, marked, known⟩ : ∃ mark, takes.marks = [mark] ∧
        (mark = ':' ∨ mark = '|' ∨ mark = ';') := by
      cases takes with
      | nothing => exact absurd rfl one
      | argument | optional | attached => exact ⟨_, rfl, by simp⟩
    obtain ⟨found, search, head⟩ := table.search_marked entry marked
    have takes_arg : found.head? = some ':' ∨ found.head? = some '|' ∨ found.head? = some ';' := by
      simpa [head] using known
    obtain ⟨next, accepted, optarg, there⟩ := here.accept_attached nonempty takes_arg
    exact ⟨_, next, (here.getopt_eq search).trans accepted, ⟨rfl, fun _ => optarg⟩, there⟩
  | separate c arg entry noDash =>
    obtain ⟨found, search, head⟩ := table.search_marked entry rfl
    obtain ⟨next, accepted, optarg, there⟩ := here.accept_separate noDash
    exact ⟨_, next, (here.getopt_eq search).trans (head ▸ accepted), ⟨rfl, fun _ => optarg⟩, there⟩
  | bare c entry =>
    obtain ⟨found, search, head⟩ := table.search_marked entry rfl
    obtain ⟨next, accepted, optarg, there⟩ := here.accept_bare
    exact ⟨_, next, (here.getopt_eq search).trans (head ▸ accepted), ⟨rfl, fun _ => optarg⟩, there⟩

/-- The calls from inside a word to its end; the induction is on the plain letters
still ahead. -/
theorem calls_inside {flags : CString} {tail : Option (Tail table)}
    (plain : ∀ c ∈ flags, (c, .nothing) ∈ table.entries) (nonempty : tail = none → flags ≠ [])
    (here : Inside av g before read (flags ++ (tail.map Tail.text).getD [])
      ((tail.map Tail.extra).getD [] ++ after)) :
    ∃ replies next,
      calls av table.opts (flags.length + (tail.map Tail.item).toList.length) g =
        (replies, next) ∧
      List.Forall₂ Recovers
        (flags.map (fun c => ⟨c, .nothing, none⟩) ++ (tail.map Tail.item).toList) replies ∧
      InFront av next
        (before ++ ('-' :: (read ++ (flags ++ (tail.map Tail.text).getD []))) ::
          (tail.map Tail.extra).getD []) after := by
  induction flags generalizing g read with
  | nil =>
    cases tail with
    | none => exact absurd rfl (nonempty rfl)
    | some tail =>
      obtain ⟨reply, next, call, recovers, there⟩ := getopt_tail tail here
      exact ⟨[(reply, next.optarg)], next, by simp [calls, call], .cons recovers .nil, there⟩
  | cons c flags ih =>
    obtain ⟨found, search, unmarked⟩ := table.search_flag (plain c (by simp))
    have call := here.getopt_eq search
    cases ahead : flags ++ (tail.map Tail.text).getD [] with
    | nil =>
      -- the letter ends its word, so there is no tail
      obtain ⟨rfl, text⟩ := List.append_eq_nil_iff.mp ahead
      obtain rfl : tail = none := by
        cases tail with
        | none => rfl
        | some tail => cases tail <;> simp [Tail.text] at text
      obtain ⟨next, accepted, there⟩ := Inside.accept_flag_last here unmarked
      refine ⟨[(.letter c, next.optarg)], next, ?_, .cons ⟨rfl, by simp⟩ .nil, there⟩
      simp [calls, call.trans accepted]
    | cons d rest =>
      rw [List.cons_append, ahead] at here
      obtain ⟨next, accepted, there⟩ := here.accept_flag_grouped unmarked
      rw [← ahead] at there
      have more : tail = none → flags ≠ [] := by
        rintro rfl rfl
        simp at ahead
      obtain ⟨replies, last, calls_eq, recovered, front⟩ :=
        ih (fun c member => plain c (by simp [member])) more there
      refine ⟨(.letter c, next.optarg) :: replies, last, ?_, .cons ⟨rfl, by simp⟩ recovered, ?_⟩
      · simp only [List.length_cons, Nat.add_right_comm _ 1, calls, call.trans accepted, calls_eq]
      · simpa [List.append_assoc] using front

/-- The calls from the front of a word to its end. -/
theorem calls_group (group : Group table) (here : InFront av g before (group.words ++ after)) :
    ∃ replies next, calls av table.opts group.items.length g = (replies, next) ∧
      List.Forall₂ Recovers group.items replies ∧
      InFront av next (before ++ group.words) after := by
  have inside := InFront.inside (here : InFront av g before (_ :: (_ ++ after)))
  obtain ⟨replies, next, calls_eq, recovered, front⟩ :=
    calls_inside group.plain group.nonempty inside
  refine ⟨replies, next, ?_, recovered, front⟩
  simpa [Group.items] using calls_eq

/-- The calls over all words. -/
theorem calls_groups (groups : List (Group table))
    (here : InFront av g before (groups.flatMap Group.words ++ after)) :
    ∃ replies next,
      calls av table.opts (groups.flatMap Group.items).length g = (replies, next) ∧
      List.Forall₂ Recovers (groups.flatMap Group.items) replies ∧
      InFront av next (before ++ groups.flatMap Group.words) after := by
  induction groups generalizing g before with
  | nil => exact ⟨[], g, rfl, .nil, by simpa using here⟩
  | cons group groups ih =>
    rw [List.flatMap_cons, List.append_assoc] at here
    obtain ⟨first, middle, first_eq, recovered, front⟩ := calls_group group here
    obtain ⟨others, last, others_eq, recovered', front'⟩ := ih front
    refine ⟨first ++ others, last, ?_, ?_, ?_⟩
    · rw [List.flatMap_cons, List.length_append, calls_add, first_eq, others_eq]
    · rw [List.flatMap_cons]
      exact List.rel_append recovered recovered'
    · rw [List.flatMap_cons, ← List.append_assoc]
      exact front'

end Words

/-! ### Whole command lines -/

/-- A command line: the program's name, option words, and operands, the first of
which cannot be taken for an option word. -/
structure CommandLine (table : OptionTable) where
  program : CString
  groups : List (Group table)
  operands : List CString
  stops : ∀ word ∈ operands.head?, word[0]? ≠ some '-' ∨ word = ['-']

namespace CommandLine

/-- Everything the options say, in order. -/
def items (line : CommandLine table) : List Item := line.groups.flatMap Group.items

/-- `argv`. -/
def av (line : CommandLine table) : List CString :=
  line.program :: (line.groups.flatMap Group.words ++ line.operands)

/-- The index of the first operand. -/
def firstOperand (line : CommandLine table) : ℕ := 1 + (line.groups.flatMap Group.words).length

end CommandLine

/-- **`getopt` reads back what was spelled.** Started with `optind = 0`, the calls
return the items one after the other, each with its argument, and the next call
returns `EOF` with `optind` at the first operand. -/
theorem getopt_recovers (line : CommandLine table) (g : Scanner) (fresh : g.optind = 0) :
    ∃ replies optarg last,
      calls line.av table.opts (line.items.length + 1) g = (replies ++ [(.eof, optarg)], last) ∧
      List.Forall₂ Recovers line.items replies ∧ last.optind = line.firstOperand := by
  have start : InFront line.av g.restart [line.program]
      (line.groups.flatMap Group.words ++ line.operands) :=
    { av_eq := rfl
      started := by simp
      optind_eq := by simp [Scanner.restart, fresh]
      n_eq := by simp [Scanner.restart, fresh] }
  obtain ⟨replies, last, calls_eq, recovered, there⟩ := calls_groups line.groups start
  have final : getopt line.av table.opts last = (.eof, last) := getopt_of_stop there line.stops
  refine ⟨replies, last.optarg, last, ?_, recovered, ?_⟩
  · rw [← calls_restart, calls_add, CommandLine.items, calls_eq]
    simp [calls, final]
  · rw [there.optind_eq, CommandLine.firstOperand, List.length_append, List.length_singleton]

/-- The table of the options `fnpsx:y|`. -/
def sampleTable : OptionTable where
  entries := [('f', .nothing), ('n', .nothing), ('p', .nothing), ('s', .nothing),
    ('x', .argument), ('y', .optional)]
  distinct := by decide
  letters := by decide

/-- `a.out -fn -px v -ydir -sy file`. -/
def sampleLine : CommandLine sampleTable where
  program := "a.out".toList
  groups := [
    ⟨['f', 'n'], none, by simp [sampleTable], by simp⟩,
    ⟨['p'], some (.separate 'x' ['v'] (by decide) (by decide)), by simp [sampleTable], by simp⟩,
    ⟨[], some (.attached 'y' .optional "dir".toList (by decide) (by decide) (by decide)),
      by simp, by simp⟩,
    ⟨['s'], some (.bare 'y' (by decide)), by simp [sampleTable], by simp⟩]
  operands := ["file".toList]
  stops := by decide

/-- The sample line is read back from a parser that was never used. -/
theorem getopt_recovers_sample :
    ∃ replies optarg last,
      calls sampleLine.av sampleTable.opts 8 ⟨0, 0, none, none⟩ =
        (replies ++ [(.eof, optarg)], last) ∧
      List.Forall₂ Recovers sampleLine.items replies ∧ last.optind = 6 :=
  getopt_recovers sampleLine ⟨0, 0, none, none⟩ rfl

end Lmbench.Options
