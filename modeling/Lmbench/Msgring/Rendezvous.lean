import Lmbench.Lib.Transition
import Mathlib.Data.List.TakeWhile
import Mathlib.Algebra.Group.Int.Defs
import Mathlib.Algebra.Group.Nat.Defs

/-!
# The rendezvous file

The last child writes its pid and channel to a file, which the iterator reads. The
iterator polls until it can open the file and reads it at once, whereas the child
creates it empty and writes to it in a second step. What is read goes into an array
that was never initialised, and is parsed up to the first NUL in it.

## Main results

* `parse_text` - the parser gives back what was written, if the array holds nothing
  behind it that continues the last number
* `parse_prefix_iff` - no part of the text parses the same
* `readfile_right` - `readfile` delivers what `writefile` wrote if it reads the whole
  text and the rest of the array is harmless, and otherwise it does not
-/

namespace Lmbench.Msgring.Rendezvous

/-! ### The parser -/

def nul : Char := Char.ofNat 0

/-- The delimiters given to `strtok`. -/
def isDelim (c : Char) : Bool := c = Char.ofNat 9 || c = ' ' || c = ','

/-- `c` continues a token. -/
def inToken (c : Char) : Bool := c ≠ nul && !isDelim c

/-- What `strtok` returns, and where it will go on. It runs off an array that holds no
NUL. -/
inductive Token
  | overrun
  | null
  | found (token rest : List Char)
deriving DecidableEq, Repr

/-- `strtok` from a position in the array. -/
def strtok (s : List Char) : Token :=
  match s.dropWhile isDelim with
  | [] => .overrun
  | c :: cs =>
    if c = nul then .null
    else
      match (c :: cs).dropWhile inToken with
      | [] => .overrun
      -- the delimiter is overwritten; a NUL stays where it is
      | e :: rest => .found ((c :: cs).takeWhile inToken) (if e = nul then [nul] else rest)

/-- `isspace`. -/
def isSpace (c : Char) : Bool := c = ' ' || (9 ≤ c.toNat && c.toNat ≤ 13)

/-- The sign of a number and the characters behind it. -/
def splitSign : List Char → Bool × List Char
  | '-' :: rest => (true, rest)
  | '+' :: rest => (false, rest)
  | s => (false, s)

/-- `atoi`, undefined when the number does not fit in an `int`. -/
def atoi (token : List Char) : Option ℤ :=
  let (negative, s) := splitSign (token.dropWhile isSpace)
  let n := Nat.ofDigitChars 10 (s.takeWhile Char.isDigit) 0
  let value : ℤ := if negative then -n else n
  if -2 ^ 31 ≤ value ∧ value < 2 ^ 31 then some value else none

/-- What `readfile` does: it returns -1, or it stores two numbers, or its behaviour is
undefined. -/
inductive Result
  | failed
  | stored (ppid chid : ℤ)
  | undefined
deriving DecidableEq, Repr

/-- The two calls of `strtok` and `atoi`; `atoi` has no meaning at a null pointer. -/
def parse (txt : List Char) : Result :=
  match strtok txt with
  | .found first rest =>
    match strtok rest with
    | .found second _ =>
      match atoi first, atoi second with
      | some ppid, some chid => .stored ppid chid
      | _, _ => .undefined
    | _ => .undefined
  | _ => .undefined

/-! ### The two processes -/

/-- `sprintf(txt, "%d %d", pid, chid)`. -/
def text (pid chid : ℕ) : List Char := Nat.toDigits 10 pid ++ ' ' :: Nat.toDigits 10 chid

/-- `MAXRETRY`. -/
def maxRetry : ℕ := 30

/-- `sizeof(txt)`. -/
def txtSize : ℕ := 64

/-- `txt` after a `read`: the bytes read, and behind them what was there before. -/
def fill (content stale : List Char) : List Char := content ++ stale.drop content.length

/-- Where `writefile` is. -/
inductive Writer
  | opening
  | writing
  | closing
  | done
deriving DecidableEq, Repr

/-- Where `readfile` is; `closing` holds the bytes read. -/
inductive Reader
  | trying (retryCount : ℕ)
  | reading
  | closing (content : List Char)
  | returned (result : Result)
deriving DecidableEq, Repr

/-- The file and the two processes. -/
structure State where
  file : Option (List Char)
  writer : Writer
  reader : Reader
deriving DecidableEq, Repr

/-- What steps are labelled with: the system calls, and `parsed` for the `close` of the
reader and the parsing of the bytes it has read. -/
inductive Event
  | create
  | write (count : ℕ)
  | finish
  | retry
  | giveUp
  | open
  | read
  | parsed (content : List Char)
  | error
deriving DecidableEq, Repr

/-- One step of the child or of the iterator. A `write` may be short, which
`writefile` does not check. The file is created without a mode, so that its `open` by
the iterator may be refused too. -/
inductive Step (pid chid : ℕ) (stale : List Char) : State → Event → State → Prop
  | create {s : State} (pc : s.writer = .opening) :
      Step pid chid stale s .create { s with file := some (s.file.getD []), writer := .writing }
  | write {s : State} {old : List Char} (count : ℕ) (pc : s.writer = .writing)
      (file : s.file = some old) :
      Step pid chid stale s (.write count)
        { s with
          file := some ((text pid chid).take count ++ old.drop count)
          writer := .closing }
  | finish {s : State} (pc : s.writer = .closing) :
      Step pid chid stale s .finish { s with writer := .done }
  | retry {s : State} {n : ℕ} (pc : s.reader = .trying n) (more : n < maxRetry) :
      Step pid chid stale s .retry { s with reader := .trying (n + 1) }
  | giveUp {s : State} {n : ℕ} (pc : s.reader = .trying n) (spent : maxRetry ≤ n) :
      Step pid chid stale s .giveUp { s with reader := .returned .failed }
  | open {s : State} {n : ℕ} (pc : s.reader = .trying n) (more : n < maxRetry)
      (file : s.file ≠ none) :
      Step pid chid stale s .open { s with reader := .reading }
  | read {s : State} {content : List Char} (pc : s.reader = .reading)
      (file : s.file = some content) :
      Step pid chid stale s .read { s with reader := .closing (content.take txtSize) }
  | parsed {s : State} {content : List Char} (pc : s.reader = .closing content) :
      Step pid chid stale s (.parsed content)
        { s with reader := .returned (parse (fill content stale)) }
  | error {s : State} (pc : s.reader = .reading ∨ ∃ content, s.reader = .closing content) :
      Step pid chid stale s .error { s with reader := .returned .failed }

/-- `init_state` has removed the file; the child is about to write it and the iterator
to look for it. -/
def start : State := { file := none, writer := .opening, reader := .trying 0 }

/-! ### What the parser makes of the text -/

section Parser

variable {pid chid : ℕ} {digits junk token rest tail : List Char} {c e : Char}

theorem inToken_of_isDigit (digit : c.isDigit) : inToken c = true := by
  have range : 48 ≤ c.toNat ∧ c.toNat ≤ 57 := by
    simpa [Char.isDigit, UInt32.le_iff_toNat_le] using digit
  have other : ∀ d : Char, d.toNat < 48 → c ≠ d := by
    rintro d small rfl
    omega
  simp [inToken, isDelim, nul, other (Char.ofNat 0) (by decide), other (Char.ofNat 9) (by decide),
    other ' ' (by decide), other ',' (by decide)]

theorem isSpace_of_isDigit (digit : c.isDigit) : isSpace c = false := by
  have range : 48 ≤ c.toNat ∧ c.toNat ≤ 57 := by
    simpa [Char.isDigit, UInt32.le_iff_toNat_le] using digit
  have other : c ≠ ' ' := by
    rintro rfl
    simp at range
  simp [isSpace, other]
  omega

/-- The first token of an array. -/
theorem strtok_append (nonempty : token ≠ []) (inside : ∀ c ∈ token, inToken c = true)
    (ends : inToken e = false) :
    strtok (token ++ e :: rest) = .found token (if e = nul then [nul] else rest) := by
  obtain ⟨c, cs, rfl⟩ := List.exists_cons_of_ne_nil nonempty
  have first := inside c (by simp)
  simp only [inToken, ne_eq, decide_not, Bool.and_eq_true, Bool.not_eq_true',
    decide_eq_false_iff_not] at first
  have stays : (c :: cs ++ e :: rest).dropWhile isDelim = c :: (cs ++ e :: rest) := by
    simp [first.2]
  have whole : (c :: (cs ++ e :: rest)) = (c :: cs) ++ e :: rest := rfl
  rw [strtok, stays]
  simp only [if_neg first.1]
  rw [whole, List.dropWhile_append_of_pos inside, List.takeWhile_append_of_pos inside]
  simp [ends]

theorem strtok_nul : strtok (nul :: rest) = .null := by
  simp [strtok, nul, isDelim]

/-- `atoi` of a number, whatever stands behind it in the token. -/
theorem atoi_append (nonempty : digits ≠ []) (all : ∀ c ∈ digits, c.isDigit)
    (ends : ∀ c ∈ junk.head?, c.isDigit = false) :
    atoi (digits ++ junk) =
      if Nat.ofDigitChars 10 digits 0 < 2 ^ 31 then some (Nat.ofDigitChars 10 digits 0 : ℤ)
      else none := by
  obtain ⟨c, cs, rfl⟩ := List.exists_cons_of_ne_nil nonempty
  have first := all c (by simp)
  have skipped : (c :: cs ++ junk).dropWhile isSpace = c :: (cs ++ junk) := by
    simp [isSpace_of_isDigit first]
  have unsigned : splitSign (c :: (cs ++ junk)) = (false, c :: (cs ++ junk)) := by
    unfold splitSign
    split
    · rename_i same
      simp only [List.cons.injEq] at same
      simp [same.1] at first
    · rename_i same
      simp only [List.cons.injEq] at same
      simp [same.1] at first
    · rfl
  have taken : (c :: (cs ++ junk)).takeWhile Char.isDigit = c :: cs := by
    have whole : c :: (cs ++ junk) = (c :: cs) ++ junk := rfl
    rw [whole, List.takeWhile_append_of_pos all]
    cases junk with
    | nil => simp
    | cons d ds => simp [ends d rfl]
  simp only [atoi, skipped, unsigned, taken, Bool.false_eq_true, if_false]
  refine if_congr ?_ rfl rfl
  omega

theorem isDigit_toDigits (n : ℕ) : ∀ c ∈ Nat.toDigits 10 n, c.isDigit := fun _ member =>
  Nat.isDigit_of_mem_toDigits (by decide) (by decide) member

/-- What stands in the array behind the text does no harm: it does not continue the
last number, and the array holds an end of the token. -/
def CleanTail (tail : List Char) : Prop :=
  (∀ c ∈ tail.head?, c.isDigit = false) ∧ ∃ c ∈ tail, inToken c = false

/-- The end of the token that a clean tail holds. -/
theorem CleanTail.split (clean : CleanTail tail) :
    ∃ junk e rest, tail = junk ++ e :: rest ∧ (∀ c ∈ junk, inToken c = true) ∧
      inToken e = false ∧ ∀ c ∈ junk.head?, c.isDigit = false := by
  obtain ⟨starts, c, member, ends⟩ := clean
  have behind : tail.dropWhile inToken ≠ [] := by
    intro none
    have all := List.dropWhile_eq_nil_iff.mp none c member
    simp [all] at ends
  obtain ⟨e, rest, split⟩ := List.exists_cons_of_ne_nil behind
  have whole := List.takeWhile_append_dropWhile (p := inToken) (l := tail)
  refine ⟨tail.takeWhile inToken, e, rest, by rw [← split, whole],
    fun c member => List.mem_takeWhile_imp member, ?_, ?_⟩
  · have first := List.head?_dropWhile_not inToken tail
    rw [split] at first
    simpa using first
  · intro c first
    refine starts c ?_
    cases tail with
    | nil => simp at first
    | cons d ds =>
      rw [List.takeWhile_cons] at first
      split at first
      · simpa using first
      · simp at first

/-- **The round trip.** The parser gives back the two numbers. -/
theorem parse_text (fitsPid : pid < 2 ^ 31) (fitsChid : chid < 2 ^ 31) (clean : CleanTail tail) :
    parse (text pid chid ++ tail) = .stored pid chid := by
  obtain ⟨junk, e, rest, rfl, inside, ends, starts⟩ := clean.split
  have digit {n : ℕ} : ∀ c ∈ Nat.toDigits 10 n, inToken c = true := fun c member =>
    inToken_of_isDigit (isDigit_toDigits n c member)
  have first : strtok (Nat.toDigits 10 pid ++ ' ' ::
      (Nat.toDigits 10 chid ++ (junk ++ e :: rest))) =
      .found (Nat.toDigits 10 pid) (Nat.toDigits 10 chid ++ (junk ++ e :: rest)) :=
    strtok_append Nat.toDigits_ne_nil digit (by decide)
  have second : strtok ((Nat.toDigits 10 chid ++ junk) ++ e :: rest) =
      .found (Nat.toDigits 10 chid ++ junk) (if e = nul then [nul] else rest) := by
    refine strtok_append (by simp [Nat.toDigits_ne_nil]) ?_ ends
    intro c member
    rcases List.mem_append.mp member with chars | chars
    · exact digit c chars
    · exact inside c chars
  have ppid : atoi (Nat.toDigits 10 pid ++ []) = _ :=
    atoi_append Nat.toDigits_ne_nil (isDigit_toDigits pid) (by simp)
  have chid_eq := atoi_append Nat.toDigits_ne_nil (isDigit_toDigits chid) starts
  rw [List.append_assoc] at second
  rw [List.append_nil, Nat.ofDigitChars_ten_toDigits, if_pos fitsPid] at ppid
  rw [Nat.ofDigitChars_ten_toDigits, if_pos fitsChid] at chid_eq
  simp only [parse, text, List.append_assoc, List.cons_append, first, second, ppid, chid_eq]

/-- Fewer digits spell a smaller number. -/
theorem ofDigitChars_lt (all : ∀ c ∈ digits, c.isDigit) :
    Nat.ofDigitChars 10 digits 0 < 10 ^ digits.length := by
  induction digits using List.reverseRecOn with
  | nil => simp
  | append_singleton digits c ih =>
    have before := ih fun d member => all d (by simp [member])
    have digit : 48 ≤ c.toNat ∧ c.toNat ≤ 57 := by
      simpa [Char.isDigit, UInt32.le_iff_toNat_le] using all c (by simp)
    rw [Nat.ofDigitChars_append, Nat.ofDigitChars_cons, Nat.ofDigitChars_nil, List.length_append,
      List.length_singleton, Nat.pow_succ]
    have value : c.toNat - '0'.toNat ≤ 9 := by
      have zero : '0'.toNat = 48 := rfl
      omega
    omega

/-- A proper part of the digits of a number spells another number. -/
theorem ofDigitChars_take_ne {n m : ℕ} (positive : 0 < m)
    (proper : m < (Nat.toDigits 10 n).length) :
    Nat.ofDigitChars 10 ((Nat.toDigits 10 n).take m) 0 ≠ n := by
  intro same
  have small : Nat.ofDigitChars 10 ((Nat.toDigits 10 n).take m) 0 < _ :=
    ofDigitChars_lt fun c member => isDigit_toDigits n c (List.mem_of_mem_take member)
  rw [same, List.length_take_of_le proper.le] at small
  have short := (Nat.length_toDigits_le_iff (by decide) positive).mpr small
  omega

theorem strtok_last (nonempty : token ≠ []) (inside : ∀ c ∈ token, inToken c = true) :
    strtok (token ++ nul :: rest) = .found token [nul] := by
  rw [strtok_append nonempty inside (by decide), if_pos rfl]

/-- Cut in the first number, the text has no second one. -/
theorem parse_cut_first (k : ℕ) (cut : k ≤ (Nat.toDigits 10 pid).length) :
    parse ((text pid chid).take k ++ nul :: rest) ≠ .stored pid chid := by
  intro parsed
  have front : (text pid chid).take k = (Nat.toDigits 10 pid).take k :=
    List.take_append_of_le_length cut
  rw [front, parse] at parsed
  rcases Nat.eq_zero_or_pos k with rfl | positive
  · simp [strtok_nul] at parsed
  · have some_ : (Nat.toDigits 10 pid).take k ≠ [] := by
      simp [Nat.toDigits_ne_nil, positive.ne']
    have last : strtok (_ ++ nul :: rest) = _ :=
      strtok_last some_ fun c member =>
        inToken_of_isDigit (isDigit_toDigits pid c (List.mem_of_mem_take member))
    simp [last, strtok_nul] at parsed

/-- Cut in the second number, it has another one. -/
theorem parse_cut_second (m : ℕ) (cut : m < (Nat.toDigits 10 chid).length) :
    parse (Nat.toDigits 10 pid ++ ' ' :: (Nat.toDigits 10 chid).take m ++ nul :: rest) ≠
      .stored pid chid := by
  intro parsed
  have head : strtok (Nat.toDigits 10 pid ++ ' ' ::
      ((Nat.toDigits 10 chid).take m ++ nul :: rest)) =
      .found (Nat.toDigits 10 pid) ((Nat.toDigits 10 chid).take m ++ nul :: rest) :=
    strtok_append Nat.toDigits_ne_nil
      (fun c member => inToken_of_isDigit (isDigit_toDigits pid c member)) (by decide)
  rw [List.append_assoc, List.cons_append, parse, head] at parsed
  rcases Nat.eq_zero_or_pos m with rfl | positive
  · simp [strtok_nul] at parsed
  · have some_ : (Nat.toDigits 10 chid).take m ≠ [] := by
      simp [Nat.toDigits_ne_nil, positive.ne']
    have inside : ∀ c ∈ (Nat.toDigits 10 chid).take m, c.isDigit := fun c member =>
      isDigit_toDigits chid c (List.mem_of_mem_take member)
    have value : atoi ((Nat.toDigits 10 chid).take m ++ []) = _ :=
      atoi_append some_ inside (by simp)
    rw [List.append_nil] at value
    have last : strtok (_ ++ nul :: rest) = _ :=
      strtok_last some_ fun c member => inToken_of_isDigit (inside c member)
    -- fewer digits are a smaller number
    have other := ofDigitChars_take_ne (n := chid) positive cut
    simp only [last, value] at parsed
    split at parsed
    · rename_i found
      split at found
      · simp only [Option.some.injEq] at found
        simp only [Result.stored.injEq] at parsed
        omega
      · simp at found
    · simp at parsed

/-- **Nothing less will do.** With a NUL behind it, a part of the text is parsed to
the two numbers only if it is the whole text. -/
theorem parse_prefix_iff (fitsPid : pid < 2 ^ 31) (fitsChid : chid < 2 ^ 31) (k : ℕ) :
    parse ((text pid chid).take k ++ nul :: rest) = .stored pid chid ↔
      (text pid chid).take k = text pid chid := by
  constructor
  · intro parsed
    by_contra partial_
    have short : k < (text pid chid).length := by
      by_contra long
      exact partial_ (List.take_of_length_le (by omega))
    have length : (text pid chid).length =
        (Nat.toDigits 10 pid).length + 1 + (Nat.toDigits 10 chid).length := by
      simp only [text, List.length_append, List.length_cons]
      omega
    rcases Nat.lt_or_ge (Nat.toDigits 10 pid).length k with second | first
    · obtain ⟨m, rfl⟩ : ∃ m, k = (Nat.toDigits 10 pid).length + (m + 1) :=
        ⟨k - (Nat.toDigits 10 pid).length - 1, by omega⟩
      rw [text, List.take_length_add_append, List.take_succ_cons] at parsed
      exact parse_cut_second m (by omega) parsed
    · exact parse_cut_first k first parsed
  · intro whole
    rw [whole]
    exact parse_text fitsPid fitsChid ⟨by simp [nul], nul, by simp, by decide⟩

end Parser

/-! ### All interleavings -/

variable {pid chid : ℕ} {stale : List Char} {past : List Event} {s t : State} {e : Event}

/-- `readfile` has returned -1, or stored what `writefile` was called with. -/
def Right (pid chid : ℕ) (result : Result) : Prop :=
  result = .failed ∨ result = .stored pid chid

/-- The parser does not return -1. -/
theorem parse_ne_failed (txt : List Char) : parse txt ≠ .failed := by
  unfold parse
  split
  · split
    · split <;> simp
    · simp
  · simp

/-- `content` is a part of the text, from its beginning. -/
def PartOfText (pid chid : ℕ) (content : List Char) : Prop :=
  ∃ k, content = (text pid chid).take k

theorem PartOfText.take {content : List Char} (part : PartOfText pid chid content) (n : ℕ) :
    PartOfText pid chid (content.take n) := by
  obtain ⟨k, rfl⟩ := part
  exact ⟨min n k, List.take_take⟩

/-- The file and what is read of it are parts of the text, and the result is that of
parsing what was read. -/
structure Consistent (pid chid : ℕ) (stale : List Char) (past : List Event) (s : State) :
    Prop where
  absent : s.writer = .opening → s.file = none
  created : s.writer = .writing → s.file = some []
  file : ∀ content, s.file = some content → PartOfText pid chid content
  closing : ∀ content, s.reader = .closing content → PartOfText pid chid content
  parsed : ∀ content, .parsed content ∈ past →
    PartOfText pid chid content ∧ s.reader = .returned (parse (fill content stale))
  returned : ∀ result, s.reader = .returned result →
    result = .failed ∨ ∃ content, .parsed content ∈ past ∧ result = parse (fill content stale)

/-- A step of the reader that neither reads nor returns. -/
theorem Consistent.silent (consistent : Consistent pid chid stale past s)
    (before : ∀ result, s.reader ≠ .returned result) {reader : Reader}
    (closing : ∀ content, reader = .closing content → PartOfText pid chid content)
    (returned : ∀ result, reader = .returned result → result = .failed)
    (silent : ∀ content, e ≠ .parsed content) :
    Consistent pid chid stale (past ++ [e]) { s with reader := reader } where
  absent := consistent.absent
  created := consistent.created
  file := consistent.file
  closing := closing
  parsed := fun content member => by
    rcases List.mem_append.mp member with earlier | now
    · exact absurd (consistent.parsed content earlier).2 (before _)
    · exact absurd (List.mem_singleton.mp now).symm (silent content)
  returned := fun result done => .inl (returned result done)

/-- A step of the writer. -/
theorem Consistent.writes (consistent : Consistent pid chid stale past s)
    {writer : Writer} {file : Option (List Char)} (absent : writer = .opening → file = none)
    (created : writer = .writing → file = some [])
    (part : ∀ content, file = some content → PartOfText pid chid content)
    (silent : ∀ content, e ≠ .parsed content) :
    Consistent pid chid stale (past ++ [e]) { s with file := file, writer := writer } where
  absent := absent
  created := created
  file := part
  closing := consistent.closing
  parsed := fun content member => by
    rcases List.mem_append.mp member with earlier | now
    · exact consistent.parsed content earlier
    · exact absurd (List.mem_singleton.mp now).symm (silent content)
  returned := fun result done => (consistent.returned result done).imp_right
    fun ⟨content, member, same⟩ => ⟨content, List.mem_append_left _ member, same⟩

theorem Consistent.step (consistent : Consistent pid chid stale past s)
    (taken : Step pid chid stale s e t) : Consistent pid chid stale (past ++ [e]) t := by
  cases taken with
  | create pc =>
    have empty : s.file.getD [] = [] := by rw [consistent.absent pc]; rfl
    exact consistent.writes (by simp) (by simp [empty]) (by simpa [empty] using ⟨0, rfl⟩) (by simp)
  | @write old count pc file =>
    obtain rfl : old = [] := by simpa [consistent.created pc] using file.symm
    exact consistent.writes (by simp) (by simp) (by simpa using ⟨count, rfl⟩) (by simp)
  | finish pc => exact consistent.writes (by simp) (by simp) consistent.file (by simp)
  | retry pc more => exact consistent.silent (by simp [pc]) (by simp) (by simp) (by simp)
  | giveUp pc spent => exact consistent.silent (by simp [pc]) (by simp) (by simp) (by simp)
  | «open» pc more file => exact consistent.silent (by simp [pc]) (by simp) (by simp) (by simp)
  | @read content pc file =>
    refine consistent.silent (by simp [pc]) ?_ (by simp) (by simp)
    rintro _ ⟨⟩
    exact (consistent.file content file).take txtSize
  | error pc =>
    refine consistent.silent ?_ (by simp) (by simp) (by simp)
    rcases pc with pc | ⟨content, pc⟩ <;> simp [pc]
  | @parsed content pc =>
    exact
      { absent := consistent.absent
        created := consistent.created
        file := consistent.file
        closing := by simp
        parsed := fun other member => by
          rcases List.mem_append.mp member with earlier | now
          · have done := (consistent.parsed other earlier).2
            simp [pc] at done
          · obtain rfl : other = content := by simpa using now
            exact ⟨consistent.closing other pc, rfl⟩
        returned := by
          rintro _ ⟨⟩
          exact .inr ⟨content, by simp, rfl⟩ }

theorem consistent_of_run (run : Lib.Run (Step pid chid stale) start past s) :
    Consistent pid chid stale past s := by
  refine run.invariant_history ?_ fun _ _ _ _ _ consistent taken => consistent.step taken
  constructor <;> simp [start]

/-- **What `readfile` delivers.** In every interleaving it is right if the bytes it
parses are the whole text and the array is harmless behind them. Where the array holds
a NUL behind the bytes that are parsed, it is right exactly if they are the whole
text. -/
theorem readfile_right (fitsPid : pid < 2 ^ 31) (fitsChid : chid < 2 ^ 31)
    (run : Lib.Run (Step pid chid stale) start past s) :
    ((∀ content, .parsed content ∈ past →
        content = text pid chid ∧ CleanTail (stale.drop content.length)) →
      ∀ result, s.reader = .returned result → Right pid chid result) ∧
    ((∀ content, .parsed content ∈ past → (stale.drop content.length).head? = some nul) →
      ((∀ result, s.reader = .returned result → Right pid chid result) ↔
        ∀ content, .parsed content ∈ past → content = text pid chid)) := by
  have consistent := consistent_of_run run
  constructor
  · intro whole result done
    rcases consistent.returned result done with failed | ⟨content, member, rfl⟩
    · exact .inl failed
    · obtain ⟨rfl, clean⟩ := whole content member
      exact .inr (parse_text fitsPid fitsChid clean)
  · intro ended
    have exact_ : ∀ content, .parsed content ∈ past →
        (parse (fill content stale) = .stored pid chid ↔ content = text pid chid) := by
      intro content member
      obtain ⟨k, rfl⟩ := (consistent.parsed content member).1
      obtain ⟨tail, behind⟩ := List.head?_eq_some_iff.mp (ended _ member)
      rw [fill, behind]
      exact parse_prefix_iff fitsPid fitsChid k
    constructor
    · intro right content member
      rcases right _ (consistent.parsed content member).2 with failed | stored
      · exact absurd failed (parse_ne_failed _)
      · exact (exact_ content member).mp stored
    · intro whole result done
      rcases consistent.returned result done with failed | ⟨content, member, rfl⟩
      · exact .inl failed
      · exact .inr ((exact_ content member).mpr (whole content member))

/-- Pid 12 and channel 3, and an array of NULs: the iterator reads after the child has
written. -/
theorem readfile_right_twelve :
    ∃ past s, Lib.Run (Step 12 3 (List.replicate txtSize nul)) start past s ∧
      s.reader = .returned (.stored 12 3) ∧
      ∀ result, s.reader = .returned result → Right 12 3 result := by
  have written := (Lib.Run.nil.snoc (@Step.create 12 3 (List.replicate txtSize nul) start rfl)).snoc
    (@Step.write _ _ _ _ [] 4 rfl rfl)
  have read := (written.snoc (@Step.open _ _ _ _ 0 rfl (by decide) (by simp))).snoc
    (@Step.read _ _ _ _ _ rfl rfl)
  have run := read.snoc (@Step.parsed _ _ _ _ _ rfl)
  refine ⟨_, _, run, by decide, (readfile_right (by decide) (by decide) run).1 ?_⟩
  intro content member
  have whole : List.take txtSize (List.take 4 (text 12 3)) = text 12 3 := by decide
  obtain rfl : content = text 12 3 := by simpa [whole] using member
  have length : (text 12 3).length = 4 := by decide
  refine ⟨rfl, fun c first => ?_, nul, ?_, by decide⟩
  · obtain rfl := List.eq_of_mem_replicate (List.mem_of_mem_drop (List.mem_of_mem_head? first))
    decide
  · rw [length, List.drop_replicate]
    exact List.mem_replicate.mpr ⟨by decide, rfl⟩

/-- The iterator may open the file before the child has written to it. It then parses
an array that `read` has not touched: here one in which an earlier number is left. -/
theorem readfile_stale :
    ∃ past s, Lib.Run (Step 12 3 ("7 7".toList ++ List.replicate 61 nul)) start past s ∧
      s.reader = .returned (.stored 7 7) ∧ ¬ Right 12 3 (.stored 7 7) := by
  have opened := (Lib.Run.nil.snoc (@Step.create 12 3 ("7 7".toList ++ List.replicate 61 nul)
    start rfl)).snoc (@Step.open _ _ _ _ 0 rfl (by decide) (by simp))
  have read := (opened.snoc (@Step.read _ _ _ _ _ rfl rfl)).snoc (@Step.parsed _ _ _ _ _ rfl)
  exact ⟨_, _, read, by decide, by simp [Right]⟩

end Lmbench.Msgring.Rendezvous
