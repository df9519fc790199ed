import Lmbench.Lmdd.Loop

/-!
# The pattern of `lmdd` checks itself

A file that was written with the pattern is the pattern from its first byte on, in
whatever blocks it was written. A run that reads it compares every word with the same
pattern, in whatever blocks it reads: the report has one line for each word of the file
that differs, as long as there is at most one.

## Main results

* `PatternWriter.output_eq` - the file is the pattern
* `length_reports` - the report counts the words that differ
* `patterns_verify` - no report for the file, and one for the file with a changed word
-/

namespace Lmbench.Lmdd

/-- A run that writes a file with the pattern, one block after the other. -/
structure PatternWriter (cfg : Config) : Prop where
  hasOut : cfg.hasOut = true
  outpat : cfg.outpat = true
  append : cfg.append = false
  skip : cfg.skip = none
  padin : cfg.padin = false
  dvd : 4 ∣ cfg.bs

/-- A run that compares a file with the pattern, from its start. -/
structure PatternReader (cfg : Config) : Prop where
  hasIn : cfg.hasIn = true
  inpat : cfg.inpat = true
  skip : cfg.skip = none
  padin : cfg.padin = false
  dvd : 4 ∣ cfg.bs

/-- A word of a file that differs from the pattern. -/
abbrev Differs (littleEndian : Bool) (file : List UInt8) (j : ℕ) : Prop :=
  4 * j < file.length ∧ load littleEndian file j ≠ expected 0 j

variable {littleEndian : Bool} {cfg : Config} {input out file : List UInt8} {s s' : State}
  {t : Transfer} {ts : List Transfer} {buf pos moved i j k m n : ℕ}

section Words

/-- A word of the pattern from an offset within the file. -/
theorem expected_add (k foo : ℕ) : expected (4 * k % 2 ^ 64) foo = expected 0 (k + foo) := by
  simp only [expected]
  omega

theorem words_add (k m : ℕ) : words littleEndian 0 (k + m) =
    words littleEndian 0 k ++ words littleEndian (4 * k % 2 ^ 64) m := by
  induction m with
  | zero => simp
  | succ m ih => rw [← Nat.add_assoc, words_succ, words_succ, ih, expected_add, List.append_assoc]

/-- A word of the pattern. -/
theorem load_words (inside : j < n) :
    load littleEndian (words littleEndian 0 n) j = expected 0 j := by
  obtain ⟨rest, rfl⟩ := Nat.exists_eq_add_of_le (Nat.succ_le_of_lt inside)
  rw [load, words_add, words_succ, List.append_assoc, List.drop_left' length_words,
    List.take_left' (Lib.length_encode _ _ _), Lib.decode_encode, expected]
  omega

/-- A word that was read into a buffer. -/
theorem load_of_take {bufs : List UInt8} {foo : ℕ} (inside : 4 * foo + 4 ≤ moved)
    (same : bufs.take moved = (input.drop (4 * k)).take moved) :
    load littleEndian bufs foo = load littleEndian input (k + foo) := by
  have slice : ∀ l : List UInt8, ((l.take moved).drop (4 * foo)).take 4 =
      (l.drop (4 * foo)).take 4 := by
    intro l
    rw [List.drop_take, List.take_take, Nat.min_eq_left (by omega)]
  rw [load, load, ← slice, same, slice, List.drop_drop, Nat.mul_add]

end Words

/-- Blocks of whole words: reads of whole words from a file of whole words, or full
buffers without an input. -/
theorem moved_whole {bufs : ℕ → List UInt8} (dvd : 4 ∣ cfg.bs) (inPos : 4 ∣ s.inPos)
    (aligned : 4 ∣ input.length) (reads : ∀ n, t.read = some n → 4 ∣ n)
    (source : if cfg.hasIn then s.padIn = false ∧ pos = s.inPos ∧
        (∃ n, t.read = some n ∧ moved = cfg.readCount input s n) ∧
        (bufs buf).take moved = (input.drop s.inPos).take moved
      else moved = cfg.bs) : 4 ∣ moved := by
  split at source
  · obtain ⟨-, -, ⟨n, read, amount⟩, -⟩ := source
    have offered := reads n read
    rw [amount, Config.readCount]
    omega
  · exact source ▸ dvd

section Writer

/-- What a writer keeps: the file is the pattern, and `off` and the position are at its
end. -/
structure Written (cfg : Config) (littleEndian : Bool) (s : State) (n : ℕ) : Prop where
  wide : s.Wide cfg
  padIn : s.padIn = false
  inPos : 4 ∣ s.inPos
  output : s.output = words littleEndian 0 n
  off : s.finished = false → s.off = 4 * n % 2 ^ 64
  outPos : s.finished = false → s.outPos = 4 * n

theorem firstOff_of_no_skip (skip : cfg.skip = none) : cfg.firstOff = 0 := by
  simp [Config.firstOff, skip]

theorem firstPos_of_no_skip (skip : cfg.skip = none) (largest : ℕ) : cfg.firstPos largest = 0 := by
  simp [Config.firstPos, firstOff_of_no_skip skip]

namespace PatternWriter

variable (writer : PatternWriter cfg)

include writer in
theorem start : Written cfg cfg.littleEndian (cfg.start []) 0 where
  wide _ := List.length_replicate
  padIn := writer.padin
  inPos := by simp [Config.start, firstPos_of_no_skip writer.skip]
  output := rfl
  off _ := by simp [Config.start, firstOff_of_no_skip writer.skip]
  outPos _ := by simp [Config.start, firstPos_of_no_skip writer.skip]

include writer in
/-- A block that was written behind the pattern so far. -/
theorem block {bufs : ℕ → List UInt8} {s₁ s₂ : State} {write : Option ℕ} (whole : 4 ∣ moved)
    (written : Written cfg cfg.littleEndian s n) (live : s.finished = false)
    (compared : Compared cfg pos (s.fetched i j bufs k) s₁)
    (outputs : Outputs cfg moved write s₁ s₂) (goes : s₂.finished = false) :
    s₂.output = words cfg.littleEndian 0 (n + moved / 4) ∧
      s₂.off = 4 * (n + moved / 4) % 2 ^ 64 ∧ s₂.outPos = 4 * (n + moved / 4) := by
  have off₁ : s₁.off = 4 * n % 2 ^ 64 := compared.off.trans (written.off live)
  have output₁ : s₁.output = words cfg.littleEndian 0 n := compared.output.trans written.output
  have atEnd : cfg.writePos s₁ = s₁.output.length := by
    rw [Config.writePos, if_neg (by simp [writer.append]), output₁, length_words]
    exact compared.outPos.trans (written.outPos live)
  obtain ⟨outPos, bytes, length, output, front⟩ := outputs.written goes writer.hasOut
  obtain ⟨rest, rfl⟩ := front writer.outpat
  have filled : rest = [] := by
    apply List.eq_nil_of_length_eq_zero
    rw [List.length_append, length_words] at length
    omega
  refine ⟨?_, ?_, ?_⟩
  · rw [output, atEnd, writeAt_length, filled, List.append_nil, output₁, off₁, words_add]
  · rw [outputs.off goes, off₁]
    omega
  · rw [outPos, atEnd, output₁, length_words]
    omega

include writer in
/-- One pass, of a read of whole words and a full write. -/
theorem pass (aligned : 4 ∣ input.length) (reads : ∀ n, t.read = some n → 4 ∣ n)
    (full : ∃ n, t.write = some n ∧ cfg.bs ≤ n) (live : s.finished = false)
    (written : Written cfg cfg.littleEndian s n) :
    ∃ n, Written cfg cfg.littleEndian (cfg.pass input s t) n := by
  have passed : Passed cfg input t s (cfg.pass input s t) :=
    Config.pass_cases live written.wide
  cases passed with
  | stop count nextbuf bufs wide ends =>
    rw [ends]
    exact ⟨n, wide, written.padIn, written.inPos, written.output, by simp, by simp⟩
  | pad count nextbuf bufs read wide hin padding amount ends =>
    rw [written.padIn] at padding
    cases padding
  | block count nextbuf bufs buf pos moved wide some_bytes fits source ends =>
    have compared := @Config.compared cfg buf pos moved
      (s.fetched count nextbuf bufs (if cfg.hasIn then moved else 0))
    dsimp only at ends
    generalize (if cfg.inpat then _ else _ : State) = s₁ at compared ends
    have whole : 4 ∣ moved := moved_whole writer.dvd written.inPos aligned reads source
    have inPos₁ : 4 ∣ s₁.inPos := by
      rw [compared.inPos]
      change 4 ∣ s.inPos + _
      split
      · exact Nat.dvd_add written.inPos whole
      · exact written.inPos
    have wide₁ : s₁.Wide cfg := Config.wide_of_compared compared wide
    rcases Config.handled_cases wide₁ fits ends with ⟨ended, same⟩ | outputs
    · rw [same]
      exact ⟨n, wide₁, compared.padIn.trans written.padIn, inPos₁,
        compared.output.trans written.output, by simp [ended], by simp [ended]⟩
    · -- the write is full, so the run goes on and the block stands in the file
      obtain ⟨amount, some_write, enough⟩ := full
      have goes₂ := outputs.full ⟨amount, some_write, le_trans fits enough⟩
      obtain ⟨output, off, outPos⟩ := writer.block whole written live compared outputs goes₂
      exact ⟨n + moved / 4, outputs.wide, (outputs.padIn.trans compared.padIn).trans written.padIn,
        outputs.inPos ▸ inPos₁, output, fun _ => off, fun _ => outPos⟩

include writer in
/-- **The file is the pattern**, in whatever blocks it was written. -/
theorem output_eq (aligned : 4 ∣ input.length) (reads : ∀ t ∈ ts, ∀ n, t.read = some n → 4 ∣ n)
    (full : ∀ t ∈ ts, ∃ n, t.write = some n ∧ cfg.bs ≤ n) :
    ∃ n, (cfg.run input [] ts).output = words cfg.littleEndian 0 n := by
  have kept : ∃ n, Written cfg cfg.littleEndian (cfg.run input [] ts) n :=
    @Config.run_invariant cfg input [] (∃ n, Written cfg cfg.littleEndian · n) ts
      ⟨0, writer.start⟩ fun _ t mem live ⟨_, written⟩ =>
        writer.pass aligned (reads t mem) (full t mem) live written
  obtain ⟨n, written⟩ := kept
  exact ⟨n, written.output⟩

end PatternWriter

end Writer

section Reader

/-- How many of the first `k` words of the file differ from the pattern. -/
def differing (littleEndian : Bool) (file : List UInt8) (k : ℕ) : ℕ :=
  ((List.range k).filter fun j => decide (Differs littleEndian file j)).length

theorem differing_succ (k : ℕ) : differing littleEndian file (k + 1) =
    differing littleEndian file k + if Differs littleEndian file k then 1 else 0 := by
  rw [differing, List.range_succ, List.filter_append, List.length_append]
  by_cases differs : Differs littleEndian file k <;> simp [differing, differs]

/-- What a reader keeps: the report has a line for each word that differed so far, and
`off` is at the position. -/
structure Checked (cfg : Config) (file : List UInt8) (s : State) : Prop where
  wide : s.Wide cfg
  padIn : s.padIn = false
  whole : 4 ∣ s.inPos
  inside : s.inPos ≤ file.length
  reports : s.reports.length = differing cfg.littleEndian file (s.inPos / 4)
  off : s.finished = false → s.off = s.inPos % 2 ^ 64

/-- The comparison of the first `m` words of a block at the word `k` of the file. If it
has ended the run, then at a word that differs. -/
structure Compares (cfg : Config) (file : List UInt8) (k m : ℕ) (s t : State) : Prop where
  off : t.off = s.off
  bufs : t.bufs = s.bufs
  reports : t.reports.length + differing cfg.littleEndian file k =
    s.reports.length + differing cfg.littleEndian file (k + m)
  ended : t.finished = true → ∃ j < k + m, Differs cfg.littleEndian file j

theorem foldl_checkWord (once : ∀ i j, Differs cfg.littleEndian file i →
      Differs cfg.littleEndian file j → i = j)
    (live : s.finished = false) (off : s.off = 4 * k % 2 ^ 64) (room : 4 * m ≤ moved)
    (inside : 4 * (k + m) ≤ file.length)
    (block : (s.bufs buf).take moved = (file.drop (4 * k)).take moved) :
    Compares cfg file k m s ((List.range m).foldl (cfg.checkWord buf) s) := by
  induction m with
  | zero => exact ⟨rfl, rfl, rfl, by simp [live]⟩
  | succ m ih =>
    rw [List.range_succ, List.foldl_append, List.foldl_cons, List.foldl_nil]
    have before := ih (by omega) (by omega)
    generalize (List.range m).foldl (cfg.checkWord buf) s = s₁ at before
    have got : load cfg.littleEndian (s₁.bufs buf) m = load cfg.littleEndian file (k + m) := by
      rw [before.bufs]
      exact load_of_take (by omega) block
    have want : expected s₁.off m = expected 0 (k + m) := by
      rw [before.off, off, expected_add]
    have counted := before.reports
    have next : differing cfg.littleEndian file (k + (m + 1)) =
        differing cfg.littleEndian file (k + m) +
          if Differs cfg.littleEndian file (k + m) then 1 else 0 := differing_succ (k + m)
    by_cases differs : Differs cfg.littleEndian file (k + m)
    · -- no other word differs, so the run goes on so far
      have live₁ : s₁.finished = false := by
        cases ended : s₁.finished with
        | false => rfl
        | true =>
          obtain ⟨j, earlier, differs'⟩ := before.ended ended
          exact absurd (once _ _ differs differs') (by omega)
      have reported : ¬ (s₁.finished = true ∨
          load cfg.littleEndian (s₁.bufs buf) m = expected s₁.off m) := by
        rw [live₁, got, want]
        simpa using differs.2
      rw [if_pos differs] at next
      simp only [Config.checkWord, if_neg reported]
      refine ⟨before.off, before.bufs, ?_, fun _ => ⟨k + m, by omega, differs⟩⟩
      rw [List.length_append, List.length_singleton]
      omega
    · have matching : s₁.finished = true ∨
          load cfg.littleEndian (s₁.bufs buf) m = expected s₁.off m := by
        rw [got, want]
        exact .inr (not_not.mp fun other => differs ⟨by omega, other⟩)
      rw [if_neg differs] at next
      simp only [Config.checkWord, if_pos matching]
      refine ⟨before.off, before.bufs, by omega, fun ended => ?_⟩
      obtain ⟨j, earlier, differs'⟩ := before.ended ended
      exact ⟨j, by omega, differs'⟩

/-- The rest of a pass keeps what holds behind the comparison. -/
theorem Checked.of_handled {s₁ s₂ : State} {write : Option ℕ} (wide : s₁.Wide cfg)
    (padIn : s₁.padIn = false) (whole : 4 ∣ s₁.inPos) (inside : s₁.inPos ≤ file.length)
    (reports : s₁.reports.length = differing cfg.littleEndian file (s₁.inPos / 4))
    (next : (s₁.off + moved) % 2 ^ 64 = s₁.inPos % 2 ^ 64)
    (handled : s₁.finished = true ∧ s₂ = s₁ ∨ Outputs cfg moved write s₁ s₂) :
    Checked cfg file s₂ := by
  rcases handled with ⟨ended, rfl⟩ | outputs
  · exact ⟨wide, padIn, whole, inside, reports, by simp [ended]⟩
  · refine ⟨outputs.wide, outputs.padIn.trans padIn, outputs.inPos ▸ whole,
      outputs.inPos ▸ inside, ?_, fun goes => ?_⟩
    · rw [outputs.reports, outputs.inPos, reports]
    · rw [outputs.off goes, outputs.inPos, next]

namespace PatternReader

variable (reader : PatternReader cfg)

include reader in
theorem start : Checked cfg file (cfg.start out) where
  wide _ := List.length_replicate
  padIn := reader.padin
  whole := by simp [Config.start, firstPos_of_no_skip reader.skip]
  inside := by simp [Config.start, firstPos_of_no_skip reader.skip]
  reports := by simp [Config.start, firstPos_of_no_skip reader.skip, differing]
  off _ := by simp [Config.start, firstPos_of_no_skip reader.skip, firstOff_of_no_skip reader.skip]

include reader in
/-- The comparison of a block. -/
theorem compare_reports (once : ∀ i j, Differs cfg.littleEndian file i →
      Differs cfg.littleEndian file j → i = j)
    (live : s.finished = false) (off : s.off = 4 * k % 2 ^ 64) (whole : 4 ∣ moved)
    (inside : 4 * k + moved ≤ file.length)
    (block : (s.bufs buf).take moved = (file.drop (4 * k)).take moved) :
    (cfg.compare buf pos moved s).reports.length + differing cfg.littleEndian file k =
      s.reports.length + differing cfg.littleEndian file (k + moved / 4) := by
  rw [Config.compare, if_pos reader.hasIn]
  have compares := @foldl_checkWord cfg file
    { s with trace := s.trace ++ [⟨.compare, s.off, pos⟩] } buf moved k (moved / 4) once live off
    (by omega) (by omega) block
  exact compares.reports

include reader in
/-- One pass, of a read of whole words. -/
theorem pass (once : ∀ i j, Differs cfg.littleEndian file i →
      Differs cfg.littleEndian file j → i = j)
    (aligned : 4 ∣ file.length) (reads : ∀ n, t.read = some n → 4 ∣ n)
    (live : s.finished = false) (checked : Checked cfg file s) :
    Checked cfg file (cfg.pass file s t) := by
  have passed : Passed cfg file t s (cfg.pass file s t) :=
    Config.pass_cases live checked.wide
  cases passed with
  | stop count nextbuf bufs wide ends =>
    rw [ends]
    exact ⟨wide, checked.padIn, checked.whole, checked.inside, checked.reports, by simp⟩
  | pad count nextbuf bufs read wide hin padding amount ends =>
    rw [checked.padIn] at padding
    cases padding
  | block count nextbuf bufs buf pos moved wide some_bytes fits source ends =>
    have whole : 4 ∣ moved := moved_whole reader.dvd checked.whole aligned reads source
    rw [if_pos reader.hasIn] at source
    obtain ⟨-, rfl, ⟨n, -, amount⟩, filled⟩ := source
    have compared := @Config.compared cfg buf s.inPos moved
      (s.fetched count nextbuf bufs (if cfg.hasIn then moved else 0))
    have inside : s.inPos + moved ≤ file.length := by
      rw [amount]
      exact Config.inPos_add_readCount_le checked.inside
    -- the block begins at a word of the file, and `off` names that word
    have at_word : 4 * (s.inPos / 4) = s.inPos := Nat.mul_div_cancel' checked.whole
    have off : s.off = 4 * (s.inPos / 4) % 2 ^ 64 := by
      rw [at_word]
      exact checked.off live
    have block : (bufs buf).take moved = (file.drop (4 * (s.inPos / 4))).take moved := by
      rw [at_word]
      exact filled
    have counted := @compare_reports cfg file (s.fetched count nextbuf bufs moved) buf s.inPos
      moved (s.inPos / 4) reader once live off whole (by omega) block
    rw [if_pos reader.inpat, if_pos reader.hasIn] at compared
    dsimp only at ends
    rw [if_pos reader.inpat, if_pos reader.hasIn] at ends
    generalize cfg.compare buf s.inPos moved (s.fetched count nextbuf bufs moved) = s₁
      at counted compared ends
    rw [if_pos reader.hasIn] at wide
    have wide₁ : s₁.Wide cfg := Config.wide_of_compared compared wide
    have inPos₁ : s₁.inPos = s.inPos + moved := compared.inPos
    have reports₁ : s₁.reports.length =
        differing cfg.littleEndian file (s₁.inPos / 4) := by
      have before : (s.fetched count nextbuf bufs moved).reports.length =
          differing cfg.littleEndian file (s.inPos / 4) := checked.reports
      have words : (s.inPos + moved) / 4 = s.inPos / 4 + moved / 4 := by omega
      rw [inPos₁, words]
      omega
    have next : (s₁.off + moved) % 2 ^ 64 = s₁.inPos % 2 ^ 64 := by
      have off₁ : s₁.off = s.inPos % 2 ^ 64 := compared.off.trans (checked.off live)
      rw [off₁, inPos₁]
      omega
    exact .of_handled wide₁ (compared.padIn.trans checked.padIn)
      (inPos₁ ▸ Nat.dvd_add checked.whole whole) (inPos₁ ▸ inside) reports₁ next
      (Config.handled_cases wide₁ fits ends)

include reader in
/-- The report has a line for each word that was read and differs, as long as there is at
most one. -/
theorem checked_of_run (once : ∀ i j, Differs cfg.littleEndian file i →
      Differs cfg.littleEndian file j → i = j)
    (aligned : 4 ∣ file.length) (reads : ∀ t ∈ ts, ∀ n, t.read = some n → 4 ∣ n) :
    Checked cfg file (cfg.run file out ts) :=
  Config.run_invariant reader.start fun _ t mem live checked =>
    reader.pass once aligned (reads t mem) live checked

end PatternReader

end Reader

section Changed

theorem not_differs_words : ¬ Differs littleEndian (words littleEndian 0 n) j := by
  rintro ⟨inside, differs⟩
  rw [length_words] at inside
  exact differs (load_words (by omega))

theorem differing_of_none (none_differs : ∀ j < k, ¬ Differs littleEndian file j) :
    differing littleEndian file k = 0 := by
  induction k with
  | zero => rfl
  | succ k ih =>
    rw [differing_succ, if_neg (none_differs k (Nat.lt_succ_self k)), Nat.add_zero]
    exact ih fun j below => none_differs j (by omega)

/-- One word among the first `k` differs. -/
theorem differing_of_one (differs : Differs littleEndian file j) (below : j < k)
    (once : ∀ i, Differs littleEndian file i → i = j) : differing littleEndian file k = 1 := by
  induction k with
  | zero => omega
  | succ k ih =>
    rw [differing_succ]
    rcases Nat.lt_succ_iff_lt_or_eq.mp below with earlier | rfl
    · have other : ¬ Differs littleEndian file k := fun this => by
        have := once k this
        omega
      rw [if_neg other, ih earlier]
    · rw [if_pos differs, differing_of_none]
      intro i earlier this
      have := once i this
      omega

/-- The file with another word `j`. -/
def changeWord (file : List UInt8) (j : ℕ) (word : List UInt8) : List UInt8 :=
  file.take (4 * j) ++ word ++ file.drop (4 * j + 4)

variable {word : List UInt8}

theorem length_changeWord (four : word.length = 4) (inside : 4 * j + 4 ≤ file.length) :
    (changeWord file j word).length = file.length := by
  simp only [changeWord, List.length_append, List.length_take, List.length_drop]
  omega

theorem load_changeWord_self (four : word.length = 4) (inside : 4 * j + 4 ≤ file.length) :
    load littleEndian (changeWord file j word) j = Lib.decode littleEndian word := by
  have front : (file.take (4 * j)).length = 4 * j := by
    rw [List.length_take]
    omega
  rw [load, changeWord, List.append_assoc, List.drop_left' front, List.take_left' four]

theorem load_changeWord_of_ne (four : word.length = 4) (inside : 4 * j + 4 ≤ file.length)
    (other : i ≠ j) :
    load littleEndian (changeWord file j word) i = load littleEndian file i := by
  have slice : ((changeWord file j word).drop (4 * i)).take 4 = (file.drop (4 * i)).take 4 := by
    ext1 p
    simp only [changeWord, List.getElem?_take, List.getElem?_drop, List.getElem?_append,
      List.length_append, List.length_take]
    -- the changed word is the only one in which the files differ
    split_ifs <;> first | rfl | omega | (congr 1; omega)
  rw [load, load, slice]

/-- The changed word is the only one that differs from the pattern. -/
theorem differs_changeWord_iff (four : word.length = 4) (inside : j < n)
    (other : word ≠ ((words littleEndian 0 n).drop (4 * j)).take 4) :
    Differs littleEndian (changeWord (words littleEndian 0 n) j word) i ↔ i = j := by
  have room : 4 * j + 4 ≤ (words littleEndian 0 n).length := by
    rw [length_words]
    omega
  rw [Differs, length_changeWord four room, length_words]
  constructor
  · rintro ⟨below, differs⟩
    by_contra ne
    rw [load_changeWord_of_ne four room ne, load_words (by omega)] at differs
    exact differs rfl
  · rintro rfl
    refine ⟨by omega, ?_⟩
    rw [load_changeWord_self four room, ← load_words inside, load]
    intro same
    apply other
    apply Lib.decode_injective _ same
    rw [four, List.length_take, List.length_drop]
    omega

end Changed

/-- **Patterns verify themselves.** A file that one run has written with the pattern is
read by another one without a report, and with one report if a word of it was changed
and is read. -/
theorem patterns_verify {w r : Config} (writer : PatternWriter w) (reader : PatternReader r)
    (order : w.littleEndian = r.littleEndian) (input out : List UInt8) (tw tr : List Transfer)
    (aligned : 4 ∣ input.length) (writes : ∀ t ∈ tw, ∃ n, t.write = some n ∧ w.bs ≤ n)
    (copies : ∀ t ∈ tw, ∀ n, t.read = some n → 4 ∣ n)
    (reads : ∀ t ∈ tr, ∀ n, t.read = some n → 4 ∣ n) :
    let file := (w.run input [] tw).output
    (r.run file out tr).reports = [] ∧
      ∀ j word, word.length = 4 → 4 * j + 4 ≤ file.length → word ≠ (file.drop (4 * j)).take 4 →
        4 * j < (r.run (changeWord file j word) out tr).inPos →
        (r.run (changeWord file j word) out tr).reports.length = 1 := by
  intro file
  obtain ⟨n, pattern⟩ : ∃ n, file = words r.littleEndian 0 n := order ▸
    writer.output_eq aligned copies writes
  have whole : 4 ∣ file.length := by
    rw [pattern, length_words]
    exact Nat.dvd_mul_right 4 n
  constructor
  · have checked : Checked r file (r.run file out tr) :=
      reader.checked_of_run (fun i j differs => absurd (pattern ▸ differs) not_differs_words)
        whole reads
    apply List.eq_nil_of_length_eq_zero
    rw [checked.reports]
    exact differing_of_none fun j _ differs => absurd (pattern ▸ differs) not_differs_words
  · intro j word four inside other read
    have differs_iff : ∀ i, Differs r.littleEndian (changeWord file j word) i ↔ i = j := by
      intro i
      rw [pattern] at inside other ⊢
      rw [length_words] at inside
      exact differs_changeWord_iff four (by omega) other
    have same_length : (changeWord file j word).length = file.length :=
      length_changeWord four inside
    have checked : Checked r (changeWord file j word) (r.run (changeWord file j word) out tr) :=
      reader.checked_of_run
        (fun i k first second => ((differs_iff i).mp first).trans ((differs_iff k).mp second).symm)
        (same_length ▸ whole) reads
    have covered : j < (r.run (changeWord file j word) out tr).inPos / 4 := by
      have := checked.whole
      omega
    rw [checked.reports]
    exact differing_of_one ((differs_iff j).mpr rfl) covered fun i => (differs_iff i).mp

/-- `lmdd of=F opat=1 bs=8`, or `lmdd if=F ipat=1 bs=4 bufs=2`. -/
def patternConfig (reads : Bool) : Config where
  littleEndian := true
  bs := if reads then 4 else 8
  nbufs := if reads then 2 else 1
  count := none
  skip := none
  padin := false
  inpat := reads
  outpat := !reads
  mismatch := -1
  touch := false
  hasIn := reads
  hasOut := !reads
  append := false
  inLimit := 2 ^ 44
  outLimit := 2 ^ 44
  four_le := by cases reads <;> decide

theorem patterns_verify_two_blocks :
    ((patternConfig true).run
        (changeWord ((patternConfig false).run [] [] [⟨none, some 8⟩, ⟨none, some 8⟩]).output 2
          [9, 0, 0, 0]) []
        (List.replicate 4 ⟨some 4, none⟩)).reports.length = 1 :=
  (patterns_verify (w := patternConfig false) (r := patternConfig true)
    ⟨rfl, rfl, rfl, rfl, rfl, by decide⟩ ⟨rfl, rfl, rfl, rfl, by decide⟩ rfl [] []
    [⟨none, some 8⟩, ⟨none, some 8⟩] (List.replicate 4 ⟨some 4, none⟩) (by decide) (by decide)
    (by simp) (by simp)).2 2 [9, 0, 0, 0] rfl (by decide) (by decide) (by decide)

end Lmbench.Lmdd
