import Lmbench.Lib.Endian
import Mathlib.Data.List.TakeDrop
import Mathlib.Logic.Function.Basic

/-!
# The transfer loop of `lmdd`

The loop of `main` without `rand`, `end` and `fork`: each pass reads a block into the
next of a number of buffers, compares it with the pattern, fills it with the pattern
and writes it. `off` is meant to be the offset of the block, and the pattern is made
from it. `input` and `output` are the contents of files that were opened by name.

Each comparison and each fill is recorded with the value of `off` and the offset in
its file of the block that is being handled.

## Main results

* `Config.pass_cases` - what a pass does
* `Config.compare_eq`, `Config.fill_eq` - what the comparison and the fill change
* `Config.outputs` - what the part of a pass behind the comparison does
* `Config.run_invariant` - the rule for properties that every pass keeps
-/

namespace Lmbench.Lmdd

/-- The arguments of a run. -/
structure Config where
  littleEndian : Bool
  bs : ℕ
  nbufs : ℕ
  count : Option ℕ
  skip : Option ℕ
  padin : Bool
  inpat : Bool
  outpat : Bool
  /-- -1 when not given -/
  mismatch : ℤ
  touch : Bool
  hasIn : Bool
  hasOut : Bool
  append : Bool
  /-- the largest offset that `lseek` takes in the input -/
  inLimit : ℕ
  /-- and in the output -/
  outLimit : ℕ
  four_le : 4 ≤ bs

/-- What the system calls of a pass are willing to do: how many bytes `read` and
`write` would move at most, or an error. -/
structure Transfer where
  read : Option ℕ
  write : Option ℕ
deriving DecidableEq, Repr

/-- A line of the mismatch report. -/
structure Report where
  off : ℕ
  want : ℕ
  got : ℕ
deriving DecidableEq, Repr

/-- What is done with the pattern. -/
inductive Kind
  | compare
  | fill
deriving DecidableEq, Repr

/-- The pattern is used while a block is handled: `off`, and the offset of the block in
the input or output file. -/
structure Access where
  kind : Kind
  off : ℕ
  pos : ℕ
deriving DecidableEq, Repr

/-- The variables of the loop, the two file positions and the output file; the reports
and the uses of the pattern so far. -/
structure State where
  off : ℕ
  count : ℕ
  padIn : Bool
  nextbuf : ℕ
  bufs : ℕ → List UInt8
  inPos : ℕ
  outPos : ℕ
  output : List UInt8
  misses : ℤ
  reports : List Report
  trace : List Access
  finished : Bool

/-- `buf[foo]`. -/
def load (littleEndian : Bool) (buf : List UInt8) (foo : ℕ) : ℕ :=
  Lib.decode littleEndian ((buf.drop (4 * foo)).take 4)

/-- `buf[foo] = word`. -/
def store (littleEndian : Bool) (buf : List UInt8) (foo word : ℕ) : List UInt8 :=
  buf.take (4 * foo) ++ Lib.encode littleEndian 4 word ++ buf.drop (4 * foo + 4)

/-- `(uint)(off + foo*sizeof(int))`. -/
def expected (off foo : ℕ) : ℕ := (off + 4 * foo) % 2 ^ 32

/-- The file after `bytes` were written at `pos`. -/
def writeAt (file : List UInt8) (pos : ℕ) (bytes : List UInt8) : List UInt8 :=
  file.take pos ++ List.replicate (pos - file.length) 0 ++ bytes ++ file.drop (pos + bytes.length)

/-- The first `m` words of the pattern of a block at `off`. -/
def words (littleEndian : Bool) (off m : ℕ) : List UInt8 :=
  (List.range m).flatMap fun foo => Lib.encode littleEndian 4 (expected off foo)

namespace Config

variable (cfg : Config)

/-- `off` after `off = skip; off *= Bsize`. -/
def firstOff : ℕ := cfg.skip.getD 0 * cfg.bs % 2 ^ 64

/-- Where `seekto(fd, off, 0)` leaves a file: an offset that the file system refuses is not
looked at any more. -/
def firstPos (largest : ℕ) : ℕ := if cfg.firstOff ≤ largest then cfg.firstOff else 0

/-- The state in front of the loop. -/
def start (output : List UInt8) : State where
  off := cfg.firstOff
  count := cfg.count.getD (2 ^ 64 - 1)
  padIn := cfg.padin
  nextbuf := 0
  bufs _ := List.replicate cfg.bs 0
  inPos := cfg.firstPos cfg.inLimit
  outPos := cfg.firstPos cfg.outLimit
  output := output
  misses := cfg.mismatch
  reports := []
  trace := []
  finished := false

/-- One word of the comparison, unless `done()` was called before. -/
def checkWord (buf : ℕ) (s : State) (foo : ℕ) : State :=
  let want := expected s.off foo
  let got := load cfg.littleEndian (s.bufs buf) foo
  if s.finished ∨ got = want then s
  else
    -- the line of the report; `--misses` is evaluated only if `mismatch` was given
    { s with
      reports := s.reports ++ [⟨s.off % 2 ^ 32, want, got⟩]
      misses := if cfg.mismatch ≠ -1 then s.misses - 1 else s.misses
      finished := decide (cfg.mismatch ≠ -1 ∧ s.misses - 1 = 0) }

/-- The comparison of a block that was read at `pos`. -/
def compare (buf pos moved : ℕ) (s : State) : State :=
  let s := if cfg.hasIn then { s with trace := s.trace ++ [⟨.compare, s.off, pos⟩] } else s
  (List.range (moved / 4)).foldl (cfg.checkWord buf) s

/-- One word of the fill. -/
def fillWord (buf : ℕ) (s : State) (foo : ℕ) : State :=
  { s with
    bufs := Function.update s.bufs buf
      (store cfg.littleEndian (s.bufs buf) foo (expected s.off foo)) }

/-- Where the next write goes; `O_APPEND` moves it to the end of the file. -/
def writePos (s : State) : ℕ := if cfg.append then s.output.length else s.outPos

/-- The fill of a block. -/
def fill (buf moved : ℕ) (s : State) : State :=
  (List.range (moved / 4)).foldl (cfg.fillWord buf)
    { s with trace := s.trace ++ [⟨.fill, s.off, cfg.writePos s⟩] }

/-- The `touch` loop. -/
def touchBlock (buf moved : ℕ) (s : State) : State :=
  { s with
    bufs := Function.update s.bufs buf
      ((s.bufs buf).mapIdx fun i b => if i < moved ∧ i % 4096 = 0 then 0 else b) }

/-- How many bytes `read` returns: no more than a block, and no more than are left. -/
def readCount (input : List UInt8) (s : State) (n : ℕ) : ℕ :=
  min n (min cfg.bs (input.length - s.inPos))

/-- `read(in, buf, Bsize)`. -/
def readBlock (input : List UInt8) (buf n : ℕ) (s : State) : State :=
  let bytes := (input.drop s.inPos).take (cfg.readCount input s n)
  { s with
    bufs := Function.update s.bufs buf (bytes ++ (s.bufs buf).drop bytes.length)
    inPos := s.inPos + cfg.readCount input s n }

/-- `write(out, buf, moved)`, which returns `n`. -/
def writeBlock (buf n : ℕ) (s : State) : State :=
  { s with
    output := writeAt s.output (cfg.writePos s) ((s.bufs buf).take n)
    outPos := cfg.writePos s + n }

/-- `off += moved`. -/
def advance (moved : ℕ) (s : State) : State := { s with off := (s.off + moved) % 2 ^ 64 }

/-- The write of a block and what follows it. -/
def put (buf moved : ℕ) (write : Option ℕ) (s : State) : State :=
  match write with
  | none => { s with finished := true }
  | some n =>
    -- a short write ends the run, and the part that was written stays
    if n < moved then { cfg.writeBlock buf n s with finished := true }
    else
      let s := cfg.writeBlock buf moved s
      advance moved (if cfg.touch then touchBlock buf moved s else s)

/-- The part of a pass behind the comparison. -/
def output (buf moved : ℕ) (write : Option ℕ) (s : State) : State :=
  let s := if cfg.hasIn && cfg.touch then touchBlock buf moved s else s
  -- the fill comes behind the first `touch`, and a second one behind the write
  if cfg.hasOut then
    cfg.put buf moved write (if cfg.outpat then cfg.fill buf moved s else s)
  else advance moved s

/-- The part of a pass behind the read, of a block that was read at `pos`. -/
def handle (buf pos moved : ℕ) (write : Option ℕ) (s : State) : State :=
  if moved = 0 then { s with finished := true }
  else
    let s := if cfg.inpat then cfg.compare buf pos moved s else s
    if s.finished then s else cfg.output buf moved write s

/-- The next buffer, and `count--`. -/
def beginPass (s : State) : State :=
  { s with
    count := if cfg.count.isSome then s.count - 1 else s.count
    nextbuf := if s.nextbuf + 1 = cfg.nbufs then 0 else s.nextbuf + 1 }

/-- One pass of the loop. -/
def pass (input : List UInt8) (s : State) (t : Transfer) : State :=
  if s.finished then s
  -- `count` is unsigned: `count-- <= 0` is a test for 0
  else if cfg.count.isSome ∧ s.count = 0 then { s with finished := true }
  else
    let buf := s.nextbuf
    let s := cfg.beginPass s
    if cfg.hasIn then
      match t.read with
      | none =>
        -- a padding read that fails is not looked at
        if s.padIn then { s with padIn := false, count := (s.count + 1) % 2 ^ 64 }
        else { s with finished := true }
      | some n =>
        let pos := s.inPos
        let moved := cfg.readCount input s n
        let s := cfg.readBlock input buf n s
        -- the padding read is not accounted for in `off`
        if s.padIn then { s with padIn := false, count := (s.count + 1) % 2 ^ 64 }
        else cfg.handle buf pos moved t.write s
    -- without an input every block is full
    else cfg.handle buf 0 cfg.bs t.write s

/-- All passes. -/
def run (input output : List UInt8) (ts : List Transfer) : State :=
  ts.foldl (cfg.pass input) (cfg.start output)

end Config

/-- Every buffer is a block long. -/
def State.Wide (cfg : Config) (s : State) : Prop := ∀ b, (s.bufs b).length = cfg.bs

/-- What the comparison of a block that was read at `pos` leaves as it was. -/
structure Compared (cfg : Config) (pos : ℕ) (s t : State) : Prop where
  off : t.off = s.off
  bufs : t.bufs = s.bufs
  padIn : t.padIn = s.padIn
  inPos : t.inPos = s.inPos
  outPos : t.outPos = s.outPos
  output : t.output = s.output
  trace : t.trace = s.trace ++
    if cfg.inpat ∧ cfg.hasIn then [⟨.compare, s.off, pos⟩] else []

/-- What the part of a pass behind the comparison does. -/
structure Outputs (cfg : Config) (moved : ℕ) (write : Option ℕ) (s t : State) : Prop where
  inPos : t.inPos = s.inPos
  padIn : t.padIn = s.padIn
  reports : t.reports = s.reports
  wide : t.Wide cfg
  trace : t.trace = s.trace ++
    if cfg.hasOut ∧ cfg.outpat then [⟨.fill, s.off, cfg.writePos s⟩] else []
  off : t.finished = false → t.off = (s.off + moved) % 2 ^ 64
  written : t.finished = false → cfg.hasOut → t.outPos = cfg.writePos s + moved ∧
    ∃ bytes : List UInt8, bytes.length = moved ∧
      t.output = writeAt s.output (cfg.writePos s) bytes ∧
      (cfg.outpat → ∃ rest, bytes = words cfg.littleEndian s.off (moved / 4) ++ rest)
  full : (∃ n, write = some n ∧ moved ≤ n) → t.finished = false

/-- The state in front of the comparison, when a pass has read `read` bytes. -/
def State.fetched (s : State) (count nextbuf : ℕ) (bufs : ℕ → List UInt8) (read : ℕ) : State :=
  { s with count := count, nextbuf := nextbuf, bufs := bufs, inPos := s.inPos + read }

/-- What a pass can do: end the run, make the padding read, or handle a block. -/
inductive Passed (cfg : Config) (input : List UInt8) (t : Transfer) (s s' : State) : Prop
  | stop (count nextbuf : ℕ) (bufs : ℕ → List UInt8)
      (wide : (s.fetched count nextbuf bufs 0).Wide cfg)
      (ends : s' = { s.fetched count nextbuf bufs 0 with finished := true })
  | pad (count nextbuf : ℕ) (bufs : ℕ → List UInt8) (read : ℕ)
      (wide : (s.fetched count nextbuf bufs read).Wide cfg)
      (hin : cfg.hasIn = true) (padding : s.padIn = true)
      (amount : ∀ n, t.read = some n → read = cfg.readCount input s n)
      (ends : s' = { s.fetched count nextbuf bufs read with padIn := false })
  | block (count nextbuf : ℕ) (bufs : ℕ → List UInt8) (buf pos moved : ℕ)
      (wide : (s.fetched count nextbuf bufs (if cfg.hasIn then moved else 0)).Wide cfg)
      (moves : 0 < moved) (fits : moved ≤ cfg.bs)
      (source : if cfg.hasIn then s.padIn = false ∧ pos = s.inPos ∧
          (∃ n, t.read = some n ∧ moved = cfg.readCount input s n) ∧
          (bufs buf).take moved = (input.drop s.inPos).take moved
        else moved = cfg.bs)
      (ends : s' =
        let s := s.fetched count nextbuf bufs (if cfg.hasIn then moved else 0)
        let s := if cfg.inpat then cfg.compare buf pos moved s else s
        if s.finished then s else cfg.output buf moved t.write s)

section Words

variable {littleEndian : Bool} {buf file bytes : List UInt8} {off m pos : ℕ}

@[simp] theorem words_zero : words littleEndian off 0 = [] := rfl

theorem words_succ : words littleEndian off (m + 1) =
    words littleEndian off m ++ Lib.encode littleEndian 4 (expected off m) := by
  simp [words, List.range_succ]

@[simp] theorem length_words : (words littleEndian off m).length = 4 * m := by
  induction m with
  | zero => rfl
  | succ m ih =>
    rw [words_succ, List.length_append, ih, Lib.length_encode]
    omega

theorem length_writeAt : (writeAt file pos bytes).length =
    max file.length (pos + bytes.length) := by
  simp only [writeAt, List.length_append, List.length_take, List.length_replicate,
    List.length_drop]
  omega

/-- A write at the end of the file. -/
theorem writeAt_length : writeAt file file.length bytes = file ++ bytes := by
  simp [writeAt]

end Words

namespace Config

variable {cfg : Config} {s t : State} {buf pos moved m : ℕ} {input out : List UInt8}

section Compare

/-- Words that are compared change the reports and may end the run. -/
theorem foldl_checkWord_eq (l : List ℕ) (s : State) : ∃ reports misses finished,
    l.foldl (cfg.checkWord buf) s =
      { s with reports := reports, misses := misses, finished := finished } := by
  induction l generalizing s with
  | nil => exact ⟨s.reports, s.misses, s.finished, rfl⟩
  | cons foo l ih =>
    rw [List.foldl_cons]
    -- a word that is as it should be, or behind `done()`, changes nothing
    by_cases skipped : s.finished ∨
        load cfg.littleEndian (s.bufs buf) foo = expected s.off foo
    · have same : cfg.checkWord buf s foo = s := by
        simp only [checkWord, skipped, if_true]
      rw [same]
      exact ih s
    · obtain ⟨reports, misses, finished, after⟩ := ih (cfg.checkWord buf s foo)
      refine ⟨reports, misses, finished, ?_⟩
      rw [after]
      simp only [checkWord, skipped, if_false]

/-- The comparison changes the reports and may end the run. -/
theorem compare_eq (s : State) : ∃ reports misses finished,
    cfg.compare buf pos moved s =
      { s with
        trace := s.trace ++ (if cfg.hasIn then [⟨.compare, s.off, pos⟩] else [])
        reports := reports
        misses := misses
        finished := finished } := by
  obtain ⟨reports, misses, finished, after⟩ := @foldl_checkWord_eq cfg buf
    (List.range (moved / 4))
    (if cfg.hasIn then { s with trace := s.trace ++ [⟨.compare, s.off, pos⟩] } else s)
  refine ⟨reports, misses, finished, ?_⟩
  rw [compare, after]
  cases cfg.hasIn <;> simp

/-- The comparison, if there is one. -/
theorem compared (s : State) :
    Compared cfg pos s (if cfg.inpat then cfg.compare buf pos moved s else s) := by
  cases inpat : cfg.inpat with
  | false => exact ⟨rfl, rfl, rfl, rfl, rfl, rfl, by simp [inpat]⟩
  | true =>
    obtain ⟨reports, misses, finished, after⟩ := @compare_eq cfg buf pos moved s
    simp only [if_true, after]
    exact ⟨rfl, rfl, rfl, rfl, rfl, rfl, by simp [inpat]⟩

theorem wide_of_compared (compared : Compared cfg pos s t) (wide : s.Wide cfg) : t.Wide cfg := by
  rw [State.Wide, compared.bufs]
  exact wide

end Compare

section Fill

/-- Words that are filled replace the front of the buffer. -/
theorem foldl_fillWord_eq (s : State) (room : 4 * m ≤ (s.bufs buf).length) :
    (List.range m).foldl (cfg.fillWord buf) s =
      { s with
        bufs := Function.update s.bufs buf
          (words cfg.littleEndian s.off m ++ (s.bufs buf).drop (4 * m)) } := by
  induction m with
  | zero => simp
  | succ m ih =>
    have before := ih (by omega)
    rw [List.range_succ, List.foldl_append, before]
    -- the word `m` goes right behind the `m` words that stand there
    have front : (words cfg.littleEndian s.off m).length = 4 * m := length_words
    simp only [List.foldl_cons, List.foldl_nil, fillWord, Function.update_self,
      Function.update_idem, store, words_succ]
    congr 2
    rw [List.take_append_of_le_length (by omega), List.take_of_length_le (by omega),
      List.drop_append, front, List.drop_of_length_le (by omega), List.drop_drop]
    simp only [List.nil_append]
    congr 2
    omega

/-- The fill replaces the front of the buffer. -/
theorem fill_eq (s : State) (room : moved ≤ (s.bufs buf).length) :
    cfg.fill buf moved s =
      { s with
        bufs := Function.update s.bufs buf
          (words cfg.littleEndian s.off (moved / 4) ++ (s.bufs buf).drop (4 * (moved / 4)))
        trace := s.trace ++ [⟨.fill, s.off, cfg.writePos s⟩] } :=
  foldl_fillWord_eq _ (le_trans (Nat.mul_div_le moved 4) room)

end Fill

section Output

theorem State.Wide.update {bytes : List UInt8} (wide : s.Wide cfg)
    (block : bytes.length = cfg.bs) :
    ∀ b, (Function.update s.bufs buf bytes b).length = cfg.bs := by
  intro b
  rcases eq_or_ne b buf with rfl | other
  · rw [Function.update_self, block]
  · rw [Function.update_of_ne other, wide b]

theorem wide_touchBlock (wide : s.Wide cfg) : (touchBlock buf moved s).Wide cfg :=
  State.Wide.update wide (by rw [List.length_mapIdx, wide buf])

theorem wide_fill (wide : s.Wide cfg) (fits : moved ≤ cfg.bs) :
    (cfg.fill buf moved s).Wide cfg := by
  have room : moved ≤ (s.bufs buf).length := by rw [wide buf]; exact fits
  rw [fill_eq s room]
  apply State.Wide.update wide
  rw [List.length_append, length_words, List.length_drop, wide buf]
  omega

/-- What a write leaves as it was. -/
theorem put_frame {write : Option ℕ} (wide : s.Wide cfg) :
    (cfg.put buf moved write s).inPos = s.inPos ∧
      (cfg.put buf moved write s).padIn = s.padIn ∧
      (cfg.put buf moved write s).reports = s.reports ∧
      (cfg.put buf moved write s).trace = s.trace ∧ (cfg.put buf moved write s).Wide cfg := by
  have touched := @wide_touchBlock cfg (cfg.writeBlock buf moved s) buf moved wide
  cases write with
  | none => exact ⟨rfl, rfl, rfl, rfl, wide⟩
  | some n =>
    rw [put]
    split
    · exact ⟨rfl, rfl, rfl, rfl, wide⟩
    · split
      · exact ⟨rfl, rfl, rfl, rfl, touched⟩
      · exact ⟨rfl, rfl, rfl, rfl, wide⟩

/-- A write after which the loop goes on was full. -/
theorem put_full {write : Option ℕ} (goes : (cfg.put buf moved write s).finished = false) :
    (cfg.put buf moved write s).off = (s.off + moved) % 2 ^ 64 ∧
      (cfg.put buf moved write s).outPos = cfg.writePos s + moved ∧
      (cfg.put buf moved write s).output =
        writeAt s.output (cfg.writePos s) ((s.bufs buf).take moved) := by
  cases write with
  | none => simp [put] at goes
  | some n =>
    rw [put] at goes ⊢
    split at goes
    · simp at goes
    · rename_i full
      simp only [full, if_false]
      split <;> exact ⟨rfl, rfl, rfl⟩

theorem put_goes {n : ℕ} (live : s.finished = false) (full : moved ≤ n) :
    (cfg.put buf moved (some n) s).finished = false := by
  have long : ¬ n < moved := Nat.not_lt.mpr full
  rw [put]
  simp only [long, if_false]
  split <;> exact live

/-- What the fill, if there is one, does to the block and leaves as it was. -/
theorem fill_frame (wide : s.Wide cfg) (fits : moved ≤ cfg.bs) :
    ∃ bufs, (if cfg.outpat then cfg.fill buf moved s else s) =
        { s with
          bufs := bufs
          trace := s.trace ++ if cfg.outpat then [⟨.fill, s.off, cfg.writePos s⟩] else [] } ∧
      (∀ b, (bufs b).length = cfg.bs) ∧
      (cfg.outpat → ∃ rest, (bufs buf).take moved =
        words cfg.littleEndian s.off (moved / 4) ++ rest) := by
  have room : moved ≤ (s.bufs buf).length := by rw [wide buf]; exact fits
  cases filled : cfg.outpat with
  | false => exact ⟨s.bufs, by simp, wide, by simp⟩
  | true =>
    have wide' : (cfg.fill buf moved s).Wide cfg := wide_fill wide fits
    rw [fill_eq s room] at wide'
    have front : (words cfg.littleEndian s.off (moved / 4)).length ≤ moved := by
      rw [length_words]
      omega
    refine ⟨Function.update s.bufs buf
      (words cfg.littleEndian s.off (moved / 4) ++ (s.bufs buf).drop (4 * (moved / 4))),
      ?_, wide', fun _ => ?_⟩
    · simpa using fill_eq s room
    · rw [Function.update_self, List.take_append, List.take_of_length_le front]
      exact ⟨_, rfl⟩

/-- The part of a pass behind the comparison, in all its effects. -/
theorem outputs {write : Option ℕ} (live : s.finished = false) (wide : s.Wide cfg)
    (fits : moved ≤ cfg.bs) : Outputs cfg moved write s (cfg.output buf moved write s) := by
  obtain ⟨bufs₁, touched, wide₁⟩ : ∃ bufs,
      (if cfg.hasIn && cfg.touch then touchBlock buf moved s else s) = { s with bufs := bufs } ∧
      ∀ b, (bufs b).length = cfg.bs := by
    split
    · exact ⟨_, rfl, wide_touchBlock wide⟩
    · exact ⟨_, rfl, wide⟩
  cases hout : cfg.hasOut with
  | false =>
    have whole : cfg.output buf moved write s = advance moved { s with bufs := bufs₁ } := by
      simp only [output, hout, touched, Bool.false_eq_true, if_false]
    rw [whole]
    exact {
      inPos := rfl
      padIn := rfl
      reports := rfl
      wide := wide₁
      trace := by simp [advance, hout]
      off := fun _ => rfl
      written := by simp [hout]
      full := fun _ => live }
  | true =>
    obtain ⟨bufs₂, filled, wide₂, front⟩ :=
      @fill_frame cfg { s with bufs := bufs₁ } buf moved wide₁ fits
    have whole : cfg.output buf moved write s = cfg.put buf moved write
        { s with
          bufs := bufs₂
          trace := s.trace ++ if cfg.outpat then [⟨.fill, s.off, cfg.writePos s⟩] else [] } := by
      simp only [output, hout, touched, if_true]
      rw [filled]
      rfl
    rw [whole]
    obtain ⟨inPos, padIn, reports, trace, wide'⟩ := @put_frame cfg
      { s with
        bufs := bufs₂
        trace := s.trace ++ if cfg.outpat then [⟨.fill, s.off, cfg.writePos s⟩] else [] }
      buf moved write wide₂
    refine ⟨inPos, padIn, reports, wide', ?_, fun goes => (put_full goes).1, ?_, ?_⟩
    · rw [trace]
      simp [hout]
    · intro goes _
      obtain ⟨-, outPos, output⟩ := put_full goes
      refine ⟨outPos, _, ?_, output, front⟩
      rw [List.length_take, wide₂ buf]
      exact Nat.min_eq_left fits
    · rintro ⟨n, rfl, full⟩
      exact put_goes live full

/-- The end of a pass that handles a block. The comparison has ended the run, or the rest
of the pass follows it. -/
theorem handled_cases {s' : State} {write : Option ℕ} (wide : s.Wide cfg) (fits : moved ≤ cfg.bs)
    (ends : s' = if s.finished then s else cfg.output buf moved write s) :
    s.finished = true ∧ s' = s ∨ Outputs cfg moved write s s' := by
  cases ended : s.finished with
  | true =>
    rw [if_pos ended] at ends
    exact .inl ⟨rfl, ends⟩
  | false =>
    rw [if_neg (by simp [ended])] at ends
    exact .inr (ends ▸ outputs ended wide fits)

end Output

section Pass

theorem readCount_le {n : ℕ} : cfg.readCount input s n ≤ cfg.bs :=
  le_trans (Nat.min_le_right _ _) (Nat.min_le_left _ _)

theorem inPos_add_readCount_le {n : ℕ} (inside : s.inPos ≤ input.length) :
    s.inPos + cfg.readCount input s n ≤ input.length := by
  have left : cfg.readCount input s n ≤ input.length - s.inPos :=
    le_trans (Nat.min_le_right _ _) (Nat.min_le_right _ _)
  omega

theorem wide_readBlock {n : ℕ} (wide : s.Wide cfg) :
    (cfg.readBlock input buf n s).Wide cfg := by
  apply State.Wide.update wide
  have small : cfg.readCount input s n ≤ cfg.bs := readCount_le
  rw [List.length_append, List.length_drop, wide buf, List.length_take]
  omega

theorem take_bufs_readBlock {n : ℕ} :
    ((cfg.readBlock input buf n s).bufs buf).take (cfg.readCount input s n) =
      (input.drop s.inPos).take (cfg.readCount input s n) := by
  have left : cfg.readCount input s n ≤ (input.drop s.inPos).length := by
    rw [List.length_drop]
    exact le_trans (Nat.min_le_right _ _) (Nat.min_le_right _ _)
  have block : ((input.drop s.inPos).take (cfg.readCount input s n)).length =
      cfg.readCount input s n := by
    rw [List.length_take, Nat.min_eq_left left]
  simp only [readBlock, Function.update_self]
  rw [List.take_append_of_le_length (le_of_eq block.symm),
    List.take_of_length_le (le_of_eq block)]

/-- A pass that pads: what it reads is not written. -/
theorem passed_padding {t : Transfer} (live : s.finished = false) (wide : s.Wide cfg)
    (some_left : ¬(cfg.count.isSome ∧ s.count = 0)) (hin : cfg.hasIn = true)
    (padding : s.padIn = true) : Passed cfg input t s (cfg.pass input s t) := by
  unfold pass
  simp only [live, Bool.false_eq_true, if_false, if_neg some_left, hin, if_true]
  set begun := cfg.beginPass s
  have padding' : begun.padIn = true := padding
  cases read : t.read with
  | none =>
    simp only [padding', if_true]
    exact .pad ((begun.count + 1) % 2 ^ 64) begun.nextbuf s.bufs 0 wide hin padding
      (by simp [read]) rfl
  | some n =>
    have after := @wide_readBlock cfg begun s.nextbuf input n wide
    have padding' : (cfg.readBlock input s.nextbuf n begun).padIn = true := padding
    simp only [padding', if_true]
    exact .pad ((begun.count + 1) % 2 ^ 64) begun.nextbuf _ (cfg.readCount input begun n)
      after hin padding (fun m same => by rw [read] at same; cases same; rfl) rfl

/-- A pass that reads a block: it stops at the end of the input, and handles the block
otherwise. -/
theorem passed_reading {t : Transfer} (live : s.finished = false) (wide : s.Wide cfg)
    (some_left : ¬(cfg.count.isSome ∧ s.count = 0)) (hin : cfg.hasIn = true)
    (padding : s.padIn = false) : Passed cfg input t s (cfg.pass input s t) := by
  unfold pass
  simp only [live, Bool.false_eq_true, if_false, if_neg some_left, hin, if_true]
  set begun := cfg.beginPass s with hbegun
  have padding' : ¬ begun.padIn = true := by simp [hbegun, beginPass, padding]
  cases read : t.read with
  | none =>
    simp only [if_neg padding']
    exact .stop begun.count begun.nextbuf s.bufs wide rfl
  | some n =>
    have after := @wide_readBlock cfg begun s.nextbuf input n wide
    have padding' : ¬ (cfg.readBlock input s.nextbuf n begun).padIn = true := padding'
    simp only [if_neg padding', handle]
    by_cases moves : cfg.readCount input begun n = 0
    · rw [if_pos moves]
      refine .stop begun.count begun.nextbuf _ after ?_
      simp only [readBlock, moves]
      rfl
    · rw [if_neg moves]
      refine .block begun.count begun.nextbuf
        (cfg.readBlock input s.nextbuf n begun).bufs s.nextbuf s.inPos
        (cfg.readCount input begun n) ?_ (Nat.pos_of_ne_zero moves) readCount_le ?_ ?_
      · exact after
      · simp only [hin, if_true]
        exact ⟨padding, trivial, ⟨n, read, rfl⟩, take_bufs_readBlock⟩
      · simp only [hin, if_true]
        rfl

/-- What a pass does. -/
theorem pass_cases {t : Transfer} (live : s.finished = false) (wide : s.Wide cfg) :
    Passed cfg input t s (cfg.pass input s t) := by
  by_cases none_left : cfg.count.isSome ∧ s.count = 0
  · unfold pass
    simp only [live, Bool.false_eq_true, if_false, if_pos none_left]
    exact .stop s.count s.nextbuf s.bufs wide rfl
  cases hin : cfg.hasIn with
  | false =>
    have some_bytes : cfg.bs ≠ 0 := by
      have := cfg.four_le
      omega
    unfold pass
    simp only [live, if_neg none_left, hin, Bool.false_eq_true, if_false, handle, some_bytes]
    exact .block (cfg.beginPass s).count (cfg.beginPass s).nextbuf s.bufs s.nextbuf 0 cfg.bs
      wide (Nat.pos_of_ne_zero some_bytes) le_rfl (by simp [hin]) (by simp [hin]; rfl)
  | true =>
    cases padding : s.padIn with
    | true => exact passed_padding live wide none_left hin padding
    | false => exact passed_reading live wide none_left hin padding

theorem pass_of_finished {t : Transfer} (ended : s.finished = true) :
    cfg.pass input s t = s := by
  simp [pass, ended]

/-- **Invariant rule.** A property of the start that every pass of the loop keeps holds
after all passes. Behind the end of the run nothing happens any more. -/
theorem run_invariant {inv : State → Prop} {ts : List Transfer} (initial : inv (cfg.start out))
    (preserved : ∀ s, ∀ t ∈ ts, s.finished = false → inv s → inv (cfg.pass input s t)) :
    inv (cfg.run input out ts) := by
  refine List.foldlRecOn ts (cfg.pass input) initial fun s holds t mem => ?_
  cases live : s.finished with
  | true => rwa [pass_of_finished live]
  | false => exact preserved s t mem live holds

end Pass

end Config

end Lmbench.Lmdd
