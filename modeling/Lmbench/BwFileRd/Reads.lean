import Lmbench.Benchmp.Usage
import Mathlib.Data.List.Basic

/-!
# The reads of `bw_file_rd`

Each iteration reads a file in pieces until it has asked for as many bytes as the report counts, or
the file ends. With `-C` a child reads a copy of its own, which it makes in `initialize` and removes
in `cleanup`. A read of a file is only short at its end.

## Main results

* `copy_eq` - the copy is one
* `offset_doitLoop` - how far one iteration gets
* `read_of_run` - what all iterations of a child read, and what they leave behind
-/

namespace Lmbench.BwFileRd

open Lib Benchmp

abbrev Path := List Char

def XFERSIZE : ℕ := 64 * 1024

/-- The arguments and the process number of a child. -/
structure Config where
  filename : Path
  clone : Bool
  ioOnly : Bool
  count : ℕ
  pid : ℕ

/-- `xfersize` -/
def Config.xfersize (cfg : Config) : ℕ := if cfg.count < XFERSIZE then cfg.count else XFERSIZE

/-- `sprintf(s, "%s%d", state->filename, (int)getpid())` -/
def Config.privateName (cfg : Config) : Path := cfg.filename ++ Nat.toDigits 10 cfg.pid

/-- The files, `filename` and `fd` of the state with the offset of `fd`, how many descriptors are
open, and how many bytes `read` has returned. -/
structure Process where
  files : Path → Option (List UInt8)
  filename : Path
  fd : Option ℕ
  opened : ℕ
  got : ℕ

section Functions

variable (cfg : Config)

/-- The loop of `cp`. -/
def copy (unread written : List UInt8) : List UInt8 :=
  if unread = [] then written else copy (unread.drop 8192) (written ++ unread.take 8192)
termination_by unread.length
decreasing_by
  have := List.length_pos_of_ne_nil ‹_›
  rw [List.length_drop]
  omega

/-- `cp` -/
def cp (src dst : Path) (s : Process) : Option Process :=
  match s.files src with
  | none => none
  | some content =>
    -- the target is emptied before anything is read
    let content := if dst = src then [] else content
    some { s with files := Function.update s.files dst (some (copy content [])) }

/-- The loop of `doit` on a file of some size, from `offset`; it ends where `read` returns 0. -/
def doitLoop (fileSize : ℕ) : ℕ → ℕ → ℕ → ℕ → ℕ
  | 0, _, _, offset => offset
  | fuel + 1, size, chunk, offset =>
    if size = 0 then offset
    else
      let chunk := if size < chunk then size else chunk
      let n := min (min size chunk) (fileSize - offset)
      if n = 0 then offset
      else doitLoop fileSize fuel (size - chunk) chunk (offset + n)

/-- `doit`: how far it gets in the file. A pass takes at least a byte of the count. -/
def doit (fileSize offset : ℕ) : ℕ :=
  doitLoop fileSize cfg.count cfg.count cfg.xfersize offset

/-- `initialize`; the name must fit into `filename[256]`. -/
def initializeF (iterations : ℕ) (s : Process) : Option Process :=
  if iterations ≠ 0 then some s
  else if cfg.clone then
    if cfg.privateName.length < 256 then
      (cp cfg.filename cfg.privateName { s with fd := none }).map fun s =>
        { s with filename := cfg.privateName }
    else none
  else some { s with fd := none }

/-- `init_open` -/
def initOpen (iterations : ℕ) (s : Process) : Option Process :=
  if iterations ≠ 0 then some s
  else do
    let s ← initializeF cfg 0 s
    match s.files s.filename with
    | none => none
    | some _ => some { s with fd := some 0, opened := s.opened + 1 }

/-- `time_with_open`; the descriptor is closed again, and if there is none nothing is read. -/
def timeWithOpen : ℕ → Process → Process
  | 0, s => s
  | iterations + 1, s =>
    match s.files s.filename with
    | none => timeWithOpen iterations s
    | some content => timeWithOpen iterations { s with got := s.got + doit cfg content.length 0 }

/-- `time_io_only`; `lseek` takes the descriptor back to the begin. -/
def timeIoOnly : ℕ → Process → Process
  | 0, s => s
  | iterations + 1, s =>
    match s.files s.filename, s.fd with
    | some content, some _ =>
      let offset := doit cfg content.length 0
      timeIoOnly iterations { s with fd := some offset, got := s.got + offset }
    | _, _ => timeIoOnly iterations s

/-- `cleanup` -/
def cleanup (iterations : ℕ) (s : Process) : Option Process :=
  if iterations ≠ 0 then some s
  else
    let s := if s.fd.isSome then { s with opened := s.opened - 1 } else s
    some (if cfg.clone then { s with files := Function.update s.files s.filename none } else s)

/-- The functions handed to `benchmp`. -/
def act : Call → Process → Option Process
  | (.initializeF, iterations), s =>
    if cfg.ioOnly then initOpen cfg iterations s else initializeF cfg iterations s
  | (.benchmark, iterations), s =>
    some (if cfg.ioOnly then timeIoOnly cfg iterations s else timeWithOpen cfg iterations s)
  | (.cleanup, iterations), s => cleanup cfg iterations s

end Functions

variable {cfg : Config} {s : Process} {content : List UInt8} {k : ℕ}

theorem copy_eq (unread written : List UInt8) : copy unread written = written ++ unread := by
  induction unread, written using copy.induct with
  | case1 written => rw [copy, if_pos rfl, List.append_nil]
  | case2 unread written more ih =>
    rw [copy, if_neg more, ih, List.append_assoc, List.take_append_drop]

/-- **An iteration reads what it asks for**, or to the end of the file. -/
theorem doitLoop_eq {fileSize fuel size chunk offset : ℕ} (positive : 0 < chunk)
    (enough : size ≤ fuel) : doitLoop fileSize fuel size chunk offset =
      offset + min size (fileSize - offset) := by
  induction fuel generalizing size chunk offset with
  | zero =>
    obtain rfl : size = 0 := Nat.le_zero.mp enough
    simp [doitLoop]
  | succ fuel ih =>
    rw [doitLoop]
    by_cases none : size = 0
    · simp [none]
    · have piece : (if size < chunk then size else chunk) = min size chunk := by
        split_ifs <;> omega
      rw [if_neg none, piece]
      dsimp only
      rw [Nat.min_eq_right (Nat.min_le_left size chunk)]
      by_cases ends : min (min size chunk) (fileSize - offset) = 0
      · rw [if_pos ends]
        omega
      · rw [if_neg ends, ih (by omega) (by omega)]
        omega

theorem doit_eq (some_bytes : 0 < cfg.count) (fileSize : ℕ) :
    doit cfg fileSize 0 = min cfg.count fileSize := by
  have positive : 0 < cfg.xfersize := by
    rw [Config.xfersize]
    split_ifs
    · exact some_bytes
    · decide
  rw [doit, doitLoop_eq positive le_rfl, Nat.zero_add, Nat.sub_zero]

theorem timeWithOpen_eq (some_bytes : 0 < cfg.count) (there : s.files s.filename = some content)
    (k : ℕ) : timeWithOpen cfg k s =
      { s with got := s.got + k * min cfg.count content.length } := by
  induction k generalizing s with
  | zero => simp [timeWithOpen]
  | succ k ih =>
    rw [timeWithOpen, there]
    dsimp only
    rw [ih (s := { s with got := s.got + doit cfg content.length 0 }) there, doit_eq some_bytes]
    simp only [Nat.succ_mul, Nat.add_assoc, Nat.add_comm (min cfg.count content.length)]

theorem timeIoOnly_eq (some_bytes : 0 < cfg.count) (there : s.files s.filename = some content)
    (opened : s.fd.isSome) (k : ℕ) : ∃ fd, fd.isSome ∧ timeIoOnly cfg k s =
      { s with fd := fd, got := s.got + k * min cfg.count content.length } := by
  induction k generalizing s with
  | zero => exact ⟨s.fd, opened, by simp [timeIoOnly]⟩
  | succ k ih =>
    obtain ⟨offset, here⟩ := Option.isSome_iff_exists.mp opened
    rw [timeIoOnly, there, here]
    dsimp only
    obtain ⟨fd, still, rest⟩ := ih (s := { s with
      fd := some (doit cfg content.length 0)
      got := s.got + doit cfg content.length 0 }) there rfl
    refine ⟨fd, still, rest.trans ?_⟩
    rw [doit_eq some_bytes]
    simp only [Nat.succ_mul, Nat.add_assoc, Nat.add_comm (min cfg.count content.length)]

/-- The files as a child sees them, from its copy on. -/
def filesOf (cfg : Config) (files : Path → Option (List UInt8)) (content : List UInt8) :
    Path → Option (List UInt8) :=
  if cfg.clone then Function.update files cfg.privateName (some content) else files

def Config.name (cfg : Config) : Path := if cfg.clone then cfg.privateName else cfg.filename

/-- A child between its calls. -/
structure Between (cfg : Config) (files : Path → Option (List UInt8)) (content : List UInt8)
    (calls : List Call) (u : Usage) (s : Process) : Prop where
  got : s.got = iterationsOf calls * min cfg.count content.length
  here : match u with
    | .fresh => s.files = files ∧ s.filename = cfg.filename ∧ s.opened = 0
    | .done => s.files = files ∧ s.opened = 0
    | _ => s.files = filesOf cfg files content ∧ s.filename = cfg.name ∧
      s.fd.isSome = cfg.ioOnly ∧ s.opened = cfg.ioOnly.toNat
  counts : ∀ k, u = .ready k ∨ u = .used k → 1 ≤ k

/-- The environment of a child: its file is there, and the name of its copy is free and fits. -/
structure Usable (cfg : Config) (files : Path → Option (List UInt8)) (content : List UInt8) :
    Prop where
  some_bytes : 0 < cfg.count
  there : files cfg.filename = some content
  free : cfg.clone = true → files cfg.privateName = none
  fits : cfg.clone = true → cfg.privateName.length < 256

section Main

variable {files : Path → Option (List UInt8)}

theorem filesOf_name (usable : Usable cfg files content) :
    filesOf cfg files content cfg.name = some content := by
  rw [filesOf, Config.name]
  split_ifs
  · exact Function.update_self ..
  · exact usable.there

theorem initializeF_spec (usable : Usable cfg files content) (same : s.files = files)
    (name : s.filename = cfg.filename) : initializeF cfg 0 s = some { s with
      files := filesOf cfg files content, filename := cfg.name, fd := none } := by
  rw [initializeF, if_neg (by simp), filesOf, Config.name]
  by_cases clone : cfg.clone = true
  · have other : cfg.privateName ≠ cfg.filename := by
      intro same
      have taken := usable.free clone
      rw [same, usable.there] at taken
      cases taken
    rw [if_pos clone, if_pos clone, if_pos clone, if_pos (usable.fits clone), cp, same,
      usable.there]
    simp [other, copy_eq]
  · rw [if_neg clone, if_neg clone, if_neg clone, ← same, ← name]

theorem initOpen_spec (usable : Usable cfg files content) (same : s.files = files)
    (name : s.filename = cfg.filename) : initOpen cfg 0 s = some { s with
      files := filesOf cfg files content
      filename := cfg.name
      fd := some 0
      opened := s.opened + 1 } := by
  rw [initOpen, if_neg (by simp), initializeF_spec usable same name, Option.bind_eq_bind,
    Option.bind_some]
  dsimp only
  rw [filesOf_name usable]

/-- What `cleanup` leaves is what was there. -/
theorem filesOf_restored (usable : Usable cfg files content) :
    (if cfg.clone then Function.update (filesOf cfg files content) cfg.name none
      else filesOf cfg files content) = files := by
  rw [filesOf, Config.name]
  by_cases clone : cfg.clone = true
  · rw [if_pos clone, if_pos clone, if_pos clone, Function.update_idem, ← usable.free clone,
      Function.update_eq_self]
  · rw [if_neg clone, if_neg clone]

/-- `cleanup` closes what is open. -/
theorem closed_eq (fd : s.fd.isSome = cfg.ioOnly) (opened : s.opened = cfg.ioOnly.toNat) :
    (if s.fd.isSome then { s with opened := s.opened - 1 } else s) = { s with opened := 0 } := by
  rw [fd]
  cases mode : cfg.ioOnly with
  | true =>
    rw [if_pos rfl, opened, mode]
    rfl
  | false =>
    rw [mode] at opened
    rw [if_neg Bool.false_ne_true, ← show s.opened = 0 from opened]

theorem keeps_between (usable : Usable cfg files content) :
    KeepsHistory (1 ≤ ·) (act cfg) (Between cfg files content) := by
  intro calls u call u' s step between
  obtain ⟨got, here, counts⟩ := between
  cases step with
  | first =>
    obtain ⟨same, name, opened⟩ := here
    have more : iterationsOf (calls ++ [(.initializeF, 0)]) = iterationsOf calls :=
      iterationsOf_append _ _
    cases mode : cfg.ioOnly with
    | true =>
      refine ⟨_, (if_pos mode).trans (initOpen_spec usable same name), ?_, ?_, by simp⟩
      · rw [more]
        exact got
      · refine ⟨rfl, rfl, ?_, ?_⟩
        · rw [mode]
          rfl
        · rw [mode, opened]
          rfl
    | false =>
      have other : ¬cfg.ioOnly = true := by simp [mode]
      refine ⟨_, (if_neg other).trans (initializeF_spec usable same name), ?_, ?_, by simp⟩
      · rw [more]
        exact got
      · refine ⟨rfl, rfl, ?_, ?_⟩
        · rw [mode]
          rfl
        · rw [mode]
          exact opened
  | @prepare k good =>
    have more : iterationsOf (calls ++ [(.initializeF, k)]) = iterationsOf calls :=
      iterationsOf_append _ _
    have passed : act cfg (.initializeF, k) s = some s := by
      have opens : initOpen cfg k s = some s := if_pos (Nat.ne_of_gt good)
      have starts : initializeF cfg k s = some s := if_pos (Nat.ne_of_gt good)
      rw [act, opens, starts, ite_self]
    refine ⟨s, passed, ?_, here, ?_⟩
    · rw [more]
      exact got
    · rintro k' (⟨⟨⟩⟩ | ⟨⟨⟩⟩)
      exact good
  | work k =>
    obtain ⟨same, name, fd, opened⟩ := here
    have there : s.files s.filename = some content := by
      rw [same, name, filesOf_name usable]
    have more : iterationsOf (calls ++ [(.benchmark, k)]) = iterationsOf calls + k :=
      iterationsOf_append _ _
    have good : ∀ k', Usage.used k = .ready k' ∨ Usage.used k = .used k' → 1 ≤ k' := by
      rintro k' (⟨⟨⟩⟩ | ⟨⟨⟩⟩)
      exact counts k (.inl rfl)
    cases mode : cfg.ioOnly with
    | true =>
      obtain ⟨fd', still, read⟩ := timeIoOnly_eq usable.some_bytes there (fd.trans mode) k
      refine ⟨_, congrArg some ((if_pos mode).trans read), ?_, ⟨same, name, ?_, opened⟩, good⟩
      · rw [more, Nat.add_mul, ← got]
      · exact still.trans mode.symm
    | false =>
      have other : ¬cfg.ioOnly = true := by simp [mode]
      refine ⟨_, congrArg some ((if_neg other).trans (timeWithOpen_eq usable.some_bytes there k)),
        ?_, ⟨same, name, fd, opened⟩, good⟩
      rw [more, Nat.add_mul, ← got]
  | clear k =>
    have more : iterationsOf (calls ++ [(.cleanup, k)]) = iterationsOf calls :=
      iterationsOf_append _ _
    refine ⟨s, if_pos (Nat.ne_of_gt (counts k (.inr rfl))), ?_, here, by simp⟩
    rw [more]
    exact got
  | last =>
    obtain ⟨same, name, fd, opened⟩ := here
    have more : iterationsOf (calls ++ [(.cleanup, 0)]) = iterationsOf calls :=
      iterationsOf_append _ _
    have closed : cleanup cfg 0 s =
        some { s with files := files, opened := 0 } := by
      have restored := filesOf_restored usable
      rw [cleanup, if_neg (by simp), closed_eq fd opened]
      dsimp only
      by_cases clone : cfg.clone = true
      · rw [if_pos clone] at restored
        rw [if_pos clone, same, name, restored]
      · rw [if_neg clone] at restored
        rw [if_neg clone, same, restored]
    refine ⟨_, closed, ?_, ⟨rfl, rfl⟩, by simp⟩
    rw [more]
    exact got

variable {p : Params} {c : Child} {past : List Event}

/-- **What a child of `bw_file_rd` reads.** No call fails; each iteration reads the bytes that it is
asked for, or those that the file has, and the files and descriptors are in the end what they were.
The report is of what was read if and only if the file is as long as it is said to be. -/
theorem read_of_run (hasInitialize : p.hasInitialize = true) (hasCleanup : p.hasCleanup = true)
    (ran : 1 ≤ p.iterations) (batch : 1 ≤ p.iterationsBatch) (usable : Usable cfg files content)
    (run : Run (fun c e c' => RetuneKeeps p c ∧ QuietStep p c e c') (Benchmp.initial p) past c) :
    ∃ s, actAll (act cfg) past ⟨files, cfg.filename, none, 0, 0⟩ = some s ∧
      s.got = iterationsOf (callsOf past) * min cfg.count content.length ∧
      (s.got = iterationsOf (callsOf past) * cfg.count ↔
        iterationsOf (callsOf past) = 0 ∨ cfg.count ≤ content.length) ∧
      (c.use p = .done → s.files = files ∧ s.opened = 0) := by
  have deals := deals_of_run hasInitialize hasCleanup ran batch run
  have start : Between cfg files content [] .fresh ⟨files, cfg.filename, none, 0, 0⟩ :=
    ⟨(Nat.zero_mul _).symm, ⟨rfl, rfl, rfl⟩, by simp⟩
  obtain ⟨s, acted, got, here, -⟩ :=
    keeps_history_of_run hasInitialize hasCleanup (keeps_between usable) start deals
  refine ⟨s, acted, got, ?_, ?_⟩
  · rw [got]
    constructor
    · intro same
      rcases Nat.eq_zero_or_pos (iterationsOf (callsOf past)) with none | positive
      · exact .inl none
      · exact .inr (min_eq_left_iff.mp (Nat.eq_of_mul_eq_mul_left positive same))
    · rintro (none | long)
      · rw [none, Nat.zero_mul, Nat.zero_mul]
      · rw [Nat.min_eq_left long]
  · intro done
    rw [done] at here
    exact here

/-- A file that is shorter than it is said to be, with `-C`. -/
theorem read_of_run_short : ∃ past s,
    actAll (act ⟨['a'], true, false, 1024, 7⟩) past
        ⟨fun q => if q = ['a'] then some [1, 2, 3] else none, ['a'], none, 0, 0⟩ = some s ∧
      s.got = iterationsOf (callsOf past) * min 1024 3 ∧
      (.call .benchmark 1 4096) ∈ past := by
  let p : Params := { Params.single with parallel := 2 }
  have executed : (execute p (List.replicate 12 (answer 700)) (Benchmp.initial p)).map
      (fun ended => decide ((.call .benchmark 1 4096) ∈ ended.1)) = some true := by
    decide +kernel
  obtain ⟨⟨past, c⟩, ended, called⟩ := Option.map_eq_some_iff.mp executed
  have keeps : ∀ c, RetuneKeeps p c := fun _ _ _ _ single => absurd single (by decide)
  have run : Run (fun c e c' => RetuneKeeps p c ∧ QuietStep p c e c') (Benchmp.initial p) past c :=
    (run_of_execute .nil ended).mono fun c _ _ step => ⟨keeps c, step⟩
  have usable : Usable ⟨['a'], true, false, 1024, 7⟩
      (fun q => if q = ['a'] then some [1, 2, 3] else none) [1, 2, 3] :=
    ⟨by decide, rfl, fun _ => by decide, fun _ => by decide⟩
  obtain ⟨s, acted, got, -⟩ := read_of_run rfl rfl (by decide) (by decide) usable run
  exact ⟨past, s, acted, got, of_decide_eq_true called⟩

end Main

end Lmbench.BwFileRd
