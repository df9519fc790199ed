import Lmbench.Benchmp.Child
import Lmbench.Lib.Fifo
import Mathlib.Logic.Function.Basic

/-!
# The parent of `benchmp` and its children

`benchmp_parent` leads its children through the phases of a measurement over four
pipes. All children share them: any child may read any byte of `start_signal`,
`result_signal` and `exit_signal`, and all write to the one `response` pipe,
where the parent counts 'ready' and 'done' bytes and cuts result records out by
their length alone.

The system is modelled without signals and without failing calls. A byte on
`response` carries who wrote it and what it belongs to; the parent looks at this
only where the code looks at the contents, when a complete record has been read.
A `write` of several bytes is made byte by byte, and a `read` returns any positive
part of what it asks for, so every interleaving of the code is one of the model.
A `select` that times out changes nothing and is no step.

## Main definitions

* `Config` - the parent, the children and the pipes
* `parentAdvance` - `benchmp_parent`, and the forks before it
* `childAdvance` - a child, with its reads and writes on the pipes
-/

namespace Lmbench.Benchmp

open Lib

/-- A byte of the response pipe. -/
inductive Byte (ι : Type)
  | ready (child : ι)
  | done (child : ι)
  | result (child : ι) (r : ResultT) (index : ℕ)
deriving DecidableEq

/-- The bytes of one result set. -/
def record {ι : Type} (size : ℕ) (child : ι) (r : ResultT) : List (Byte ι) :=
  (List.range size).map (.result child r)

/-- The result set that a buffer holds, if its bytes are those of one record. -/
def decode {ι : Type} [DecidableEq ι] (size : ℕ) (buf : List (Byte ι)) : Option ResultT :=
  match buf with
  | .result child r _ :: _ => if buf = record size child r then some r else none
  | _ => none

/-- Where the parent is; `i` counts children or bytes, and `buf` is what it has
read of a record. -/
inductive ParentPc (ι : Type)
  | forking (i : ℕ)
  | ready (i : ℕ)
  | sendStart (i : ℕ)
  | done (i : ℕ)
  | tell (i : ℕ)
  | collect (i : ℕ) (buf : List (Byte ι))
  | sendExit (i : ℕ)
  | install
  | finished
deriving DecidableEq

/-- What the parent does in one step. -/
inductive ParentEvent (ι : Type)
  | tau
  | fork (child : ι)
  | readReady (bytes : List (Byte ι))
  | writeStart
  | readDone (bytes : List (Byte ι))
  | writeResult
  | readResult (bytes : List (Byte ι))
  | merge (buf : List (Byte ι))
  | writeExit
  | setResults (merged : ResultT)
deriving DecidableEq

/-- A step of the parent or of a child. -/
inductive Label (ι : Type)
  | parent (e : ParentEvent ι)
  | child (c : ι) (e : Event)
deriving DecidableEq

/-- The parent, its children (`none` until they are forked) and the pipes.
`entered c` is no part of the program: it keeps the result set that child `c` had
when it entered `cooldown`. -/
structure Config (p : Params) where
  parent : ParentPc (Fin p.parallel)
  merged : ResultT
  child : Fin p.parallel → Option Child
  response : Fifo (Byte (Fin p.parallel))
  startSignal : Fifo Unit
  resultSignal : Fifo Unit
  exitSignal : Fifo Unit
  entered : Fin p.parallel → Option ResultT

namespace Config

variable {p : Params} (cfg : Config p)

/-- Before the first fork. -/
def initial (p : Params) : Config p where
  parent := .forking 0
  merged := insertinit
  child := fun _ => none
  response := .empty
  startSignal := .empty
  resultSignal := .empty
  exitSignal := .empty
  entered := fun _ => none

/-- A read of at most `limit` bytes from the response pipe that returns `k`. -/
def readResponse (k limit : ℕ) : Option (List (Byte (Fin p.parallel)) × Config p) :=
  if k ≤ limit then
    (cfg.response.read k).map fun (bytes, response) => (bytes, { cfg with response := response })
  else none

/-- The part of a child's event that concerns the pipes and the parent; `none` if
the child is blocked or the answer it got is not the one the system gives. -/
def perform (c : Fin p.parallel) : Event → Option (Config p)
  -- the parent lives as long as its children
  | .getppid orphaned => if orphaned then none else some cfg
  | .pollStart ready => if ready = !cfg.startSignal.pending.isEmpty then some cfg else none
  | .readStart => (cfg.startSignal.read 1).map fun (_, pipe) => { cfg with startSignal := pipe }
  | .writeReady => some { cfg with response := cfg.response.write [.ready c] }
  | .writeDone => some { cfg with response := cfg.response.write [.done c] }
  | .pollResult ready => if ready = !cfg.resultSignal.pending.isEmpty then some cfg else none
  | .readResult => (cfg.resultSignal.read 1).map fun (_, pipe) => { cfg with resultSignal := pipe }
  | .writeResult r index => some { cfg with response := cfg.response.write [.result c r index] }
  | .readExit => (cfg.exitSignal.read 1).map fun (_, pipe) => { cfg with exitSignal := pipe }
  | _ => some cfg

/-- Child `c` goes from `s` to `s'`. -/
def moveChild (c : Fin p.parallel) (s s' : Child) : Config p :=
  { cfg with
    child := Function.update cfg.child c (some s')
    entered := if s.state ≠ .cooldown ∧ s'.state = .cooldown then
      Function.update cfg.entered c (some s'.r) else cfg.entered }

end Config

section System

variable (p : Params)

/-- The parent from one interaction to the next. `k` is the number of bytes a read
returns, and `wild` is what a buffer that holds no single record reads as. -/
def parentAdvance (cfg : Config p) (k : ℕ) (wild : ResultT) :
    Option (ParentEvent (Fin p.parallel) × Config p) :=
  match cfg.parent with
  | .forking i =>
    if inside : i < p.parallel then
      some (.fork ⟨i, inside⟩,
        { cfg with
          parent := .forking (i + 1)
          child := Function.update cfg.child ⟨i, inside⟩ (some (initial p)) })
    else some (.tau, { cfg with parent := .ready 0 })
  -- a read asks for all bytes that are still missing
  | .ready i =>
    if i < p.parallel then
      (cfg.readResponse k (p.parallel - i)).map fun (bytes, cfg) =>
        (.readReady bytes, { cfg with parent := .ready (i + k) })
    else some (.tau, { cfg with parent := .sendStart 0 })
  | .sendStart i =>
    if i < p.parallel then
      some (.writeStart,
        { cfg with startSignal := cfg.startSignal.write [()], parent := .sendStart (i + 1) })
    else some (.tau, { cfg with parent := .done 0 })
  | .done i =>
    if i < p.parallel then
      (cfg.readResponse k (p.parallel - i)).map fun (bytes, cfg) =>
        (.readDone bytes, { cfg with parent := .done (i + k) })
    else some (.tau, { cfg with parent := .tell 0, merged := insertinit })
  -- the next child is called when the record of the one before has been merged
  | .tell i =>
    if i < p.parallel then
      some (.writeResult,
        { cfg with resultSignal := cfg.resultSignal.write [()], parent := .collect i [] })
    else some (.tau, { cfg with parent := .sendExit 0 })
  | .collect i buf =>
    if buf.length < p.rSize then
      (cfg.readResponse k (p.rSize - buf.length)).map fun (bytes, cfg) =>
        (.readResult bytes, { cfg with parent := .collect i (buf ++ bytes) })
    else
      let results := (decode p.rSize buf).getD wild
      some (.merge buf,
        { cfg with parent := .tell (i + 1), merged := insertAll results.v cfg.merged })
  | .sendExit i =>
    if i < p.parallel then
      some (.writeExit,
        { cfg with exitSignal := cfg.exitSignal.write [()], parent := .sendExit (i + 1) })
    else some (.tau, { cfg with parent := .install })
  | .install => some (.setResults cfg.merged, { cfg with parent := .finished })
  | .finished => none

/-- Child `c` from one interaction to the next. -/
def childAdvance (cfg : Config p) (c : Fin p.parallel) (input : Input) :
    Option (Event × Config p) := do
  let s ← cfg.child c
  let (e, s') ← advance p s input
  let cfg' ← cfg.perform c e
  return (e, cfg'.moveChild c s s')

/-- Who moves next, and what the outside answers. -/
inductive Choice (p : Params)
  | parent (k : ℕ) (wild : ResultT)
  | child (c : Fin p.parallel) (input : Input)

/-- One step of the system. -/
def systemAdvance (cfg : Config p) : Choice p → Option (Label (Fin p.parallel) × Config p)
  | .parent k wild => (parentAdvance p cfg k wild).map fun (e, cfg') => (.parent e, cfg')
  | .child c input => (childAdvance p cfg c input).map fun (e, cfg') => (.child c e, cfg')

/-- Some party of the system makes a step. -/
def SystemStep (cfg : Config p) (l : Label (Fin p.parallel)) (cfg' : Config p) : Prop :=
  ∃ choice, systemAdvance p cfg choice = some (l, cfg')

/-- Run the system on a schedule, collecting its labels. -/
def runSchedule : List (Choice p) → Config p → Option (List (Label (Fin p.parallel)) × Config p)
  | [], cfg => some ([], cfg)
  | choice :: rest, cfg => do
    let (l, cfg₁) ← systemAdvance p cfg choice
    let (labels, cfg₂) ← runSchedule rest cfg₁
    return (l :: labels, cfg₂)

end System

variable {p : Params}

theorem run_of_runSchedule {start cfg cfg' : Config p} {past labels : List (Label (Fin p.parallel))}
    {choices : List (Choice p)} (before : Run (SystemStep p) start past cfg)
    (executed : runSchedule p choices cfg = some (labels, cfg')) :
    Run (SystemStep p) start (past ++ labels) cfg' := by
  induction choices generalizing cfg past labels with
  | nil =>
    obtain ⟨rfl, rfl⟩ := by simpa [runSchedule] using executed
    simpa using before
  | cons choice rest ih =>
    simp only [runSchedule, Option.bind_eq_bind, Option.bind_eq_some_iff, Prod.exists,
      Option.pure_def, Option.some.injEq, Prod.mk.injEq] at executed
    obtain ⟨l, cfg₁, stepped, later, cfg₂, onward, rfl, rfl⟩ := executed
    have taken : SystemStep p cfg l cfg₁ := ⟨choice, stepped⟩
    simpa using ih (before.snoc taken) onward

/-- A step of a child is a quiet step whose event the pipes allow. -/
theorem childAdvance_eq_some {cfg cfg' : Config p} {c : Fin p.parallel} {input : Input} {e : Event}
    (stepped : childAdvance p cfg c input = some (e, cfg')) :
    ∃ s s' cfg₁, cfg.child c = some s ∧ QuietStep p s e s' ∧ cfg.perform c e = some cfg₁ ∧
      cfg' = cfg₁.moveChild c s s' := by
  simp only [childAdvance, Option.bind_eq_bind, Option.bind_eq_some_iff, Prod.exists,
    Option.pure_def, Option.some.injEq, Prod.mk.injEq] at stepped
  obtain ⟨s, forked, e', s', moved, cfg₁, performed, rfl, rfl⟩ := stepped
  exact ⟨s, s', cfg₁, forked, ⟨input, moved⟩, performed, rfl⟩

theorem readResponse_eq_some {cfg cfg' : Config p} {k limit : ℕ}
    {bytes : List (Byte (Fin p.parallel))}
    (got : cfg.readResponse k limit = some (bytes, cfg')) :
    0 < k ∧ k ≤ limit ∧ cfg.response.taken + k ≤ cfg.response.written.length ∧
      bytes = (cfg.response.written.drop cfg.response.taken).take k ∧
      ∃ response : Fifo (Byte (Fin p.parallel)), response.written = cfg.response.written ∧
        response.taken = cfg.response.taken + k ∧ cfg' = { cfg with response := response } := by
  unfold Config.readResponse at got
  split at got
  · rename_i fits
    obtain ⟨⟨items, response⟩, read, same⟩ := Option.map_eq_some_iff.mp got
    obtain ⟨rfl, rfl⟩ := Prod.mk.inj same
    obtain ⟨positive, available, bytes, written, taken⟩ := Fifo.read_eq_some_iff.mp read
    exact ⟨positive, fits, available, bytes, response, written, taken, rfl⟩
  · cases got

end Lmbench.Benchmp
