import Lmbench.Lib.Transition
import Lmbench.Timing.Calibration
import Lmbench.Timing.Results

/-!
# A child of `benchmp`

`benchmp_child` installs its signal handlers, calls `initialize(0)` and then
loops on `(*benchmark)(benchmp_interval(state), cookie)`. `benchmp_interval` is
a coroutine: each call ends the interval that the previous call began, and what
it does in between depends on `state->state`.

The child is a state machine over the program points between two interactions
with the outside: a callback, a clock reading, a poll, a read or a write. One
`advance` runs the code from one point to the next; what the outside answers is
its `Input`. Signals arrive between two program points.

## Main definitions

* `Params` - the arguments of `benchmp_child` and what it inherits over `fork`
* `Child` - `benchmp_child_state`, the saved registers and the program point
* `advance` - the code of `benchmp_child` and `benchmp_interval`
* `deliver` - the arrival of a signal, and the handlers it runs
-/

namespace Lmbench.Benchmp

open Lib

/-- `benchmp_state`. -/
inductive BenchmpState
  | warmup
  | timingInterval
  | cooldown
deriving DecidableEq, Repr

/-- The three functions a caller hands to `benchmp`; `initializeF` is the argument
`initialize`. -/
inductive Callback
  | initializeF
  | benchmark
  | cleanup
deriving DecidableEq, Repr

/-- The two signals that `benchmp_child` installs handlers for. -/
inductive Signal
  | sigchld
  | sigterm
deriving DecidableEq, Repr

/-- What a signal is set to: the default, ignored, the child's own handler
(`benchmp_child_sigchld`, `benchmp_child_sigterm`), the handler that `benchmp`
installed in the parent (`benchmp_sigchld`, `benchmp_sigterm`), or another
handler, installed by the caller. -/
inductive Disposition
  | dfl
  | ign
  | child
  | parent
  | other
deriving DecidableEq, Repr

/-- The arguments of `benchmp_child`, and what it reads of the parent's memory.
`n` is `get_n()` at the fork, `savedSigterm` and `savedSigchld` are
`benchmp_sigterm_handler` and `benchmp_sigchld_handler`, `stateAddr` is the
address of `_benchmp_child_state`, and `rHeader` is the offset of `v` in
`result_t`. -/
structure Params where
  dm : DataModel
  hasInitialize : Bool
  hasCleanup : Bool
  enough : ℤ
  iterations : ℕ
  parallel : ℕ
  repetitions : ℕ
  cookie : ℕ
  stateAddr : ℕ
  n : ℕ
  tOverhead : ℕ
  lOverhead : ℚ
  savedSigterm : Disposition
  savedSigchld : Disposition
  rHeader : ℕ

namespace Params

variable (p : Params)

/-- `iterations_batch = (parallel > 1) ? get_n() : 1`. -/
def iterationsBatch : ℕ := if 1 < p.parallel then p.n else 1

/-- `r_size`, with entries of two `uint64`. -/
def rSize : ℕ := sizeofResult p.rHeader 16 p.repetitions

theorem rSize_pos : 0 < p.rSize := by
  unfold rSize sizeofResult tries
  split <;> omega

/-- `t_overhead() + get_n() * l_overhead()`. -/
def overhead (n : ℕ) : ℚ := p.tOverhead + n * p.lOverhead

/-- `settime(result >= 0. ? (uint64)result : 0.)` after the overhead correction
of an interval of `n` iterations. -/
def corrected (elapsed n : ℕ) : ℕ := ⌊max 0 (elapsed - p.overhead n)⌋.toNat

end Params

/-- Where a child is between two interactions. -/
inductive Pc
  /-- At `(*initialize)(0, cookie)`. -/
  | enter
  /-- At the installation of the SIGTERM handler. -/
  | arm
  /-- At the top of `benchmp_interval`. -/
  | interval
  /-- Behind `stop(0,0)`; `iterations` is the count for the cleanup callback. -/
  | stopped (iterations elapsed : ℕ)
  /-- At `getppid() == 1`. -/
  | ppid (result : ℚ)
  /-- At the cleanup of a child whose parent died. -/
  | orphaned
  /-- At `switch (state->state)`. -/
  | switch (result : ℚ)
  /-- At `read(state->start_signal, ..)`. -/
  | takeStart
  /-- At `if (state->need_warmup)` in the warmup case. -/
  | reportReady (iterations : ℕ)
  /-- Behind the recording statement of the timing case. -/
  | retune (result : ℚ)
  /-- At the write of 'done'. -/
  | reportDone
  /-- At `read(state->result_signal, ..)`. -/
  | takeResult
  /-- `sent` bytes of the result set are written. -/
  | sendResults (sent : ℕ)
  /-- At the cleanup behind the results. -/
  | finish
  /-- At `read(state->exit_signal, ..)`. -/
  | takeExit
  /-- At `if (state->initialize)` at the end of `benchmp_interval`. -/
  | begin (iterations : ℕ)
  /-- At `start(0); return (iterations);`. -/
  | start (iterations : ℕ)
  /-- At `(*benchmark)(iterations, cookie)`. -/
  | running (iterations : ℕ)
  /-- In a signal handler, at its call of the cleanup function. -/
  | handler (code : ℕ)
  /-- At `exit(code)`. -/
  | exiting (code : ℕ)
  | exited (code : ℕ)
deriving DecidableEq

/-- The interactions of a child, in the order in which they happen. -/
inductive Event
  | tau
  | call (callback : Callback) (iterations cookie : ℕ)
  | stop (elapsed : ℕ)
  | getppid (orphaned : Bool)
  | pollStart (ready : Bool)
  | readStart
  | writeReady
  | insert (u n : ℕ)
  | writeDone
  | pollResult (ready : Bool)
  | readResult
  | writeResult (r : ResultT) (index : ℕ)
  | readExit
  | start (iterations : ℕ)
  | signal (signo : Signal)
  | exit (code : ℕ)
deriving DecidableEq

/-- What the outside answers. `wild` is the value of a conversion that C leaves
undefined. -/
structure Input where
  elapsed : ℕ
  orphaned : Bool
  ready : Bool
  wild : ℕ

/-- `benchmp_child_state` with what changes in it, the values last given to
`save_n` and `settime`, and the signal dispositions. The set `r` is the one that
`results` points to. -/
structure Child where
  pc : Pc
  state : BenchmpState
  iterations : ℕ
  needWarmup : Bool
  i : ℕ
  r : ResultT
  savedN : ℕ
  savedTime : ℕ
  sigterm : Disposition
  sigchld : Disposition
  sigtermReceived : Bool
deriving DecidableEq

section Advance

variable (p : Params)

/-- A child that has set up its state, filled in SIGCHLD and is about to call
`initialize(0)`. SIGTERM still has the handler inherited from the parent. -/
def initial : Child where
  pc := .enter
  state := .warmup
  iterations := p.iterations
  needWarmup := true
  i := 0
  r := insertinit
  savedN := 1
  savedTime := 0
  sigterm := .parent
  sigchld := if p.savedSigchld = .dfl then .child else p.savedSigchld
  sigtermReceived := false

/-- A callback that may be NULL. -/
def callIf (present : Bool) (callback : Callback) (iterations : ℕ) : Event :=
  if present then .call callback iterations p.cookie else .tau

/-- The guard around a cleanup call: SIGCHLD goes back to its default when it
had it before `benchmp`. -/
def Child.beforeCleanup (c : Child) : Child :=
  { c with sigchld := if p.hasCleanup ∧ p.savedSigchld = .dfl then .dfl else c.sigchld }

/-- `iterations = (state->state == timing_interval ? state->iterations :
state->iterations_batch)`. -/
def Child.count (c : Child) : ℕ :=
  if c.state = .timingInterval then c.iterations else p.iterationsBatch

/-- `insertsort(gettime(), get_n(), get_results()); state->i++;` and the switch
to cooldown when all experiments are made. -/
def Child.record (c : Child) : Child :=
  { c with
    r := insertsort c.savedTime c.savedN c.r
    i := c.i + 1
    state := if p.repetitions ≤ c.i + 1 then .cooldown else c.state }

/-- `(iter_t)(tmp + 1)`, or any value where C defines none. -/
def convert (x : ℚ) (wild : ℕ) : ℕ := (p.dm.toIter? x).getD (wild % p.dm.iterSpan)

/-- The re-tuning statement of the timing case, up to `state->iterations =
iterations;`. -/
def Child.retune (c : Child) (result : ℚ) (wild : ℕ) : Child :=
  if p.parallel = 1 ∧ OffTarget p.enough result then
    if 150 < result then
      { c with iterations := convert p (rescaled p.enough c.iterations result) wild }
    else
      -- the bound is tested on the count that the shift has left
      let iterations := p.dm.shiftIter c.iterations
      { c with
        iterations := iterations
        state := if 1 <<< 27 < iterations ∨ (result < 0 ∧ 1 <<< 20 < iterations) then .cooldown
          else c.state }
  else c

/-- The entry of `benchmp_child_sigterm`: SIGTERM is ignored, and SIGCHLD goes
to its default unless a foreign handler is installed. -/
def Child.enterSigterm (c : Child) : Child :=
  if p.hasCleanup then
    { c with
      pc := .handler 0
      sigterm := .ign
      sigchld := if c.sigchld = .child then .dfl else c.sigchld }
  else { c with pc := .exiting 0, sigterm := .ign }

/-- The entry of `benchmp_child_sigchld`. -/
def Child.enterSigchld (c : Child) : Child :=
  if p.hasCleanup then { c with pc := .handler 1, sigchld := .dfl }
  else { c with pc := .exiting 1 }

/-- The installation of the SIGTERM handler. -/
def Child.armSigterm (c : Child) : Child :=
  { c with sigterm := if p.savedSigterm = .dfl then .child else p.savedSigterm }

/-- Run a child from one program point to the next. -/
def advance (c : Child) (input : Input) : Option (Event × Child) :=
  match c.pc with
  | .enter => some (callIf p p.hasInitialize .initializeF 0, { c with pc := .arm })
  | .arm =>
    -- a SIGTERM that the handler of the parent has caught is made up for
    let c := c.armSigterm p
    if c.sigtermReceived then some (.tau, c.enterSigterm p)
    else some (.tau, { c with pc := .interval })
  | .interval =>
    if c.needWarmup then some (.tau, { c with pc := .ppid p.enough })
    else some (.stop input.elapsed, { c with pc := .stopped (c.count p) input.elapsed })
  | .stopped iterations elapsed =>
    some (callIf p p.hasCleanup .cleanup iterations,
      { c.beforeCleanup p with
        savedN := c.iterations
        savedTime := p.corrected elapsed c.iterations
        pc := .ppid (elapsed - p.overhead c.iterations) })
  | .ppid result =>
    -- an orphan without a cleanup function goes on
    some (.getppid input.orphaned,
      { c with pc := if input.orphaned ∧ p.hasCleanup then .orphaned else .switch result })
  | .orphaned =>
    some (.call .cleanup 0 p.cookie, { c.beforeCleanup p with pc := .exiting 0 })
  | .switch result =>
    match c.state with
    | .warmup =>
      -- `select` does not wait; without a start signal the warmup goes on
      if input.ready then
        some (.pollStart true, { c with state := .timingInterval, pc := .takeStart })
      else some (.pollStart false, { c with pc := .reportReady p.iterationsBatch })
    | .timingInterval =>
      if 1 < p.parallel ∨ 95 / 100 * p.enough < result then
        some (.insert c.savedTime c.savedN, { c.record p with pc := .retune result })
      else some (.tau, { c with pc := .retune result })
    | .cooldown =>
      some (.pollResult input.ready,
        { c with pc := if input.ready then .takeResult else .begin p.iterationsBatch })
  | .takeStart => some (.readStart, { c with pc := .reportReady c.iterations })
  | .reportReady iterations =>
    if c.needWarmup then some (.writeReady, { c with needWarmup := false, pc := .begin iterations })
    else some (.tau, { c with pc := .begin iterations })
  | .retune result =>
    let c := c.retune p result input.wild
    some (.tau, { c with pc := if c.state = .cooldown then .reportDone else .begin c.iterations })
  | .reportDone => some (.writeDone, { c with pc := .begin p.iterationsBatch })
  -- from here on the child does no more work
  | .takeResult => some (.readResult, { c with pc := .sendResults 0 })
  | .sendResults sent =>
    some (.writeResult c.r sent,
      { c with pc := if sent + 1 < p.rSize then .sendResults (sent + 1) else .finish })
  | .finish => some (callIf p p.hasCleanup .cleanup 0, { c.beforeCleanup p with pc := .takeExit })
  | .takeExit => some (.readExit, { c with pc := .exiting 0 })
  | .begin iterations =>
    some (callIf p p.hasInitialize .initializeF iterations, { c with pc := .start iterations })
  | .start iterations => some (.start iterations, { c with pc := .running iterations })
  | .running iterations =>
    some (.call .benchmark iterations p.cookie, { c with pc := .interval })
  -- the handlers pass `&_benchmp_child_state` where all others pass the cookie
  | .handler code => some (.call .cleanup 0 p.stateAddr, { c with pc := .exiting code })
  | .exiting code => some (.exit code, { c with pc := .exited code })
  | .exited _ => none

/-- The current setting of a signal. -/
def Child.disposition (c : Child) : Signal → Disposition
  | .sigchld => c.sigchld
  | .sigterm => c.sigterm

/-- A signal arrives. Both handlers of the parent set a flag, of which the child
reads only the one for SIGTERM; `benchmp_sigchld` also resets SIGCHLD. -/
def deliver (c : Child) (signo : Signal) : Option Child :=
  match c.pc, signo, c.disposition signo with
  | .exited _, _, _ => none
  | _, .sigterm, .dfl => some { c with pc := .exited 15 }
  | _, .sigterm, .child => some (c.enterSigterm p)
  | _, .sigterm, .parent => some { c with sigtermReceived := true }
  | _, .sigchld, .child => some (c.enterSigchld p)
  | _, .sigchld, .parent => some { c with sigchld := .dfl }
  | _, _, _ => some c

/-- One step of a child that receives no signal. -/
def QuietStep (c : Child) (e : Event) (c' : Child) : Prop :=
  ∃ input, advance p c input = some (e, c')

/-- One step of a child: its own, or the arrival of a signal. -/
inductive Step : Child → Event → Child → Prop
  | own {c c' : Child} {e : Event} : QuietStep p c e c' → Step c e c'
  | signal {c c' : Child} (signo : Signal) :
      deliver p c signo = some c' → Step c (.signal signo) c'

/-- Run a child on a list of answers, collecting its events. -/
def execute : List Input → Child → Option (List Event × Child)
  | [], c => some ([], c)
  | input :: inputs, c => do
    let (e, c₁) ← advance p c input
    let (events, c₂) ← execute inputs c₁
    return (e :: events, c₂)

end Advance

variable {p : Params}

/-- Executions are runs. -/
theorem run_of_execute {start c c' : Child} {past events : List Event} {inputs : List Input}
    (before : Run (QuietStep p) start past c)
    (executed : execute p inputs c = some (events, c')) :
    Run (QuietStep p) start (past ++ events) c' := by
  induction inputs generalizing c past events with
  | nil =>
    obtain ⟨rfl, rfl⟩ := by simpa [execute] using executed
    simpa using before
  | cons input inputs ih =>
    simp only [execute, Option.bind_eq_bind, Option.bind_eq_some_iff, Prod.exists,
      Option.pure_def, Option.some.injEq, Prod.mk.injEq] at executed
    obtain ⟨e, c₁, stepped, rest, c₂, onward, rfl, rfl⟩ := executed
    have taken : QuietStep p c e c₁ := ⟨input, stepped⟩
    simpa using ih (before.snoc taken) onward

/-- A single child with a target of one second and no overhead, on the 32-bit
data model: the first `benchmp` of a program. -/
def Params.single : Params where
  dm := .ilp32
  hasInitialize := true
  hasCleanup := true
  enough := 1000000
  iterations := 1
  parallel := 1
  repetitions := 1
  cookie := 4096
  stateAddr := 8192
  n := 1
  tOverhead := 0
  lOverhead := 0
  savedSigterm := .dfl
  savedSigchld := .dfl
  rHeader := 8

/-- The clock reads `elapsed`, the parent lives and all signals are there. -/
def answer (elapsed : ℕ) : Input := ⟨elapsed, false, true, 0⟩

/-! ### What one step can do -/

/-- The transitions of `advance`, one for each way through the code. -/
inductive Move (p : Params) (c : Child) : Event → Child → Prop
  | enter (here : c.pc = .enter) :
      Move p c (callIf p p.hasInitialize .initializeF 0) { c with pc := .arm }
  | arm (here : c.pc = .arm) (received : c.sigtermReceived = false) :
      Move p c .tau { c.armSigterm p with pc := .interval }
  | armReceived (here : c.pc = .arm) (received : c.sigtermReceived = true) :
      Move p c .tau ((c.armSigterm p).enterSigterm p)
  | firstCall (here : c.pc = .interval) (warm : c.needWarmup = true) :
      Move p c .tau { c with pc := .ppid p.enough }
  | stop (here : c.pc = .interval) (warm : c.needWarmup = false) (elapsed : ℕ) :
      Move p c (.stop elapsed) { c with pc := .stopped (c.count p) elapsed }
  | account {iterations elapsed : ℕ} (here : c.pc = .stopped iterations elapsed) :
      Move p c (callIf p p.hasCleanup .cleanup iterations)
        { c.beforeCleanup p with
          savedN := c.iterations
          savedTime := p.corrected elapsed c.iterations
          pc := .ppid (elapsed - p.overhead c.iterations) }
  | parentAlive {result : ℚ} (here : c.pc = .ppid result) (orphaned : Bool) :
      Move p c (.getppid orphaned) { c with pc := .switch result }
  | parentDied {result : ℚ} (here : c.pc = .ppid result) (present : p.hasCleanup = true) :
      Move p c (.getppid true) { c with pc := .orphaned }
  | orphaned (here : c.pc = .orphaned) :
      Move p c (.call .cleanup 0 p.cookie) { c.beforeCleanup p with pc := .exiting 0 }
  | startReady {result : ℚ} (here : c.pc = .switch result) (warming : c.state = .warmup) :
      Move p c (.pollStart true) { c with state := .timingInterval, pc := .takeStart }
  | startNotReady {result : ℚ} (here : c.pc = .switch result) (warming : c.state = .warmup) :
      Move p c (.pollStart false) { c with pc := .reportReady p.iterationsBatch }
  | record {result : ℚ} (here : c.pc = .switch result) (timing : c.state = .timingInterval)
      (enough : 1 < p.parallel ∨ 95 / 100 * p.enough < result) :
      Move p c (.insert c.savedTime c.savedN) { c.record p with pc := .retune result }
  | skip {result : ℚ} (here : c.pc = .switch result) (timing : c.state = .timingInterval)
      (short : ¬(1 < p.parallel ∨ 95 / 100 * p.enough < result)) :
      Move p c .tau { c with pc := .retune result }
  | resultReady {result : ℚ} (here : c.pc = .switch result) (cooling : c.state = .cooldown) :
      Move p c (.pollResult true) { c with pc := .takeResult }
  | resultNotReady {result : ℚ} (here : c.pc = .switch result) (cooling : c.state = .cooldown) :
      Move p c (.pollResult false) { c with pc := .begin p.iterationsBatch }
  | takeStart (here : c.pc = .takeStart) :
      Move p c .readStart { c with pc := .reportReady c.iterations }
  | ready {iterations : ℕ} (here : c.pc = .reportReady iterations) (warm : c.needWarmup = true) :
      Move p c .writeReady { c with needWarmup := false, pc := .begin iterations }
  | readyBefore {iterations : ℕ} (here : c.pc = .reportReady iterations)
      (warm : c.needWarmup = false) : Move p c .tau { c with pc := .begin iterations }
  | keepTiming {result : ℚ} (here : c.pc = .retune result) (wild : ℕ)
      (timing : (c.retune p result wild).state ≠ .cooldown) :
      Move p c .tau
        { c.retune p result wild with pc := .begin (c.retune p result wild).iterations }
  | coolDown {result : ℚ} (here : c.pc = .retune result) (wild : ℕ)
      (cooling : (c.retune p result wild).state = .cooldown) :
      Move p c .tau { c.retune p result wild with pc := .reportDone }
  | done (here : c.pc = .reportDone) :
      Move p c .writeDone { c with pc := .begin p.iterationsBatch }
  | takeResult (here : c.pc = .takeResult) : Move p c .readResult { c with pc := .sendResults 0 }
  | sendMore {sent : ℕ} (here : c.pc = .sendResults sent) (more : sent + 1 < p.rSize) :
      Move p c (.writeResult c.r sent) { c with pc := .sendResults (sent + 1) }
  | sendLast {sent : ℕ} (here : c.pc = .sendResults sent) (last : p.rSize ≤ sent + 1) :
      Move p c (.writeResult c.r sent) { c with pc := .finish }
  | finish (here : c.pc = .finish) :
      Move p c (callIf p p.hasCleanup .cleanup 0) { c.beforeCleanup p with pc := .takeExit }
  | takeExit (here : c.pc = .takeExit) : Move p c .readExit { c with pc := .exiting 0 }
  | begin {iterations : ℕ} (here : c.pc = .begin iterations) :
      Move p c (callIf p p.hasInitialize .initializeF iterations)
        { c with pc := .start iterations }
  | start {iterations : ℕ} (here : c.pc = .start iterations) :
      Move p c (.start iterations) { c with pc := .running iterations }
  | run {iterations : ℕ} (here : c.pc = .running iterations) :
      Move p c (.call .benchmark iterations p.cookie) { c with pc := .interval }
  | handler {code : ℕ} (here : c.pc = .handler code) :
      Move p c (.call .cleanup 0 p.stateAddr) { c with pc := .exiting code }
  | exit {code : ℕ} (here : c.pc = .exiting code) :
      Move p c (.exit code) { c with pc := .exited code }

/-- **Inversion of a step.** -/
theorem QuietStep.move {c c' : Child} {e : Event} (step : QuietStep p c e c') :
    Move p c e c' := by
  obtain ⟨input, ran⟩ := step
  -- one case for each program point; those with a choice come first
  unfold advance at ran
  split at ran <;> rename_i here
  case h_2 =>
    dsimp only at ran
    split at ran <;> rename_i received <;> obtain ⟨rfl, rfl⟩ := by simpa using ran
    · exact .armReceived here received
    · exact .arm here (Bool.not_eq_true _ ▸ received)
  case h_3 =>
    split at ran <;> rename_i warm <;> obtain ⟨rfl, rfl⟩ := by simpa using ran
    · exact .firstCall here warm
    · exact .stop here (by simpa using warm) input.elapsed
  case h_5 =>
    obtain ⟨rfl, rfl⟩ := by simpa using ran
    split
    · rename_i died
      rw [died.1]
      exact .parentDied here died.2
    · exact .parentAlive here input.orphaned
  case h_7 =>
    -- warmup, timing and cooldown
    split at ran <;> rename_i state
    · split at ran <;> obtain ⟨rfl, rfl⟩ := by simpa using ran
      · exact .startReady here state
      · exact .startNotReady here state
    · split at ran <;> rename_i enough <;> obtain ⟨rfl, rfl⟩ := by simpa using ran
      · exact .record here state enough
      · exact .skip here state enough
    · obtain ⟨rfl, rfl⟩ := by simpa using ran
      cases input.ready
      · exact .resultNotReady here state
      · exact .resultReady here state
  case h_9 =>
    split at ran <;> rename_i warm <;> obtain ⟨rfl, rfl⟩ := by simpa using ran
    · exact .ready here warm
    · exact .readyBefore here (by simpa using warm)
  case h_10 =>
    obtain ⟨rfl, rfl⟩ := by simpa using ran
    split
    · rename_i cooling
      exact .coolDown here input.wild cooling
    · rename_i timing
      exact .keepTiming here input.wild timing
  case h_13 =>
    obtain ⟨rfl, rfl⟩ := by simpa using ran
    split
    · rename_i more
      exact .sendMore here more
    · rename_i last
      exact .sendLast here (not_lt.mp last)
  case h_21 => simp at ran
  all_goals obtain ⟨rfl, rfl⟩ := by simpa using ran
  · exact .enter here
  · exact .account here
  · exact .orphaned here
  · exact .takeStart here
  · exact .done here
  · exact .takeResult here
  · exact .finish here
  · exact .takeExit here
  · exact .begin here
  · exact .start here
  · exact .run here
  · exact .handler here
  · exact .exit here

/-- A signal moves a child into a handler or out of the program, or leaves
everything but the settings of the signals as it is. -/
theorem deliver_cases {c c' : Child} {signo : Signal} (delivered : deliver p c signo = some c') :
    (∃ code, c'.pc = .handler code ∧ p.hasCleanup ∧ c.disposition signo = .child) ∨
      (∃ code, c'.pc = .exiting code) ∨ (∃ code, c'.pc = .exited code) ∨
      (∃ sigchld received,
        c' = { c with sigchld := sigchld, sigtermReceived := received }) := by
  unfold deliver at delivered
  split at delivered
  · simp at delivered
  · -- SIGTERM, which ends a process without a handler
    obtain rfl := Option.some.inj delivered
    exact .inr (.inr (.inl ⟨15, rfl⟩))
  · rename_i setting
    obtain rfl := Option.some.inj delivered
    unfold Child.enterSigterm
    split
    · rename_i present
      exact .inl ⟨0, rfl, present, setting⟩
    · exact .inr (.inl ⟨0, rfl⟩)
  · obtain rfl := Option.some.inj delivered
    exact .inr (.inr (.inr ⟨c.sigchld, true, rfl⟩))
  · rename_i setting
    obtain rfl := Option.some.inj delivered
    unfold Child.enterSigchld
    split
    · rename_i present
      exact .inl ⟨1, rfl, present, setting⟩
    · exact .inr (.inl ⟨1, rfl⟩)
  · obtain rfl := Option.some.inj delivered
    exact .inr (.inr (.inr ⟨.dfl, c.sigtermReceived, rfl⟩))
  · obtain rfl := Option.some.inj delivered
    exact .inr (.inr (.inr ⟨c.sigchld, c.sigtermReceived, rfl⟩))

/-- Re-tuning changes the count and, possibly, ends the timing state. -/
theorem Child.retune_cases (c : Child) (result : ℚ) (wild : ℕ) :
    ∃ iterations state, c.retune p result wild =
      { c with iterations := iterations, state := state } ∧
        (state = c.state ∨ state = .cooldown) := by
  unfold Child.retune
  split_ifs
  · exact ⟨_, c.state, rfl, .inl rfl⟩
  · dsimp only
    split_ifs
    · exact ⟨_, .cooldown, rfl, .inr rfl⟩
    · exact ⟨_, c.state, rfl, .inl rfl⟩
  · exact ⟨c.iterations, c.state, rfl, .inl rfl⟩

@[simp] theorem Child.retune_r (c : Child) (result : ℚ) (wild : ℕ) :
    (c.retune p result wild).r = c.r := by
  obtain ⟨_, _, same, _⟩ := c.retune_cases (p := p) result wild
  rw [same]

@[simp] theorem Child.retune_needWarmup (c : Child) (result : ℚ) (wild : ℕ) :
    (c.retune p result wild).needWarmup = c.needWarmup := by
  obtain ⟨_, _, same, _⟩ := c.retune_cases (p := p) result wild
  rw [same]

@[simp] theorem Child.retune_sigtermReceived (c : Child) (result : ℚ) (wild : ℕ) :
    (c.retune p result wild).sigtermReceived = c.sigtermReceived := by
  obtain ⟨_, _, same, _⟩ := c.retune_cases (p := p) result wild
  rw [same]

/-- Only a signal sets `benchmp_sigterm_received`. -/
theorem quiet_move {c c' : Child} {e : Event} (quiet : c.sigtermReceived = false)
    (move : Move p c e c') : c'.sigtermReceived = false := by
  cases move with
  | armReceived here received => simp [quiet] at received
  | keepTiming | coolDown => simpa using quiet
  | _ => exact quiet

end Lmbench.Benchmp
