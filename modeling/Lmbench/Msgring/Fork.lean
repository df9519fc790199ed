import Lmbench.Lib.Transition
import Mathlib.Data.Set.Insert
import Mathlib.Logic.Function.Basic

/-!
# `fork_msgring`

The processes of the ring are made by `fork`. All run the same loop, each on its own
copies of `fork_pids`, of `state` and of the loop counters, and at any moment any of
them may take its next step. A new process attaches to the channel of its parent,
whose number it finds in the `state` it inherited, before it stores its own; the
last one writes its pid and channel to a file, from which the first one attaches.

`fork`, `ChannelCreate`, `ConnectAttach` and the file are those of a kernel that
does not fail: it chooses pids, channel numbers and connection numbers freely among
those not in use.

## Main results

* `Placed.own_iff` - only the youngest process forks
* `Ring.attach` - a child attaches to the channel of the process that forked it
* `Ring.of_run` - what each process knows about the others, in every reachable state
-/

namespace Lmbench.Msgring

/-- `MAXPROCS`. -/
def maxProcs : ℕ := 1000

/-- The fields of `state` that are about the ring. -/
structure State where
  pid : ℕ
  ppid : ℕ
  chid : ℕ
  coid : ℕ

/-- Where a process is in `fork_msgring`. -/
inductive Pc
  /-- at the loop condition -/
  | test
  /-- at the comparison with `fork_pids[ix-1]` -/
  | body
  /-- `fork` has just returned 0 -/
  | born
  /-- before `ChannelCreate` -/
  | create
  /-- before `ConnectAttach`, with the new channel -/
  | attach (chid : ℕ)
  /-- before `writefile` -/
  | publish
  /-- behind the loop -/
  | left
deriving DecidableEq, Repr

/-- A process: its pid and that of its parent, and its copies of the variables. -/
structure Process where
  pid : ℕ
  parent : ℕ
  pc : Pc
  ix : ℕ
  forkCount : ℕ
  forkPids : ℕ → ℕ
  state : State

/-- All processes, numbered in the order of their creation, and the kernel's tables
of channels (by pid and channel number) and connections (by pid and connection
number), and the contents of the file. -/
structure System where
  count : ℕ
  procs : ℕ → Process
  channels : Set (ℕ × ℕ)
  connections : ℕ × ℕ → Option (ℕ × ℕ)
  file : Option (ℕ × ℕ)

/-- Process `k` becomes `p`. -/
def System.set (s : System) (k : ℕ) (p : Process) : System :=
  { s with procs := Function.update s.procs k p }

/-- The step of the loop to the next `ix`. -/
def Process.next (p : Process) : Process := { p with ix := p.ix + 1, pc := .test }

/-- The copy that `fork` makes, with the value 0 for the child. -/
def Process.child (p : Process) (newPid : ℕ) : Process :=
  { p with pid := newPid, parent := p.pid, pc := .born }

@[simp] theorem Process.child_pid (p : Process) (newPid : ℕ) : (p.child newPid).pid = newPid := rfl

@[simp] theorem Process.child_pc (p : Process) (newPid : ℕ) : (p.child newPid).pc = .born := rfl

/-- A child stores its channel and its connection; the last one goes on to
`writefile`. -/
def Process.connect (p : Process) (chid coid : ℕ) : Process :=
  { (if p.forkCount = 0 then { p with pc := .publish } else p.next) with
    state := { p.state with chid := chid, coid := coid } }

/-- `state.coid = coid`. -/
def Process.setCoid (p : Process) (coid : ℕ) : Process :=
  { p with state := { p.state with coid := coid } }

/-- Process `k` has forked. -/
def System.fork (s : System) (k newPid : ℕ) : System :=
  { s with
    count := s.count + 1
    procs := Function.update (Function.update s.procs k (s.procs k).next) s.count
      ((s.procs k).child newPid) }

/-- What steps are labelled with: a step of `fork_msgring` in process `k`, or
`run_iterator` attaching to the last channel. -/
inductive Event
  | loop (k : ℕ)
  | runIterator
deriving DecidableEq, Repr

/-- One step of process `k`. -/
inductive Step : System → Event → System → Prop
  | enter {s : System} {k : ℕ} (live : k < s.count) (pc : (s.procs k).pc = .test)
      (more : 0 < (s.procs k).forkCount) :
      Step s (.loop k)
        (s.set k { s.procs k with forkCount := (s.procs k).forkCount - 1, pc := .body })
  | leave {s : System} {k : ℕ} (live : k < s.count) (pc : (s.procs k).pc = .test)
      (done : (s.procs k).forkCount = 0) :
      Step s (.loop k) (s.set k { s.procs k with pc := .left })
  | skip {s : System} {k : ℕ} (live : k < s.count) (pc : (s.procs k).pc = .body)
      (inside : (s.procs k).ix - 1 < maxProcs)
      (other : (s.procs k).pid ≠ (s.procs k).forkPids ((s.procs k).ix - 1)) :
      Step s (.loop k) (s.set k (s.procs k).next)
  | fork {s : System} {k newPid : ℕ} (live : k < s.count) (pc : (s.procs k).pc = .body)
      (inside : (s.procs k).ix - 1 < maxProcs)
      (own : (s.procs k).pid = (s.procs k).forkPids ((s.procs k).ix - 1))
      (nonzero : newPid ≠ 0) (unused : ∀ j < s.count, (s.procs j).pid ≠ newPid) :
      Step s (.loop k) (s.fork k newPid)
  | born {s : System} {k : ℕ} (live : k < s.count) (pc : (s.procs k).pc = .born)
      (inside : (s.procs k).ix < maxProcs) :
      Step s (.loop k)
        (s.set k { s.procs k with
          forkPids := Function.update (s.procs k).forkPids (s.procs k).ix (s.procs k).pid
          state := { (s.procs k).state with pid := (s.procs k).pid, ppid := (s.procs k).parent }
          pc := .create })
  | create {s : System} {k chid : ℕ} (live : k < s.count) (pc : (s.procs k).pc = .create)
      (unused : ((s.procs k).pid, chid) ∉ s.channels) :
      Step s (.loop k)
        { s.set k { s.procs k with pc := .attach chid } with
          channels := insert ((s.procs k).pid, chid) s.channels }
  | attach {s : System} {k chid coid : ℕ} (live : k < s.count) (pc : (s.procs k).pc = .attach chid)
      (exists_ : ((s.procs k).state.ppid, (s.procs k).state.chid) ∈ s.channels)
      (unused : s.connections ((s.procs k).pid, coid) = none) :
      Step s (.loop k)
        { s.set k ((s.procs k).connect chid coid) with
          connections := Function.update s.connections ((s.procs k).pid, coid)
            (some ((s.procs k).state.ppid, (s.procs k).state.chid)) }
  | publish {s : System} {k : ℕ} (live : k < s.count) (pc : (s.procs k).pc = .publish) :
      Step s (.loop k)
        { s.set k (s.procs k).next with
          file := some ((s.procs k).state.pid, (s.procs k).state.chid) }
  | runIterator {s : System} {k coid : ℕ} {last : ℕ × ℕ} (live : k < s.count)
      (pc : (s.procs k).pc = .left) (original : (s.procs k).state.ppid = 0)
      (file : s.file = some last) (exists_ : last ∈ s.channels)
      (unused : s.connections ((s.procs k).pid, coid) = none) :
      Step s .runIterator
        { s.set k ((s.procs k).setCoid coid) with
          connections := Function.update s.connections ((s.procs k).pid, coid) (some last) }

/-- The original process when it enters `fork_msgring(procs)`: `init_state` has
created its channel, and `fork_pids[0]` is its pid. -/
def original (procs pid chid : ℕ) : Process where
  pid := pid
  parent := 0
  pc := .test
  ix := 1
  forkCount := procs - 1
  forkPids := Function.update (fun _ => 0) 0 pid
  state := { pid := pid, ppid := 0, chid := chid, coid := 0 }

/-- The system then. -/
def start (procs pid chid : ℕ) : System where
  count := 1
  procs := fun _ => original procs pid chid
  channels := {(pid, chid)}
  connections := fun _ => none
  file := none

/-! ### What a process knows -/

/-- The process has its channel and its connection. -/
def Process.Ready (p : Process) : Prop :=
  match p.pc with
  | .born | .create | .attach _ => False
  | _ => True

/-- The loop counters of process `k`: it enters the loop body with `ix = k`, in the
branch of the child, and every later pass has a larger `ix`. -/
def Process.Counted (procs k : ℕ) (p : Process) : Prop :=
  match p.pc with
  | .test => p.forkCount + p.ix = procs ∧ k < p.ix
  | .body => p.forkCount + p.ix + 1 = procs ∧ k < p.ix
  | .left => p.ix = procs ∧ k < p.ix
  | .publish => p.forkCount = 0 ∧ p.ix + 1 = procs ∧ p.ix = k
  | .born | .create | .attach _ => p.forkCount + p.ix + 1 = procs ∧ p.ix = k

/-- What holds of process `k`, when `pids` and `chids` are the pids and channels of
all processes in the order of creation. -/
structure Placed (procs : ℕ) (pids chids : ℕ → ℕ) (s : System) (k : ℕ) (p : Process) : Prop where
  pid_eq : p.pid = pids k
  parent_eq : 0 < k → p.parent = pids (k - 1)
  counted : p.Counted procs k
  /-- a process with a child has passed the `ix` at which it forked -/
  forked : k + 1 < s.count → k + 1 < p.ix
  /-- the youngest process has not -/
  youngest : k + 1 = s.count → p.ix ≤ k + 1
  forkPids_eq : ∀ j, p.forkPids j = if j < k ∨ (j = k ∧ p.pc ≠ .born) then pids j else 0
  state_pid : p.pc ≠ .born → p.state.pid = pids k
  state_ppid : p.pc ≠ .born → p.state.ppid = if k = 0 then 0 else pids (k - 1)
  chid_eq : p.Ready → p.state.chid = chids k
  channel : p.Ready → (pids k, chids k) ∈ s.channels
  connection : p.Ready → 0 < k →
    s.connections (pids k, p.state.coid) = some (pids (k - 1), chids (k - 1))
  inherited : ¬ p.Ready → 0 < k ∧ p.state.chid = chids (k - 1)
  creating : ∀ chid, p.pc = .attach chid → (pids k, chid) ∈ s.channels

/-- The last process has its channel, and `last` says which. -/
structure Complete (procs : ℕ) (pids chids : ℕ → ℕ) (s : System) (last : ℕ × ℕ) : Prop where
  count_eq : s.count = procs
  ready : (s.procs (procs - 1)).Ready
  last_eq : last = (pids (procs - 1), chids (procs - 1))

/-- What holds of all processes together. -/
structure Ring (procs pid₀ : ℕ) (pids chids : ℕ → ℕ) (s : System) : Prop where
  positive : 0 < s.count
  bounded : s.count ≤ procs
  first : pids 0 = pid₀
  nonzero : ∀ k < s.count, pids k ≠ 0
  distinct : ∀ j < s.count, ∀ k < s.count, pids j = pids k → j = k
  placed : ∀ k < s.count, Placed procs pids chids s k (s.procs k)
  file : ∀ last, s.file = some last → Complete procs pids chids s last
  published : s.count = procs → (s.procs (procs - 1)).Ready →
    (s.procs (procs - 1)).pc ≠ .publish → s.file ≠ none
  attached : ∀ last, s.connections (pids 0, (s.procs 0).state.coid) = some last →
    Complete procs pids chids s last

variable {procs pid₀ k : ℕ} {pids chids : ℕ → ℕ} {s t : System} {p : Process} {e : Event}

/-- What is known of a process survives new channels and new connections. -/
theorem Placed.mono (placed : Placed procs pids chids s k p)
    (forked : k + 1 < t.count → k + 1 < p.ix) (youngest : k + 1 = t.count → p.ix ≤ k + 1)
    (channels : s.channels ⊆ t.channels)
    (connections : ∀ key target, s.connections key = some target →
      t.connections key = some target) : Placed procs pids chids t k p :=
  { placed with
    forked := forked
    youngest := youngest
    channel := fun ready => channels (placed.channel ready)
    connection := fun ready positive => connections _ _ (placed.connection ready positive)
    creating := fun chid pc => channels (placed.creating chid pc) }

/-- A connection under an unused number leaves the others as they are. -/
theorem known_of_update {key : ℕ × ℕ} {new : Option (ℕ × ℕ)} (unused : s.connections key = none)
    (other target : ℕ × ℕ) (known : s.connections other = some target) :
    Function.update s.connections key new other = some target := by
  rw [Function.update_of_ne]
  · exact known
  · rintro rfl
    simp [unused] at known

theorem System.fork_procs_of_lt {j newPid : ℕ} (below : j < s.count) :
    (s.fork k newPid).procs j = Function.update s.procs k (s.procs k).next j :=
  Function.update_of_ne below.ne _ _

theorem System.fork_procs_self {newPid : ℕ} :
    (s.fork k newPid).procs s.count = (s.procs k).child newPid :=
  Function.update_self ..

theorem Process.not_ready_of_attach {chid : ℕ} (pc : p.pc = .attach chid) : ¬ p.Ready := by
  simp [Process.Ready, pc]

section Connect

variable {chid coid : ℕ}

@[simp] theorem Process.connect_pid : (p.connect chid coid).pid = p.pid := by
  unfold Process.connect
  split <;> rfl

@[simp] theorem Process.connect_parent : (p.connect chid coid).parent = p.parent := by
  unfold Process.connect
  split <;> rfl

@[simp] theorem Process.connect_forkPids : (p.connect chid coid).forkPids = p.forkPids := by
  unfold Process.connect
  split <;> rfl

@[simp] theorem Process.connect_state :
    (p.connect chid coid).state = { p.state with chid := chid, coid := coid } := by
  unfold Process.connect
  split <;> rfl

theorem Process.ready_connect : (p.connect chid coid).Ready := by
  unfold Process.connect
  split <;> trivial

/-- A process with its connection goes on with the next `ix`, or is the last one. -/
theorem Process.counted_connect (passes : p.forkCount + p.ix + 1 = procs) (entered : p.ix = k) :
    (p.connect chid coid).Counted procs k ∧ (p.connect chid coid).ix ≤ k + 1 ∧
      (k + 1 = procs → (p.connect chid coid).pc = .publish) := by
  unfold Process.connect
  split
  · refine ⟨?_, ?_, fun _ => rfl⟩
    · simp only [Process.Counted]
      omega
    · simp only
      omega
  · refine ⟨?_, ?_, fun full => ?_⟩
    · simp only [Process.Counted, Process.next]
      omega
    · simp only [Process.next]
      omega
    · omega

end Connect

theorem ring_start {chid₀ : ℕ} (two : 2 ≤ procs) (nonzero : pid₀ ≠ 0) :
    Ring procs pid₀ (fun _ => pid₀) (fun _ => chid₀) (start procs pid₀ chid₀) where
  positive := Nat.one_pos
  bounded := by simp only [start]; omega
  first := rfl
  nonzero := fun _ _ => nonzero
  distinct := fun j hj k hk _ => by simp only [start] at hj hk; omega
  placed := by
    intro k live
    obtain rfl : k = 0 := by simpa [start] using live
    constructor <;> simp [start, original, Process.Counted, Process.Ready]
    · omega
    · intro j
      simp [Function.update_apply]
  file := by simp [start]
  published := fun count => by simp only [start] at count; omega
  attached := by simp [start]

/-! ### Every step keeps it -/

theorem Complete.of_update {last : ℕ × ℕ} (complete : Complete procs pids chids s last)
    (count : t.count = s.count) (update : t.procs = Function.update s.procs k p)
    (ready : (s.procs k).Ready → p.Ready) : Complete procs pids chids t last where
  count_eq := count.trans complete.count_eq
  ready := by
    rw [update, Function.update_apply]
    split
    · rename_i same
      exact ready (same ▸ complete.ready)
    · exact complete.ready
  last_eq := complete.last_eq

theorem placed_of_update (ring : Ring procs pid₀ pids chids s) (count : t.count = s.count)
    (update : t.procs = Function.update s.procs k p) (channels : s.channels ⊆ t.channels)
    (connections : ∀ key target, s.connections key = some target →
      t.connections key = some target)
    (placed : Placed procs pids chids t k p) :
    ∀ j < t.count, Placed procs pids chids t j (t.procs j) := by
  intro j live
  rw [update, Function.update_apply]
  split
  · rename_i same
    exact same ▸ placed
  · have kept := ring.placed j (count ▸ live)
    exact kept.mono (count ▸ kept.forked) (count ▸ kept.youngest) channels connections

/-- A step of one process that neither publishes nor attaches. -/
theorem Ring.quiet (ring : Ring procs pid₀ pids chids s) (count : t.count = s.count)
    (update : t.procs = Function.update s.procs k p) (channels : s.channels ⊆ t.channels)
    (connections : t.connections = s.connections) (file : t.file = s.file)
    (ready : p.Ready ↔ (s.procs k).Ready) (coid : p.state.coid = (s.procs k).state.coid)
    (silent : (s.procs k).pc ≠ .publish) (placed : Placed procs pids chids t k p) :
    Ring procs pid₀ pids chids t where
  positive := count ▸ ring.positive
  bounded := count ▸ ring.bounded
  first := ring.first
  nonzero := count ▸ ring.nonzero
  distinct := count ▸ ring.distinct
  placed := placed_of_update ring count update channels
    (fun _ _ known => by rw [connections]; exact known) placed
  file := fun last written =>
    (ring.file last (file ▸ written)).of_update count update ready.mpr
  published := by
    intro full isReady published
    rw [file]
    rw [update, Function.update_apply] at isReady published
    split at isReady
    · rename_i same
      rw [if_pos same] at published
      exact ring.published (count ▸ full) (same ▸ ready.mp isReady) (same ▸ silent)
    · rename_i other
      rw [if_neg other] at published
      exact ring.published (count ▸ full) isReady published
  attached := by
    intro last connected
    have same : (t.procs 0).state.coid = (s.procs 0).state.coid := by
      rw [update, Function.update_apply]
      split
      · rename_i same
        exact same ▸ coid
      · rfl
    rw [connections, same] at connected
    exact (ring.attached last connected).of_update count update ready.mpr

/-- A process that has its channel and its connection goes on in the loop. -/
theorem Placed.advance {q : Process} (placed : Placed procs pids chids s k p) (ready : p.Ready)
    (isReady : q.Ready) (pid : q.pid = p.pid) (parent : q.parent = p.parent)
    (forkPids : q.forkPids = p.forkPids) (state : q.state = p.state)
    (counted : q.Counted procs k) (forked : k + 1 < t.count → k + 1 < q.ix)
    (youngest : k + 1 = t.count → q.ix ≤ k + 1) (channels : s.channels ⊆ t.channels)
    (connections : ∀ key target, s.connections key = some target →
      t.connections key = some target) : Placed procs pids chids t k q := by
  have old : p.pc ≠ .born := by
    intro pc
    simp [Process.Ready, pc] at ready
  have current : q.pc ≠ .born := by
    intro pc
    simp [Process.Ready, pc] at isReady
  exact
    { pid_eq := pid.trans placed.pid_eq
      parent_eq := fun positive => parent.trans (placed.parent_eq positive)
      counted := counted
      forked := forked
      youngest := youngest
      forkPids_eq := fun j => by
        rw [forkPids, placed.forkPids_eq]
        simp [old, current]
      state_pid := fun _ => state ▸ placed.state_pid old
      state_ppid := fun _ => state ▸ placed.state_ppid old
      chid_eq := fun _ => state ▸ placed.chid_eq ready
      channel := fun _ => channels (placed.channel ready)
      connection := fun _ positive =>
        connections _ _ (state ▸ placed.connection ready positive)
      inherited := fun unready => absurd isReady unready
      creating := fun chid pc => absurd isReady (Process.not_ready_of_attach pc) }

/-- The comparison with `fork_pids[ix-1]` succeeds in the youngest process only. -/
theorem Placed.own_iff (placed : Placed procs pids chids s k p) (pc : p.pc = .body)
    (live : k < s.count) (nonzero : pids k ≠ 0) :
    p.pid = p.forkPids (p.ix - 1) ↔ k + 1 = s.count := by
  have counted := placed.counted
  simp only [Process.Counted, pc] at counted
  have entry := placed.forkPids_eq (p.ix - 1)
  constructor
  · intro own
    by_contra older
    have forked := placed.forked (by omega)
    rw [if_neg (by omega), ← own, placed.pid_eq] at entry
    exact nonzero entry
  · intro last
    have youngest := placed.youngest last
    have here : p.ix - 1 = k := by omega
    rw [entry, here, placed.pid_eq, if_pos]
    simp [pc]

section Preservation

variable (ring : Ring procs pid₀ pids chids s) (live : k < s.count)
include ring live

theorem Ring.enter (pc : (s.procs k).pc = .test) (more : 0 < (s.procs k).forkCount) :
    Ring procs pid₀ pids chids
      (s.set k { s.procs k with forkCount := (s.procs k).forkCount - 1, pc := .body }) := by
  have placed := ring.placed k live
  have counted := placed.counted
  simp only [Process.Counted, pc] at counted
  have ready : (s.procs k).Ready := by simp [Process.Ready, pc]
  refine ring.quiet rfl rfl subset_rfl rfl rfl (iff_of_true trivial ready) rfl (by simp [pc]) ?_
  exact placed.advance ready trivial rfl rfl rfl rfl (by simp only [Process.Counted]; omega)
    placed.forked placed.youngest subset_rfl fun _ _ known => known

theorem Ring.leave (pc : (s.procs k).pc = .test) (done : (s.procs k).forkCount = 0) :
    Ring procs pid₀ pids chids (s.set k { s.procs k with pc := .left }) := by
  have placed := ring.placed k live
  have counted := placed.counted
  simp only [Process.Counted, pc] at counted
  have ready : (s.procs k).Ready := by simp [Process.Ready, pc]
  refine ring.quiet rfl rfl subset_rfl rfl rfl (iff_of_true trivial ready) rfl (by simp [pc]) ?_
  exact placed.advance ready trivial rfl rfl rfl rfl (by simp only [Process.Counted]; omega)
    placed.forked placed.youngest subset_rfl fun _ _ known => known

theorem Ring.skip (pc : (s.procs k).pc = .body)
    (other : (s.procs k).pid ≠ (s.procs k).forkPids ((s.procs k).ix - 1)) :
    Ring procs pid₀ pids chids (s.set k (s.procs k).next) := by
  have placed := ring.placed k live
  have counted := placed.counted
  simp only [Process.Counted, pc] at counted
  have ready : (s.procs k).Ready := by simp [Process.Ready, pc]
  have older : k + 1 ≠ s.count := fun last =>
    other ((placed.own_iff pc live (ring.nonzero k live)).mpr last)
  refine ring.quiet rfl rfl subset_rfl rfl rfl (iff_of_true trivial ready) rfl (by simp [pc]) ?_
  exact placed.advance ready trivial rfl rfl rfl rfl
    (by simp only [Process.Counted, Process.next]; omega)
    (fun older => (placed.forked older).trans (Nat.lt_succ_self _))
    (fun last => absurd last older) subset_rfl fun _ _ known => known

theorem Ring.publish (pc : (s.procs k).pc = .publish) :
    Ring procs pid₀ pids chids
      { s.set k (s.procs k).next with
        file := some ((s.procs k).state.pid, (s.procs k).state.chid) } := by
  have placed := ring.placed k live
  have counted := placed.counted
  simp only [Process.Counted, pc] at counted
  have ready : (s.procs k).Ready := by simp [Process.Ready, pc]
  have full : s.count = procs := by
    have bounded := ring.bounded
    have forked := placed.forked
    omega
  have last : procs - 1 = k := by omega
  exact
    { positive := ring.positive
      bounded := ring.bounded
      first := ring.first
      nonzero := ring.nonzero
      distinct := ring.distinct
      placed := placed_of_update ring rfl rfl subset_rfl (fun _ _ known => known)
        (placed.advance ready trivial rfl rfl rfl rfl
          (by simp only [Process.Counted, Process.next]; omega)
          (fun older => (placed.forked older).trans (Nat.lt_succ_self _))
          (fun _ => by simp only [Process.next]; omega) subset_rfl fun _ _ known => known)
      file := by
        rintro _ ⟨⟩
        refine ⟨full, ?_, ?_⟩
        · simp [System.set, last, Process.next, Process.Ready]
        · rw [last, placed.state_pid (by simp [pc]), placed.chid_eq ready]
      published := by simp
      attached := by
        intro target connected
        have same : (Function.update s.procs k (s.procs k).next 0).state = (s.procs 0).state := by
          rw [Function.update_apply]
          split
          · rename_i zero
            rw [zero, Process.next]
          · rfl
        simp only [System.set, same] at connected
        exact (ring.attached target connected).of_update rfl rfl fun _ => trivial }

theorem Ring.born (pc : (s.procs k).pc = .born) :
    Ring procs pid₀ pids chids
      (s.set k { s.procs k with
        forkPids := Function.update (s.procs k).forkPids (s.procs k).ix (s.procs k).pid
        state := { (s.procs k).state with pid := (s.procs k).pid, ppid := (s.procs k).parent }
        pc := .create }) := by
  have placed := ring.placed k live
  have counted := placed.counted
  simp only [Process.Counted, pc] at counted
  have unready : ¬ (s.procs k).Ready := by simp [Process.Ready, pc]
  have positive : 0 < k := (placed.inherited unready).1
  refine ring.quiet rfl rfl subset_rfl rfl rfl (iff_of_false id unready) rfl (by simp [pc]) ?_
  exact
    { pid_eq := placed.pid_eq
      parent_eq := placed.parent_eq
      counted := counted
      forked := placed.forked
      youngest := placed.youngest
      forkPids_eq := fun j => by
        have entry := placed.forkPids_eq j
        simp only [pc, ne_eq, not_true_eq_false, and_false, or_false] at entry
        change Function.update (s.procs k).forkPids (s.procs k).ix (s.procs k).pid j =
          if j < k ∨ (j = k ∧ Pc.create ≠ .born) then pids j else 0
        rw [Function.update_apply, counted.2, entry, placed.pid_eq]
        rcases lt_trichotomy j k with below | rfl | above
        · simp [below, below.ne]
        · simp
        · simp [above.ne', above.not_gt]
      state_pid := fun _ => placed.pid_eq
      state_ppid := fun _ => by
        rw [if_neg positive.ne']
        exact placed.parent_eq positive
      chid_eq := False.elim
      channel := False.elim
      connection := False.elim
      inherited := fun _ => placed.inherited unready
      creating := by simp }

theorem Ring.create {chid : ℕ} (pc : (s.procs k).pc = .create) :
    Ring procs pid₀ pids chids
      { s.set k { s.procs k with pc := .attach chid } with
        channels := insert ((s.procs k).pid, chid) s.channels } := by
  have placed := ring.placed k live
  have counted := placed.counted
  simp only [Process.Counted, pc] at counted
  have unready : ¬ (s.procs k).Ready := by simp [Process.Ready, pc]
  refine ring.quiet rfl rfl (Set.subset_insert _ _) rfl rfl (iff_of_false id unready) rfl
    (by simp [pc]) ?_
  exact
    { pid_eq := placed.pid_eq
      parent_eq := placed.parent_eq
      counted := counted
      forked := placed.forked
      youngest := placed.youngest
      forkPids_eq := fun j => by simpa [pc] using placed.forkPids_eq j
      state_pid := fun _ => placed.state_pid (by simp [pc])
      state_ppid := fun _ => placed.state_ppid (by simp [pc])
      chid_eq := False.elim
      channel := False.elim
      connection := False.elim
      inherited := fun _ => placed.inherited unready
      creating := by
        rintro _ ⟨⟩
        exact placed.pid_eq ▸ Set.mem_insert _ _ }

/-- The process whose `ppid` is 0 is the first one. -/
theorem Ring.ppid_eq_zero_iff (old : (s.procs k).pc ≠ .born) :
    (s.procs k).state.ppid = 0 ↔ k = 0 := by
  rw [(ring.placed k live).state_ppid old]
  constructor
  · intro zero
    by_contra positive
    rw [if_neg positive] at zero
    exact ring.nonzero (k - 1) (by omega) zero
  · intro first
    rw [if_pos first]

theorem Ring.runIterator {coid : ℕ} {last : ℕ × ℕ} (pc : (s.procs k).pc = .left)
    (original : (s.procs k).state.ppid = 0) (file : s.file = some last)
    (unused : s.connections ((s.procs k).pid, coid) = none) :
    Ring procs pid₀ pids chids
      { s.set k ((s.procs k).setCoid coid) with
        connections := Function.update s.connections ((s.procs k).pid, coid) (some last) } := by
  have placed := ring.placed k live
  have ready : (s.procs k).Ready := by simp [Process.Ready, pc]
  have isReady : ((s.procs k).setCoid coid).Ready := ready
  obtain rfl : k = 0 := (ring.ppid_eq_zero_iff live (by simp [pc])).mp original
  refine
    { positive := ring.positive
      bounded := ring.bounded
      first := ring.first
      nonzero := ring.nonzero
      distinct := ring.distinct
      placed := placed_of_update ring rfl rfl subset_rfl (known_of_update unused) ?_
      file := fun last written => (ring.file last written).of_update rfl rfl fun _ => isReady
      published := fun _ _ _ => by simp [System.set, file]
      attached := ?_ }
  · exact
      { pid_eq := placed.pid_eq
        parent_eq := placed.parent_eq
        counted := placed.counted
        forked := placed.forked
        youngest := placed.youngest
        forkPids_eq := placed.forkPids_eq
        state_pid := placed.state_pid
        state_ppid := placed.state_ppid
        chid_eq := placed.chid_eq
        channel := placed.channel
        connection := fun _ positive => absurd positive (lt_irrefl 0)
        inherited := placed.inherited
        creating := placed.creating }
  · intro target connected
    have target_eq : last = target := by
      simpa [System.set, Process.setCoid, placed.pid_eq] using connected
    exact target_eq ▸ (ring.file last file).of_update rfl rfl fun _ => isReady

end Preservation

/-- What is known of a process depends on the pids and channels up to its own. -/
theorem Placed.congr {pids' chids' : ℕ → ℕ} (placed : Placed procs pids chids s k p)
    (samePids : ∀ j ≤ k, pids' j = pids j)
    (sameChids : ∀ j ≤ k, p.Ready ∨ j < k → chids' j = chids j) :
    Placed procs pids' chids' s k p where
  pid_eq := (samePids k le_rfl).symm ▸ placed.pid_eq
  parent_eq := fun positive => (samePids (k - 1) (by omega)).symm ▸ placed.parent_eq positive
  counted := placed.counted
  forked := placed.forked
  youngest := placed.youngest
  forkPids_eq := fun j => by
    rw [placed.forkPids_eq]
    split
    · exact (samePids j (by omega)).symm
    · rfl
  state_pid := fun old => (samePids k le_rfl).symm ▸ placed.state_pid old
  state_ppid := fun old => by
    rw [placed.state_ppid old]
    split
    · rfl
    · exact (samePids (k - 1) (by omega)).symm
  chid_eq := fun ready => (sameChids k le_rfl (.inl ready)).symm ▸ placed.chid_eq ready
  channel := fun ready => by
    rw [samePids k le_rfl, sameChids k le_rfl (.inl ready)]
    exact placed.channel ready
  connection := fun ready positive => by
    rw [samePids k le_rfl, samePids (k - 1) (by omega), sameChids (k - 1) (by omega) (.inl ready)]
    exact placed.connection ready positive
  inherited := fun unready => by
    have known := placed.inherited unready
    exact ⟨known.1, (sameChids (k - 1) (by omega) (.inr (by omega))).symm ▸ known.2⟩
  creating := fun chid pc => (samePids k le_rfl).symm ▸ placed.creating chid pc

/-- A process that has attached: the number it has inherited is the channel of its
predecessor. -/
theorem Placed.connect {chid coid : ℕ} (placed : Placed procs pids chids s k p)
    (pc : p.pc = .attach chid) (last : k + 1 = s.count) (count : t.count = s.count)
    (channels : t.channels = s.channels)
    (connections : t.connections =
      Function.update s.connections (p.pid, coid) (some (p.state.ppid, p.state.chid))) :
    Placed procs pids (Function.update chids k chid) t k (p.connect chid coid) := by
  have counted := placed.counted
  simp only [Process.Counted, pc] at counted
  obtain ⟨isCounted, ix, -⟩ := @Process.counted_connect procs k p chid coid counted.1 counted.2
  have ready : (p.connect chid coid).Ready := Process.ready_connect
  have old : (p.connect chid coid).pc ≠ .born := by
    intro pc
    simp [Process.Ready, pc] at ready
  obtain ⟨positive, inherited⟩ := placed.inherited (Process.not_ready_of_attach pc)
  exact
    { pid_eq := Process.connect_pid.trans placed.pid_eq
      parent_eq := fun positive => Process.connect_parent.trans (placed.parent_eq positive)
      counted := isCounted
      forked := fun older => absurd older (by omega)
      youngest := fun _ => ix
      forkPids_eq := fun i => by
        rw [Process.connect_forkPids, placed.forkPids_eq]
        simp [pc, old]
      state_pid := fun _ => by simpa using placed.state_pid (by simp [pc])
      state_ppid := fun _ => by simpa using placed.state_ppid (by simp [pc])
      chid_eq := fun _ => by simp
      channel := fun _ => by
        rw [Function.update_self, channels]
        exact placed.creating chid pc
      connection := fun _ _ => by
        have parent_eq := placed.state_ppid (by simp [pc])
        rw [if_neg positive.ne'] at parent_eq
        have before : k - 1 ≠ k := by omega
        simp [connections, placed.pid_eq, parent_eq, inherited, before]
      inherited := fun unready => absurd ready unready
      creating := fun _ pc => absurd ready (Process.not_ready_of_attach pc) }

/-- The process that attaches is the youngest, and nothing is published while it is without its
channel. -/
theorem Ring.youngest_of_attach (ring : Ring procs pid₀ pids chids s) (live : k < s.count)
    {chid : ℕ} (pc : (s.procs k).pc = .attach chid) :
    k + 1 = s.count ∧ ∀ target, ¬ Complete procs pids chids s target := by
  have placed := ring.placed k live
  have counted := placed.counted
  simp only [Process.Counted, pc] at counted
  have last : k + 1 = s.count := by
    have forked := placed.forked
    omega
  refine ⟨last, fun target complete => ?_⟩
  have here : procs - 1 = k := by
    have := complete.count_eq
    omega
  exact Process.not_ready_of_attach pc (here ▸ complete.ready)

/-- A child attaches to its parent's channel, whose number changes no more. -/
theorem Ring.attach (ring : Ring procs pid₀ pids chids s) (live : k < s.count) {chid coid : ℕ}
    (pc : (s.procs k).pc = .attach chid)
    (unused : s.connections ((s.procs k).pid, coid) = none) :
    Ring procs pid₀ pids (Function.update chids k chid)
      { s.set k ((s.procs k).connect chid coid) with
        connections := Function.update s.connections ((s.procs k).pid, coid)
          (some ((s.procs k).state.ppid, (s.procs k).state.chid)) } := by
  have placed := ring.placed k live
  have counted := placed.counted
  simp only [Process.Counted, pc] at counted
  have positive := (placed.inherited (Process.not_ready_of_attach pc)).1
  obtain ⟨last, incomplete⟩ := ring.youngest_of_attach live pc
  refine
    { positive := ring.positive
      bounded := ring.bounded
      first := ring.first
      nonzero := ring.nonzero
      distinct := ring.distinct
      placed := ?_
      file := fun target written => absurd (ring.file target written) (incomplete target)
      published := ?_
      attached := ?_ }
  · intro j below
    simp only [System.set, Function.update_apply]
    split
    · rename_i here
      subst here
      exact placed.connect pc last rfl rfl rfl
    · rename_i other
      have earlier := ring.placed j below
      refine Placed.congr (earlier.mono earlier.forked earlier.youngest subset_rfl
        (known_of_update unused)) (fun _ _ => rfl) ?_
      intro i upTo _
      rw [Function.update_of_ne]
      simp only [System.set] at below
      omega
  · intro full isReady published
    simp only [System.set] at full isReady published ⊢
    have here : procs - 1 = k := by omega
    rw [here, Function.update_self] at published
    exact absurd ((Process.counted_connect counted.1 counted.2).2.2 (by omega)) published
  · intro target connected
    have zero : (Function.update s.procs k ((s.procs k).connect chid coid) 0).state =
        (s.procs 0).state := by
      rw [Function.update_of_ne positive.ne]
    have apart : (pids 0, (s.procs 0).state.coid) ≠ ((s.procs k).pid, coid) := by
      intro same
      have pid_same : pids 0 = pids k := (congrArg Prod.fst same).trans placed.pid_eq
      exact positive.ne (ring.distinct 0 ring.positive k live pid_same)
    simp only [System.set, zero, Function.update_of_ne apart] at connected
    exact absurd (ring.attached target connected) (incomplete target)

section Forking

variable {newPid : ℕ}

/-- A new pid behind those in use. -/
theorem Ring.distinct_fork (ring : Ring procs pid₀ pids chids s)
    (unused : ∀ j < s.count, (s.procs j).pid ≠ newPid) :
    ∀ i < s.count + 1, ∀ j < s.count + 1, Function.update pids s.count newPid i =
      Function.update pids s.count newPid j → i = j := by
  have fresh : ∀ j < s.count, pids j ≠ newPid := fun j below =>
    (ring.placed j below).pid_eq ▸ unused j below
  intro i hi j hj same
  rw [Function.update_apply, Function.update_apply] at same
  split at same <;> split at same
  · omega
  · exact absurd same.symm (fresh j (by omega))
  · exact absurd same (fresh i (by omega))
  · exact ring.distinct i (by omega) j (by omega) same

/-- The processes there were when the youngest one forked. -/
theorem Ring.placed_fork (ring : Ring procs pid₀ pids chids s) (pc : (s.procs k).pc = .body)
    (last : k + 1 = s.count) {j : ℕ} (below : j < s.count) :
    Placed procs pids chids (s.fork k newPid) j ((s.fork k newPid).procs j) := by
  have kept := ring.placed j below
  rw [System.fork_procs_of_lt below, Function.update_apply]
  split
  · rename_i here
    subst here
    have counted := kept.counted
    simp only [Process.Counted, pc] at counted
    have youngest := kept.youngest last
    have ready : (s.procs j).Ready := by simp [Process.Ready, pc]
    exact kept.advance ready trivial rfl rfl rfl rfl
      (by simp only [Process.Counted, Process.next]; omega)
      (fun _ => by simp only [Process.next]; omega)
      (fun newest => by simp only [System.fork] at newest; omega) subset_rfl
      fun _ _ known => known
  · rename_i other
    exact kept.mono (fun _ => kept.forked (by omega))
      (fun newest => by simp only [System.fork] at newest; omega) subset_rfl
      fun _ _ known => known

/-- The new process. It has the state of its parent, whose channel is the one to attach
to. -/
theorem Placed.child (placed : Placed procs pids chids s k p) (pc : p.pc = .body)
    (last : k + 1 = s.count) (count : t.count = s.count + 1) :
    Placed procs (Function.update pids s.count newPid) chids t s.count (p.child newPid) := by
  have counted := placed.counted
  simp only [Process.Counted, pc] at counted
  have youngest := placed.youngest last
  have before : s.count - 1 = k := by omega
  have parent : Function.update pids s.count newPid k = pids k :=
    Function.update_of_ne (by omega) _ _
  exact
    { pid_eq := by rw [Process.child_pid, Function.update_self]
      parent_eq := fun _ => by
        rw [before, parent]
        exact placed.pid_eq
      counted := by simp only [Process.Counted, Process.child]; omega
      forked := fun older => by omega
      youngest := fun _ => by simp only [Process.child]; omega
      forkPids_eq := fun i => by
        have upTo : (i < k ∨ i = k ∧ p.pc ≠ .born) ↔ i < s.count := by
          simp only [pc, ne_eq, reduceCtorEq, not_false_eq_true, and_true]
          omega
        change p.forkPids i = _
        rw [placed.forkPids_eq i, if_congr upTo rfl rfl, Process.child_pc]
        by_cases below : i < s.count
        · simp [below, below.ne]
        · simp [below]
      state_pid := fun old => absurd rfl old
      state_ppid := fun old => absurd rfl old
      chid_eq := False.elim
      channel := False.elim
      connection := False.elim
      inherited := fun _ => by
        refine ⟨by omega, ?_⟩
        rw [before]
        exact placed.chid_eq (by simp [Process.Ready, pc])
      creating := by simp }

/-- The new process is the successor of the one that forks, which is the youngest. -/
theorem Ring.fork (ring : Ring procs pid₀ pids chids s) (live : k < s.count)
    (pc : (s.procs k).pc = .body)
    (own : (s.procs k).pid = (s.procs k).forkPids ((s.procs k).ix - 1)) (nonzero : newPid ≠ 0)
    (unused : ∀ j < s.count, (s.procs j).pid ≠ newPid) :
    Ring procs pid₀ (Function.update pids s.count newPid) chids (s.fork k newPid) := by
  have placed := ring.placed k live
  have last := (placed.own_iff pc live (ring.nonzero k live)).mp own
  have counted := placed.counted
  simp only [Process.Counted, pc] at counted
  have youngest := placed.youngest last
  -- there is room for one more process, so the last one has not been made
  have incomplete : ∀ target, ¬ Complete procs pids chids s target := by
    intro target complete
    have := complete.count_eq
    omega
  have old : ∀ j < s.count, Function.update pids s.count newPid j = pids j := fun j below =>
    Function.update_of_ne below.ne _ _
  refine
    { positive := Nat.succ_pos _
      bounded := by simp only [System.fork]; omega
      first := (old 0 ring.positive).trans ring.first
      nonzero := ?_
      distinct := ring.distinct_fork unused
      placed := ?_
      file := fun target written => absurd (ring.file target written) (incomplete target)
      published := ?_
      attached := ?_ }
  · intro j below
    rw [Function.update_apply]
    split
    · exact nonzero
    · exact ring.nonzero j (by simp only [System.fork] at below; omega)
  · intro j below
    simp only [System.fork] at below
    rcases Nat.lt_succ_iff_lt_or_eq.mp below with earlier | rfl
    · exact (ring.placed_fork pc last earlier).congr (fun i upTo => old i (by omega))
        fun _ _ _ => rfl
    · rw [System.fork_procs_self]
      exact placed.child pc last rfl
  · intro full isReady
    simp only [System.fork] at full isReady
    have here : procs - 1 = s.count := by omega
    rw [here, Function.update_self] at isReady
    exact isReady.elim
  · intro target connected
    have zero : ((s.fork k newPid).procs 0).state = (s.procs 0).state := by
      rw [System.fork_procs_of_lt ring.positive, Function.update_apply]
      split
      · rename_i first
        rw [first, Process.next]
      · rfl
    rw [zero, old 0 ring.positive] at connected
    exact absurd (ring.attached target connected) (incomplete target)

end Forking

/-- **One step.** Whichever process takes it, the ring stays in order. -/
theorem Ring.step (ring : Ring procs pid₀ pids chids s) (taken : Step s e t) :
    ∃ pids' chids', Ring procs pid₀ pids' chids' t := by
  cases taken with
  | enter live pc more => exact ⟨_, _, ring.enter live pc more⟩
  | leave live pc done => exact ⟨_, _, ring.leave live pc done⟩
  | skip live pc _ other => exact ⟨_, _, ring.skip live pc other⟩
  | fork live pc _ own nonzero unused => exact ⟨_, _, ring.fork live pc own nonzero unused⟩
  | born live pc _ => exact ⟨_, _, ring.born live pc⟩
  | create live pc _ => exact ⟨_, _, ring.create live pc⟩
  | attach live pc _ unused => exact ⟨_, _, ring.attach live pc unused⟩
  | publish live pc => exact ⟨_, _, ring.publish live pc⟩
  | runIterator live pc original file _ unused =>
    exact ⟨_, _, ring.runIterator live pc original file unused⟩

/-- The processes are in order, with some pids and channels. -/
def InOrder (procs pid₀ : ℕ) (s : System) : Prop := ∃ pids chids, Ring procs pid₀ pids chids s

/-- Every reachable state is in order. -/
theorem Ring.of_run {chid₀ : ℕ} {past : List Event} (two : 2 ≤ procs) (nonzero : pid₀ ≠ 0)
    (run : Lib.Run Step (start procs pid₀ chid₀) past s) : InOrder procs pid₀ s := by
  have initial : InOrder procs pid₀ (start procs pid₀ chid₀) := ⟨_, _, ring_start two nonzero⟩
  exact run.invariant initial fun _ _ _ ⟨_, _, ring⟩ taken => ring.step taken

end Lmbench.Msgring
