import Lmbench.Lib.PointerChain
import Lmbench.Msgring.Fork
import Mathlib.Algebra.BigOperators.Group.Finset.Basic
import Mathlib.Data.Set.Finite.Basic
import Mathlib.Tactic.Ring

/-!
# The ring that `fork_msgring` builds

While a process is in the loop it can go on, and it goes on only a bounded number of
times, so all processes leave it. Then there are as many as were asked for, and once
`run_iterator` has attached to the channel named in the file, following the
connections from the first process leads once through all of them.

## Main results

* `exists_step` - no process gets stuck in `fork_msgring`
* `loop_events_le` - a bound on the steps of all processes together
* `Ring.isCycle` - the connections form a single cycle
* `forkMsgring_ring` - the whole of it, for every run
-/

namespace Lmbench.Msgring

variable {procs pid₀ k : ℕ} {pids chids : ℕ → ℕ} {s t : System} {p : Process} {e : Event}

/-! ### No process gets stuck -/

/-- The tables of the kernel are finite. -/
structure Bounded (s : System) : Prop where
  channels : s.channels.Finite
  connections : {key | s.connections key ≠ none}.Finite

theorem finite_update {f : ℕ × ℕ → Option (ℕ × ℕ)} (key : ℕ × ℕ) (value : Option (ℕ × ℕ))
    (finite : {key | f key ≠ none}.Finite) :
    {other | Function.update f key value other ≠ none}.Finite := by
  refine (finite.insert key).subset ?_
  intro other used
  by_cases same : other = key
  · exact .inl same
  · right
    simpa [Function.update_of_ne same] using used

theorem Bounded.step (bounded : Bounded s) (taken : Step s e t) : Bounded t := by
  cases taken with
  | create => exact ⟨bounded.channels.insert _, bounded.connections⟩
  | attach | runIterator => exact ⟨bounded.channels, finite_update _ _ bounded.connections⟩
  | _ => exact ⟨bounded.channels, bounded.connections⟩

/-- A number that a process does not use yet in a finite table. -/
theorem exists_unused {table : Set (ℕ × ℕ)} (finite : table.Finite) (pid : ℕ) :
    ∃ n, (pid, n) ∉ table := by
  have injective : Function.Injective (fun n : ℕ => (pid, n)) := fun _ _ same =>
    (Prod.mk.inj same).2
  exact (finite.preimage injective.injOn).exists_notMem

theorem exists_fresh_pid (s : System) :
    ∃ newPid, newPid ≠ 0 ∧ ∀ j < s.count, (s.procs j).pid ≠ newPid := by
  obtain ⟨newPid, fresh⟩ :=
    Infinite.exists_notMem_finset (insert 0 ((Finset.range s.count).image fun j => (s.procs j).pid))
  simp only [Finset.mem_insert, Finset.mem_image, Finset.mem_range, not_or, not_exists,
    not_and] at fresh
  exact ⟨newPid, fresh.1, fresh.2⟩

/-- **Progress.** A process that has not left the loop can take its next step. -/
theorem exists_step (most : procs ≤ maxProcs) (ring : Ring procs pid₀ pids chids s)
    (bounded : Bounded s) (live : k < s.count) (inLoop : (s.procs k).pc ≠ .left) :
    ∃ t, Step s (.loop k) t := by
  have placed := ring.placed k live
  have counted := placed.counted
  have within := ring.bounded
  cases pc : (s.procs k).pc with
  | test =>
    rcases Nat.eq_zero_or_pos (s.procs k).forkCount with done | more
    · exact ⟨_, .leave live pc done⟩
    · exact ⟨_, .enter live pc more⟩
  | body =>
    simp only [Process.Counted, pc] at counted
    by_cases own : (s.procs k).pid = (s.procs k).forkPids ((s.procs k).ix - 1)
    · obtain ⟨newPid, nonzero, unused⟩ := exists_fresh_pid s
      exact ⟨_, .fork live pc (by omega) own nonzero unused⟩
    · exact ⟨_, .skip live pc (by omega) own⟩
  | born =>
    simp only [Process.Counted, pc] at counted
    exact ⟨_, .born live pc (by omega)⟩
  | create =>
    obtain ⟨chid, unused⟩ := exists_unused bounded.channels (s.procs k).pid
    exact ⟨_, .create live pc unused⟩
  | attach chid =>
    obtain ⟨coid, unused⟩ := exists_unused bounded.connections (s.procs k).pid
    -- the parent's channel is there, since the parent had it before it forked
    obtain ⟨positive, inherited⟩ := placed.inherited (Process.not_ready_of_attach pc)
    have parent := ring.placed (k - 1) (by omega)
    have ppid := placed.state_ppid (by simp [pc])
    rw [if_neg positive.ne'] at ppid
    have ready : (s.procs (k - 1)).Ready := by
      have forked := parent.forked (by omega)
      have counted := parent.counted
      cases pc : (s.procs (k - 1)).pc <;> simp only [Process.Counted, Process.Ready, pc] at *
      all_goals omega
    refine ⟨_, .attach live pc ?_ (by simpa using unused)⟩
    rw [ppid, inherited]
    exact parent.channel ready
  | publish => exact ⟨_, .publish live pc⟩
  | left => exact absurd pc inLoop

/-! ### The loop ends -/

/-- A bound on the steps a process has ahead in the loop. -/
def Process.work (p : Process) : ℕ :=
  match p.pc with
  | .left => 0
  | .test => 8 * p.forkCount + 1
  | .publish => 8 * p.forkCount + 2
  | .attach _ => 8 * p.forkCount + 3
  | .create => 8 * p.forkCount + 4
  | .born => 8 * p.forkCount + 5
  | .body => 8 * p.forkCount + 7

/-- A bound on the steps that all processes have ahead, also those not created yet. -/
def System.work (procs : ℕ) (s : System) : ℕ :=
  ∑ k ∈ Finset.range s.count, (s.procs k).work + (procs - s.count) * (8 * procs + 6)

theorem sum_work_update (live : k < s.count) (p : Process) :
    ∑ j ∈ Finset.range s.count, (Function.update s.procs k p j).work + (s.procs k).work =
      ∑ j ∈ Finset.range s.count, (s.procs j).work + p.work := by
  have member : k ∈ Finset.range s.count := Finset.mem_range.mpr live
  have others : ∑ j ∈ (Finset.range s.count).erase k, (Function.update s.procs k p j).work =
      ∑ j ∈ (Finset.range s.count).erase k, (s.procs j).work := by
    refine Finset.sum_congr rfl fun j other => ?_
    rw [Function.update_of_ne (Finset.ne_of_mem_erase other)]
  rw [← Finset.add_sum_erase _ _ member,
    ← Finset.add_sum_erase _ (fun j => (s.procs j).work) member, others, Function.update_self]
  omega

/-- A step of one process that leaves it less to do. -/
theorem work_set_lt (live : k < s.count) (less : p.work < (s.procs k).work)
    (count : t.count = s.count) (update : t.procs = Function.update s.procs k p) :
    t.work procs < s.work procs := by
  have sum := sum_work_update live p
  rw [System.work, System.work, count, update]
  omega

theorem Process.work_connect_lt {chid coid : ℕ} (pc : p.pc = .attach chid) :
    (p.connect chid coid).work < p.work := by
  unfold Process.connect
  split <;> simp [Process.work, Process.next, pc]

theorem Ring.work_lt (ring : Ring procs pid₀ pids chids s) (taken : Step s (.loop k) t) :
    t.work procs < s.work procs := by
  cases taken with
  | enter live pc more =>
    exact work_set_lt live (by simp only [Process.work, pc]; omega) rfl rfl
  | leave live pc _ => exact work_set_lt live (by simp [Process.work, pc]) rfl rfl
  | skip live pc _ _ =>
    exact work_set_lt live (by simp [Process.work, Process.next, pc]) rfl rfl
  | @fork k newPid live pc _ own _ _ =>
    -- the child's steps were set aside for it
    have placed := ring.placed k live
    have counted := placed.counted
    simp only [Process.Counted, pc] at counted
    have last := (placed.own_iff pc live (ring.nonzero k live)).mp own
    have youngest := placed.youngest last
    have sum := sum_work_update live (s.procs k).next
    have others : ∑ j ∈ Finset.range s.count, ((s.fork k newPid).procs j).work =
        ∑ j ∈ Finset.range s.count, (Function.update s.procs k (s.procs k).next j).work :=
      Finset.sum_congr rfl fun j member => by
        rw [System.fork_procs_of_lt (Finset.mem_range.mp member)]
    have before : (s.procs k).work = 8 * (s.procs k).forkCount + 7 := by simp [Process.work, pc]
    have after : (s.procs k).next.work = 8 * (s.procs k).forkCount + 1 := rfl
    have child : ((s.procs k).child newPid).work = 8 * (s.procs k).forkCount + 5 := rfl
    have room : procs - s.count = (procs - (s.count + 1)) + 1 := by omega
    change ∑ j ∈ Finset.range (s.count + 1), ((s.fork k newPid).procs j).work +
      (procs - (s.count + 1)) * (8 * procs + 6) < _
    rw [Finset.sum_range_succ, others, System.fork_procs_self, child, System.work, room,
      Nat.add_mul]
    omega
  | born live pc _ => exact work_set_lt live (by simp [Process.work, pc]) rfl rfl
  | create live pc _ => exact work_set_lt live (by simp [Process.work, pc]) rfl rfl
  | attach live pc _ _ => exact work_set_lt live (Process.work_connect_lt pc) rfl rfl
  | publish live pc => exact work_set_lt live (by simp [Process.work, Process.next, pc]) rfl rfl

theorem work_runIterator (procs : ℕ) (taken : Step s .runIterator t) :
    t.work procs = s.work procs := by
  cases taken with
  | @runIterator k coid _ live pc _ _ _ _ =>
    have sum := sum_work_update live ((s.procs k).setCoid coid)
    have same : ((s.procs k).setCoid coid).work = (s.procs k).work := rfl
    simp only [System.work, System.set]
    omega

/-- A step of `fork_msgring`. -/
def Event.isLoop : Event → Bool
  | .loop _ => true
  | .runIterator => false

/-- The steps taken in the loop and those ahead stay within a budget. -/
def Spent (procs budget : ℕ) (past : List Event) (s : System) : Prop :=
  past.countP Event.isLoop + s.work procs ≤ budget

/-- **Termination.** All processes together take a bounded number of steps in
`fork_msgring`. -/
theorem loop_events_le {chid₀ : ℕ} {past : List Event} (two : 2 ≤ procs) (nonzero : pid₀ ≠ 0)
    (run : Lib.Run Step (start procs pid₀ chid₀) past s) :
    past.countP Event.isLoop ≤ 8 * procs * procs + 6 * procs := by
  have spent : Spent procs ((start procs pid₀ chid₀).work procs) past s := by
    refine run.invariant_history (by simp [Spent]) ?_
    intro past s e t before spent taken
    simp only [Spent] at spent ⊢
    obtain ⟨_, _, ring⟩ := Ring.of_run two nonzero before
    rw [List.countP_append]
    cases e with
    | loop k =>
      have less := ring.work_lt taken
      simp only [List.countP_singleton, Event.isLoop, if_true]
      omega
    | runIterator =>
      have same := work_runIterator procs taken
      simp only [List.countP_singleton, Event.isLoop, Bool.false_eq_true, if_false]
      omega
  have budget : (start procs pid₀ chid₀).work procs =
      8 * (procs - 1) + 1 + (procs - 1) * (8 * procs + 6) := by
    simp [System.work, start, original, Process.work]
  obtain ⟨n, rfl⟩ : ∃ n, procs = n + 1 := ⟨procs - 1, by omega⟩
  rw [Spent, budget, Nat.add_sub_cancel] at spent
  have expand : 8 * (n + 1) * (n + 1) + 6 * (n + 1) =
      8 * n + 1 + n * (8 * (n + 1) + 6) + 13 := by ring
  omega

/-! ### The connections form one cycle -/

/-- The process whose channel `state.chid` the connection `state.coid` of process `j`
leads to. -/
def System.attachedTo (s : System) (j : ℕ) : Option ℕ :=
  (List.range s.count).find? fun k =>
    s.connections ((s.procs j).pid, (s.procs j).state.coid) =
      some ((s.procs k).pid, (s.procs k).state.chid)

theorem Ring.attachedTo_eq {j : ℕ} (ring : Ring procs pid₀ pids chids s) (live : k < s.count)
    (ready : (s.procs k).Ready)
    (connected : s.connections ((s.procs j).pid, (s.procs j).state.coid) =
      some (pids k, chids k)) : s.attachedTo j = some k := by
  have placed := ring.placed k live
  rw [System.attachedTo, List.find?_range_eq_some]
  refine ⟨?_, by simpa using live, ?_⟩
  · rw [decide_eq_true_eq, connected, placed.pid_eq, placed.chid_eq ready]
  · intro i earlier
    simp only [connected, Bool.not_eq_true', decide_eq_false_iff_not, Option.some.injEq,
      Prod.mk.injEq, not_and]
    intro same
    rw [(ring.placed i (by omega)).pid_eq] at same
    exact absurd (ring.distinct k live i (by omega) same) earlier.ne'

/-- A process that has a successor has its channel. -/
theorem Ring.ready_of_lt (ring : Ring procs pid₀ pids chids s) (older : k + 1 < s.count) :
    (s.procs k).Ready := by
  have placed := ring.placed k (by omega)
  have forked := placed.forked older
  have counted := placed.counted
  cases pc : (s.procs k).pc <;> simp only [Process.Counted, Process.Ready, pc] at *
  all_goals omega

/-- The processes in the order in which the connections lead through them: from the
first one to the last one, and from each to its parent. -/
def order (procs : ℕ) : List ℕ := (List.range procs).map fun j => (procs - j) % procs

theorem mem_order_iff (positive : 0 < procs) : k ∈ order procs ↔ k < procs := by
  simp only [order, List.mem_map, List.mem_range]
  constructor
  · rintro ⟨j, -, rfl⟩
    exact Nat.mod_lt _ positive
  · intro below
    rcases Nat.eq_zero_or_pos k with rfl | positive
    · exact ⟨0, below, by simp⟩
    · refine ⟨procs - k, by omega, ?_⟩
      rw [Nat.sub_sub_self below.le, Nat.mod_eq_of_lt below]

theorem order_nodup : (order procs).Nodup := by
  refine List.Nodup.map_on ?_ List.nodup_range
  intro i hi j hj same
  rw [List.mem_range] at hi hj
  rcases Nat.eq_zero_or_pos i with rfl | posi <;> rcases Nat.eq_zero_or_pos j with rfl | posj
  · rfl
  · rw [Nat.sub_zero, Nat.mod_self, Nat.mod_eq_of_lt (by omega)] at same
    omega
  · rw [Nat.sub_zero, Nat.mod_self, Nat.mod_eq_of_lt (by omega)] at same
    omega
  · rw [Nat.mod_eq_of_lt (by omega), Nat.mod_eq_of_lt (by omega)] at same
    omega

/-- **The cycle.** Once the first process is attached, the connections lead from it
through every process and back. -/
theorem Ring.isCycle {last : ℕ × ℕ} (ring : Ring procs pid₀ pids chids s)
    (attached : s.connections (pids 0, (s.procs 0).state.coid) = some last) :
    Lib.IsCycle s.attachedTo 0 (order procs) := by
  obtain ⟨full, ready, rfl⟩ := ring.attached last attached
  have positive := ring.positive
  have allReady : ∀ k < procs, (s.procs k).Ready := by
    intro k below
    by_cases final : k = procs - 1
    · exact final ▸ ready
    · exact ring.ready_of_lt (by omega)
  have toParent : ∀ k, 0 < k → k < procs → s.attachedTo k = some (k - 1) := by
    intro k child below
    have placed := ring.placed k (by omega)
    refine ring.attachedTo_eq (by omega) (allReady _ (by omega)) ?_
    rw [placed.pid_eq]
    exact placed.connection (allReady k below) child
  have toLast : s.attachedTo 0 = some (procs - 1) := by
    refine ring.attachedTo_eq (by omega) ready ?_
    rw [(ring.placed 0 positive).pid_eq]
    exact attached
  obtain ⟨n, rfl⟩ : ∃ n, procs = n + 1 := ⟨procs - 1, by omega⟩
  have path : Lib.Path s.attachedTo ((n + 1 - 0) % (n + 1)) (order (n + 1))
      ((n + 1 - n) % (n + 1)) := by
    refine Lib.Path.range (fun j => (n + 1 - j) % (n + 1)) fun j below => ?_
    rcases Nat.eq_zero_or_pos j with rfl | positive
    · have next : (n + 1 - (0 + 1)) % (n + 1) = n := Nat.mod_eq_of_lt (by omega)
      simpa [next] using toLast
    · have here : (n + 1 - j) % (n + 1) = n + 1 - j := Nat.mod_eq_of_lt (by omega)
      have next : (n + 1 - (j + 1)) % (n + 1) = n + 1 - j - 1 := by
        rw [Nat.mod_eq_of_lt (by omega)]
        omega
      rw [here, next]
      exact toParent _ (by omega) (by omega)
  have first : (n + 1 - 0) % (n + 1) = 0 := by simp
  rw [first] at path
  refine path.isCycle ?_ order_nodup
  · rcases Nat.eq_zero_or_pos n with rfl | more
    · exact toLast
    · have here : (n + 1 - n) % (n + 1) = 1 := by
        rw [Nat.mod_eq_of_lt (by omega)]
        omega
      rw [here]
      exact toParent 1 (by omega) (by omega)

/-! ### All runs -/

/-- The first process is attached once `run_iterator` has been there. -/
def Attached (past : List Event) (s : System) : Prop :=
  .runIterator ∈ past → s.connections ((s.procs 0).pid, (s.procs 0).state.coid) ≠ none

theorem Attached.step {past : List Event} (attached : Attached past s)
    (ring : Ring procs pid₀ pids chids s) (taken : Step s e t) : Attached (past ++ [e]) t := by
  have positive := ring.positive
  cases taken with
  | @runIterator k coid last live pc original file exists_ unused =>
    obtain rfl : k = 0 := (ring.ppid_eq_zero_iff live (by simp [pc])).mp original
    intro _
    simp [System.set, Process.setCoid]
  | @attach k chid coid live pc _ unused =>
    have unready := Process.not_ready_of_attach pc
    have child : k ≠ 0 := ((ring.placed k live).inherited unready).1.ne'
    intro member
    have before := attached (by simpa using member)
    simp only [System.set, Function.update_of_ne child.symm]
    rw [Function.update_apply]
    split
    · simp
    · exact before
  | @fork k newPid live pc _ _ _ _ =>
    intro member
    have before := attached (by simpa using member)
    rw [System.fork_procs_of_lt positive, Function.update_apply]
    split
    · rename_i same
      rw [same] at before
      exact before
    · exact before
  | @enter k | @leave k | @skip k | @born k | @create k | @publish k =>
    intro member
    have before := attached (by simpa using member)
    simp only [System.set, Function.update_apply]
    split
    · rename_i same
      rw [same] at before
      exact before
    · exact before

theorem attached_of_run {chid₀ : ℕ} {past : List Event} (two : 2 ≤ procs) (nonzero : pid₀ ≠ 0)
    (run : Lib.Run Step (start procs pid₀ chid₀) past s) : Attached past s := by
  refine run.invariant_history (by simp [Attached]) ?_
  intro past s e t before attached taken
  obtain ⟨_, _, ring⟩ := Ring.of_run two nonzero before
  exact attached.step ring taken

theorem bounded_of_run {chid₀ : ℕ} {past : List Event}
    (run : Lib.Run Step (start procs pid₀ chid₀) past s) : Bounded s := by
  have initial : Bounded (start procs pid₀ chid₀) :=
    ⟨Set.finite_singleton _, by simp [start]⟩
  exact run.invariant initial fun _ _ _ bounded taken => bounded.step taken

/-- When all processes have left the loop, there are as many as were asked for. -/
theorem Ring.count_eq (ring : Ring procs pid₀ pids chids s)
    (done : ∀ k < s.count, (s.procs k).pc = .left) : s.count = procs := by
  have positive := ring.positive
  have within := ring.bounded
  have placed := ring.placed (s.count - 1) (by omega)
  have counted := placed.counted
  have youngest := placed.youngest (by omega)
  simp only [Process.Counted, done _ (show s.count - 1 < s.count by omega)] at counted
  omega

/-- Then `run_iterator` finds the file, and the channel it names. -/
theorem Ring.exists_runIterator (ring : Ring procs pid₀ pids chids s) (bounded : Bounded s)
    (done : ∀ k < s.count, (s.procs k).pc = .left) : ∃ t, Step s .runIterator t := by
  have positive := ring.positive
  have full := ring.count_eq done
  have final := done (procs - 1) (by omega)
  have written : s.file ≠ none :=
    ring.published full (by simp [Process.Ready, final]) (by simp [final])
  obtain ⟨last, file⟩ := Option.ne_none_iff_exists'.mp written
  obtain ⟨-, ready, rfl⟩ := ring.file last file
  obtain ⟨coid, unused⟩ := exists_unused bounded.connections (s.procs 0).pid
  have original := (ring.ppid_eq_zero_iff positive (by simp [done 0 positive])).mpr rfl
  have channel := (ring.placed (procs - 1) (by omega)).channel ready
  exact ⟨_, .runIterator positive (done 0 positive) original file channel (by simpa using unused)⟩

/-- **`fork_msgring` builds one ring.** In every run, its steps are bounded and no
process gets stuck in it. When all have left there are `procs` of them, the first is
the only one with `ppid` 0, and `run_iterator` can attach; when it has, the
connections form a single cycle through all of them. -/
theorem forkMsgring_ring {chid₀ : ℕ} {past : List Event} (two : 2 ≤ procs)
    (most : procs ≤ maxProcs) (nonzero : pid₀ ≠ 0)
    (run : Lib.Run Step (start procs pid₀ chid₀) past s) :
    past.countP Event.isLoop ≤ 8 * procs * procs + 6 * procs ∧
    (∀ k < s.count, (s.procs k).pc ≠ .left → ∃ t, Step s (.loop k) t) ∧
    ((∀ k < s.count, (s.procs k).pc = .left) →
      s.count = procs ∧ (s.procs 0).pid = pid₀ ∧
      (∀ k < procs, (s.procs k).state.ppid = 0 ↔ k = 0) ∧ ∃ t, Step s .runIterator t) ∧
    (.runIterator ∈ past →
      s.count = procs ∧ Lib.IsCycle s.attachedTo 0 (order procs) ∧
      ∀ k, k ∈ order procs ↔ k < procs) := by
  obtain ⟨pids, chids, ring⟩ := Ring.of_run two nonzero run
  have bounded := bounded_of_run run
  have firstPid : (s.procs 0).pid = pids 0 := (ring.placed 0 ring.positive).pid_eq
  refine ⟨loop_events_le two nonzero run, ?_, ?_, ?_⟩
  · intro k live inLoop
    exact exists_step most ring bounded live inLoop
  · intro done
    have full := ring.count_eq done
    refine ⟨full, firstPid.trans ring.first, ?_, ring.exists_runIterator bounded done⟩
    intro k below
    have live : k < s.count := full ▸ below
    exact ring.ppid_eq_zero_iff live (by simp [done k live])
  · intro member
    have attached := attached_of_run two nonzero run member
    rw [firstPid] at attached
    obtain ⟨last, connected⟩ := Option.ne_none_iff_exists'.mp attached
    exact ⟨(ring.attached last connected).count_eq, ring.isCycle connected,
      fun k => mem_order_iff (by omega)⟩

/-- Two processes: the one with pid 7 forks the one with pid 8, which attaches to its
channel and publishes its own; then `run_iterator` attaches to that. -/
theorem exists_run_two :
    ∃ past s, Lib.Run Step (start 2 7 1) past s ∧ .runIterator ∈ past := by
  have forked := (Lib.Run.nil.snoc (@Step.enter (start 2 7 1) 0 (by decide) rfl (by decide))).snoc
    (@Step.fork _ 0 8 (by decide) rfl (by decide) rfl (by decide) (by decide))
  have created := (forked.snoc (@Step.born _ 1 (by decide) rfl (by decide))).snoc
    (@Step.create _ 1 1 (by decide) rfl (by simp [System.set, System.fork, start, original]))
  have published := (created.snoc (@Step.attach _ 1 1 3 (by decide) rfl (.inr rfl) rfl)).snoc
    (@Step.publish _ 1 (by decide) rfl)
  have left := (published.snoc (@Step.leave _ 1 (by decide) rfl rfl)).snoc
    (@Step.leave _ 0 (by decide) rfl rfl)
  exact ⟨_, _, left.snoc (@Step.runIterator _ 0 3 (8, 1) (by decide) rfl rfl rfl (.inl rfl) rfl),
    by simp⟩

theorem forkMsgring_ring_two :
    ∃ past s, Lib.Run Step (start 2 7 1) past s ∧ s.count = 2 ∧
      Lib.IsCycle s.attachedTo 0 [0, 1] := by
  obtain ⟨past, s, run, attached⟩ := exists_run_two
  obtain ⟨-, -, -, ring⟩ := forkMsgring_ring le_rfl (by decide) (by decide) run
  obtain ⟨count, cycle, -⟩ := ring attached
  exact ⟨past, s, run, count, cycle⟩

end Lmbench.Msgring
