import Lmbench.Benchmp.Termination
import Mathlib.Logic.Function.Basic

/-!
# How `benchmp` gets rid of its children

`benchmp` has three ways to its end. When a `fork` fails it ends the children that
it has, the last one first; when something fails in `benchmp_parent`, that ends all
children in order; and behind both, and behind a measurement that went well, the
clean up loop waits for every child, with an alarm that ends the child it waits
for. The waits of the first two have no alarm.

The system is the parent, its children with all that can happen to them, and the
alarm. What the parent does with its pipes does not matter here: any system call
of it may fail at any moment, and a child gets any answer from its own calls, except
that it reads a byte from `exit_signal` only when the parent has written them, and
that its parent lives.

## Main definitions

* `Family` - the parent, its children and the alarm
* `ParentMove` - the code of `benchmp` from the first `fork` to the end
* `FamilyStep` - one step of the parent or a child, or the alarm

## Main results

* `returns_of_run` - nothing is left behind, and what the parent may wait for
* `leaves_iff` - the waits that the parent never gets out of
-/

namespace Lmbench.Benchmp.Shutdown

open Lib

/-- What the parent sees of a child that it has forked. -/
inductive Process
  | running (c : Child)
  | zombie
  | reaped
deriving DecidableEq

/-- A process that has exited is kept until its parent waits for it. -/
def process (c : Child) : Process :=
  match c.pc with
  | .exited _ => .zombie
  | _ => .running c

/-- `kill(pid, SIGTERM)`. -/
def Process.kill (p : Params) : Process → Process
  | .running c => ((deliver p c .sigterm).map process).getD (.running c)
  | ended => ended

/-- What SIGALRM is set to: what it was before `benchmp`, `benchmp_sigalrm`, or
ignored. -/
inductive AlarmHandler
  | caller
  | sigalrm
  | ign
deriving DecidableEq, Repr

/-- Where the parent is; `i` is the variable of the loop. -/
inductive Stage (n : ℕ)
  /-- At the top of the loop that forks. -/
  | fork (i : ℕ)
  /-- In `benchmp_parent`, before its exits. -/
  | serve
  /-- At the top of the loop behind `error_exit` in `benchmp_parent`. -/
  | kill (i : ℕ)
  /-- At its `waitpid`. -/
  | reap (i : Fin n)
  /-- At `while (--i >= 0)` behind `error_exit` in `benchmp`. -/
  | killBack (i : ℕ)
  | reapBack (i : Fin n)
  /-- At `while (i-- > 0)` behind `cleanup_exit` in `benchmp`. -/
  | guard (i : ℕ)
  /-- At its `waitpid`. -/
  | wait (i : Fin n)
  /-- At `alarm(0)`. -/
  | disarm (i : Fin n)
  | returned
deriving DecidableEq

/-- The parent, its children (`none` until they are forked) and the alarm:
`benchmp_sigalrm_handler`, `benchmp_sigalrm_pid` and `benchmp_sigalrm_timeout` are
`saved`, `target` and `timeout`. -/
structure Family (p : Params) where
  stage : Stage p.parallel
  child : Fin p.parallel → Option Process
  exitSent : Bool
  sigalrm : AlarmHandler
  saved : AlarmHandler
  alarm : Option ℕ
  target : Option (Fin p.parallel)
  timeout : ℤ

/-- `(int)((2 * enough)/1000000) + 2`, and at least 5. -/
def firstTimeout (enough : ℤ) : ℤ :=
  let timeout := (2 * enough).tdiv 1000000 + 2
  if timeout < 5 then 5 else timeout

namespace Family

variable {p : Params} (s : Family p)

/-- Before the first `fork`; the timeout is that of an earlier call. -/
def initial (p : Params) (timeout : ℤ) : Family p where
  stage := .fork 0
  child := fun _ => none
  exitSent := false
  sigalrm := .caller
  saved := .caller
  alarm := none
  target := none
  timeout := timeout

/-- SIGTERM for a child. -/
def kill (i : Fin p.parallel) : Family p :=
  { s with child := Function.update s.child i ((s.child i).map (Process.kill p)) }

/-- The child is waited for; for one that is gone `waitpid` fails at once. -/
def reap (i : Fin p.parallel) : Family p :=
  { s with child := Function.update s.child i (some .reaped) }

/-- The statements behind `cleanup_exit`. -/
def enterCleanup (i : ℕ) : Family p :=
  { s with stage := .guard i, timeout := firstTimeout p.enough }

/-- The statements before the `waitpid` of the clean up loop. -/
def watch (i : Fin p.parallel) : Family p :=
  { s with
    stage := .wait i
    target := some i
    saved := s.sigalrm
    sigalrm := .sigalrm
    -- an alarm of zero seconds would be none
    alarm := if s.timeout.toNat = 0 then none else some s.timeout.toNat }

/-- `benchmp_sigalrm`. -/
def ring : Family p :=
  match s.sigalrm, s.target with
  | .sigalrm, some i => { s.kill i with sigalrm := .ign, timeout := 1, alarm := none }
  | _, _ => { s with alarm := none }

end Family

/-- `waitpid` does not return while the child runs. -/
def Ended (x : Option Process) : Prop := x = some .zombie ∨ x = some .reaped

/-- The code of `benchmp` from its first `fork` to its end, with `benchmp_parent`. -/
inductive ParentMove {p : Params} (s : Family p) : Family p → Prop
  | fork {i : ℕ} (here : s.stage = .fork i) (more : i < p.parallel) :
      ParentMove s { s with
        stage := .fork (i + 1)
        child := Function.update s.child ⟨i, more⟩ (some (.running (initial p))) }
  /-- A SIGTERM was received, or the `fork` failed. -/
  | forkFails {i : ℕ} (here : s.stage = .fork i) (more : i < p.parallel) :
      ParentMove s { s with stage := .killBack i }
  | forked {i : ℕ} (here : s.stage = .fork i) (all : p.parallel ≤ i) :
      ParentMove s { s with stage := .serve }
  /-- All results are there: the exit bytes are written. -/
  | served (here : s.stage = .serve) :
      ParentMove s ({ s with exitSent := true }.enterCleanup p.parallel)
  /-- An allocation failed, which `benchmp_parent` answers by a mere `return`. -/
  | noMemory (here : s.stage = .serve) : ParentMove s (s.enterCleanup p.parallel)
  | fails (here : s.stage = .serve) : ParentMove s { s with stage := .kill 0 }
  | kill {i : ℕ} (here : s.stage = .kill i) (more : i < p.parallel) :
      ParentMove s { s.kill ⟨i, more⟩ with stage := .reap ⟨i, more⟩ }
  | reap {i : Fin p.parallel} (here : s.stage = .reap i) (ended : Ended (s.child i)) :
      ParentMove s { s.reap i with stage := .kill (i + 1) }
  | killed {i : ℕ} (here : s.stage = .kill i) (all : p.parallel ≤ i) :
      ParentMove s (s.enterCleanup p.parallel)
  | killBack {i : ℕ} (here : s.stage = .killBack (i + 1)) (more : i < p.parallel) :
      ParentMove s { s.kill ⟨i, more⟩ with stage := .reapBack ⟨i, more⟩ }
  | reapBack {i : Fin p.parallel} (here : s.stage = .reapBack i) (ended : Ended (s.child i)) :
      ParentMove s { s.reap i with stage := .killBack i }
  /-- `i` is `-1` now, and the clean up loop has nothing to do. -/
  | killedBack (here : s.stage = .killBack 0) : ParentMove s (s.enterCleanup 0)
  | watch {i : ℕ} (here : s.stage = .guard (i + 1)) (more : i < p.parallel) :
      ParentMove s (s.watch ⟨i, more⟩)
  | waited {i : Fin p.parallel} (here : s.stage = .wait i) (ended : Ended (s.child i)) :
      ParentMove s { s.reap i with stage := .disarm i }
  | disarm {i : Fin p.parallel} (here : s.stage = .disarm i) :
      ParentMove s { s with stage := .guard i, alarm := none, sigalrm := s.saved }
  | return (here : s.stage = .guard 0) : ParentMove s { s with stage := .returned }

/-- What a child gets from the system: a byte of `exit_signal` when there are some,
and a parent that lives. -/
def Family.Gives {p : Params} (s : Family p) : Event → Prop
  | .readExit => s.exitSent = true
  | .getppid orphaned => orphaned = false
  | _ => True

/-- Who makes a step. -/
inductive Label (n : ℕ)
  | parent
  | child (i : Fin n) (e : Event)
  | alarm
deriving DecidableEq

/-- One step of the system. -/
inductive FamilyStep (p : Params) : Family p → Label p.parallel → Family p → Prop
  | parent {s t : Family p} (move : ParentMove s t) : FamilyStep p s .parent t
  | child {s : Family p} {i : Fin p.parallel} {c c' : Child} {e : Event}
      (here : s.child i = some (.running c)) (step : Step p c e c') (gives : s.Gives e) :
      FamilyStep p s (.child i e)
        { s with child := Function.update s.child i (some (process c')) }
  | alarm {s : Family p} {seconds : ℕ} (pending : s.alarm = some seconds) :
      FamilyStep p s .alarm s.ring

section Family

variable {p : Params} {s t : Family p} {i j : Fin p.parallel} {c c' : Child} {e : Event}
  {label : Label p.parallel}

/-! ### The children -/

/-- Nothing is left of the child, or it was never forked. -/
def Family.Gone (s : Family p) (i : Fin p.parallel) : Prop :=
  s.child i = none ∨ s.child i = some .reaped

/-- The number of children that the parent has not dealt with. -/
def Stage.todo {n : ℕ} : Stage n → ℕ
  | .fork i | .killBack i | .guard i => i
  | .serve | .kill _ | .reap _ => n
  | .reapBack i | .wait i => i + 1
  | .disarm i => i
  | .returned => 0

/-- The first `k` children are forked, and the others are gone. -/
def Family.Settled (s : Family p) (k : ℕ) : Prop :=
  k ≤ p.parallel ∧ ∀ i : Fin p.parallel, (k ≤ i → s.Gone i) ∧ (i < k → s.child i ≠ none)

/-- A step on one child leaves a forked child forked and a child that is gone gone. -/
structure Keeps (s t : Family p) : Prop where
  forked : ∀ i, s.child i ≠ none → t.child i ≠ none
  gone : ∀ i, s.Gone i → t.Gone i

theorem Keeps.settled {k : ℕ} (keeps : Keeps s t) (settled : s.Settled k) : t.Settled k :=
  ⟨settled.1, fun i => ⟨fun done => keeps.gone i ((settled.2 i).1 done),
    fun pending => keeps.forked i ((settled.2 i).2 pending)⟩⟩

theorem ring_stage (s : Family p) : s.ring.stage = s.stage := by
  unfold Family.ring
  split <;> rfl

/-- SIGALRM is what it was before, and nothing will raise it. -/
def Family.Calm (s : Family p) : Prop := s.alarm = none ∧ s.sigalrm = .caller

/-- What is set up for SIGALRM while the parent waits for a child: the alarm is
still to come, or it has come and the child was sent SIGTERM. -/
def Family.Watches (s : Family p) (i : Fin p.parallel) : Prop :=
  s.saved = .caller ∧ s.target = some i ∧
    ((s.sigalrm = .sigalrm ∧ s.alarm ≠ none) ∨ (s.sigalrm = .ign ∧ s.alarm = none))

/-- The settings of SIGALRM at each stage. -/
def Family.AlarmSound (s : Family p) : Prop :=
  match s.stage with
  | .guard _ => s.Calm ∧ 0 < s.timeout
  | .wait i => s.Watches i ∧ 0 < s.timeout
  | .disarm _ => s.saved = .caller ∧ s.sigalrm ≠ .caller ∧ 0 < s.timeout
  | _ => s.Calm

theorem firstTimeout_pos (enough : ℤ) : 0 < firstTimeout enough := by
  unfold firstTimeout
  dsimp only
  split <;> omega

theorem alarmSound_move (sound : s.AlarmSound) (move : ParentMove s t) : t.AlarmSound := by
  unfold Family.AlarmSound at sound
  cases move with
  | watch here more =>
    rw [here] at sound
    obtain ⟨⟨_, handler⟩, positive⟩ := sound
    have seconds : s.timeout.toNat ≠ 0 := by omega
    exact ⟨⟨handler, rfl, .inl ⟨rfl, by simp [Family.watch, seconds]⟩⟩, positive⟩
  | waited here ended =>
    rw [here] at sound
    obtain ⟨⟨saved, _, alarm⟩, positive⟩ := sound
    refine ⟨saved, fun caller => ?_, positive⟩
    change s.sigalrm = .caller at caller
    simp [caller] at alarm
  | disarm here =>
    rw [here] at sound
    exact ⟨⟨rfl, sound.1⟩, sound.2.2⟩
  | served here | noMemory here | killed here | killedBack here =>
    rw [here] at sound
    exact ⟨sound, firstTimeout_pos _⟩
  | «return» here =>
    rw [here] at sound
    exact sound.1
  | fork here | forkFails here | forked here | fails here | kill here | reap here
  | killBack here | reapBack here =>
    rw [here] at sound
    exact sound

/-- Only `benchmp_sigalrm` or an ignored SIGALRM meets the alarm. -/
theorem not_caller_of_pending {seconds : ℕ} (sound : s.AlarmSound)
    (pending : s.alarm = some seconds) :
    (∃ i, s.stage = .wait i ∧ s.target = some i ∧ s.sigalrm = .sigalrm) ∨
      ∃ i, s.stage = .disarm i ∧ s.sigalrm ≠ .caller := by
  unfold Family.AlarmSound at sound
  split at sound
  case h_2 i here =>
    obtain ⟨⟨_, target, alarm⟩, _⟩ := sound
    rcases alarm with ⟨handler, _⟩ | ⟨_, silent⟩
    · exact .inl ⟨i, here, target, handler⟩
    · simp [silent] at pending
  case h_3 i here => exact .inr ⟨i, here, sound.2.1⟩
  case h_1 => simp [sound.1.1] at pending
  case h_4 => simp [sound.1] at pending

theorem alarmSound_ring {seconds : ℕ} (sound : s.AlarmSound) (pending : s.alarm = some seconds) :
    s.ring.AlarmSound := by
  rcases not_caller_of_pending sound pending with ⟨i, here, target, handler⟩ | ⟨i, here, own⟩
  · simp only [Family.AlarmSound, here] at sound
    have rung : s.ring = { s.kill i with sigalrm := .ign, timeout := 1, alarm := none } := by
      simp only [Family.ring, handler, target]
    rw [rung]
    simp only [Family.AlarmSound, Family.kill, here]
    exact ⟨⟨sound.1.1, target, .inr ⟨rfl, rfl⟩⟩, by decide⟩
  · simp only [Family.AlarmSound, here] at sound
    simp only [Family.AlarmSound, ring_stage, here]
    obtain ⟨saved, _, positive⟩ := sound
    unfold Family.ring
    split
    · exact ⟨saved, nofun, Int.one_pos⟩
    · exact ⟨saved, own, positive⟩

theorem alarmSound_of_run {past : List (Label p.parallel)} {timeout : ℤ}
    (run : Run (FamilyStep p) (Family.initial p timeout) past s) : s.AlarmSound := by
  apply run.invariant
  · exact ⟨rfl, rfl⟩
  · intro s label t sound step
    cases step with
    | parent move => exact alarmSound_move sound move
    | child => exact sound
    | alarm pending => exact alarmSound_ring sound pending

/-! ### What becomes of the children -/

/-- All running children are as `good` says. -/
def Family.Running (good : Child → Prop) (s : Family p) : Prop :=
  ∀ i c, s.child i = some (.running c) → good c

theorem process_eq_running :
    process c = .running c' ↔ c = c' ∧ Alive c := by
  unfold process Alive
  split <;> simp_all

theorem deliver_ne_none (alive : Alive c) (signo : Signal) :
    deliver p c signo ≠ none := by
  unfold deliver
  split
  · rename_i code here
    exact absurd here (alive code)
  all_goals exact nofun

/-- A child that runs behind a SIGTERM has received it. -/
theorem running_kill (running : (s.kill i).child j = some (.running c')) :
    (j ≠ i ∧ s.child j = some (.running c')) ∨
      (j = i ∧ ∃ c, s.child i = some (.running c) ∧
        (deliver p c .sigterm = some c' ∧ Alive c' ∨ deliver p c .sigterm = none ∧ c = c')) := by
  rcases eq_or_ne j i with rfl | other
  · refine .inr ⟨rfl, ?_⟩
    simp only [Family.kill, Function.update_self, Option.map_eq_some_iff] at running
    obtain ⟨x, here, killed⟩ := running
    cases x with
    | running c =>
      refine ⟨c, here, ?_⟩
      cases received : deliver p c .sigterm with
      | none => exact .inr ⟨rfl, by simpa [Process.kill, received] using killed⟩
      | some d =>
        have processed : process d = .running c' := by
          simpa [Process.kill, received] using killed
        obtain ⟨rfl, alive⟩ := process_eq_running.mp processed
        exact .inl ⟨rfl, alive⟩
    | zombie | reaped => cases killed
  · exact .inl ⟨other, by simpa [Family.kill, other] using running⟩

/-- A running child was running before, or it is new. -/
theorem running_origin (step : FamilyStep p s label t) (running : t.child j = some (.running c')) :
    s.child j = some (.running c') ∨ c' = Benchmp.initial p ∨
      ∃ c e, s.child j = some (.running c) ∧ Step p c e c' ∧ s.Gives e ∧
        Alive c' ∧ (label = .child j e ∨ e = .signal .sigterm) := by
  -- SIGTERM comes from the two loops that kill and from the alarm
  have killed : ∀ i, (s.kill i).child j = some (.running c') →
      s.child j = some (.running c') ∨ c' = Benchmp.initial p ∨
        ∃ c e, s.child j = some (.running c) ∧ Step p c e c' ∧ s.Gives e ∧
          Alive c' ∧ (label = .child j e ∨ e = .signal .sigterm) := by
    intro i after
    rcases running_kill after with ⟨_, before⟩ | ⟨rfl, c, before, ⟨received, alive⟩ | ⟨_, rfl⟩⟩
    · exact .inl before
    · exact .inr (.inr ⟨c, _, before, .signal .sigterm received, trivial, alive, .inr rfl⟩)
    · exact .inl before
  have reaped : ∀ i, (s.reap i).child j = some (.running c') →
      s.child j = some (.running c') := by
    intro i after
    rcases eq_or_ne j i with rfl | other
    · simp [Family.reap] at after
    · simpa [Family.reap, other] using after
  cases step with
  | parent move =>
    cases move with
    | @fork k here more =>
      rcases eq_or_ne j ⟨k, more⟩ with rfl | other
      · refine .inr (.inl ?_)
        simpa using running.symm
      · exact .inl (by simpa [other] using running)
    | kill | killBack => exact killed _ running
    | reap | reapBack | waited => exact .inl (reaped _ running)
    | _ => exact .inl running
  | @child i c d e here taken gives =>
    rcases eq_or_ne j i with rfl | other
    · have processed : process d = .running c' := by simpa using running
      obtain ⟨rfl, alive⟩ := process_eq_running.mp processed
      exact .inr (.inr ⟨c, e, here, taken, gives, alive, .inl rfl⟩)
    · exact .inl (by simpa [other] using running)
  | alarm =>
    unfold Family.ring at running
    split at running
    · exact killed _ running
    · exact .inl running

/-- What holds of a new child and is kept by its steps holds of all running ones;
the steps end in a child that has not exited. -/
theorem running_step {good : Child → Prop} (start : good (Benchmp.initial p))
    (kept : ∀ c e c', good c → Step p c e c' → s.Gives e → Alive c' → good c')
    (running : s.Running good) (step : FamilyStep p s label t) : t.Running good := by
  intro j c' here
  rcases running_origin step here with before | rfl | ⟨c, e, before, taken, gives, alive, _⟩
  · exact running j c' before
  · exact start
  · exact kept c e c' (running j c before) taken gives alive

theorem alive_of_run {past : List (Label p.parallel)} {timeout : ℤ}
    (run : Run (FamilyStep p) (Family.initial p timeout) past s) : s.Running Alive := by
  apply run.invariant
  · exact fun _ _ => nofun
  · exact fun _ _ _ running => running_step (fun _ => nofun) (fun _ _ _ _ _ _ => id) running

/-- The stages in which the child that the parent waits for has been sent SIGTERM. -/
def Family.Terminates (s : Family p) (i : Fin p.parallel) : Prop :=
  s.stage = .reap i ∨ s.stage = .reapBack i ∨ (s.stage = .wait i ∧ s.sigalrm = .ign)

/-- With the handlers of the children, the child that was sent SIGTERM will end. -/
structure Family.Dooms (s : Family p) : Prop where
  guarded : s.Running (Guarded p)
  doomed : ∀ i c, s.Terminates i → s.child i = some (.running c) → Doomed p c

theorem guarded_of_step (guards : p.Guards) (guarded : Guarded p c) (step : Step p c e c') :
    Guarded p c' := by
  cases step with
  | own quiet => exact guarded_of_move guards guarded quiet.move
  | signal signo delivered => exact guarded_of_deliver guarded delivered

/-- A child that has just been sent SIGTERM. -/
theorem doomed_kill (alive : s.Running Alive) (guarded : s.Running (Guarded p))
    (running : (s.kill i).child i = some (.running c')) : Doomed p c' := by
  rcases running_kill running with ⟨other, _⟩ | ⟨_, c, before, ⟨received, _⟩ | ⟨lost, _⟩⟩
  · exact absurd rfl other
  · exact doomed_of_sigterm (guarded i c before) received
  · exact absurd lost (deliver_ne_none (alive i c before) _)

theorem dooms_step (guards : p.Guards) (alive : s.Running Alive) (sound : s.AlarmSound)
    (dooms : s.Dooms) (step : FamilyStep p s label t) : t.Dooms := by
  have guarded : t.Running (Guarded p) :=
    running_step (.unarmed ⟨rfl, .inl rfl⟩)
      (fun _ _ _ guarded taken _ _ => guarded_of_step guards guarded taken) dooms.guarded step
  refine ⟨guarded, fun j c' terminates here => ?_⟩
  -- the parent and the alarm enter such a stage only by a SIGTERM
  cases step with
  | parent move =>
    cases move with
    | kill | killBack =>
      obtain rfl : _ = j := by simpa [Family.Terminates] using terminates
      exact doomed_kill alive dooms.guarded here
    | _ => simp [Family.Terminates, Family.enterCleanup, Family.watch] at terminates
  | @child i c d e before taken gives =>
    rcases eq_or_ne j i with rfl | other
    · have processed : process d = .running c' := by simpa using here
      obtain ⟨rfl, _⟩ := process_eq_running.mp processed
      exact (spends_of_step (dooms.doomed j c terminates before) taken).doomed
    · exact dooms.doomed j c' terminates (by simpa [other] using here)
  | alarm pending =>
    rw [Family.Terminates, ring_stage] at terminates
    rcases not_caller_of_pending sound pending with ⟨i, stage, target, handler⟩ | ⟨i, stage, _⟩
    · obtain rfl : i = j := by simpa [stage] using terminates.imp id (Or.imp id And.left)
      refine doomed_kill alive dooms.guarded (i := i) ?_
      simpa [Family.ring, handler, target] using here
    · simp [stage] at terminates

theorem dooms_of_run (guards : p.Guards) {past : List (Label p.parallel)} {timeout : ℤ}
    (run : Run (FamilyStep p) (Family.initial p timeout) past s) : s.Dooms := by
  apply run.invariant_history
  · exact ⟨fun _ _ => nofun, fun _ _ _ => nofun⟩
  · exact fun _ _ _ _ before dooms =>
      dooms_step guards (alive_of_run before) (alarmSound_of_run before) dooms

/-! ### The end of `benchmp` -/

/-- The code behind this point leads to no exit, unless the child reads its exit
byte or finds its parent gone. -/
def Looping : Pc → Prop
  | .enter | .arm | .orphaned | .handler _ | .exiting _ | .exited _ => False
  | _ => True

/-- The child is in its loop, and SIGTERM means nothing to it. -/
structure Trapped (c : Child) : Prop where
  deaf : Deaf c
  inside : Looping c.pc

/-- Where a child stands that installs a foreign handler, before it is told to exit. -/
inductive Placed (p : Params) (c : Child) : Prop
  | unarmed : Unarmed c → Placed p c
  | trapped : Trapped c → Placed p c
  | leaving : Deaf c → Leaving p c → Placed p c

theorem Trapped.alive (trapped : Trapped c) : Alive c := by
  intro n here
  have inside := trapped.inside
  rwa [here] at inside

theorem placed_of_doomed (doomed : Doomed p c) : Placed p c := by
  cases doomed with
  | unarmed unarmed _ => exact .unarmed unarmed
  | leaving deaf leaving => exact .leaving deaf leaving

theorem trapped_of_move (trapped : Trapped c) (move : Move p c e c') (unread : e ≠ .readExit)
    (parented : e ≠ .getppid true) : Trapped c' := by
  obtain ⟨deaf, inside⟩ := trapped
  cases move with
  | enter here | arm here | armReceived here | orphaned here | handler here | exit here =>
    rw [here] at inside
    exact inside.elim
  | takeExit => exact absurd rfl unread
  | parentDied => exact absurd rfl parented
  | keepTiming | coolDown => exact ⟨by simpa [Deaf] using deaf, trivial⟩
  | _ => exact ⟨deaf, trivial⟩

theorem trapped_of_sigterm (trapped : Trapped c) (delivered : deliver p c .sigterm = some c') :
    Trapped c' := by
  cases arrival_of_deliver delivered with
  | killed setting => exact absurd setting trapped.deaf.1
  | caught setting => exact absurd setting trapped.deaf.2
  | flagged => exact ⟨trapped.deaf, trapped.inside⟩
  | ignored => exact trapped

/-- A child of the trapped one may die, and its handler for SIGCHLD exits. -/
theorem trapped_or_doomed_of_sigchld (trapped : Trapped c)
    (delivered : deliver p c .sigchld = some c') : Trapped c' ∨ Doomed p c' := by
  cases arrival_of_deliver delivered with
  | childDied => exact .inr (.leaving (deaf_enterSigchld trapped.deaf) (leaving_enterSigchld c))
  | reset => exact .inl ⟨trapped.deaf, trapped.inside⟩
  | ignored => exact .inl trapped

/-- What such a child does with a SIGTERM. -/
theorem doomed_or_trapped_of_sigterm (placed : Placed p c)
    (delivered : deliver p c .sigterm = some c') : Doomed p c' ∨ Trapped c' := by
  cases placed with
  | unarmed unarmed => exact .inl (doomed_of_sigterm (.unarmed unarmed) delivered)
  | leaving deaf leaving => exact .inl (doomed_of_sigterm (.leaving deaf leaving) delivered)
  | trapped trapped => exact .inr (trapped_of_sigterm trapped delivered)

theorem placed_step (foreign : ¬p.Guards) (placed : Placed p c) (step : Step p c e c')
    (unread : e ≠ .readExit) (parented : e ≠ .getppid true) : Placed p c' := by
  simp only [Params.Guards, not_or] at foreign
  cases placed with
  | leaving deaf leaving =>
    exact placed_of_doomed (spends_of_step (.leaving deaf leaving) step).doomed
  | trapped trapped =>
    cases step with
    | own quiet => exact .trapped (trapped_of_move trapped quiet.move unread parented)
    | signal signo delivered =>
      cases signo with
      | sigterm => exact .trapped (trapped_of_sigterm trapped delivered)
      | sigchld =>
        rcases trapped_or_doomed_of_sigchld trapped delivered with trapped | doomed
        · exact .trapped trapped
        · exact placed_of_doomed doomed
  | unarmed unarmed =>
    cases step with
    | own quiet =>
      rcases unarmed with ⟨inherited, way⟩
      cases quiet.move with
      | enter here => exact .unarmed ⟨inherited, .inr rfl⟩
      | arm here _ =>
        refine .trapped ⟨?_, trivial⟩
        simp [Deaf, Child.armSigterm, foreign]
      | armReceived here _ => exact .leaving (deaf_enterSigterm _) (leaving_enterSigterm _)
      | _ => simp_all
    | signal signo delivered =>
      cases arrival_of_deliver delivered with
      | killed setting => exact absurd setting unarmed.deaf.1
      | caught setting => exact absurd setting unarmed.deaf.2
      | flagged | reset => exact .unarmed unarmed
      | ignored => exact .unarmed unarmed
      | childDied => exact .leaving (deaf_enterSigchld unarmed.deaf) (leaving_enterSigchld c)

/-- Until the measurement has come to its end no exit byte is written. -/
def Family.Early (s : Family p) : Prop :=
  match s.stage with
  | .guard _ | .wait _ | .disarm _ | .returned => True
  | _ => s.exitSent = false

theorem early_of_run {past : List (Label p.parallel)} {timeout : ℤ}
    (run : Run (FamilyStep p) (Family.initial p timeout) past s) : s.Early := by
  apply run.invariant
  · rfl
  · intro s label t early step
    unfold Family.Early at early
    cases step with
    | parent move =>
      cases move with
      | served | noMemory | killed | killedBack | watch | waited | disarm | «return» => trivial
      | fork here | forkFails here | forked here | fails here | kill here | reap here
      | killBack here | reapBack here =>
        rw [here] at early
        exact early
    | child => exact early
    | alarm =>
      unfold Family.ring
      split <;> exact early

/-- The parent waits, without an alarm, for a child that it has sent SIGTERM. -/
def Family.ErrorExit (s : Family p) (i : Fin p.parallel) : Prop :=
  s.stage = .reap i ∨ s.stage = .reapBack i

theorem Family.ErrorExit.unsent (error : s.ErrorExit i) (early : s.Early) :
    s.exitSent = false := by
  unfold Family.Early at early
  rcases error with here | here <;> rwa [here] at early

theorem Family.ErrorExit.calm (error : s.ErrorExit i) (sound : s.AlarmSound) : s.alarm = none := by
  unfold Family.AlarmSound at sound
  rcases error with here | here <;> (rw [here] at sound; exact sound.1)

/-- With foreign handlers: where the children are, and what the SIGTERM has done to
the child that is waited for. -/
structure Family.Sorts (s : Family p) : Prop where
  placed : s.exitSent = false → s.Running (Placed p)
  sorted : ∀ i c, s.ErrorExit i → s.child i = some (.running c) → Doomed p c ∨ Trapped c

/-- Once they are written, the exit bytes stay. -/
theorem exitSent_step (step : FamilyStep p s label t) (unsent : t.exitSent = false) :
    s.exitSent = false := by
  cases step with
  | parent move =>
    cases move with
    | served => cases unsent
    | _ => exact unsent
  | child => exact unsent
  | alarm =>
    unfold Family.ring at unsent
    split at unsent <;> exact unsent

theorem not_readExit (gives : s.Gives e) (unsent : s.exitSent = false) : e ≠ .readExit := by
  rintro rfl
  exact Bool.noConfusion (unsent.symm.trans gives)

theorem not_orphaned (gives : s.Gives e) : e ≠ .getppid true := by
  rintro rfl
  cases gives

/-- A trapped child stays so, or loses a child of its own. -/
theorem trapped_step (trapped : Trapped c) (step : Step p c e c') (gives : s.Gives e)
    (unsent : s.exitSent = false) : Trapped c' ∨ (e = .signal .sigchld ∧ Doomed p c') := by
  cases step with
  | own quiet =>
    exact .inl (trapped_of_move trapped quiet.move (not_readExit gives unsent)
      (not_orphaned gives))
  | signal signo delivered =>
    cases signo with
    | sigterm => exact .inl (trapped_of_sigterm trapped delivered)
    | sigchld => exact (trapped_or_doomed_of_sigchld trapped delivered).imp id (⟨rfl, ·⟩)

theorem sorts_step (foreign : ¬p.Guards) (alive : s.Running Alive) (early : s.Early)
    (sound : s.AlarmSound) (sorts : s.Sorts) (step : FamilyStep p s label t) : t.Sorts := by
  refine ⟨fun unsent => ?_, fun j c' error here => ?_⟩
  · have before := exitSent_step step unsent
    refine running_step (.unarmed ⟨rfl, .inl rfl⟩) ?_ (sorts.placed before) step
    intro c e c' placed taken gives _
    exact placed_step foreign placed taken (not_readExit gives before) (not_orphaned gives)
  · -- SIGTERM for a child in the loops that kill
    have killed : ∀ i, s.exitSent = false → (s.kill i).child i = some (.running c') →
        Doomed p c' ∨ Trapped c' := by
      intro i unsent after
      rcases running_kill after with ⟨other, _⟩ | ⟨_, c, before, ⟨received, _⟩ | ⟨lost, _⟩⟩
      · exact absurd rfl other
      · exact doomed_or_trapped_of_sigterm (sorts.placed unsent i c before) received
      · exact absurd lost (deliver_ne_none (alive i c before) _)
    cases step with
    | parent move =>
      cases move with
      | kill stage | killBack stage =>
        obtain rfl : _ = j := by simpa [Family.ErrorExit] using error
        exact killed _ (by simpa [Family.Early, stage] using early) here
      | _ => simp [Family.ErrorExit, Family.enterCleanup, Family.watch] at error
    | @child i c d e before taken gives =>
      rcases eq_or_ne j i with rfl | other
      · have processed : process d = .running c' := by simpa using here
        obtain ⟨rfl, _⟩ := process_eq_running.mp processed
        have unsent : s.exitSent = false := Family.ErrorExit.unsent (i := j) error early
        rcases sorts.sorted j c error before with doomed | trapped
        · exact .inl (spends_of_step doomed taken).doomed
        · exact (trapped_step trapped taken gives unsent).symm.imp And.right id
      · exact sorts.sorted j c' error (by simpa [other] using here)
    | alarm pending =>
      rw [Family.ErrorExit, ring_stage] at error
      rw [Family.ErrorExit.calm error sound] at pending
      cases pending

theorem sorts_of_run (foreign : ¬p.Guards) {past : List (Label p.parallel)} {timeout : ℤ}
    (run : Run (FamilyStep p) (Family.initial p timeout) past s) : s.Sorts := by
  apply run.invariant_history
  · exact ⟨fun _ _ _ => nofun, fun _ _ _ => nofun⟩
  · exact fun _ _ _ _ before sorts => sorts_step foreign (alive_of_run before)
      (early_of_run before) (alarmSound_of_run before) sorts

/-- The system lets a child make the steps that it makes alone. -/
theorem Family.gives_of_isAlone (s : Family p) (alone : e.isAlone = true) : s.Gives e := by
  cases e with
  | tau | call | exit => trivial
  | _ => cases alone

/-- A doomed child gets to its exit by its own steps alone. -/
theorem exists_exit (doomed : Doomed p c) (alive : Alive c)
    (here : s.child i = some (.running c)) :
    ∃ later t, Run (FamilyStep p) s later t ∧ (∀ signo, .child i (.signal signo) ∉ later) ∧
      t.stage = s.stage ∧ t.child i = some .zombie := by
  induction left : c.left using Nat.strong_induction_on generalizing s c with
  | _ k ih =>
    obtain ⟨e, d, quiet, alone⟩ := exists_step_of_doomed doomed alive
    have gives := s.gives_of_isAlone alone
    have spends := spends_of_move doomed quiet.move
    have own := isOwn_of_move quiet.move
    have first := Run.nil.snoc (FamilyStep.child here (.own quiet) gives)
    have silent : ∀ signo, .child i (.signal signo) ∉ [] ++ [Label.child i e] := by
      intro signo found
      obtain rfl : Event.signal signo = e := by simpa using found
      cases own
    by_cases exited : Alive d
    · have after : process d = .running d := process_eq_running.mpr ⟨rfl, exited⟩
      have lower : d.left < k := by
        have spent := spends.left
        rw [own, if_pos rfl] at spent
        omega
      obtain ⟨later, t, rest, quiet', stage, zombie⟩ := ih d.left lower
        (s := { s with child := Function.update s.child i (some (process d)) }) spends.doomed
        exited (by simp [after]) rfl
      refine ⟨_, t, first.trans rest, fun signo found => ?_, stage, zombie⟩
      rcases List.mem_append.mp found with found | found
      · exact silent signo found
      · exact quiet' signo found
    · refine ⟨_, _, first, silent, rfl, ?_⟩
      obtain ⟨n, gone⟩ : ∃ n, d.pc = .exited n := by simpa [Alive] using exited
      simp [process, gone]

/-- `waitpid` does not return while the child runs. -/
theorem blocked_of_running (error : s.ErrorExit i) (here : s.child i = some (.running c)) :
    ¬ParentMove s t := by
  intro move
  cases move with
  | @reap j there ended | @reapBack j there ended =>
    obtain rfl : j = i := by
      rcases error with stage | stage <;> simp_all
    simp [Ended, here] at ended
  | _ there => rcases error with stage | stage <;> (rw [stage] at there; cases there)

/-- While its child is trapped, the parent stays where it is. -/
theorem stays_of_trapped (error : s.ErrorExit i) (unsent : s.exitSent = false)
    (silent : s.alarm = none) (here : s.child i = some (.running c)) (trapped : Trapped c)
    {later : List (Label p.parallel)} (run : Run (FamilyStep p) s later t)
    (intact : .child i (.signal .sigchld) ∉ later) : t.stage = s.stage := by
  have kept : .child i (.signal .sigchld) ∉ later → t.stage = s.stage ∧ t.exitSent = false ∧
      t.alarm = none ∧ ∃ d, t.child i = some (.running d) ∧ Trapped d := by
    apply run.invariant_history
    · exact fun _ => ⟨rfl, unsent, silent, c, here, trapped⟩
    · intro past u label v _ before step intact
      rw [List.mem_append, not_or] at intact
      obtain ⟨stage, unsent, silent, d, running, trapped⟩ := before intact.1
      have error : u.ErrorExit i := by rwa [Family.ErrorExit, stage]
      cases step with
      | parent move => exact absurd move (blocked_of_running error running)
      | @child j d' e' e there taken gives =>
        refine ⟨stage, unsent, silent, ?_⟩
        rcases eq_or_ne i j with rfl | other
        · obtain rfl : d = d' := by simpa [running] using there
          rcases trapped_step trapped taken gives unsent with trapped | ⟨rfl, _⟩
          · refine ⟨e', ?_, trapped⟩
            simpa using process_eq_running.mpr ⟨rfl, trapped.alive⟩
          · exact absurd (List.mem_singleton.mpr rfl) intact.2
        · exact ⟨d, by simpa [other] using running, trapped⟩
      | alarm pending =>
        rw [silent] at pending
        cases pending
  exact (kept intact).1

/-- Trapped and doomed exclude each other. -/
theorem not_doomed_of_trapped (trapped : Trapped c) : ¬Doomed p c := by
  intro doomed
  have inside := trapped.inside
  cases doomed with
  | unarmed unarmed _ => rcases unarmed.2 with here | here <;> rwa [here] at inside
  | leaving _ leaving =>
    rcases leaving.way with ⟨n, here⟩ | ⟨n, here⟩ | ⟨n, here⟩ <;> rwa [here] at inside

/-- **The waits of the error exits.** When the parent waits behind an `error_exit`,
with no alarm set, for a child that runs, there is a way out of the wait in which
the child loses no child of its own if and only if it is doomed: it is exiting, or
the SIGTERM came before it had installed its handler. With any other child, which
its foreign handler has kept alive, the parent waits for ever. -/
theorem leaves_iff (timeout : ℤ) (past : List (Label p.parallel))
    (run : Run (FamilyStep p) (Family.initial p timeout) past s) (error : s.ErrorExit i)
    (here : s.child i = some (.running c)) :
    (∃ later t, Run (FamilyStep p) s later t ∧ .child i (.signal .sigchld) ∉ later ∧
        t.stage ≠ s.stage) ↔ Doomed p c := by
  constructor
  · rintro ⟨later, t, onward, intact, moved⟩
    by_cases guards : p.Guards
    · exact (dooms_of_run guards run).doomed i c (error.imp id .inl) here
    · rcases (sorts_of_run guards run).sorted i c error here with doomed | trapped
      · exact doomed
      · have unsent := error.unsent (early_of_run run)
        have silent := error.calm (alarmSound_of_run run)
        exact absurd (stays_of_trapped error unsent silent here trapped onward intact) moved
  · intro doomed
    have alive : Alive c := alive_of_run run i c here
    obtain ⟨later, t, onward, silent, stage, zombie⟩ := exists_exit doomed alive here
    rcases error with at_reap | at_reap
    · have last := onward.snoc (.parent (.reap (stage.trans at_reap) (.inl zombie)))
      refine ⟨_, _, last, ?_, by simp [at_reap]⟩
      simpa using silent .sigchld
    · have last := onward.snoc (.parent (.reapBack (stage.trans at_reap) (.inl zombie)))
      refine ⟨_, _, last, ?_, by simp [at_reap]⟩
      simpa using silent .sigchld

/-- The parent of a second measurement gives up when its child has installed the
handler that it found: that child is not doomed. -/
theorem leaves_iff_second : ∃ (past : _) (s : Family .second) (i : Fin 1) (c : Child),
    Run (FamilyStep .second) (Family.initial .second 5) past s ∧ s.ErrorExit i ∧
      s.child i = some (.running c) ∧ ¬Doomed .second c ∧
      ((∃ later t, Run (FamilyStep .second) s later t ∧
        .child i (.signal .sigchld) ∉ later ∧ t.stage ≠ s.stage) ↔ Doomed .second c) := by
  have start : Run (FamilyStep .second) (Family.initial .second 5) [] _ := .nil
  have forked := start.snoc (.parent (.fork rfl (by decide)))
  have called := forked.snoc (.child (i := ⟨0, by decide⟩) (e := .call .initializeF 0 4096) rfl
    (.own ⟨⟨0, false, false, 0⟩, rfl⟩) trivial)
  have armed := called.snoc (.child (i := ⟨0, by decide⟩) (e := .tau) rfl
    (.own ⟨⟨0, false, false, 0⟩, rfl⟩) trivial)
  have last := ((armed.snoc (.parent (.forked rfl (by decide)))).snoc
    (.parent (.fails rfl))).snoc (.parent (.kill rfl (by decide)))
  refine ⟨_, _, ⟨0, by decide⟩, _, last, .inl rfl, rfl, not_doomed_of_trapped ⟨?_, ?_⟩,
    leaves_iff 5 _ last (.inl rfl) rfl⟩
  · exact ⟨by decide, by decide⟩
  · exact trivial

end Family

end Lmbench.Benchmp.Shutdown
