import Lmbench.Lib.RecordLock
import Lmbench.Lib.Transition
import Mathlib.Data.Fin.VecNotation
import Mathlib.Data.Fintype.Basic
import Mathlib.Tactic.FinCases

/-!
# The record locks of `lat_fcntl`

The parent repeats `procA` and the child `procB`, on the locks of two files that the
parent both has at first. The test counts on the locks going to and fro, but a lock
that is given back may be taken by the one who gave it back.

## Main results

* `holds_of_run` - what each process holds, wherever it is in its body
* `handsOver_of_yields` - when the child has its turn between two bodies of `procA`
-/

namespace Lmbench.LatFcntl

open Lib

/-- The two processes. -/
inductive Proc
  | parent
  | child
deriving DecidableEq, Repr

/-- `state->fd1` and `state->fd2`. -/
inductive Fd
  | fd1
  | fd2
deriving DecidableEq, Repr

/-- The calls of `procA` and `procB`. -/
inductive Op
  | waiton (fd : Fd)
  | release (fd : Fd)
deriving DecidableEq, Repr

/-- The body of `procA`. -/
def procA : Fin 4 → Op := ![.waiton .fd1, .release .fd2, .waiton .fd2, .release .fd1]

/-- The body of `procB`. -/
def procB : Fin 4 → Op := ![.release .fd1, .waiton .fd2, .release .fd2, .waiton .fd1]

/-- What a process repeats. -/
def body : Proc → Fin 4 → Op
  | .parent => procA
  | .child => procB

abbrev Event := LockEvent Fd Proc

/-- The owners of the locks, and where each process is in its body. -/
structure State where
  owner : Fd → Option Proc
  pc : Proc → Fin 4

/-- What `initialize` sets up: the parent has waited for both locks, and a child does not
inherit them. -/
def initialized : State := ⟨fun _ => some .parent, fun _ => 0⟩

/-- A process goes on to its next call. -/
def State.advance (s : State) (p : Proc) (owner : Fd → Option Proc) : State :=
  ⟨owner, Function.update s.pc p (s.pc p + 1)⟩

@[simp] theorem State.advance_owner (s : State) (p : Proc) (owner : Fd → Option Proc) :
    (s.advance p owner).owner = owner := rfl

@[simp] theorem State.advance_pc_self (s : State) (p : Proc) (owner : Fd → Option Proc) :
    (s.advance p owner).pc p = s.pc p + 1 := Function.update_self _ _ _

theorem State.advance_pc_of_ne (s : State) {p q : Proc} (other : q ≠ p)
    (owner : Fd → Option Proc) : (s.advance p owner).pc q = s.pc q :=
  Function.update_of_ne other _ _

/-- One call of either process; the body begins again behind its last call. -/
inductive Step : State → Event → State → Prop
  | waiton (s : State) (p : Proc) (fd : Fd) (owner : Fd → Option Proc)
      (here : body p (s.pc p) = .waiton fd) (granted : setLockWait s.owner p fd = some owner) :
      Step s (.locked p fd) (s.advance p owner)
  | release (s : State) (p : Proc) (fd : Fd) (here : body p (s.pc p) = .release fd) :
      Step s (.unlocked p fd) (s.advance p (setUnlock s.owner p fd))

/-- The last call of `procA`. -/
def done : Event := .unlocked .parent .fd1

/-- Between the ends of two bodies of `procA`, one after the other, the child gets a lock. -/
def HandsOver (past : List Event) : Prop :=
  ∀ before mid after, past = before ++ done :: (mid ++ done :: after) → done ∉ mid →
    ∃ fd, .locked .child fd ∈ mid

/-- The parent is not granted a free lock that the child is waiting for, nor a free `fd1`
before the child has made its first call. -/
def Yields (s : State) : Event → Prop
  | .locked .parent fd => s.owner fd = none →
      body .child (s.pc .child) ≠ .waiton fd ∧ (fd = .fd1 → s.pc .child ≠ 0)
  | .locked .child _ | .unlocked _ _ => True

/-- A call that `Yields`. -/
def YieldingStep (s : State) (e : Event) (t : State) : Prop := Step s e t ∧ Yields s e

/-! ### What a process holds -/

/-- The locks that a process holds at each place of its body. -/
def held : Proc → Fin 4 → List Fd
  | .parent => ![[.fd2], [.fd1, .fd2], [.fd1], [.fd1, .fd2]]
  | .child => ![[], [], [.fd2], []]

/-- Each process has what it holds where it is. -/
def Holds (s : State) : Prop := ∀ p, ∀ fd ∈ held p (s.pc p), s.owner fd = some p

variable {past : List Event} {s t : State} {e : Event}

theorem holds_initialized : Holds initialized := by
  intro p fd
  cases p <;> simp [initialized, held]

/-- What is held behind a wait was held before it, or waited for. -/
theorem held_waiton {p : Proc} {pc : Fin 4} {fd fd' : Fd} (here : body p pc = .waiton fd)
    (later : fd' ∈ held p (pc + 1)) : fd' = fd ∨ fd' ∈ held p pc := by
  cases p <;> fin_cases pc <;> cases fd <;> cases fd' <;> simp [body, procA, procB, held] at *

/-- What is held behind a release was held before it, and not released. -/
theorem held_release {p : Proc} {pc : Fin 4} {fd fd' : Fd} (here : body p pc = .release fd)
    (later : fd' ∈ held p (pc + 1)) : fd' ≠ fd ∧ fd' ∈ held p pc := by
  cases p <;> fin_cases pc <;> cases fd <;> cases fd' <;> simp [body, procA, procB, held] at *

/-- **A step keeps what is held.** Neither process can take a lock away from the other. -/
theorem Holds.step (holds : Holds s) (step : Step s e t) : Holds t := by
  intro q fd' later
  cases step with
  | waiton p fd owner here granted =>
    rw [s.advance_owner]
    by_cases self : q = p
    · rw [self, s.advance_pc_self] at later
      rw [self, setLockWait_self granted]
      by_cases same : fd' = fd
      · rw [same, Function.update_self]
      · rw [Function.update_of_ne same]
        exact holds p fd' ((held_waiton here later).resolve_left same)
    · rw [s.advance_pc_of_ne self] at later
      exact setLockWait_of_owned (holds q fd' later) self granted
  | release p fd here =>
    rw [s.advance_owner]
    by_cases self : q = p
    · rw [self, s.advance_pc_self] at later
      obtain ⟨kept, before⟩ := held_release here later
      rw [self, setUnlock_of_ne kept]
      exact holds p fd' before
    · rw [s.advance_pc_of_ne self] at later
      exact setUnlock_of_owned (holds q fd' later) self

/-- Wherever a run ends. -/
theorem holds_of_run (run : Run Step initialized past s) : Holds s :=
  run.invariant holds_initialized fun _ _ _ holds step => holds.step step

/-! ### A body without the child -/

/-- Behind the end of a body, for as long as the child gets no lock. -/
inductive Quiet (s : State) : Prop
  | begins (pc : s.pc .parent = 0) (free : s.owner .fd1 = none)
  | locked (pc : s.pc .parent = 1) (waits : s.pc .child = 1)
  | released (pc : s.pc .parent = 2) (waits : s.pc .child = 1) (free : s.owner .fd2 = none)

theorem pc_of_done (step : Step s done t) :
    s.pc .parent = 3 ∧ t = s.advance .parent (setUnlock s.owner .parent .fd1) := by
  generalize call : done = e at step
  cases step with
  | waiton => cases call
  | release p fd here =>
    obtain ⟨rfl, rfl⟩ : p = .parent ∧ fd = .fd1 := by
      simpa [done, eq_comm] using call
    refine ⟨?_, rfl⟩
    revert here
    generalize s.pc .parent = pc
    fin_cases pc <;> simp [body, procA]

theorem quiet_of_done (holds : Holds s) (step : Step s done t) : Quiet t := by
  obtain ⟨last, rfl⟩ := pc_of_done step
  have own : s.owner .fd1 = some .parent := holds .parent .fd1 (by simp [last, held])
  exact .begins (by simp [last]) (by simp [setUnlock, own])

/-- Before `fd1` is granted to it, the parent has `fd2`, and the child waits for that. -/
theorem waits_of_yields (holds : Holds s) (pc : s.pc .parent = 0) (free : s.owner .fd1 = none)
    (yields : Yields s (.locked .parent .fd1)) : s.pc .child = 1 := by
  obtain ⟨barged, begun⟩ := yields free
  have own : s.owner .fd2 = some .parent := holds .parent .fd2 (by simp [pc, held])
  have child := holds .child .fd2
  rw [own] at child
  revert barged begun child
  generalize s.pc .child = place
  fin_cases place <;> simp [body, procB, held]

/-- **Without a lock for the child the body does not come to its end.** -/
theorem Quiet.step (holds : Holds s) (quiet : Quiet s) (step : YieldingStep s e t)
    (other : e ≠ done) (none : ∀ fd, e ≠ .locked .child fd) : Quiet t := by
  obtain ⟨step, yields⟩ := step
  cases step with
  | waiton p fd owner here granted =>
    cases p with
    | child => exact absurd rfl (none fd)
    | parent =>
      cases quiet with
      | begins pc free =>
        obtain rfl : fd = .fd1 := by simpa [pc, body, procA, eq_comm] using here
        exact .locked (by simp [pc]) ((s.advance_pc_of_ne (by decide) _).trans
          (waits_of_yields holds pc free yields))
      | locked pc waits => simp [pc, body, procA] at here
      | released pc waits free =>
        obtain rfl : fd = .fd2 := by simpa [pc, body, procA, eq_comm] using here
        exact absurd (by simp [waits, body, procB]) (yields free).1
  | release p fd here =>
    cases p with
    | child =>
      have stays := s.advance_pc_of_ne (p := .child) (q := .parent) (by decide)
        (setUnlock s.owner .child fd)
      cases quiet with
      | begins pc free => exact .begins (stays.trans pc) (setUnlock_of_none free)
      | locked pc waits => simp [waits, body, procB] at here
      | released pc waits free => simp [waits, body, procB] at here
    | parent =>
      cases quiet with
      | begins pc free => simp [pc, body, procA] at here
      | locked pc waits =>
        obtain rfl : fd = .fd2 := by simpa [pc, body, procA, eq_comm] using here
        have own : s.owner .fd2 = some .parent := holds .parent .fd2 (by simp [pc, held])
        exact .released (by simp [pc]) ((s.advance_pc_of_ne (by decide) _).trans waits)
          (by simp [setUnlock, own])
      | released pc waits free => simp [pc, body, procA] at here

/-- The same for all calls behind the end of a body. -/
theorem quiet_of_run (holds : Holds s) (quiet : Quiet s) (run : Run YieldingStep s past t)
    (other : done ∉ past) (none : ∀ fd, .locked .child fd ∉ past) : Holds t ∧ Quiet t := by
  induction run with
  | nil => exact ⟨holds, quiet⟩
  | snoc before step ih =>
    obtain ⟨holds', quiet'⟩ := ih (fun mem => other (by simp [mem]))
      fun fd mem => none fd (by simp [mem])
    exact ⟨holds'.step step.1, quiet'.step holds' step (fun last => other (by simp [last]))
      fun fd last => none fd (by simp [last])⟩

/-- **When the locks go to and fro.** In every run, of any interleaving, in which the parent
takes no free lock before the child that waits for it, the child has its turn between two
bodies of `procA`. -/
theorem handsOver_of_yields (past : List Event) (s : State)
    (run : Run YieldingStep initialized past s) : HandsOver past := by
  rintro before mid after rfl inside
  by_contra asleep
  obtain ⟨s₁, s₂, first, end₁, rest⟩ := run.split
  obtain ⟨s₃, s₄, body, end₂, -⟩ := rest.split
  have holds := holds_of_run (first.mono fun _ _ _ step => step.1)
  obtain ⟨-, quiet⟩ := quiet_of_run (holds.step end₁.1) (quiet_of_done holds end₁.1) body inside
    fun fd turn => asleep ⟨fd, turn⟩
  have last := (pc_of_done end₂.1).1
  cases quiet with
  | begins pc | locked pc | released pc =>
    rw [pc] at last
    exact absurd last (by decide)

/-- Two bodies of `procA`: the child makes its first call between them, and gets one lock in
the second. -/
def turns : List Event :=
  [.locked .parent .fd1, .unlocked .parent .fd2, .locked .parent .fd2, done,
    .unlocked .child .fd1, .locked .parent .fd1, .unlocked .parent .fd2, .locked .child .fd2,
    .unlocked .child .fd2, .locked .parent .fd2, done]

theorem handsOver_of_yields_turns : HandsOver turns := by
  have zero : Run YieldingStep initialized [] initialized := .nil
  have one := zero.snoc
    ⟨Step.waiton initialized .parent .fd1 _ rfl rfl, by simp [Yields, initialized]⟩
  have two := one.snoc ⟨.release _ .parent .fd2 rfl, trivial⟩
  have three := two.snoc ⟨.waiton _ .parent .fd2 _ rfl rfl, fun _ => by decide⟩
  have four := three.snoc ⟨.release _ .parent .fd1 rfl, trivial⟩
  have five := four.snoc ⟨.release _ .child .fd1 rfl, trivial⟩
  have six := five.snoc ⟨.waiton _ .parent .fd1 _ rfl rfl, fun _ => by decide⟩
  have seven := six.snoc ⟨.release _ .parent .fd2 rfl, trivial⟩
  have eight := seven.snoc ⟨.waiton _ .child .fd2 _ rfl rfl, trivial⟩
  have nine := eight.snoc ⟨.release _ .child .fd2 rfl, trivial⟩
  have ten := nine.snoc ⟨.waiton _ .parent .fd2 _ rfl rfl, fun _ => by decide⟩
  have eleven := ten.snoc ⟨.release _ .parent .fd1 rfl, trivial⟩
  exact handsOver_of_yields turns _ eleven

/-- A body of `procA` that the child sleeps through. -/
def alone : List Event :=
  [.locked .parent .fd1, .unlocked .parent .fd2, .locked .parent .fd2, done]

/-- What the parent needs for such a body, and leaves for the next one. -/
structure AtHome (s : State) : Prop where
  pc : s.pc .parent = 0
  fd1 : s.owner .fd1 ≠ some .child
  fd2 : s.owner .fd2 = some .parent

/-- The parent waits for nothing that the child does not have. -/
theorem granted_of_ne_child {fd : Fd} (free : s.owner fd ≠ some .child) :
    setLockWait s.owner .parent fd = some (Function.update s.owner fd (some .parent)) := by
  refine if_pos ?_
  cases owner : s.owner fd with
  | none => exact Or.inl rfl
  | some p =>
    cases p with
    | parent => exact Or.inr rfl
    | child => exact absurd owner free

theorem AtHome.alone (atHome : AtHome s) : ∃ t, Run Step s alone t ∧ AtHome t := by
  obtain ⟨pc, fd1, fd2⟩ := atHome
  have pc₁ : s.pc .parent + 1 = 1 := by rw [pc]; rfl
  have pc₂ : s.pc .parent + 1 + 1 = 2 := by rw [pc]; rfl
  -- `fd2` is free when the parent asks for it again, having given it back itself
  have one := Run.nil.snoc
    (Step.waiton s .parent .fd1 _ (by rw [pc]; rfl) (granted_of_ne_child fd1))
  have two := one.snoc (.release _ .parent .fd2 (by simp [pc₁, body, procA]))
  have three := two.snoc (.waiton _ .parent .fd2 _ (by simp [pc₂, body, procA])
    (granted_of_ne_child (by simp [setUnlock, fd2])))
  have four := three.snoc (.release _ .parent .fd1 (by simp [pc, body, procA]))
  exact ⟨_, four, by simp [pc], by simp [setUnlock, fd2], by simp [setUnlock, fd2]⟩

/-- Nobody has to wait for the child: the parent runs as many bodies as it likes. -/
theorem run_alone (n : ℕ) :
    ∃ s, Run Step initialized (List.replicate n alone).flatten s ∧ AtHome s := by
  induction n with
  | zero => exact ⟨_, .nil, ⟨rfl, by decide, rfl⟩⟩
  | succ n ih =>
    obtain ⟨s, before, atHome⟩ := ih
    obtain ⟨t, again, atHome'⟩ := atHome.alone
    refine ⟨t, ?_, atHome'⟩
    rw [List.replicate_succ', List.flatten_concat]
    exact before.trans again

/-- Two bodies of `procA` that the child sleeps through. -/
theorem not_handsOver : ¬∀ past s, Run Step initialized past s → HandsOver past := by
  intro hands
  obtain ⟨s, run, -⟩ := run_alone 2
  obtain ⟨fd, turn⟩ := hands _ _ run
    [.locked .parent .fd1, .unlocked .parent .fd2, .locked .parent .fd2]
    [.locked .parent .fd1, .unlocked .parent .fd2, .locked .parent .fd2] [] rfl (by decide)
  cases fd <;> exact absurd turn (by decide)

end Lmbench.LatFcntl
