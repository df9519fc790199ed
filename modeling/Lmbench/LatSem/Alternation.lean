import Lmbench.Lib.Semaphore
import Lmbench.Lib.Transition
import Mathlib.Data.List.Count

/-!
# The semaphores of `lat_sem`

`doit` and the writer that `initialize` forks pass one permit to and fro between two
semaphores, each with one array of operations that takes it from one and puts it on
the other. The writer puts the permit there with an operation of its own.

## Main results

* `alternates` - who has had the permit how often, and that somebody can go on
-/

namespace Lmbench.LatSem

open Lib

/-- Where `doit` is: between two calls, or with so many iterations to do. -/
inductive Reader
  | idle
  | looping (iterations : ℕ)
deriving DecidableEq, Repr

/-- Where `writer` is: before its first operation, or in its loop. -/
inductive Writer
  | forked
  | looping
deriving DecidableEq, Repr

/-- The semaphore values and the two processes. -/
structure State where
  sems : Fin 2 → ℤ
  reader : Reader
  writer : Writer

/-- What `initialize` leaves: `SETVAL` of both semaphores to 0, and the fork. -/
def initialized : State := ⟨fun _ => 0, .idle, .forked⟩

/-- `sop` of `doit`. -/
def doitOps : List (SemBuf (Fin 2)) := [⟨1, -1⟩, ⟨0, 1⟩]

/-- `sop` of the first operation of `writer`. -/
def writerFirst : List (SemBuf (Fin 2)) := [⟨1, 1⟩]

/-- `sop` of the loop of `writer`. -/
def writerOps : List (SemBuf (Fin 2)) := [⟨0, -1⟩, ⟨1, 1⟩]

/-- What a process does: `doit` is called, does an iteration or returns; `writer` does its
first operation or an iteration. -/
inductive Event
  | call (iterations : ℕ)
  | read
  | ret
  | first
  | write
deriving DecidableEq, Repr

/-- One step of either process. A `semop` that has to wait is no step. -/
inductive Step : State → Event → State → Prop
  | call (s : State) (iterations : ℕ) (between : s.reader = .idle) :
      Step s (.call iterations) { s with reader := .looping iterations }
  | read (s : State) (left : ℕ) (sems : Fin 2 → ℤ) (more : s.reader = .looping (left + 1))
      (done : semop s.sems doitOps = some sems) :
      Step s .read { s with sems := sems, reader := .looping left }
  | ret (s : State) (through : s.reader = .looping 0) : Step s .ret { s with reader := .idle }
  | first (s : State) (sems : Fin 2 → ℤ) (new : s.writer = .forked)
      (done : semop s.sems writerFirst = some sems) :
      Step s .first { s with sems := sems, writer := .looping }
  | write (s : State) (sems : Fin 2 → ℤ) (inLoop : s.writer = .looping)
      (done : semop s.sems writerOps = some sems) : Step s .write { s with sems := sems }

/-- Permits that the writer has put there. -/
def Writer.permits : Writer → ℤ
  | .forked => 0
  | .looping => 1

/-- The values follow from how often each side has had the permit. -/
structure Counted (past : List Event) (s : State) : Prop where
  zero : s.sems 0 = past.count .read - past.count .write
  one : s.sems 1 = s.writer.permits + past.count .write - past.count .read
  nonneg : ∀ i, 0 ≤ s.sems i

variable {past : List Event} {s t : State} {e : Event}

theorem counted_initialized : Counted [] initialized := ⟨rfl, rfl, fun _ => le_rfl⟩

/-- What `doit` does to the values. -/
theorem semop_doitOps {sems sems' : Fin 2 → ℤ} (nonneg : ∀ i, 0 ≤ sems i) :
    semop sems doitOps = some sems' ↔
      1 ≤ sems 1 ∧ sems' = Function.update (Function.update sems 1 (sems 1 - 1)) 0 (sems 0 + 1) :=
  semop_move_eq_some_iff (by decide) (nonneg 0)

/-- What the loop of `writer` does to the values. -/
theorem semop_writerOps {sems sems' : Fin 2 → ℤ} (nonneg : ∀ i, 0 ≤ sems i) :
    semop sems writerOps = some sems' ↔
      1 ≤ sems 0 ∧ sems' = Function.update (Function.update sems 0 (sems 0 - 1)) 1 (sems 1 + 1) :=
  semop_move_eq_some_iff (by decide) (nonneg 1)

/-- **A step keeps the count.** -/
theorem Counted.step (counted : Counted past s) (step : Step s e t) : Counted (past ++ [e]) t := by
  obtain ⟨zero, one, nonneg⟩ := counted
  cases step with
  | call iterations between => exact ⟨by simpa using zero, by simpa using one, nonneg⟩
  | ret through => exact ⟨by simpa using zero, by simpa using one, nonneg⟩
  | read left sems more done =>
    have kept := semop_nonneg nonneg done
    obtain ⟨_, rfl⟩ := (semop_doitOps nonneg).mp done
    refine ⟨?_, ?_, kept⟩
    · simp [zero]
      omega
    · simp [one]
      omega
  | first sems new done =>
    have kept := semop_nonneg nonneg done
    rw [writerFirst, semop_post (nonneg 1)] at done
    obtain rfl := Option.some.inj done
    rw [new] at one
    refine ⟨by simpa using zero, ?_, kept⟩
    simp [one, Writer.permits]
    omega
  | write sems inLoop done =>
    have kept := semop_nonneg nonneg done
    obtain ⟨_, rfl⟩ := (semop_writerOps nonneg).mp done
    refine ⟨?_, ?_, kept⟩
    · simp [zero]
      omega
    · simp [one]
      omega

/-- Wherever a run ends, the values are counted. -/
theorem counted_of_run (run : Run Step initialized past s) : Counted past s :=
  run.invariant_history counted_initialized fun _ _ _ _ _ counted step => counted.step step

/-- What the latency that is reported rests on. -/
structure Alternates (past : List Event) (s : State) : Prop where
  nonneg : ∀ i, 0 ≤ s.sems i
  sum_le : s.sems 0 + s.sems 1 ≤ 1
  /-- The writer does no iteration before `doit` has done one more. -/
  write_le : past.count .write ≤ past.count .read
  /-- And `doit` does not do two in a row. -/
  read_le : past.count .read ≤ past.count .write + 1
  /-- With the permit there and `doit` in an iteration, one of the two can go on. -/
  live : s.writer = .looping → ∀ left, s.reader = .looping (left + 1) →
    ∃ e t, Step s e t ∧ (e = .read ∨ e = .write)

/-- **Strict alternation**, in every run of `doit`, called any number of times for any number
of iterations, and the writer. -/
theorem alternates (past : List Event) (s : State) (run : Run Step initialized past s) :
    Alternates past s := by
  obtain ⟨zero, one, nonneg⟩ := counted_of_run run
  have permits : 0 ≤ s.writer.permits ∧ s.writer.permits ≤ 1 := by
    cases s.writer <;> decide
  have zero' := nonneg 0
  have one' := nonneg 1
  refine ⟨nonneg, by omega, by omega, by omega, fun inLoop left more => ?_⟩
  rw [inLoop, Writer.permits] at one
  -- the permit is on one of the two semaphores
  by_cases full : 1 ≤ s.sems 1
  · have done := (semop_doitOps nonneg).mpr ⟨full, rfl⟩
    exact ⟨.read, _, .read s left _ more done, Or.inl rfl⟩
  · have done := (semop_writerOps nonneg).mpr ⟨by omega, rfl⟩
    exact ⟨.write, _, .write s _ inLoop done, Or.inr rfl⟩

/-- Two iterations of `doit`, with one of the writer between them. -/
theorem alternates_twice : ∃ s, Run Step initialized [.first, .call 2, .read, .write, .read] s ∧
    Alternates [.first, .call 2, .read, .write, .read] s := by
  have first : Run Step initialized [.first] _ := Run.nil.snoc (.first _ _ rfl rfl)
  have call : Run Step initialized [.first, .call 2] _ := first.snoc (.call _ 2 rfl)
  have read : Run Step initialized [.first, .call 2, .read] _ :=
    call.snoc (.read _ 1 _ rfl ((semop_doitOps (by decide)).mpr ⟨by decide, rfl⟩))
  have write : Run Step initialized [.first, .call 2, .read, .write] _ :=
    read.snoc (.write _ _ rfl ((semop_writerOps (by decide)).mpr ⟨by decide, rfl⟩))
  have again : Run Step initialized [.first, .call 2, .read, .write, .read] _ :=
    write.snoc (.read _ 0 _ rfl ((semop_doitOps (by decide)).mpr ⟨by decide, rfl⟩))
  exact ⟨_, again, alternates _ _ again⟩

end Lmbench.LatSem
