import Lmbench.Lib.Transition
import Mathlib.Logic.Function.Iterate

/-!
# Where a benchmark takes up the chain

Each `mem_benchmark_N` goes on where its own previous call stopped, if the flag
`mem_benchmark_rerun` is set and the address of the buffer is the one it saved, and
starts from `state->p` otherwise. The address and the pointers are saved for each
function; the flag is one for all.

What is measured may be changed, by which the buffer may come to lie at its old
address, but then `mem_reset` is called before a benchmark runs.

## Main results

* `Reached.known` - what the flag and the saved pointers say of the calls since a reset
* `startsRight_iff` - when one call starts where it should
* `resets_iff` - when all calls of a sequence do
-/

namespace Lmbench

open Lib

/-- The static variables of `lib_mem.c` that the benchmarks use, the fields of the state, and
what the words of memory hold. `addrSave n` and `sp n` are those of `mem_benchmark_n`. -/
structure Benchmarks where
  rerun : Bool
  addrSave : ℕ → ℕ
  sp : ℕ → ℕ → ℕ
  addr : ℕ
  p : ℕ → ℕ
  mem : ℕ → ℕ

namespace Benchmarks

variable (s : Benchmarks)

/-- `INIT`: where the pointer `k` of `mem_benchmark_n` starts. -/
def init (n k : ℕ) : ℕ := if s.rerun = true ∧ s.addrSave n = s.addr then s.sp n k else s.p k

/-- Where it is after so many iterations of a hundred dereferences. -/
def body (n iterations k : ℕ) : ℕ := s.mem^[100 * iterations] (s.init n k)

/-- `mem_benchmark_n`, which has the pointers up to `n`. -/
def memBenchmark (n iterations : ℕ) : Benchmarks :=
  { s with
    sp := Function.update s.sp n fun k => if k ≤ n then s.body n iterations k else s.sp n k
    addrSave := Function.update s.addrSave n s.addr
    rerun := true }

def memReset : Benchmarks := { s with rerun := false }

end Benchmarks

/-- The benchmarks, whether `state->p` was changed since the last reset, and where the last
call of each function since then stopped. -/
structure Observed where
  s : Benchmarks
  changed : Bool
  stopped : ℕ → Option (ℕ → ℕ)

/-- What a program does with them. -/
inductive Use
  | reset
  | change (addr : ℕ) (p mem : ℕ → ℕ)
  | bench (n : Fin 16) (iterations : ℕ)

/-- One use. No benchmark runs between a change and a reset. -/
inductive UseStep : Observed → Use → Observed → Prop
  | reset (o : Observed) : UseStep o .reset ⟨o.s.memReset, false, fun _ => none⟩
  | change (o : Observed) (addr : ℕ) (p mem : ℕ → ℕ) :
      UseStep o (.change addr p mem)
        ⟨{ o.s with addr := addr, p := p, mem := mem }, true, o.stopped⟩
  | bench (o : Observed) (n : Fin 16) (iterations : ℕ) : o.changed = false →
      UseStep o (.bench n iterations) ⟨o.s.memBenchmark n iterations, o.changed,
        Function.update o.stopped n (some (o.s.body n iterations))⟩

/-- The program begins with its static variables zero, whatever the state is. -/
def Observed.start (addr : ℕ) (p mem : ℕ → ℕ) : Observed where
  s := ⟨false, fun _ => 0, fun _ _ => 0, addr, p, mem⟩
  changed := false
  stopped := fun _ => none

namespace Observed

variable (o : Observed)

/-- A call starts from `state->p` if it is the first of the function since the last reset, and
where the one before it stopped if not. -/
def StartsRight (n : ℕ) : Prop :=
  ∀ k ≤ n, o.s.init n k = match o.stopped n with
    | none => o.s.p k
    | some q => q k

/-- The function was called since the last reset, or none was, or it was last called with
another address, or it stopped where `state->p` is now. -/
def Settled (n : ℕ) : Prop :=
  o.stopped n ≠ none ∨ (∀ m, o.stopped m = none) ∨ o.s.addrSave n ≠ o.s.addr ∨
    ∀ k ≤ n, o.s.sp n k = o.s.p k

/-- What the static variables say of the calls since the last reset. -/
structure Known : Prop where
  rerun : o.s.rerun = true ↔ ∃ m, o.stopped m ≠ none
  saved : o.changed = false → ∀ n q, o.stopped n = some q →
    o.s.addrSave n = o.s.addr ∧ ∀ k ≤ n, o.s.sp n k = q k

end Observed

/-! ### One use -/

theorem known_start (addr : ℕ) (p mem : ℕ → ℕ) : (Observed.start addr p mem).Known where
  rerun := by simp [Observed.start]
  saved := by simp [Observed.start]

theorem UseStep.known {o o' : Observed} {u : Use} (before : o.Known) (step : UseStep o u o') :
    o'.Known := by
  cases step with
  | reset => exact ⟨by simp [Benchmarks.memReset], by simp⟩
  | change addr p mem => exact ⟨before.rerun, by simp⟩
  | bench n iterations clean =>
    refine ⟨?_, fun _ m q stopped => ?_⟩
    · have called : ∃ m, Function.update o.stopped n (some (o.s.body n iterations)) m ≠ none :=
        ⟨n, by simp⟩
      simpa [Benchmarks.memBenchmark] using called
    · by_cases same : m = n
      · -- the call saves where it stopped, and the address
        subst same
        obtain rfl : o.s.body n iterations = q := by simpa using stopped
        refine ⟨by simp [Benchmarks.memBenchmark], fun k below => ?_⟩
        simp [Benchmarks.memBenchmark, below]
      · have earlier : o.stopped m = some q := by simpa [same] using stopped
        simpa [Benchmarks.memBenchmark, same] using before.saved clean m q earlier

/-- **One call** starts where it should if and only if the flag that another function has set
does no harm. -/
theorem startsRight_iff {o : Observed} (known : o.Known) (clean : o.changed = false) (n : ℕ) :
    o.StartsRight n ↔ o.Settled n := by
  unfold Observed.StartsRight Observed.Settled
  cases stopped : o.stopped n with
  | some q =>
    obtain ⟨address, pointers⟩ := known.saved clean n q stopped
    -- the call before has set the flag and saved the address
    have again : o.s.rerun = true := known.rerun.mpr ⟨n, by simp [stopped]⟩
    refine iff_of_true (fun k below => ?_) (.inl (by simp))
    rw [Benchmarks.init, if_pos ⟨again, address⟩]
    exact pointers k below
  | none =>
    by_cases first : ∀ m, o.stopped m = none
    · -- the first call of all since the reset finds the flag unset
      have unset : ¬o.s.rerun = true := by
        rw [known.rerun]
        rintro ⟨m, called⟩
        exact called (first m)
      refine iff_of_true (fun k _ => ?_) (.inr (.inl first))
      rw [Benchmarks.init, if_neg fun both => unset both.1]
    · -- another function has set it
      have set : o.s.rerun = true := by
        rw [not_forall] at first
        exact known.rerun.mpr first
      by_cases recycled : o.s.addrSave n = o.s.addr
      · -- the saved pointers are taken for those of this chain
        have start : ∀ k, o.s.init n k = o.s.sp n k := fun k => if_pos ⟨set, recycled⟩
        simp only [start, first, recycled, ne_eq, not_true_eq_false, false_or]
      · -- the address tells that the chain is another one
        refine iff_of_true (fun k _ => ?_) (.inr (.inr (.inl recycled)))
        rw [Benchmarks.init, if_neg fun both => recycled both.2]

/-! ### Sequences -/

/-- Every call in the sequence, and the state before it. -/
def EveryCall (property : Observed → ℕ → Prop) (start : Observed) (uses : List Use) : Prop :=
  ∀ before (n : Fin 16) iterations after o o', uses = before ++ .bench n iterations :: after →
    Run UseStep start before o → UseStep o (.bench n iterations) o' → property o n

/-- **When `mem_reset` really resets.** In every sequence of resets, calls of the sixteen
functions and changes that a reset follows, all calls start where they should if and only if,
at each first call of a function since a reset, no other function was called since, or the last
call of this one was with another `state->addr` or stopped where `state->p` is. -/
theorem resets_iff (addr : ℕ) (p mem : ℕ → ℕ) (uses : List Use) :
    EveryCall Observed.StartsRight (.start addr p mem) uses ↔
      EveryCall Observed.Settled (.start addr p mem) uses := by
  have calls : ∀ before (n : Fin 16) iterations o o',
      Run UseStep (.start addr p mem) before o → UseStep o (.bench n iterations) o' →
      (o.StartsRight n ↔ o.Settled n) := by
    intro before n iterations o o' run call
    have known := run.invariant (known_start addr p mem) fun _ _ _ known step => step.known known
    cases call with
    | bench _ _ clean => exact startsRight_iff known clean n
  constructor
  · intro right before n iterations after o o' split run call
    exact (calls before n iterations o o' run call).mp
      (right before n iterations after o o' split run call)
  · intro settled before n iterations after o o' split run call
    exact (calls before n iterations o o' run call).mpr
      (settled before n iterations after o o' split run call)

/-- **The slip.** `mem_benchmark_0` chases one chain. Another is built at the same address, with
the word at 8 first. After the reset `mem_benchmark_1` sets the flag, and `mem_benchmark_0` goes
on at the word at 0 of the old chain. -/
theorem not_resets :
    ¬∀ addr p mem uses, EveryCall Observed.StartsRight (.start addr p mem) uses := by
  intro always
  have first := Run.nil.snoc (UseStep.bench (.start 4096 (fun _ => 0) id) 0 1 rfl)
  have second := (first.snoc (UseStep.change _ 4096 (fun _ => 8) id)).snoc (UseStep.reset _)
  have third := second.snoc (UseStep.bench _ 1 1 rfl)
  have stale := always 4096 (fun _ => 0) id _ _ 0 1 [] _ _ rfl third (.bench _ 0 1 rfl) 0 le_rfl
  simp [Observed.start, Benchmarks.memBenchmark, Benchmarks.memReset, Benchmarks.init,
    Benchmarks.body] at stale

end Lmbench
