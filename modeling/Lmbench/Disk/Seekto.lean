import Mathlib.Algebra.Group.Int.Defs
import Mathlib.Algebra.Group.Nat.Defs
import Mathlib.Algebra.Order.Group.Abs
import Mathlib.Algebra.Order.Group.Int
import Mathlib.Order.Interval.Set.UnorderedInterval

/-!
# Seeking through 32-bit steps

`seekto` in the build without `lseek64`: the base position, steps of `BIGSEEK` in the
direction of `off` as long as more than one step is left, and the rest. The difference
`off - here` never has a larger magnitude than `off`, so no 64-bit operation wraps.

## Main results

* `Device.seekLoop_spec` - the loop and the last step, from any `here`
* `Device.seekto_moves` - `seekto` ends, with small steps, at the base plus `off`
-/

namespace Lmbench.Disk

/-- The third argument of `seekto` and `lseek`. -/
inductive Whence
  | set
  | cur
  | fromEnd
  | other
deriving DecidableEq, Repr

/-- A file as `lseek` sees it. -/
structure Device (σ : Type*) where
  /-- the file behind the call, and what is returned -/
  lseek : σ → ℤ → Whence → σ × ℤ
  errno : σ → ℤ
  pos : σ → ℤ
  size : σ → ℤ

/-- What `seekto` leaves: the file, the relative steps it asked `lseek` for, and the value
returned. -/
structure Seek (σ : Type*) where
  file : σ
  steps : List ℤ
  value : ℤ
deriving Repr

/-- `BIGSEEK` -/
def bigseek : ℤ := 2 ^ 30

/-- `(int)x` -/
def toInt (x : ℤ) : ℤ := x.bmod (2 ^ 32)

/-- `delta` -/
def stride (off : ℤ) : ℤ := if 0 ≤ off then bigseek else -bigseek

/-- The condition of the loop. -/
def Stepping (off delta here : ℤ) : Prop :=
  (off - here < delta ∧ delta < 0) ∨ (0 < delta ∧ delta < off - here)

instance (off delta here : ℤ) : Decidable (Stepping off delta here) := by
  unfold Stepping; infer_instance

namespace Device

variable {σ : Type*} (dev : Device σ)

/-- The loop and the last step. None if `fuel` is used up. -/
def seekLoop (off : ℤ) (whence : Whence) : ℕ → σ → ℤ → List ℤ → Option (Seek σ)
  | fuel, file, here, steps =>
    if Stepping off (stride off) here then
      match fuel with
      | 0 => none
      | fuel + 1 =>
        let (file, value) := dev.lseek file (stride off) .cur
        let steps := steps ++ [stride off]
        if value = -1 ∧ dev.errno file ≠ 0 then some ⟨file, steps, -1⟩
        else seekLoop off whence fuel file (here + stride off) steps
    else
      let rest := toInt (off - here)
      let (file, value) := dev.lseek file rest .cur
      let v := toInt value
      some ⟨file, steps ++ [rest], if v ≠ -1 ∧ whence = .set then off else v⟩

/-- `seekto` -/
def seekto (fuel : ℕ) (file : σ) (off : ℤ) (whence : Whence) : Option (Seek σ) :=
  match whence with
  | .set => dev.seekLoop off whence fuel (dev.lseek file 0 .set).1 0 []
  | .fromEnd =>
    let (file, value) := dev.lseek file 0 .fromEnd
    if value = -1 then some ⟨file, [], -1⟩ else dev.seekLoop off whence fuel file 0 []
  | .cur =>
    if off = 0 then
      let (file, value) := dev.lseek file 0 .cur
      some ⟨file, [0], value⟩
    else dev.seekLoop off whence fuel file 0 []
  | .other => dev.seekLoop off whence fuel file 0 []

/-- The position that `whence` selects. -/
def base (file : σ) : Whence → ℤ
  | .set => 0
  | .fromEnd => dev.size file
  | .cur => dev.pos file
  | .other => dev.pos file

/-- `lseek` succeeds and moves as asked, as long as it is asked for a position between
two others. -/
structure Obliging (a b : ℤ) : Prop where
  cur : ∀ file step, dev.pos file + step ∈ Set.uIcc a b →
    dev.pos (dev.lseek file step .cur).1 = dev.pos file + step ∧
      (dev.lseek file step .cur).2 ≠ -1
  set : ∀ file, 0 ∈ Set.uIcc a b → dev.pos (dev.lseek file 0 .set).1 = 0
  fromEnd : ∀ file, dev.size file ∈ Set.uIcc a b →
    dev.pos (dev.lseek file 0 .fromEnd).1 = dev.size file ∧ (dev.lseek file 0 .fromEnd).2 ≠ -1

/-- The loop and the last step end at `target`: every step was small, and the value is made
from what `lseek` returned for the last one. -/
structure Reaches (off target : ℤ) (whence : Whence) (o : Seek σ) : Prop where
  steps : ∀ v ∈ o.steps, |v| ≤ bigseek
  pos : dev.pos o.file = target
  value : ∃ file rest, dev.pos file + rest = target ∧
    o.value = if toInt (dev.lseek file rest .cur).2 ≠ -1 ∧ whence = .set then off
      else toInt (dev.lseek file rest .cur).2

variable {dev} {b off here : ℤ} {whence : Whence} {file : σ} {steps : List ℤ}

section Arithmetic

theorem toInt_of_small {x : ℤ} (small : |x| ≤ bigseek) : toInt x = x := by
  have bounds := abs_le.mp small
  simp only [bigseek] at bounds
  apply Int.bmod_eq_of_le_mul_two <;> omega

theorem abs_stride : |stride off| = bigseek := by
  unfold stride
  split
  · rfl
  · rw [abs_neg]
    rfl

/-- A step of the loop goes towards `off` and not past it. -/
theorem step_toward (toward : here ∈ Set.uIcc 0 off) (stepping : Stepping off (stride off) here) :
    here + stride off ∈ Set.uIcc 0 off ∧
      (off - (here + stride off)).natAbs + 2 ^ 30 = (off - here).natAbs := by
  rw [Set.mem_uIcc] at toward ⊢
  simp only [Stepping, stride, bigseek] at stepping ⊢
  split at stepping <;> omega

/-- The rest behind the loop. -/
theorem rest_small (toward : here ∈ Set.uIcc 0 off)
    (stays : ¬ Stepping off (stride off) here) : |off - here| ≤ bigseek := by
  rw [Set.mem_uIcc] at toward
  rw [abs_le]
  simp only [Stepping, stride, bigseek] at stays ⊢
  split at stays <;> omega

end Arithmetic

theorem mem_steps_append {v rest : ℤ} (small : ∀ v ∈ steps, |v| ≤ bigseek)
    (last : |rest| ≤ bigseek) (member : v ∈ steps ++ [rest]) : |v| ≤ bigseek := by
  rcases List.mem_append.mp member with before | new
  · exact small v before
  · rwa [List.mem_singleton.mp new]

/-- The last step, behind the loop. -/
theorem last_step {fuel : ℕ} (obliging : dev.Obliging b (b + off)) (pos : dev.pos file = b + here)
    (toward : here ∈ Set.uIcc 0 off) (stays : ¬ Stepping off (stride off) here)
    (small : ∀ v ∈ steps, |v| ≤ bigseek) :
    ∃ o, dev.seekLoop off whence fuel file here steps = some o ∧
      dev.Reaches off (b + off) whence o := by
  have short := rest_small toward stays
  have target : dev.pos file + (off - here) = b + off := by
    rw [pos]
    omega
  have inside : dev.pos file + (off - here) ∈ Set.uIcc b (b + off) := by
    rw [target]
    exact Set.right_mem_uIcc
  obtain ⟨moved, -⟩ := obliging.cur file (off - here) inside
  rw [seekLoop.eq_def]
  simp only [stays, if_false, toInt_of_small short]
  exact ⟨_, rfl, fun v => mem_steps_append small short, moved.trans target,
    file, off - here, target, rfl⟩

/-- The loop and the last step go from `here` to `off`. -/
theorem seekLoop_spec {fuel : ℕ} (obliging : dev.Obliging b (b + off))
    (pos : dev.pos file = b + here) (toward : here ∈ Set.uIcc 0 off)
    (enough : (off - here).natAbs / 2 ^ 30 ≤ fuel) (small : ∀ v ∈ steps, |v| ≤ bigseek) :
    ∃ o, dev.seekLoop off whence fuel file here steps = some o ∧
      dev.Reaches off (b + off) whence o := by
  -- every step leaves `BIGSEEK` less between `here` and `off`
  induction fuel generalizing file here steps with
  | zero =>
    have stays : ¬ Stepping off (stride off) here := fun stepping => by
      obtain ⟨-, before⟩ := step_toward toward stepping
      omega
    exact last_step obliging pos toward stays small
  | succ fuel ih =>
    by_cases stepping : Stepping off (stride off) here
    · obtain ⟨toward', before⟩ := step_toward toward stepping
      have inside : dev.pos file + stride off ∈ Set.uIcc b (b + off) := by
        rw [Set.mem_uIcc] at toward' ⊢
        omega
      obtain ⟨moved, succeeds⟩ := obliging.cur file (stride off) inside
      rw [seekLoop, if_pos stepping]
      cases call : dev.lseek file (stride off) .cur with
      | mk file' value =>
        rw [call] at moved succeeds
        simp only [succeeds, false_and, if_false]
        exact ih (by rw [moved, pos, Int.add_assoc]) toward' (by omega)
          fun v => mem_steps_append small abs_stride.le
    · exact last_step obliging pos toward stepping small

/-- The loop from a file at the base. -/
theorem seekLoop_reaches {fuel : ℕ} (obliging : dev.Obliging b (b + off))
    (pos : dev.pos file = b) (enough : off.natAbs / 2 ^ 30 ≤ fuel) :
    ∃ o, dev.seekLoop off whence fuel file 0 [] = some o ∧
      dev.Reaches off (b + off) whence o :=
  seekLoop_spec obliging (by rw [pos, Int.add_zero]) Set.left_mem_uIcc (by simpa using enough)
    (by simp)

/-- Behind `lseek(fd, 0, SEEK_SET)` the value is `off`, unless the last position looks like an
error in an `int`. -/
theorem seekto_set {fuel : ℕ} (obliging : dev.Obliging 0 off)
    (enough : off.natAbs / 2 ^ 30 ≤ fuel) :
    ∃ o, dev.seekto fuel file off .set = some o ∧ dev.Reaches off off .set o := by
  have start := obliging.set file Set.left_mem_uIcc
  have reaches := @seekLoop_reaches σ dev 0 off .set (dev.lseek file 0 .set).1 fuel
    (by rwa [Int.zero_add]) start enough
  rwa [Int.zero_add] at reaches

/-- `seekto` ends, asks for no step of more than `BIGSEEK`, and leaves the file at the
position that `whence` selects plus `off`. -/
theorem seekto_moves {fuel : ℕ}
    (obliging : dev.Obliging (dev.base file whence) (dev.base file whence + off))
    (enough : off.natAbs / 2 ^ 30 ≤ fuel) :
    ∃ o, dev.seekto fuel file off whence = some o ∧ (∀ v ∈ o.steps, |v| ≤ bigseek) ∧
      dev.pos o.file = dev.base file whence + off := by
  cases whence with
  | set =>
    rw [base, Int.zero_add] at obliging ⊢
    obtain ⟨o, result, reaches⟩ := seekto_set obliging enough
    exact ⟨o, result, reaches.steps, reaches.pos⟩
  | cur =>
    by_cases zero : off = 0
    · subst zero
      obtain ⟨moved, -⟩ := obliging.cur file 0 (by simp [base])
      exact ⟨_, by rw [seekto, if_pos rfl], by simp [bigseek], moved⟩
    · obtain ⟨o, result, reaches⟩ := seekLoop_reaches obliging rfl enough
      exact ⟨o, by rw [seekto, if_neg zero, result], reaches.steps, reaches.pos⟩
  | fromEnd =>
    obtain ⟨moved, succeeds⟩ := obliging.fromEnd file Set.left_mem_uIcc
    obtain ⟨o, result, reaches⟩ :=
      @seekLoop_reaches σ dev (dev.size file) off .fromEnd _ fuel obliging moved enough
    refine ⟨o, ?_, reaches.steps, reaches.pos⟩
    simp only [seekto, succeeds, if_false, result]
  | other =>
    obtain ⟨o, result, reaches⟩ := seekLoop_reaches obliging rfl enough
    exact ⟨o, result, reaches.steps, reaches.pos⟩

/-- A file of `size` bytes, kept by its position: it can be put anywhere but in front of the
first byte. -/
def plain (size : ℤ) : Device ℤ where
  lseek pos off whence :=
    let target := match whence with
      | .set => off
      | .fromEnd => size + off
      | .cur => pos + off
      | .other => -1
    if target < 0 then (pos, -1) else (target, target)
  errno _ := 0
  pos := id
  size _ := size

theorem plain_obliging {size a b : ℤ} (first : 0 ≤ a) (last : 0 ≤ b) :
    (plain size).Obliging a b := by
  have inside : ∀ x ∈ Set.uIcc a b, ¬ x < 0 := fun x member => by
    rw [Set.mem_uIcc] at member
    omega
  refine ⟨fun pos step between => ?_, fun pos _ => rfl, fun pos between => ?_⟩
  · have ahead : ¬ pos + step < 0 := inside _ between
    simp only [plain, ahead, if_false, id]
    exact ⟨trivial, by omega⟩
  · have ahead : ¬ size < 0 := inside size between
    simp only [plain, Int.add_zero, ahead, if_false, id]
    exact ⟨trivial, by omega⟩

/-- Three steps back from the end, and a rest. -/
theorem seekto_moves_back :
    ∃ o, (plain (2 ^ 40)).seekto 3 0 (-(3 * 2 ^ 30) - 5) .fromEnd = some o ∧
      (∀ v ∈ o.steps, |v| ≤ bigseek) ∧ o.file = 2 ^ 40 - 3 * 2 ^ 30 - 5 := by
  have obliging : (plain (2 ^ 40)).Obliging ((plain (2 ^ 40)).base 0 .fromEnd)
      ((plain (2 ^ 40)).base 0 .fromEnd + (-(3 * 2 ^ 30) - 5)) :=
    plain_obliging (by simp [base, plain]) (by simp [base, plain])
  obtain ⟨o, result, steps, pos⟩ :=
    @seekto_moves ℤ (plain (2 ^ 40)) _ .fromEnd 0 3 obliging (by decide)
  exact ⟨o, result, steps, pos.trans (by simp [base, plain])⟩

end Device

end Lmbench.Disk
