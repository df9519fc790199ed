import Lmbench.Disk.Seekto
import Lmbench.Lib.Climb

/-!
# The size of a device

`disksize` goes forward in strides of `FORWARD`, `FORWARD1` and `FORWARD2` as long as it
can seek there and read a sector, and steps back from each stride that failed.

## Main results

* `Drive.forward_eq_climb` - a loop of `disksize` climbs
* `Drive.disksize_isGreatest` - the result of `disksize`
* `Device.sized_plain` - a file behind `seekto` is such a device
-/

namespace Lmbench.Disk

/-- A device as `disksize` uses it: `seekto(fd, off, SEEK_SET)` and `read(fd, buf, n)`. -/
structure Drive (σ : Type*) where
  seekto : σ → ℕ → σ × ℤ
  read : σ → ℕ → σ × ℤ

/-- `FORWARD` -/
def FORWARD : ℕ := 512 * 2 ^ 20

/-- `FORWARD1` -/
def FORWARD1 : ℕ := 64 * 2 ^ 20

/-- `FORWARD2` -/
def FORWARD2 : ℕ := 2 ^ 20

namespace Drive

variable {σ : Type*} (disk : Drive σ)

/-- Seek and read at `off`, and whether both succeed. -/
def probe (file : σ) (off : ℕ) : σ × Bool :=
  let (file, sought) := disk.seekto file off
  -- the `off64_t` is compared as a `uint64`
  if sought % 2 ^ 64 ≠ off then (file, false)
  else
    let (file, got) := disk.read file 512
    (file, decide (got = 512))

/-- One of the three loops. None if `fuel` is used up. -/
def forward (stride : ℕ) : ℕ → σ → ℕ → Option (σ × ℕ)
  | fuel, file, off =>
    let off := (off + stride) % 2 ^ 64
    let (file, passes) := disk.probe file off
    if passes then
      match fuel with
      | 0 => none
      | fuel + 1 => forward stride fuel file off
    else some (file, (off + (2 ^ 64 - stride)) % 2 ^ 64)

/-- `disksize`, for a device that `open` has opened, or not. -/
def disksize (fuel : ℕ) : Option σ → Option ℕ
  | none => some 0
  | some file =>
    (disk.forward FORWARD fuel file 0).bind fun (file, off) =>
      (disk.forward FORWARD1 fuel file off).bind fun (file, off) =>
        (disk.forward FORWARD2 fuel file off).map Prod.snd

/-- The device has `size` bytes: seeking to `off` and reading a sector there succeeds
exactly if the sector lies in it. This is asked of the offsets that `disksize` can try. -/
def Sized (size : ℕ) : Prop :=
  ∀ file off, FORWARD2 ∣ off → off < 2 ^ 62 →
    ((disk.probe file off).2 = true ↔ off + 512 ≤ size)

variable {disk} {size stride fuel off r : ℕ} {file : σ}

/-- One stride from an offset on the device does not wrap, and the device answers truly. -/
theorem stride_spec (sized : disk.Sized size) (fits : size < 2 ^ 40) (aligned : FORWARD2 ∣ off)
    (strides : FORWARD2 ∣ stride) (short : stride ≤ FORWARD) (within : off ≤ size) :
    (off + stride) % 2 ^ 64 = off + stride ∧
      (off + stride + (2 ^ 64 - stride)) % 2 ^ 64 = off ∧
      ((disk.probe file (off + stride)).2 = true ↔ off + stride + 512 ≤ size) := by
  simp only [FORWARD] at short
  exact ⟨by omega, by omega, sized file (off + stride) (Nat.dvd_add aligned strides) (by omega)⟩

/-- A loop from an offset on the device climbs. -/
theorem forward_eq_climb (sized : disk.Sized size) (fits : size < 2 ^ 40)
    (strides : FORWARD2 ∣ stride) (short : stride ≤ FORWARD) (aligned : FORWARD2 ∣ off)
    (within : off ≤ size) :
    (disk.forward stride fuel file off).map Prod.snd =
      Lib.climb (fun x => x + 512 ≤ size) stride fuel off := by
  induction fuel generalizing file off with
  | zero =>
    obtain ⟨ahead, back, tried⟩ := @stride_spec σ disk size stride off file sized fits aligned
      strides short within
    rw [forward, Lib.climb, ahead]
    by_cases there : off + stride + 512 ≤ size
    · simp [there, tried.mpr there]
    · simpa [there, mt tried.mp there] using back
  | succ fuel ih =>
    obtain ⟨ahead, back, tried⟩ := @stride_spec σ disk size stride off file sized fits aligned
      strides short within
    rw [forward, Lib.climb, ahead]
    by_cases there : off + stride + 512 ≤ size
    · simp only [there, tried.mpr there, if_true]
      exact ih (Nat.dvd_add aligned strides) (by omega)
    · simpa [there, mt tried.mp there] using back

/-- A loop from the start of the device or an offset on it ends at such an offset, one
stride in front of one that is not. -/
theorem forward_reaches (sized : disk.Sized size) (fits : size < 2 ^ 40)
    (strides : FORWARD2 ∣ stride) (long : FORWARD2 ≤ stride) (short : stride ≤ FORWARD)
    (reached : Lib.Reached (fun x => x + 512 ≤ size) FORWARD2 off)
    (enough : size / FORWARD2 ≤ fuel) :
    ∃ file' r, disk.forward stride fuel file off = some (file', r) ∧
      Lib.Reached (fun x => x + 512 ≤ size) FORWARD2 r ∧ ¬ r + stride + 512 ≤ size := by
  have within : off ≤ size := by
    rcases reached.2 with zero | inside <;> omega
  have bound : size < off + stride * (fuel + 1) := by
    have grid : FORWARD2 * (fuel + 1) ≤ stride * (fuel + 1) := Nat.mul_le_mul_right _ long
    simp only [FORWARD2] at grid enough
    omega
  obtain ⟨r, ends⟩ := Lib.exists_climb (p := fun x => x + 512 ≤ size) (fun x _ => by omega) bound
  obtain ⟨there, stuck⟩ := Lib.reached_of_climb strides reached ends
  rw [← @forward_eq_climb _ _ _ _ fuel _ file sized fits strides short reached.1 within,
    Option.map_eq_some_iff] at ends
  obtain ⟨⟨file', _⟩, result, rfl⟩ := ends
  exact ⟨file', _, result, there, stuck⟩

/-- `disksize` ends and returns the last MB on which a sector can be read. -/
theorem disksize_isGreatest (sized : disk.Sized size) (fits : size < 2 ^ 40)
    (enough : size / 2 ^ 20 ≤ fuel) :
    ∃ r, disk.disksize fuel (some file) = some r ∧
      IsGreatest {r | 2 ^ 20 ∣ r ∧ (r = 0 ∨ r + 512 ≤ size)} r := by
  have start : Lib.Reached (fun x => x + 512 ≤ size) FORWARD2 0 := ⟨Nat.dvd_zero _, .inl rfl⟩
  obtain ⟨file₁, r₁, first, reached₁, -⟩ := @forward_reaches σ disk size FORWARD fuel 0 file
    sized fits (by decide) (by decide) le_rfl start enough
  obtain ⟨file₂, r₂, second, reached₂, -⟩ := @forward_reaches σ disk size FORWARD1 fuel r₁ file₁
    sized fits (by decide) (by decide) (by decide) reached₁ enough
  -- only the last loop has to stop where it must: the others just come closer
  obtain ⟨file₃, r, third, reached, stuck⟩ := @forward_reaches σ disk size FORWARD2 fuel r₂ file₂
    sized fits (Nat.dvd_refl _) le_rfl (by decide) reached₂ enough
  refine ⟨r, ?_, Lib.isGreatest_of_stuck (fun a b below inside => by omega) reached stuck⟩
  simp only [disksize, first, second, third, Option.bind_some, Option.map_some]

end Drive

namespace Device

/-- A device behind `seekto` and some `read`. -/
def drive {σ : Type*} (dev : Device σ) (read : σ → ℕ → σ × ℤ) : Drive σ where
  seekto file off :=
    match dev.seekto (off / 2 ^ 30) file off .set with
    | some o => (o.file, o.value)
    | none => (file, -1)
  read := read

/-- `read` of a file of `size` bytes at a position. -/
def readPlain (size : ℕ) (pos : ℤ) (n : ℕ) : ℤ × ℤ :=
  let got := max 0 (min (n : ℤ) (size - pos))
  (pos + got, got)

/-- An offset that is full MB does not look like an error in an `int`. -/
theorem toInt_ne_of_aligned {off : ℕ} (aligned : 2 ^ 20 ∣ off) : toInt off ≠ -1 := by
  intro error
  have same : toInt off % 2 ^ 32 = (off : ℤ) % 2 ^ 32 := Int.bmod_emod
  rw [error] at same
  omega

theorem seekto_plain {size off : ℕ} {pos : ℤ} (aligned : 2 ^ 20 ∣ off) :
    ((plain size).drive (readPlain size)).seekto pos off =
      ((off : ℤ), (off : ℤ)) := by
  obtain ⟨o, result, reaches⟩ := @seekto_set ℤ (plain size) off pos (off / 2 ^ 30)
    (plain_obliging le_rfl (by omega)) (by omega)
  obtain ⟨before, rest, target, value⟩ := reaches.value
  have there : o.file = off := reaches.pos
  have returned : ((plain size).lseek before rest .cur).2 = off := by
    have inside : ¬ before + rest < 0 := by
      have := target.ge
      simp only [plain, id] at this
      omega
    simp only [plain, inside, if_false]
    exact target
  rw [returned, if_pos ⟨toInt_ne_of_aligned aligned, rfl⟩] at value
  simp only [drive, result, there, value]

/-- A file is a device of its size: the 32-bit steps reach every MB. -/
theorem sized_plain {size : ℕ} : ((plain size).drive (readPlain size)).Sized size := by
  intro pos off aligned small
  have same : (off : ℤ) % 2 ^ 64 = off := by omega
  have sought := @seekto_plain size off pos aligned
  simp only [Drive.probe, sought, same, ne_eq, not_true_eq_false, if_false]
  simp only [drive, readPlain, decide_eq_true_eq]
  omega

/-- A file with less than a sector behind its third MB. -/
theorem disksize_short_sector :
    ∃ r, ((plain ((3 * 2 ^ 20 + 100 : ℕ) : ℤ)).drive (readPlain (3 * 2 ^ 20 + 100))).disksize 3
        (some 0) = some r ∧
      IsGreatest {r | 2 ^ 20 ∣ r ∧ (r = 0 ∨ r + 512 ≤ 3 * 2 ^ 20 + 100)} r :=
  Drive.disksize_isGreatest sized_plain (by decide) (by decide)

end Device

end Lmbench.Disk
