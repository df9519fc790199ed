import Lmbench.Disk.Distance
import Lmbench.Disk.Seekto

/-!
# The strides of the disk test

`zone` and `seek` divide the size of the device by the number of points they want, keep
the quotient in an `int` and round it up to sectors. `zone` then reads a block in every
stride, and `seek` flips between the ends of the device.

## Main results

* `pointStride_spec` - the stride for some number of points
* `length_zoneLoop_le` - how many samples `zone` takes
* `stridesFit_iff` - for which sizes the strides are what was wanted
-/

namespace Lmbench.Disk

/-- `SEEKPOINTS` -/
def SEEKPOINTS : ℕ := 2000

/-- `ZONEPOINTS` -/
def ZONEPOINTS : ℕ := 150

/-- The result of an `int` operation; none if it does not fit. -/
def int (x : ℤ) : Option ℤ := if -2 ^ 31 ≤ x ∧ x < 2 ^ 31 then some x else none

/-- `stride = size / points`, at least 512, and rounded up to a multiple of 512. -/
def pointStride (size points : ℕ) : Option ℤ :=
  let stride := toInt (size / points : ℕ)
  let stride := if stride < 512 then 512 else stride
  (int (stride + 511)).map fun stride => stride / 2 ^ 9 * 2 ^ 9

/-- The stride of `seek`. -/
def seekStride (size : ℕ) : Option ℤ := pointStride size SEEKPOINTS

/-- `stride` and `bsize` of `zone`. -/
def zoneStride (size : ℕ) (bsize : ℤ) : Option (ℤ × ℤ) :=
  (pointStride size ZONEPOINTS).map fun stride =>
    let bsize := if bsize > stride then 256 * 2 ^ 10 else bsize
    (if bsize > stride then bsize else stride, bsize)

/-- The loop of `zone` on a device of `length` bytes: the values of `off` that are printed.
Some offsets can be sought. -/
def zoneLoop (length : ℤ) (seekable : ℤ → Bool) (stride bsize : ℤ) : ℕ → ℤ → List ℤ
  | 0, _ => []
  | fuel + 1, off =>
    if length < off + 1024 then []
    else if length < off + 1024 + bsize then []
    else
      let off := off + 1024 + bsize
      off :: if seekable (off + stride) then
          zoneLoop length seekable stride bsize fuel (off + stride)
        else []

/-- The samples of `zone`, for some number of passes at most. -/
def zone (length : ℤ) (seekable : ℤ → Bool) (stride bsize : ℤ) (fuel : ℕ) : List ℤ :=
  -- the first I/O of a sector is not timed
  if length < 512 then [] else zoneLoop length seekable stride bsize fuel 512

/-- The stride and the block of `zone` are what was wanted for a device of `size` bytes in
full MB. -/
def ZoneFits (size : ℕ) : Prop :=
  ∃ stride bsize, zoneStride size (2 ^ 20) = some (stride, bsize) ∧
    toInt (size / ZONEPOINTS : ℕ) = (size / ZONEPOINTS : ℕ) ∧
    512 ∣ stride ∧ bsize ≤ stride ∧ size ≤ ZONEPOINTS * stride ∧
    ∀ (length : ℤ) seekable fuel, length < size + 2 ^ 20 + 512 →
      (zone length seekable stride bsize fuel).length ≤ ZONEPOINTS

/-- The stride of `seek` is what was wanted for a device of `size` bytes. -/
def SeekFits (size : ℕ) : Prop :=
  ∃ stride sc, seekStride size = some stride ∧
    toInt (size / SEEKPOINTS : ℕ) = (size / SEEKPOINTS : ℕ) ∧
    512 ∣ stride ∧ size ≤ SEEKPOINTS * stride ∧ diskTest stride = some sc ∧
    ∀ shots n, 2 * (sc.run size shots n).passes ≤ SEEKPOINTS ∧
      (sc.run size shots n).trace.length ≤ SEEKPOINTS ∧
      ∀ x ∈ (sc.run size shots n).trace, 0 ≤ x.target ∧ x.target ≤ size

/-- The strides of both parts of the test. -/
def StridesFit (size : ℕ) : Prop := ZoneFits size ∧ SeekFits size

variable {size points : ℕ}

/-- A quotient that leaves room for the rounding. -/
theorem pointStride_spec (room : size / points ≤ 2 ^ 31 - 512) :
    toInt (size / points : ℕ) = (size / points : ℕ) ∧
      ∃ stride, pointStride size points = some stride ∧ 512 ∣ stride ∧ 512 ≤ stride ∧
        (size / points : ℕ) ≤ stride ∧ (stride = 512 ∨ stride < (size / points : ℕ) + 512) := by
  unfold pointStride
  generalize size / points = quotient at *
  have same : toInt quotient = quotient := by
    apply Int.bmod_eq_of_le_mul_two <;> omega
  by_cases small : (quotient : ℤ) < 512
  · exact ⟨same, 512, by simp [same, small, int], by omega, by omega, by omega, .inl rfl⟩
  · have fits : -2 ^ 31 ≤ (quotient : ℤ) + 511 ∧ (quotient : ℤ) + 511 < 2 ^ 31 := by omega
    refine ⟨same, (quotient + 511) / 2 ^ 9 * 2 ^ 9, ?_, by omega, by omega, by omega, by omega⟩
    simp only [same, small, if_false]
    rw [int, if_pos fits, Option.map_some]

/-- A quotient that does not. -/
theorem le_of_pointStride {stride : ℤ} (same : toInt (size / points : ℕ) = (size / points : ℕ))
    (result : pointStride size points = some stride) : size / points ≤ 2 ^ 31 - 512 := by
  unfold pointStride at result
  generalize size / points = quotient at *
  by_contra large
  have small : ¬ (quotient : ℤ) < 512 := by omega
  simp only [same, small, if_false] at result
  rw [int, if_neg (by omega)] at result
  simp at result

section Zone

variable {length stride bsize off : ℤ} {seekable : ℤ → Bool} {fuel : ℕ}

/-- Between two samples lie a stride, a block and the untimed read. -/
theorem length_zoneLoop_le (inside : off ≤ length + stride) :
    (zoneLoop length seekable stride bsize fuel off).length * (1024 + bsize + stride) ≤
      length + stride - off := by
  induction fuel generalizing off with
  | zero => simpa [zoneLoop] using inside
  | succ fuel ih =>
    rw [zoneLoop]
    split
    · simpa using inside
    · split
      · simpa using inside
      · simp only [List.length_cons, Int.natCast_succ, Int.add_mul, Int.one_mul]
        split
        · have rest := @ih (off + 1024 + bsize + stride) (by omega)
          omega
        · simp only [List.length_nil, Int.natCast_zero, Int.zero_mul]
          omega

/-- No more samples than points. -/
theorem length_zone_le {size : ℕ} (blocks : 2 ^ 18 ≤ bsize) (room : bsize ≤ stride)
    (points : size ≤ ZONEPOINTS * stride) (fits : length < size + 2 ^ 20 + 512) :
    (zone length seekable stride bsize fuel).length ≤ ZONEPOINTS := by
  rw [zone]
  split
  · simp
  · have spaced := @length_zoneLoop_le length stride bsize 512 seekable fuel (by omega)
    by_contra more
    have least : (ZONEPOINTS + 1 : ℤ) * (1024 + bsize + stride) ≤
        (zoneLoop length seekable stride bsize fuel 512).length * (1024 + bsize + stride) :=
      Int.mul_le_mul_of_nonneg_right (by omega) (by omega)
    simp only [ZONEPOINTS] at points least
    omega

end Zone

/-- The stride of `zone` for a quotient with room. -/
theorem zoneFits_of_room (aligned : 2 ^ 20 ∣ size) (room : size / ZONEPOINTS ≤ 2 ^ 31 - 512) :
    ZoneFits size := by
  obtain ⟨same, stride, result, sectors, least, covers, -⟩ := pointStride_spec room
  have points : (size : ℤ) ≤ ZONEPOINTS * stride := by
    -- a stride of just the quotient leaves no remainder, since both are full sectors
    simp only [ZONEPOINTS] at covers ⊢
    omega
  by_cases large : (2 : ℤ) ^ 20 ≤ stride
  · refine ⟨stride, 2 ^ 20, ?_, same, sectors, large, points, fun length seekable fuel fits =>
      length_zone_le (by decide) large points fits⟩
    have kept : ¬ (2 : ℤ) ^ 20 > stride := by omega
    rw [zoneStride, result, Option.map_some]
    simp only [kept, if_false]
  · by_cases middle : 256 * (2 : ℤ) ^ 10 ≤ stride
    · refine ⟨stride, 256 * 2 ^ 10, ?_, same, sectors, middle, points,
        fun length seekable fuel fits => length_zone_le (by decide) middle points fits⟩
      have shorter : (2 : ℤ) ^ 20 > stride := by omega
      have kept : ¬ 256 * (2 : ℤ) ^ 10 > stride := by omega
      rw [zoneStride, result, Option.map_some]
      simp only [shorter, kept, if_true, if_false]
    · have points' : (size : ℤ) ≤ ZONEPOINTS * (256 * 2 ^ 10 : ℤ) := by
        simp only [ZONEPOINTS] at points ⊢
        omega
      refine ⟨256 * 2 ^ 10, 256 * 2 ^ 10, ?_, same, by decide, le_rfl, points',
        fun length seekable fuel fits => length_zone_le (by decide) le_rfl points' fits⟩
      have shorter : (2 : ℤ) ^ 20 > stride := by omega
      have longer : 256 * (2 : ℤ) ^ 10 > stride := by omega
      rw [zoneStride, result, Option.map_some]
      simp only [shorter, longer, if_true]

/-- Half as many passes as points. -/
theorem passes_diskScan_le {stride : ℤ} {shots : ℕ → Shot} {n : ℕ} (positive : 0 < stride)
    (points : (size : ℤ) ≤ SEEKPOINTS * stride) :
    2 * ((diskScan stride).run size shots n).passes ≤ SEEKPOINTS := by
  by_contra many
  obtain ⟨k, last⟩ : ∃ k, ((diskScan stride).run size shots n).passes = k + 1 :=
    Nat.exists_eq_succ_of_ne_zero (by omega)
  -- the ends were still two strides apart when the last pass was made
  have apart : k * stride + stride * 2 ≤ size - k * stride :=
    of_decide_eq_true (Scan.run_positions.goes k last)
  have least : (SEEKPOINTS / 2 : ℤ) * stride ≤ k * stride :=
    Int.mul_le_mul_of_nonneg_right (by omega) (by omega)
  simp only [SEEKPOINTS] at points least
  omega

/-- The loop of `seek` with a stride that divides the device into enough points. -/
theorem run_diskScan_fits {stride : ℤ} {shots : ℕ → Shot} {n : ℕ} (positive : 0 < stride)
    (points : (size : ℤ) ≤ SEEKPOINTS * stride) :
    2 * ((diskScan stride).run size shots n).passes ≤ SEEKPOINTS ∧
      ((diskScan stride).run size shots n).trace.length ≤ SEEKPOINTS ∧
      ∀ x ∈ ((diskScan stride).run size shots n).trace, 0 ≤ x.target ∧ x.target ≤ size := by
  have few := @passes_diskScan_le size stride shots n positive points
  have targets := @Scan.run_forall (diskScan stride) size shots n
    (fun b e => 0 ≤ b ∧ e ≤ size) (fun x => 0 ≤ x.target ∧ x.target ≤ size) ⟨le_rfl, le_rfl⟩
    ?_ ?_ ?_
  · exact ⟨few, Scan.run_positions.trace.trans few, targets.2⟩
  · rintro b e ⟨low, high⟩ -
    simp only [diskScan]
    omega
  · rintro b e shown ⟨low, high⟩ goes
    have apart : b + stride * 2 ≤ e := of_decide_eq_true goes
    simp only [Scan.thereTimed, diskScan]
    omega
  · rintro b e shown ⟨low, high⟩ goes
    have apart : b + stride * 2 ≤ e := of_decide_eq_true goes
    simp only [Scan.backTimed, diskScan]
    omega

/-- The stride of `seek` for a quotient with room. -/
theorem seekFits_of_room (aligned : 2 ^ 20 ∣ size) (room : size / ZONEPOINTS ≤ 2 ^ 31 - 512) :
    SeekFits size := by
  have room' : size / SEEKPOINTS ≤ 2 ^ 31 - 512 := by
    simp only [ZONEPOINTS, SEEKPOINTS] at room ⊢
    omega
  obtain ⟨same, stride, result, sectors, least, covers, short⟩ := pointStride_spec room'
  have points : (size : ℤ) ≤ SEEKPOINTS * stride := by
    simp only [SEEKPOINTS] at covers ⊢
    omega
  have fits : stride * 2 < 2 ^ 31 := by
    simp only [SEEKPOINTS, ZONEPOINTS] at short room
    omega
  exact ⟨stride, diskScan stride, result, same, sectors, points, if_pos fits,
    fun shots n => run_diskScan_fits (by omega) points⟩

/-- The strides are what was wanted exactly if the stride of `zone` fits an `int` before and
after it is rounded up. -/
theorem stridesFit_iff (aligned : 2 ^ 20 ∣ size) :
    StridesFit size ↔ size / ZONEPOINTS ≤ 2 ^ 31 - 512 := by
  constructor
  · rintro ⟨⟨stride, bsize, result, same, -⟩, -⟩
    rw [zoneStride, Option.map_eq_some_iff] at result
    obtain ⟨_, quotient, -⟩ := result
    exact le_of_pointStride same quotient
  · intro room
    exact ⟨zoneFits_of_room aligned room, seekFits_of_room aligned room⟩

/-- A device of 1000 MB. -/
theorem stridesFit_thousandMB : StridesFit (1000 * 2 ^ 20) :=
  (stridesFit_iff (by decide)).mpr (by decide)

/-- A device of 150 times 4 GB: the quotient is 0 in an `int`. -/
theorem not_stridesFit_sixHundredGB : ¬ StridesFit (ZONEPOINTS * 2 ^ 32) := by
  rintro ⟨⟨stride, bsize, -, same, -⟩, -⟩
  revert same
  decide

end Lmbench.Disk
