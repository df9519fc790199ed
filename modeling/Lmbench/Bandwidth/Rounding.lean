import Lmbench.BwUdp.Request
import Mathlib.Order.Bounds.Basic

/-!
# The byte count of the bandwidth tests

Each test takes a message size and a byte count, and rounds the byte count up to full
messages before it measures. The reader then takes messages until the count is used up.
`bw_pipe`, `bw_unix` and `bw_udp` add the wrong amount; `bw_pipe` and `bw_tcp` also have
a guard for counts below one message.

## Main results

* `receives_of_dvd` - a reader of full messages takes a count of full messages exactly
* `roundsUp_iff` - when the step rounds up to what the reader takes and the test reports
-/

namespace Lmbench.Bandwidth

/-- The bandwidth tests. -/
inductive Test
  | pipe
  | unix
  | udp
  | tcp
deriving DecidableEq, Repr

/-- `XFER` -/
def XFER : ℕ := 10 * 1024 * 1024

/-- `XFERSIZE` -/
def XFERSIZE : ℕ := 64 * 1024

/-- `if (bytes % xfer) bytes += bytes - bytes % xfer`. -/
def addBytes (xfer bytes : ℕ) : ℕ :=
  if bytes % xfer ≠ 0 then (bytes + (bytes - bytes % xfer)) % 2 ^ 64 else bytes

/-- `if (bytes % xfer) bytes += xfer - bytes % xfer`. -/
def addRest (xfer bytes : ℕ) : ℕ :=
  if bytes % xfer ≠ 0 then (bytes + (xfer - bytes % xfer)) % 2 ^ 64 else bytes

/-- `bw_pipe`: `xfer` and `bytes` as `main` settles them. -/
def pipe (xfer bytes : ℕ) : ℕ × ℕ := (xfer, if bytes < xfer then xfer else addBytes xfer bytes)

/-- `bw_unix`: `xfer` and `bytes`. -/
def unix (xfer bytes : ℕ) : ℕ × ℕ := (xfer, addBytes xfer bytes)

/-- `bw_udp`: `msize` and `move`. -/
def udp (msize move : ℕ) : ℕ × ℕ :=
  let msize := if msize = 0 then move else msize
  (msize, addBytes msize move)

/-- `bw_tcp`: `msize` and `move`. -/
def tcp (msize move : ℕ) : ℕ × ℕ :=
  let (msize, move) :=
    if msize = 0 ∧ move = 0 then (XFERSIZE, XFERSIZE)
    else if msize = 0 then (move, move)
    else if move = 0 then (msize, msize)
    else (msize, move)
  (msize, addRest msize move)

/-- The message size and the byte count of one iteration, for those that were asked for. -/
def Test.settle : Test → ℕ → ℕ → ℕ × ℕ
  | .pipe => Bandwidth.pipe
  | .unix => Bandwidth.unix
  | .udp => Bandwidth.udp
  | .tcp => Bandwidth.tcp

/-- What is multiplied with the number of iterations for the report. -/
def Test.reports : Test → ℕ → ℕ
  | .unix, _ => XFER
  | .pipe, bytes => bytes
  | .udp, move => move
  | .tcp, move => move

/-- `for (done = 0; done < bytes; done += n)` with full messages: what is read. None if
`fuel` is used up. -/
def readUp (xfer bytes : ℕ) : ℕ → ℕ → Option ℕ
  | fuel, done =>
    if done < bytes then
      match fuel with
      | 0 => none
      | fuel + 1 => readUp xfer bytes fuel (done + xfer)
    else some done

/-- `for (todo = move; todo > 0; todo -= c)` with full messages, of which no more than
`todo` is subtracted: what is read. -/
def readDown (msize : ℕ) : ℕ → ℕ → Option ℕ
  | fuel, todo =>
    if 0 < todo then
      match fuel with
      | 0 => none
      | fuel + 1 => (readDown msize fuel (todo - min msize todo)).map (msize + ·)
    else some 0

/-- What the reader of full messages takes in one iteration. -/
def Test.receives (t : Test) (fuel msize bytes : ℕ) : Option ℕ :=
  match t with
  | .pipe => readUp msize bytes fuel 0
  | .unix => readUp msize bytes fuel 0
  | .udp => (BwUdp.pieces msize bytes).map fun (k, _) => k * msize
  | .tcp => readDown msize fuel bytes

/-- The byte count is the least number of full messages that covers the request, and the
reader takes as much as the report says. -/
structure RoundsUp (t : Test) (msize request : ℕ) : Prop where
  size : (t.settle msize request).1 = msize
  least : IsLeast {b | msize ∣ b ∧ request ≤ b ∧ msize ≤ b} (t.settle msize request).2
  reader : ∀ fuel ≥ (t.settle msize request).2,
    t.receives fuel msize (t.settle msize request).2 = some (t.reports (t.settle msize request).2)

/-- The requests that are settled as they should be. -/
def Test.Settles : Test → ℕ → ℕ → Prop
  | .pipe, msize, request => request < msize ∨ msize ∣ request
  | .unix, msize, request => msize ∣ request ∧ request = XFER
  | .udp, msize, request => 0 < request ∧ msize ∣ request
  | .tcp, _, _ => True

variable {msize request bytes fuel k : ℕ}

section Readers

theorem readUp_mul {done : ℕ} (positive : 0 < msize) (enough : k ≤ fuel) :
    readUp msize (done + k * msize) fuel done = some (done + k * msize) := by
  induction k generalizing fuel done with
  | zero => cases fuel <;> simp [readUp]
  | succ k ih =>
    obtain ⟨more, rfl⟩ := Nat.exists_eq_succ_of_ne_zero (by omega : fuel ≠ 0)
    have left : done < done + (k + 1) * msize :=
      Nat.lt_add_of_pos_right (Nat.mul_pos (by omega) positive)
    have next : done + (k + 1) * msize = done + msize + k * msize := by
      rw [Nat.succ_mul]
      omega
    rw [readUp, if_pos left, next]
    exact ih (by omega)

theorem readDown_mul (positive : 0 < msize) (enough : k ≤ fuel) :
    readDown msize fuel (k * msize) = some (k * msize) := by
  induction k generalizing fuel with
  | zero => cases fuel <;> simp [readDown]
  | succ k ih =>
    obtain ⟨more, rfl⟩ := Nat.exists_eq_succ_of_ne_zero (by omega : fuel ≠ 0)
    have left : 0 < (k + 1) * msize := Nat.mul_pos (by omega) positive
    have rest : (k + 1) * msize - min msize ((k + 1) * msize) = k * msize := by
      rw [Nat.succ_mul]
      omega
    rw [readDown, if_pos left, rest, ih (by omega), Option.map_some, Nat.succ_mul, Nat.add_comm]

/-- A reader of full messages takes a count of full messages exactly. -/
theorem receives_of_dvd (t : Test) (positive : 0 < msize) (full : msize ∣ bytes)
    (enough : bytes ≤ fuel) : t.receives fuel msize bytes = some bytes := by
  obtain ⟨k, rfl⟩ := full
  rw [Nat.mul_comm] at enough ⊢
  have few : k ≤ fuel := (Nat.le_mul_of_pos_right k positive).trans enough
  have up : readUp msize (k * msize) fuel 0 = some (k * msize) := by
    simpa using @readUp_mul msize fuel k 0 positive few
  cases t with
  | pipe => exact up
  | unix => exact up
  | udp =>
    have pieces := @BwUdp.pieces_mul msize (by omega) k
    rw [Test.receives, Int.natCast_mul, pieces, Option.map_some]
  | tcp => exact readDown_mul positive few

end Readers

section Rounding

/-- A count of full messages that is less than one message too long. -/
theorem isLeast_of_lt {b : ℕ} (full : msize ∣ b) (covers : request ≤ b) (one : msize ≤ b)
    (near : b < request + msize ∨ b = msize) :
    IsLeast {b | msize ∣ b ∧ request ≤ b ∧ msize ≤ b} b := by
  refine ⟨⟨full, covers, one⟩, fun x ⟨full', covers', one'⟩ => ?_⟩
  rcases near with near | rfl
  · by_contra below
    have apart : x + msize ≤ b := by
      obtain ⟨i, rfl⟩ := full
      obtain ⟨j, rfl⟩ := full'
      have more : j + 1 ≤ i := by
        by_contra few
        exact below (Nat.mul_le_mul_left msize (by omega))
      calc
        msize * j + msize = msize * (j + 1) := (Nat.mul_succ msize j).symm
        _ ≤ msize * i := Nat.mul_le_mul_left msize more
    omega
  · exact one'

theorem addBytes_of_dvd (full : msize ∣ request) : addBytes msize request = request :=
  if_neg (not_not.mpr (Nat.mod_eq_zero_of_dvd full))

/-- The wrong amount never ends at full messages. -/
theorem dvd_addBytes_iff (small : request < 2 ^ 62) :
    msize ∣ addBytes msize request ↔ msize ∣ request := by
  constructor
  · intro full
    by_cases whole : request % msize = 0
    · exact Nat.dvd_of_mod_eq_zero whole
    · have rest := Nat.mod_le request msize
      have sum : (request + (request - request % msize)) % 2 ^ 64 =
          request + (request - request % msize) := Nat.mod_eq_of_lt (by omega)
      rw [addBytes, if_pos whole, sum] at full
      exact (Nat.dvd_add_left (Nat.dvd_sub_mod request)).mp full
  · intro full
    rwa [addBytes_of_dvd full]

/-- The right amount does, and is as small as can be. -/
theorem isLeast_addRest (positive : 0 < msize) (small : msize < 2 ^ 62) (asked : 0 < request)
    (small' : request < 2 ^ 62) :
    IsLeast {b | msize ∣ b ∧ request ≤ b ∧ msize ≤ b} (addRest msize request) := by
  by_cases whole : request % msize = 0
  · have full := Nat.dvd_of_mod_eq_zero whole
    rw [addRest, if_neg (not_not.mpr whole)]
    exact isLeast_of_lt full le_rfl (Nat.le_of_dvd asked full) (.inl (by omega))
  · have rest := Nat.mod_lt request positive
    have sum : (request + (msize - request % msize)) % 2 ^ 64 =
        msize * (request / msize + 1) := by
      rw [Nat.mod_eq_of_lt (by omega), Nat.mul_succ]
      have split := Nat.div_add_mod request msize
      omega
    have next : msize * (request / msize + 1) = request + (msize - request % msize) := by
      rw [← sum, Nat.mod_eq_of_lt (by omega)]
    rw [addRest, if_pos whole, sum]
    refine isLeast_of_lt (Nat.dvd_mul_right _ _) (by omega) ?_ (.inl (by omega))
    exact Nat.le_mul_of_pos_right msize (Nat.succ_pos _)

end Rounding

variable {t : Test}

/-- A count that is rounded up and reported. -/
theorem roundsUp_of_least (positive : 1 ≤ msize) (settled : t.settle msize request = (msize, bytes))
    (least : IsLeast {b | msize ∣ b ∧ request ≤ b ∧ msize ≤ b} bytes)
    (reported : t.reports bytes = bytes) : RoundsUp t msize request := by
  have full : msize ∣ bytes := least.1.1
  refine ⟨by rw [settled], by rwa [settled], fun fuel enough => ?_⟩
  rw [settled] at enough ⊢
  rw [receives_of_dvd t positive full enough, reported]

/-- A request of full messages is the least count for itself. -/
theorem isLeast_of_dvd (positive : 1 ≤ msize) (asked : 0 < request) (full : msize ∣ request) :
    IsLeast {b | msize ∣ b ∧ request ≤ b ∧ msize ≤ b} (addBytes msize request) := by
  rw [addBytes_of_dvd full]
  exact isLeast_of_lt full le_rfl (Nat.le_of_dvd asked full) (.inl (by omega))

theorem pipe_roundsUp_iff (positive : 1 ≤ msize) (small : request < 2 ^ 62) :
    RoundsUp .pipe msize request ↔ request < msize ∨ msize ∣ request := by
  by_cases short : request < msize
  · have settled : Test.pipe.settle msize request = (msize, msize) :=
      congrArg (Prod.mk msize) (if_pos short)
    refine iff_of_true ?_ (.inl short)
    exact roundsUp_of_least positive settled
      (isLeast_of_lt (Nat.dvd_refl _) short.le le_rfl (.inr rfl)) rfl
  · have settled : Test.pipe.settle msize request = (msize, addBytes msize request) :=
      congrArg (Prod.mk msize) (if_neg short)
    constructor
    · rintro ⟨-, least, -⟩
      rw [settled] at least
      exact .inr ((dvd_addBytes_iff small).mp least.1.1)
    · rintro (contra | full)
      · exact absurd contra short
      · exact roundsUp_of_least positive settled (isLeast_of_dvd positive (by omega) full) rfl

theorem unix_roundsUp_iff (positive : 1 ≤ msize) (small : request < 2 ^ 62) :
    RoundsUp .unix msize request ↔ msize ∣ request ∧ request = XFER := by
  have settled : Test.unix.settle msize request = (msize, addBytes msize request) := rfl
  constructor
  · rintro ⟨-, least, reader⟩
    rw [settled] at least reader
    have full := (dvd_addBytes_iff small).mp least.1.1
    have taken := receives_of_dvd .unix positive least.1.1 le_rfl
    rw [reader _ le_rfl, Option.some.injEq] at taken
    rw [addBytes_of_dvd full] at taken
    exact ⟨full, taken.symm⟩
  · rintro ⟨full, rfl⟩
    refine roundsUp_of_least positive settled (isLeast_of_dvd positive (by decide) full) ?_
    rw [addBytes_of_dvd full]
    rfl

theorem udp_roundsUp_iff (positive : 1 ≤ msize) (small : request < 2 ^ 62) :
    RoundsUp .udp msize request ↔ 0 < request ∧ msize ∣ request := by
  have nonzero : msize ≠ 0 := by omega
  have settled : Test.udp.settle msize request = (msize, addBytes msize request) := by
    simp only [Test.settle, udp, nonzero, if_false]
  constructor
  · rintro ⟨-, least, -⟩
    rw [settled] at least
    obtain ⟨full, -, one⟩ := least.1
    have full' := (dvd_addBytes_iff small).mp full
    rw [addBytes_of_dvd full'] at one
    exact ⟨by omega, full'⟩
  · rintro ⟨asked, full⟩
    exact roundsUp_of_least positive settled (isLeast_of_dvd positive asked full) rfl

theorem tcp_roundsUp (positive : 1 ≤ msize) (small : msize < 2 ^ 62) (small' : request < 2 ^ 62) :
    RoundsUp .tcp msize request := by
  have nonzero : msize ≠ 0 := by omega
  by_cases zero : request = 0
  · subst zero
    have settled : Test.tcp.settle msize 0 = (msize, addRest msize msize) := by
      simp [Test.settle, tcp, nonzero]
    have one : addRest msize msize = msize := if_neg (not_not.mpr (Nat.mod_self msize))
    rw [one] at settled
    exact roundsUp_of_least positive settled
      (isLeast_of_lt (Nat.dvd_refl _) (Nat.zero_le _) le_rfl (.inr rfl)) rfl
  · have settled : Test.tcp.settle msize request = (msize, addRest msize request) := by
      simp [Test.settle, tcp, nonzero, zero]
    exact roundsUp_of_least positive settled
      (isLeast_addRest positive small (Nat.pos_of_ne_zero zero) small') rfl

/-- The step rounds up, and the report counts what the reader takes, for just the requests
of `Test.Settles`. -/
theorem roundsUp_iff (positive : 1 ≤ msize) (small : msize < 2 ^ 62)
    (small' : request < 2 ^ 62) : RoundsUp t msize request ↔ t.Settles msize request := by
  cases t with
  | pipe => exact pipe_roundsUp_iff positive small'
  | unix => exact unix_roundsUp_iff positive small'
  | udp => exact udp_roundsUp_iff positive small'
  | tcp => exact iff_of_true (tcp_roundsUp positive small small') trivial

/-- `bw_pipe -m 64 -M 64k` -/
theorem roundsUp_pipe : RoundsUp .pipe 64 65536 :=
  (roundsUp_iff (by decide) (by decide) (by decide)).mpr (.inr (by decide))

/-- `bw_pipe -m 64 -M 100` moves 164 bytes. -/
theorem not_roundsUp_pipe : ¬ RoundsUp .pipe 64 100 := by
  rintro ⟨-, least, -⟩
  have full : 64 ∣ 164 := least.1.1
  revert full
  decide

end Lmbench.Bandwidth
