import Lmbench.BwUdp.Request

/-!
# The transfers of the `bw_udp` client

`loop_transfer` sends the request once for each iteration and receives datagrams as long
as `nbytes` is left. `nbytes` is set in front of the outer loop only.

## Main results

* `loopTransfer_received` - the client receives what `clientWaits` says
* `loopTransfer_mul` - every reply but the first is left unread
* `transfersReported_iff` - when the reported amount is received
-/

namespace Lmbench.BwUdp

/-- The client in `loop_transfer`: `nbytes`, the requests that it sent, the datagrams that it
received, and how many of them between each request and the next. -/
structure Client where
  nbytes : ℤ
  requests : ℕ
  received : ℕ
  replies : List ℕ
  exited : Bool
deriving DecidableEq, Repr

/-- The client in front of the loop. -/
def Client.start (move : ℤ) : Client where
  nbytes := move
  requests := 0
  received := 0
  replies := []
  exited := false

/-- The inner loop behind `k` datagrams: the datagrams and `nbytes` behind it, and whether a
message that is not full ended the program. None if `fuel` is used up. -/
def drain (msize : ℤ) (full : ℕ → Bool) : ℕ → ℕ → ℤ → Option (ℕ × ℤ × Bool)
  | fuel, k, nbytes =>
    if 0 < nbytes then
      match fuel with
      | 0 => none
      | fuel + 1 =>
        if full k then drain msize full fuel (k + 1) (nbytes - msize)
        else some (k, nbytes, true)
    else some (k, nbytes, false)

/-- `loop_transfer(iterations)`. Some requests are sent, and some messages are full. -/
def loopTransfer (msize : ℤ) (sends full : ℕ → Bool) : ℕ → Client → Option Client
  | 0, c => some c
  | iterations + 1, c =>
    if sends c.requests then
      (drain msize full c.nbytes.toNat c.received c.nbytes).bind fun (k, nbytes, exited) =>
        let c : Client :=
          { nbytes := nbytes
            requests := c.requests + 1
            received := k
            replies := c.replies ++ [k - c.received]
            exited := exited }
        if exited then some c else loopTransfer msize sends full iterations c
    else some { c with exited := true }

/-- If nothing fails, as much is received as `main` reports for these iterations, with one
request for each, whose reply is received completely. -/
def TransfersReported (msize move : ℤ) (iterations : ℕ) : Prop :=
  ∀ sends full : ℕ → Bool, (∀ i, sends i = true) → (∀ i, full i = true) →
    ∃ c, loopTransfer msize sends full iterations (.start move) = some c ∧ c.exited = false ∧
      c.requests = iterations ∧ c.received * msize = iterations * move ∧
      c.replies.length = iterations ∧ ∀ k ∈ c.replies, k * msize = move

variable {msize move nbytes : ℤ} {sends full : ℕ → Bool} {fuel k iterations : ℕ} {c : Client}

/-- Full messages are counted down. -/
theorem drain_eq_passes (good : ∀ i, full i = true) :
    drain msize full fuel k nbytes =
      (passes msize fuel nbytes).map fun loop => (k + loop.1, loop.2, false) := by
  induction fuel generalizing k nbytes with
  | zero =>
    rw [drain, passes]
    split <;> simp
  | succ fuel ih =>
    rw [drain, passes]
    split
    · rw [if_pos (good k), ih, Option.map_map]
      congr 1
      funext loop
      simp [Nat.add_assoc, Nat.add_comm 1 loop.1]
    · simp

theorem drain_eq_pieces (good : ∀ i, full i = true) :
    drain msize full nbytes.toNat k nbytes =
      (pieces msize nbytes).map fun loop => (k + loop.1, loop.2, false) :=
  drain_eq_passes good

/-- One iteration. -/
theorem loopTransfer_succ {j : ℕ} {rest : ℤ} (sent : ∀ i, sends i = true)
    (good : ∀ i, full i = true) (loop : pieces msize c.nbytes = some (j, rest)) :
    loopTransfer msize sends full (iterations + 1) c =
      loopTransfer msize sends full iterations
        { nbytes := rest
          requests := c.requests + 1
          received := c.received + j
          replies := c.replies ++ [j]
          exited := false } := by
  rw [loopTransfer, if_pos (sent _), drain_eq_pieces good, loop]
  simp

/-- The client receives what it waits for. -/
theorem loopTransfer_received (positive : 1 ≤ msize) (sent : ∀ i, sends i = true)
    (good : ∀ i, full i = true) :
    (loopTransfer msize sends full iterations c).map Client.received =
      (clientWaits msize iterations c.nbytes).map (c.received + ·) := by
  induction iterations generalizing c with
  | zero => rfl
  | succ iterations ih =>
    obtain ⟨j, rest, loop, -⟩ := pieces_of_pos positive c.nbytes
    rw [loopTransfer_succ sent good loop, ih, clientWaits, loop]
    simp only [Option.bind_eq_bind, Option.bind_some, Option.map_bind]
    cases clientWaits msize iterations rest with
    | none => rfl
    | some k => simp [Nat.add_assoc]

/-- Once nothing is left, requests are sent and nothing is received. -/
theorem loopTransfer_idle (sent : ∀ i, sends i = true) (good : ∀ i, full i = true)
    (live : c.exited = false) (idle : c.nbytes ≤ 0) :
    loopTransfer msize sends full iterations c =
      some { c with
        requests := c.requests + iterations
        replies := c.replies ++ List.replicate iterations 0 } := by
  induction iterations generalizing c with
  | zero => simp [loopTransfer]
  | succ iterations ih =>
    rw [loopTransfer_succ sent good (pieces_of_nonpos idle)]
    refine (@ih ⟨c.nbytes, c.requests + 1, c.received + 0, c.replies ++ [0], false⟩
      rfl idle).trans ?_
    simp only [Nat.add_zero, List.append_assoc, Option.some.injEq, Client.mk.injEq, true_and]
    exact ⟨by omega, rfl, live.symm⟩

/-- The first reply is received completely, and no other. -/
theorem loopTransfer_mul (positive : 1 ≤ msize) (sent : ∀ i, sends i = true)
    (good : ∀ i, full i = true) :
    loopTransfer msize sends full (iterations + 1) (.start (k * msize)) =
      some {
        nbytes := 0
        requests := iterations + 1
        received := k
        replies := k :: List.replicate iterations 0
        exited := false } := by
  rw [loopTransfer_succ sent good (pieces_mul positive k), loopTransfer_idle sent good rfl le_rfl]
  simp [Client.start, Nat.add_comm]

/-- The client receives what is reported exactly if there is one iteration. -/
theorem transfersReported_iff (moves : 0 < move) (positive : 0 < msize) (full : msize ∣ move)
    (least : 1 ≤ iterations) : TransfersReported msize move iterations ↔ iterations = 1 := by
  obtain ⟨k, rfl⟩ : ∃ k : ℕ, move = k * msize := by
    obtain ⟨q, rfl⟩ := full
    refine ⟨q.toNat, ?_⟩
    have nonneg : 0 ≤ q := by
      by_contra negative
      have := Int.mul_nonpos_of_nonneg_of_nonpos positive.le (by omega : q ≤ 0)
      omega
    rw [Int.toNat_of_nonneg nonneg, Int.mul_comm]
  obtain ⟨later, rfl⟩ := Nat.exists_eq_succ_of_ne_zero (by omega : iterations ≠ 0)
  have run := @loopTransfer_mul msize (fun _ => true) (fun _ => true) k later positive
    (fun _ => rfl) fun _ => rfl
  constructor
  · intro reported
    obtain ⟨c, result, -, -, amount, -⟩ := reported _ _ (fun _ => rfl) fun _ => rfl
    rw [run] at result
    obtain rfl := Option.some.inj result
    -- `k` messages are as many as `later + 1` times `k` messages
    have once : (1 : ℤ) * (k * msize) = ((later + 1 : ℕ) : ℤ) * (k * msize) := by
      rw [Int.one_mul]
      exact amount
    have same := Int.eq_of_mul_eq_mul_right (by omega) once
    omega
  · rintro once sends full sent good
    obtain rfl : later = 0 := by omega
    refine ⟨_, loopTransfer_mul positive sent good, rfl, rfl, ?_, rfl, ?_⟩
    · simp
    · simp

/-- One iteration of two messages. -/
theorem transfersReported_once : TransfersReported 512 1024 1 :=
  (transfersReported_iff (by decide) (by decide) (by decide) (by decide)).mpr rfl

/-- In two iterations two messages are received, and four are reported. -/
theorem not_transfersReported_twice : ¬ TransfersReported 512 1024 2 := by
  intro reported
  obtain ⟨c, result, -, -, amount, -⟩ := reported (fun _ => true) (fun _ => true) (fun _ => rfl)
    fun _ => rfl
  rw [show (1024 : ℤ) = (2 : ℕ) * 512 from rfl,
    loopTransfer_mul (by decide) (fun _ => rfl) fun _ => rfl] at result
  obtain rfl := Option.some.inj result
  revert amount
  decide

end Lmbench.BwUdp
