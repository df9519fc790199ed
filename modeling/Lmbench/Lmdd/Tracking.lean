import Lmbench.Lmdd.Loop

/-!
# `off` and the file positions

`off` starts at the offset that `skip` asks for and grows by every block that is handled.
The kernel's positions start there too, unless `lseek` refuses the offset (each file system
has a largest one), and grow with every transfer. The padding read moves the position of the
input and not `off`, and `O_APPEND` writes to the end of the output wherever `off` says.

## Main results

* `Positions` - both counts in terms of the bytes that were handled
* `tracked_of_run` - which every pass keeps
* `off_eq_pos_iff` - when the pattern is taken from the offset of the block
-/

namespace Lmbench.Lmdd

/-- When `off` is the offset of the block: `skip` asks for an offset that `lseek` takes, and
the block that is compared was not preceded by a padding read, or the block that is filled
is not appended to a file of another length. -/
def Config.Tracks (cfg : Config) (out : List UInt8) : Kind → Prop
  | .compare => cfg.firstOff ≤ cfg.inLimit ∧ cfg.padin = false
  | .fill => if cfg.append then out.length = cfg.firstOff else cfg.firstOff ≤ cfg.outLimit

instance (cfg : Config) (out : List UInt8) : (kind : Kind) → Decidable (cfg.Tracks out kind)
  | .compare => inferInstanceAs (Decidable (_ ∧ _))
  | .fill => inferInstanceAs (Decidable (if cfg.append then _ else _))

/-- The variables and positions when `handled` bytes were handled after a padding read of
`pad` bytes. -/
structure Positions (cfg : Config) (input out : List UInt8) (pad handled : ℕ) (s : State) :
    Prop where
  off : s.off = (cfg.firstOff + handled) % 2 ^ 64
  inPos : cfg.hasIn → s.inPos = cfg.firstPos cfg.inLimit + pad + handled
  outPos : cfg.hasOut → cfg.append = false → s.outPos = cfg.firstPos cfg.outLimit + handled
  output : cfg.hasOut → cfg.append → s.output.length = out.length + handled
  pending : cfg.hasIn → s.padIn → pad = 0 ∧ handled = 0
  asked : s.padIn → cfg.padin
  unpadded : cfg.padin = false → pad = 0
  padded : cfg.hasIn → cfg.padin → s.padIn = false → 0 < pad ∨ input.length ≤ s.inPos

/-- Every use of the pattern so far is as `Config.Tracks` says. -/
structure Tracked (cfg : Config) (input out : List UInt8) (s : State) : Prop where
  holds : input.length ≤ cfg.inLimit
  wide : s.Wide cfg
  trace : ∀ a ∈ s.trace, a.pos < 2 ^ 63 → (a.off = a.pos ↔ cfg.Tracks out a.kind)
  positions : s.finished = false → ∃ pad handled, Positions cfg input out pad handled s

variable {cfg : Config} {input out : List UInt8} {s s' : State} {t : Transfer}
  {ts : List Transfer} {pad handled moved : ℕ}

theorem firstOff_lt : cfg.firstOff < 2 ^ 64 := Nat.mod_lt _ (by decide)

/-- A 64-bit offset that moved along with a position is equal to it exactly if it was at
the start. -/
theorem add_mod_eq_iff {off base : ℕ} (small : off < 2 ^ 64) (fits : base + moved < 2 ^ 64) :
    (off + moved) % 2 ^ 64 = base + moved ↔ off = base := by
  omega

theorem firstOff_eq_firstPos_iff (largest : ℕ) :
    cfg.firstOff = cfg.firstPos largest ↔ cfg.firstOff ≤ largest := by
  unfold Config.firstPos
  split <;> omega

namespace Positions

variable (positions : Positions cfg input out pad handled s)

include positions in
/-- The block that is compared. -/
theorem compare_iff (hin : cfg.hasIn = true) (ready : s.padIn = false)
    (holds : input.length ≤ cfg.inLimit) (inside : s.inPos < input.length)
    (room : s.inPos < 2 ^ 63) : s.off = s.inPos ↔ cfg.Tracks out .compare := by
  have here := positions.inPos hin
  rw [positions.off, here, add_mod_eq_iff firstOff_lt (by omega), Config.Tracks]
  cases padding : cfg.padin with
  | false =>
    rw [positions.unpadded padding, Nat.add_zero, firstOff_eq_firstPos_iff]
    simp
  | true =>
    have consumed : 0 < pad := by
      rcases positions.padded hin padding ready with some_bytes | ended
      · exact some_bytes
      · omega
    -- the padding moved the position, and an offset that was refused is behind it
    have drifted : cfg.firstOff ≠ cfg.firstPos cfg.inLimit + pad := by
      unfold Config.firstPos at here ⊢
      split <;> omega
    simp [drifted]

include positions in
/-- The block that is filled. -/
theorem fill_iff (hout : cfg.hasOut = true) (room : cfg.writePos s < 2 ^ 63) :
    s.off = cfg.writePos s ↔ cfg.Tracks out .fill := by
  rw [Config.writePos] at room ⊢
  rw [positions.off, Config.Tracks]
  cases appending : cfg.append with
  | false =>
    simp only [appending, Bool.false_eq_true, if_false] at room ⊢
    have here := positions.outPos hout appending
    rw [here, add_mod_eq_iff firstOff_lt (by omega), firstOff_eq_firstPos_iff]
  | true =>
    simp only [appending, if_true] at room ⊢
    have here := positions.output hout appending
    rw [here, add_mod_eq_iff firstOff_lt (by omega), eq_comm]

include positions in
/-- The padding read. -/
theorem pad_read {count nextbuf read : ℕ} {bufs : ℕ → List UInt8} (hin : cfg.hasIn = true)
    (padding : s.padIn = true) (consumed : 0 < read ∨ input.length ≤ s.inPos + read) :
    Positions cfg input out read 0
      { s.fetched count nextbuf bufs read with padIn := false } := by
  obtain ⟨rfl, rfl⟩ := positions.pending hin padding
  have here := positions.inPos hin
  exact {
    off := positions.off
    inPos := fun _ => by
      change s.inPos + read = _
      omega
    outPos := positions.outPos
    output := positions.output
    pending := by simp
    asked := by simp
    unpadded := fun none_asked => absurd (positions.asked padding) (by simp [none_asked])
    padded := fun _ _ _ => consumed }

include positions in
/-- A block that was handled. -/
theorem block {s₁ s₂ : State} {write : Option ℕ} (ready : cfg.hasIn = true → s.padIn = false)
    (off : s₁.off = s.off) (outPos : s₁.outPos = s.outPos) (output : s₁.output = s.output)
    (padIn : s₁.padIn = s.padIn) (inPos : s₁.inPos = s.inPos + if cfg.hasIn then moved else 0)
    (outputs : Outputs cfg moved write s₁ s₂) (goes : s₂.finished = false) :
    Positions cfg input out pad (handled + moved) s₂ := by
  have padIn₂ : s₂.padIn = s.padIn := outputs.padIn.trans padIn
  have inPos₂ := outputs.inPos.trans inPos
  have off₂ := outputs.off goes
  have start := positions.off
  refine ⟨?_, ?_, ?_, ?_, ?_, ?_, positions.unpadded, ?_⟩
  · rw [off₂, off]
    omega
  · intro hin
    have here := positions.inPos hin
    rw [inPos₂, if_pos hin]
    omega
  · intro hout fixed
    have here := positions.outPos hout fixed
    rw [(outputs.written goes hout).1, Config.writePos, if_neg (by simp [fixed]), outPos]
    omega
  · intro hout appending
    have here := positions.output hout appending
    obtain ⟨-, bytes, length, written, -⟩ := outputs.written goes hout
    rw [written, length_writeAt, length, Config.writePos, if_pos appending, output]
    omega
  · intro hin padding
    rw [padIn₂, ready hin] at padding
    cases padding
  · intro padding
    exact positions.asked (padIn₂ ▸ padding)
  · intro hin asked unpadded
    rcases positions.padded hin asked (padIn₂ ▸ unpadded) with consumed | ended
    · exact .inl consumed
    · exact .inr (by omega)

end Positions

theorem tracked_start (holds : input.length ≤ cfg.inLimit) :
    Tracked cfg input out (cfg.start out) where
  holds := holds
  wide _ := List.length_replicate
  trace := by simp [Config.start]
  positions _ := ⟨0, 0, {
    off := (Nat.mod_eq_of_lt firstOff_lt).symm
    inPos := fun _ => rfl
    outPos := fun _ _ => rfl
    output := fun _ _ => rfl
    pending := fun _ _ => ⟨rfl, rfl⟩
    asked := fun asked => asked
    unpadded := fun _ => rfl
    padded := fun _ asked unpadded => absurd asked (by simpa [Config.start] using unpadded) }⟩

/-- A read that is offered some bytes moves the position, unless the input is used up. -/
theorem read_or_ended {n read : ℕ} (positive : 0 < n) (amount : read = cfg.readCount input s n) :
    0 < read ∨ input.length ≤ s.inPos + read := by
  have block := cfg.four_le
  rw [amount, Config.readCount]
  omega

/-- What held of the uses so far holds behind a step that adds at most one. -/
theorem forall_mem_trace {uses : Prop} [Decidable uses] {good : Access → Prop} {access : Access}
    {before after : List Access} (added : after = before ++ if uses then [access] else [])
    (earlier : ∀ a ∈ before, good a) (now : uses → good access) : ∀ a ∈ after, good a := by
  intro a mem
  rw [added] at mem
  rcases List.mem_append.mp mem with mem | mem
  · exact earlier a mem
  · split at mem
    · rename_i used
      obtain rfl := List.mem_singleton.mp mem
      exact now used
    · cases mem

/-- One pass. -/
theorem Tracked.pass (tracked : Tracked cfg input out s) (live : s.finished = false)
    (moves : ∃ n, 0 < n ∧ t.read = some n) : Tracked cfg input out (cfg.pass input s t) := by
  obtain ⟨pad, handled, positions⟩ := tracked.positions live
  have passed : Passed cfg input t s (cfg.pass input s t) :=
    Config.pass_cases live tracked.wide
  cases passed with
  | stop count nextbuf bufs wide ends =>
    rw [ends]
    exact ⟨tracked.holds, wide, tracked.trace, by simp⟩
  | pad count nextbuf bufs read wide hin padding amount ends =>
    -- the file position moves here, and `off` does not
    obtain ⟨n, positive, reads⟩ := moves
    have consumed := read_or_ended positive (amount n reads)
    rw [ends]
    exact ⟨tracked.holds, wide, tracked.trace,
      fun _ => ⟨_, _, positions.pad_read hin padding consumed⟩⟩
  | block count nextbuf bufs buf pos moved wide some_bytes fits source ends =>
    have ready : cfg.hasIn = true → s.padIn = false := by
      intro hin
      rw [if_pos hin] at source
      exact source.1
    have compared := @Config.compared cfg buf pos moved
      (s.fetched count nextbuf bufs (if cfg.hasIn then moved else 0))
    dsimp only at ends
    generalize (if cfg.inpat then _ else _ : State) = s₁ at compared ends
    have wide₁ : s₁.Wide cfg := Config.wide_of_compared compared wide
    have compares : ∀ a ∈ s₁.trace, a.pos < 2 ^ 63 → (a.off = a.pos ↔ cfg.Tracks out a.kind) := by
      refine forall_mem_trace compared.trace tracked.trace fun used room => ?_
      rw [if_pos used.2] at source
      obtain ⟨-, rfl, ⟨n, -, amount⟩, -⟩ := source
      have inside : s.inPos < input.length := by
        rw [Config.readCount] at amount
        omega
      exact positions.compare_iff used.2 (ready used.2) tracked.holds inside room
    rcases Config.handled_cases wide₁ fits ends with ⟨ended, same⟩ | outputs
    · rw [same]
      exact ⟨tracked.holds, wide₁, compares, by simp [ended]⟩
    · refine ⟨tracked.holds, outputs.wide, ?_, fun goes =>
        ⟨_, _, positions.block ready compared.off compared.outPos compared.output
          compared.padIn compared.inPos outputs goes⟩⟩
      refine forall_mem_trace outputs.trace compares fun used room => ?_
      -- the comparison has left the position of the output as it was
      have same : cfg.writePos s₁ = cfg.writePos s := by
        rw [Config.writePos, Config.writePos, compared.outPos, compared.output]
        rfl
      change cfg.writePos s₁ < 2 ^ 63 at room
      change s₁.off = cfg.writePos s₁ ↔ _
      rw [same] at room
      rw [compared.off, same]
      exact positions.fill_iff used.1 room

/-- Every pass keeps the two counts together. -/
theorem tracked_of_run (holds : input.length ≤ cfg.inLimit)
    (moves : ∀ t ∈ ts, ∃ n, 0 < n ∧ t.read = some n) :
    Tracked cfg input out (cfg.run input out ts) :=
  Config.run_invariant (tracked_start holds) fun _ t mem live tracked =>
    tracked.pass live (moves t mem)

/-- **The offset of the pattern.** Wherever a block is compared or filled, `off` is the
offset of the block in its file exactly if `Config.Tracks`. No file is longer than the
largest offset in it. -/
theorem off_eq_pos_iff (cfg : Config) (input out : List UInt8) (ts : List Transfer)
    (holds : input.length ≤ cfg.inLimit) (moves : ∀ t ∈ ts, ∃ n, 0 < n ∧ t.read = some n)
    (room : ∀ a ∈ (cfg.run input out ts).trace, a.pos < 2 ^ 63) :
    ∀ a ∈ (cfg.run input out ts).trace, a.off = a.pos ↔ cfg.Tracks out a.kind :=
  fun a mem => (tracked_of_run holds moves).trace a mem (room a mem)

/-- A run over four-byte blocks that compares its input and fills its output. -/
def sampleConfig (padin : Bool) (skip : Option ℕ) : Config where
  littleEndian := true
  bs := 4
  nbufs := 2
  count := none
  skip := skip
  padin := padin
  inpat := true
  outpat := true
  mismatch := -1
  touch := false
  hasIn := true
  hasOut := true
  append := false
  inLimit := 2 ^ 44
  outLimit := 2 ^ 44
  four_le := le_rfl

/-- Behind one block that is skipped. -/
theorem off_eq_pos_iff_skip :
    ((sampleConfig false (some 1)).run (List.replicate 8 0) [] [⟨some 4, some 4⟩]).trace =
        [⟨.compare, 4, 4⟩, ⟨.fill, 4, 4⟩] ∧
      ∀ a ∈ ((sampleConfig false (some 1)).run (List.replicate 8 0) [] [⟨some 4, some 4⟩]).trace,
        a.off = a.pos := by
  have trace : ((sampleConfig false (some 1)).run (List.replicate 8 0) []
      [⟨some 4, some 4⟩]).trace = [⟨.compare, 4, 4⟩, ⟨.fill, 4, 4⟩] := by decide
  refine ⟨trace, fun a mem => ?_⟩
  refine (off_eq_pos_iff (sampleConfig false (some 1)) (List.replicate 8 0) []
    [⟨some 4, some 4⟩] (by decide) (by simp) (by rw [trace]; decide) a mem).mpr ?_
  -- the offset is taken, there is no padding, and nothing is appended
  cases a.kind <;> decide

/-- After the padding read the second block of the file is compared as if it was the
first. -/
theorem off_behind_pos :
    ¬ ∀ (cfg : Config) (input out : List UInt8) (ts : List Transfer),
      input.length ≤ cfg.inLimit → (∀ t ∈ ts, ∃ n, 0 < n ∧ t.read = some n) →
      (∀ a ∈ (cfg.run input out ts).trace, a.pos < 2 ^ 63) →
      ∀ a ∈ (cfg.run input out ts).trace, a.off = a.pos := by
  intro always
  have trace : ((sampleConfig true none).run (List.replicate 8 0) []
      [⟨some 4, some 4⟩, ⟨some 4, some 4⟩]).trace = [⟨.compare, 0, 4⟩, ⟨.fill, 0, 0⟩] := by
    decide
  have equal := always (sampleConfig true none) (List.replicate 8 0) []
    [⟨some 4, some 4⟩, ⟨some 4, some 4⟩] (by decide) (by simp) (by rw [trace]; decide)
  rw [trace] at equal
  exact absurd (equal _ List.mem_cons_self) (by decide)

end Lmbench.Lmdd
