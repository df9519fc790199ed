import Lmbench.Lmdd.Loop
import Mathlib.Algebra.BigOperators.Group.List.Basic
import Mathlib.Algebra.Group.Nat.Defs
import Mathlib.Algebra.GroupWithZero.Nat
import Mathlib.Data.List.Induction

/-!
# The byte total of `lmdd`

The loop of `main` without `fork`, as far as the counters go: every pass counts `count`
down, the padding read gives its pass back and restarts the clock, and a block that was
handled to its end adds its length in words to `int_count`. `done` turns the words into
bytes again. Where a block lies does not matter, so `rand` and `end` are covered.

What a pass moves is what `read` has returned; without an input it is what `write` has
taken, and with neither a block. A comparison or a short write may end the run when the
bytes have been moved but not counted.

## Main results

* `Config.foldl_tallyPass` - the blocks and the total after any number of passes
* `Config.tallied_run` - the transfer loop counts like this
* `Config.reportsMoved_iff` - when the total is the number of bytes moved
-/

namespace Lmbench.Lmdd

/-- What happens to the block of a pass: the result of `read`, whether the comparison
calls `done()`, and the result of `write`. -/
structure Outcome where
  read : ℤ
  mismatched : Bool
  write : ℤ
deriving DecidableEq, Repr

/-- The counters of the loop, the bytes that each timed pass has moved, and the number of
padding reads. -/
structure Tally where
  count : ℕ
  padIn : Bool
  intCount : ℕ
  finished : Bool
  lengths : List ℕ
  untimed : ℕ
deriving DecidableEq, Repr

/-- The total that `done` hands to the report functions, after `int_count <<= 2`. -/
def Tally.total (s : Tally) : ℕ := s.intCount * 4 % 2 ^ 64

namespace Config

variable (cfg : Config)

/-- `moved`. -/
def moved (p : Outcome) : ℤ := if cfg.hasIn then p.read else cfg.bs

/-- The bytes that a pass moves. -/
def transferLength (p : Outcome) : ℕ :=
  if cfg.hasIn then p.read.toNat
  else if cfg.hasOut then if cfg.inpat ∧ p.mismatched then 0 else p.write.toNat
  else cfg.bs

/-- The length of the block of a pass, unless the pass calls `done()`. -/
def block (p : Outcome) : Option ℕ :=
  if cfg.moved p ≤ 0 then none
  else if cfg.inpat ∧ p.mismatched then none
  else if cfg.hasOut ∧ p.write ≠ cfg.moved p then none
  else some (cfg.moved p).toNat

/-- The counters in front of the loop. -/
def startTally : Tally where
  count := cfg.count.getD (2 ^ 64 - 1)
  padIn := cfg.padin
  intCount := 0
  finished := false
  lengths := []
  untimed := 0

/-- One pass of the loop. -/
def tallyPass (s : Tally) (p : Outcome) : Tally :=
  if s.finished then s
  -- `count` is unsigned: `count-- <= 0` is a test for 0
  else if cfg.count.isSome ∧ s.count = 0 then { s with finished := true }
  else
    let s := { s with count := if cfg.count.isSome then s.count - 1 else s.count }
    -- the result of the padding read is not looked at
    if cfg.hasIn ∧ s.padIn then
      { s with padIn := false, count := (s.count + 1) % 2 ^ 64, untimed := s.untimed + 1 }
    else if cfg.moved p ≤ 0 then { s with finished := true }
    else
      -- the bytes are moved before it turns out whether the pass calls `done()`
      let s := { s with lengths := s.lengths ++ [cfg.transferLength p] }
      match cfg.block p with
      | none => { s with finished := true }
      | some m => { s with intCount := (s.intCount + m / 4) % 2 ^ 64 }

/-- The counters after all passes. -/
def tally (ps : List Outcome) : Tally := ps.foldl cfg.tallyPass cfg.startTally

/-- The lengths of the blocks up to the first pass that calls `done()`. -/
def blocks : List Outcome → List ℕ
  | [] => []
  | p :: ps =>
    match cfg.block p with
    | none => []
    | some m => m :: blocks ps

/-- The bytes that this pass has moved. -/
def unfinished : List Outcome → ℕ
  | [] => 0
  | p :: ps =>
    match cfg.block p with
    | none => if cfg.moved p ≤ 0 then 0 else cfg.transferLength p
    | some _ => unfinished ps

/-- The bytes of all passes up to it. -/
def transfers : List Outcome → List ℕ
  | [] => []
  | p :: ps =>
    if cfg.moved p ≤ 0 then []
    else
      match cfg.block p with
      | none => [cfg.transferLength p]
      | some _ => cfg.transferLength p :: transfers ps

/-- No more than `count` passes. -/
def limit (count : ℕ) (ps : List Outcome) : List Outcome :=
  if cfg.count.isSome then ps.take count else ps

/-- The passes behind the padding read. -/
def behindPadding (ps : List Outcome) : List Outcome :=
  if cfg.hasIn ∧ cfg.padin then ps.drop 1 else ps

/-- The timed passes of a run, if what happens to them is `ps`. -/
def timed (ps : List Outcome) : List Outcome :=
  cfg.limit (cfg.count.getD 0) (cfg.behindPadding ps)

/-- A run with `count=n` that is not stopped by an end of file or an error. -/
structure Undisturbed (n : ℕ) (ps : List Outcome) : Prop where
  count : cfg.count = some n
  long : n + 1 < ps.length
  full : ∀ p ∈ ps, (cfg.block p).isSome

/-- The total is the sum of what the passes have moved, and `count` blocks are moved behind one
padding read. -/
structure ReportsMoved (ps : List Outcome) : Prop where
  total : (cfg.tally ps).total = (cfg.tally ps).lengths.sum % 2 ^ 64
  blocks : ∀ n, cfg.Undisturbed n ps → (cfg.tally ps).finished = true ∧
    (cfg.tally ps).lengths.length = n ∧ (cfg.tally ps).untimed = if cfg.padin then 1 else 0

variable {cfg} {s t : Tally} {p : Outcome} {ps : List Outcome}

section Pass

theorem tallyPass_of_finished (ended : s.finished = true) : cfg.tallyPass s p = s := by
  simp [tallyPass, ended]

theorem foldl_tallyPass_of_finished (ended : s.finished = true) :
    ps.foldl cfg.tallyPass s = s := by
  induction ps with
  | nil => rfl
  | cons p ps ih => rw [List.foldl_cons, tallyPass_of_finished ended, ih]

/-- When no block is left, the next pass ends the run. -/
theorem tallyPass_of_exhausted (live : s.finished = false) (counted : cfg.count.isSome)
    (zero : s.count = 0) : cfg.tallyPass s p = { s with finished := true } := by
  simp [tallyPass, live, counted, zero]

/-- A pass behind the padding read that has nothing to move. -/
theorem tallyPass_of_nothing (live : s.finished = false) (left : cfg.count.isSome → s.count ≠ 0)
    (ready : cfg.hasIn → s.padIn = false) (nothing : cfg.moved p ≤ 0) :
    cfg.tallyPass s p =
      { s with
        count := if cfg.count.isSome then s.count - 1 else s.count
        finished := true } := by
  have more : ¬ (cfg.count.isSome ∧ s.count = 0) := not_and.mpr left
  have timed : ¬ (cfg.hasIn ∧ s.padIn) := fun ⟨hin, padding⟩ => by simp [ready hin] at padding
  simp only [tallyPass, live, Bool.false_eq_true, if_false, more, timed, nothing, if_true]

/-- A pass behind the padding read that calls `done()` when it has moved its bytes. -/
theorem tallyPass_of_stop (live : s.finished = false) (left : cfg.count.isSome → s.count ≠ 0)
    (ready : cfg.hasIn → s.padIn = false) (moves : 0 < cfg.moved p)
    (stops : cfg.block p = none) :
    cfg.tallyPass s p =
      { s with
        count := if cfg.count.isSome then s.count - 1 else s.count
        lengths := s.lengths ++ [cfg.transferLength p]
        finished := true } := by
  have more : ¬ (cfg.count.isSome ∧ s.count = 0) := not_and.mpr left
  have timed : ¬ (cfg.hasIn ∧ s.padIn) := fun ⟨hin, padding⟩ => by simp [ready hin] at padding
  simp only [tallyPass, live, Bool.false_eq_true, if_false, more, timed, Int.not_le.mpr moves,
    stops]

/-- Either of them ends the run. -/
theorem tallyPass_stops (live : s.finished = false) (left : cfg.count.isSome → s.count ≠ 0)
    (ready : cfg.hasIn → s.padIn = false) (stops : cfg.block p = none) :
    ∃ lengths, cfg.tallyPass s p =
      { s with
        count := if cfg.count.isSome then s.count - 1 else s.count
        lengths := lengths
        finished := true } := by
  by_cases nothing : cfg.moved p ≤ 0
  · exact ⟨s.lengths, tallyPass_of_nothing live left ready nothing⟩
  · exact ⟨_, tallyPass_of_stop live left ready (Int.not_le.mp nothing) stops⟩

/-- A block has been moved, all of it. -/
theorem of_block {m : ℕ} (transferred : cfg.block p = some m) :
    0 < cfg.moved p ∧ cfg.transferLength p = m := by
  unfold block at transferred
  split at transferred
  · cases transferred
  · rename_i some_bytes
    split at transferred
    · cases transferred
    · rename_i same
      split at transferred
      · cases transferred
      · rename_i written
        obtain rfl := Option.some.inj transferred
        refine ⟨Int.not_le.mp some_bytes, ?_⟩
        unfold transferLength
        cases hin : cfg.hasIn with
        | true => simp [moved, hin]
        | false =>
          cases hout : cfg.hasOut with
          | false => simp [moved, hin]
          | true =>
            have all : p.write = cfg.moved p := not_not.mp fun short => written ⟨hout, short⟩
            simp [same, all]

/-- A pass behind the padding read that transfers a block of `m` bytes. -/
theorem tallyPass_of_block {m : ℕ} (live : s.finished = false)
    (left : cfg.count.isSome → s.count ≠ 0) (ready : cfg.hasIn → s.padIn = false)
    (transferred : cfg.block p = some m) :
    cfg.tallyPass s p =
      { s with
        count := if cfg.count.isSome then s.count - 1 else s.count
        intCount := (s.intCount + m / 4) % 2 ^ 64
        lengths := s.lengths ++ [m] } := by
  have more : ¬ (cfg.count.isSome ∧ s.count = 0) := not_and.mpr left
  have timed : ¬ (cfg.hasIn ∧ s.padIn) := fun ⟨hin, padding⟩ => by simp [ready hin] at padding
  obtain ⟨moves, length⟩ := of_block transferred
  simp only [tallyPass, live, Bool.false_eq_true, if_false, more, timed, Int.not_le.mpr moves,
    transferred, length]

end Pass

theorem limit_nil (count : ℕ) : cfg.limit count [] = [] := by simp [limit]

theorem limit_cons {count : ℕ} (left : cfg.count.isSome → count ≠ 0) :
    cfg.limit count (p :: ps) =
      p :: cfg.limit (if cfg.count.isSome then count - 1 else count) ps := by
  cases counted : cfg.count.isSome with
  | false => simp [limit, counted]
  | true =>
    obtain ⟨k, rfl⟩ := Nat.exists_eq_succ_of_ne_zero (left counted)
    simp [limit, counted]

/-- The passes from any state behind the padding read: blocks are transferred as long as
there is one and `count` allows it. -/
theorem foldl_tallyPass (live : s.finished = false) (ready : cfg.hasIn → s.padIn = false)
    (small : s.intCount < 2 ^ 64) :
    (ps.foldl cfg.tallyPass s).lengths = s.lengths ++ cfg.transfers (cfg.limit s.count ps) ∧
      (ps.foldl cfg.tallyPass s).intCount =
        (s.intCount + ((cfg.blocks (cfg.limit s.count ps)).map (· / 4)).sum) % 2 ^ 64 ∧
      (ps.foldl cfg.tallyPass s).untimed = s.untimed := by
  have same : s.intCount = s.intCount % 2 ^ 64 := (Nat.mod_eq_of_lt small).symm
  induction ps generalizing s with
  | nil =>
    exact ⟨by simp [transfers, limit_nil], by simpa [blocks, limit_nil] using same, rfl⟩
  | cons p ps ih =>
    rw [List.foldl_cons]
    by_cases exhausted : cfg.count.isSome ∧ s.count = 0
    · obtain ⟨counted, zero⟩ := exhausted
      rw [tallyPass_of_exhausted live counted zero, foldl_tallyPass_of_finished rfl]
      exact ⟨by simp [limit, counted, zero, transfers],
        by simpa [limit, counted, zero, blocks] using same, rfl⟩
    have left : cfg.count.isSome → s.count ≠ 0 := fun counted zero => exhausted ⟨counted, zero⟩
    rw [limit_cons left]
    by_cases nothing : cfg.moved p ≤ 0
    · have stops : cfg.block p = none := if_pos nothing
      rw [tallyPass_of_nothing live left ready nothing, foldl_tallyPass_of_finished rfl]
      exact ⟨by simp [transfers, nothing], by simpa [blocks, stops] using same, rfl⟩
    cases transferred : cfg.block p with
    | none =>
      rw [tallyPass_of_stop live left ready (Int.not_le.mp nothing) transferred,
        foldl_tallyPass_of_finished rfl]
      exact ⟨by simp [transfers, nothing, transferred],
        by simpa [blocks, transferred] using same, rfl⟩
    | some m =>
      rw [tallyPass_of_block live left ready transferred]
      obtain ⟨lengths, total, untimed⟩ := @ih
        { s with
          count := if cfg.count.isSome then s.count - 1 else s.count
          intCount := (s.intCount + m / 4) % 2 ^ 64
          lengths := s.lengths ++ [m] } live ready (Nat.mod_lt _ (by decide))
          (Nat.mod_mod _ _).symm
      obtain ⟨_, length⟩ := of_block transferred
      simp only [blocks, transfers, transferred, nothing, if_false, length] at *
      refine ⟨by rw [lengths]; simp, ?_, untimed⟩
      rw [total, List.map_cons, List.sum_cons, Nat.mod_add_mod, Nat.add_assoc]

/-- With all blocks full, `count` of them are transferred and the pass behind them ends
the run. -/
theorem finished_foldl (live : s.finished = false) (ready : cfg.hasIn → s.padIn = false)
    (counted : cfg.count.isSome) (full : ∀ p ∈ ps, (cfg.block p).isSome)
    (long : s.count < ps.length) : (ps.foldl cfg.tallyPass s).finished = true := by
  induction ps generalizing s with
  | nil => simp at long
  | cons p ps ih =>
    rw [List.foldl_cons]
    by_cases zero : s.count = 0
    · rw [tallyPass_of_exhausted live counted zero, foldl_tallyPass_of_finished rfl]
    · obtain ⟨m, transferred⟩ := Option.isSome_iff_exists.mp (full p List.mem_cons_self)
      rw [tallyPass_of_block live (fun _ => zero) ready transferred]
      refine ih ?_ ?_ (fun q member => full q (List.mem_cons_of_mem p member)) ?_
      · exact live
      · exact ready
      · simp only [counted, if_true]
        rw [List.length_cons] at long
        omega

theorem length_transfers (full : ∀ p ∈ ps, (cfg.block p).isSome) :
    (cfg.transfers ps).length = ps.length := by
  induction ps with
  | nil => rfl
  | cons p ps ih =>
    obtain ⟨m, transferred⟩ := Option.isSome_iff_exists.mp (full p List.mem_cons_self)
    have moves := (of_block transferred).1
    simp [transfers, Int.not_le.mpr moves, transferred,
      ih fun q member => full q (List.mem_cons_of_mem p member)]

/-- What the passes move is in the blocks, but for the pass that ends the run. -/
theorem sum_transfers (ps : List Outcome) :
    (cfg.transfers ps).sum = (cfg.blocks ps).sum + cfg.unfinished ps := by
  induction ps with
  | nil => rfl
  | cons p ps ih =>
    rw [transfers, blocks, unfinished]
    by_cases nothing : cfg.moved p ≤ 0
    · have stops : cfg.block p = none := if_pos nothing
      simp [nothing, stops]
    · cases transferred : cfg.block p with
      | none => simp [nothing]
      | some m =>
        obtain ⟨_, length⟩ := of_block transferred
        simp only [nothing, if_false, length, List.sum_cons, ih, Nat.add_assoc]

/-- The counters behind the padding read: its pass is not one of `count`. -/
def padded : Tally where
  count := if cfg.count.isSome then cfg.startTally.count else 0
  padIn := false
  intCount := 0
  finished := false
  lengths := []
  untimed := 1

theorem tallyPass_padding (counted : ∀ n, cfg.count = some n → n < 2 ^ 64)
    (padding : cfg.hasIn ∧ cfg.padin) (some_blocks : cfg.count ≠ some 0) :
    cfg.tallyPass cfg.startTally p = cfg.padded := by
  obtain ⟨hin, padin⟩ := padding
  cases count : cfg.count with
  | none => simp [tallyPass, startTally, padded, count, hin, padin]
  | some n =>
    have few := counted n count
    have positive : n ≠ 0 := fun zero => some_blocks (by rw [count, zero])
    have back : (n - 1 + 1) % 2 ^ 64 = n := by omega
    simpa [tallyPass, startTally, padded, count, hin, padin, positive] using back

/-- A run that begins with the padding read. -/
theorem tally_padding (counted : ∀ n, cfg.count = some n → n < 2 ^ 64)
    (padding : cfg.hasIn ∧ cfg.padin) (some_blocks : cfg.count ≠ some 0) :
    cfg.tally (p :: ps) = ps.foldl cfg.tallyPass cfg.padded := by
  rw [tally, List.foldl_cons, tallyPass_padding counted padding some_blocks]

/-- With `count=0` the first pass calls `done()`. -/
theorem tally_of_count_zero (none_asked : cfg.count = some 0) :
    cfg.tally (p :: ps) = { cfg.startTally with finished := true } := by
  rw [tally, List.foldl_cons,
    tallyPass_of_exhausted rfl (by simp [none_asked]) (by simp [startTally, none_asked]),
    foldl_tallyPass_of_finished rfl]

theorem startTally_ready (unpadded : ¬ (cfg.hasIn ∧ cfg.padin)) :
    cfg.hasIn → cfg.startTally.padIn = false := fun hin => by
  simpa [startTally] using fun padin => unpadded ⟨hin, padin⟩

/-- What a run transfers and counts. -/
theorem tally_eq (counted : ∀ n, cfg.count = some n → n < 2 ^ 64) :
    (cfg.tally ps).lengths = cfg.transfers (cfg.timed ps) ∧
      (cfg.tally ps).intCount = ((cfg.blocks (cfg.timed ps)).map (· / 4)).sum % 2 ^ 64 := by
  have start_count : cfg.limit (cfg.count.getD 0) = cfg.limit cfg.startTally.count := by
    cases count : cfg.count <;> funext l <;> simp [limit, startTally, count]
  have zero_lt : 0 < 2 ^ 64 := by decide
  rw [timed, start_count]
  by_cases padding : cfg.hasIn ∧ cfg.padin
  · rw [behindPadding, if_pos padding]
    cases ps with
    | nil => simp [tally, startTally, blocks, transfers, limit_nil]
    | cons p ps =>
      rw [List.drop_one, List.tail_cons]
      by_cases none_asked : cfg.count = some 0
      · rw [tally_of_count_zero none_asked]
        simp [limit, startTally, none_asked, blocks, transfers]
      · rw [tally_padding counted padding none_asked]
        have same : cfg.limit cfg.padded.count = cfg.limit cfg.startTally.count := by
          cases count : cfg.count <;> funext l <;> simp [limit, padded, startTally, count]
        obtain ⟨lengths, total, -⟩ := @foldl_tallyPass cfg cfg.padded ps rfl (fun _ => rfl) zero_lt
        rw [same] at lengths total
        exact ⟨lengths, total.trans (by rw [padded, Nat.zero_add])⟩
  · rw [behindPadding, if_neg padding]
    obtain ⟨lengths, total, -⟩ :=
      @foldl_tallyPass cfg cfg.startTally ps rfl (startTally_ready padding) zero_lt
    exact ⟨lengths, total.trans (by rw [startTally, Nat.zero_add])⟩

theorem length_timed {n : ℕ} (undisturbed : cfg.Undisturbed n ps) :
    (cfg.transfers (cfg.timed ps)).length = n := by
  obtain ⟨count, long, full⟩ := undisturbed
  have members : ∀ p ∈ cfg.timed ps, (cfg.block p).isSome := by
    intro p member
    have behind : p ∈ cfg.behindPadding ps := by
      rw [timed, limit, count] at member
      exact List.mem_of_mem_take member
    rw [behindPadding] at behind
    split at behind
    · exact full p (List.mem_of_mem_drop behind)
    · exact full p behind
  have enough : n ≤ (cfg.behindPadding ps).length := by
    rw [behindPadding]
    split
    · rw [List.length_drop]
      omega
    · omega
  rw [length_transfers members]
  simp [timed, limit, count, enough]

/-- A run that nothing stops moves `count` blocks; it makes the padding read if there is
an input and a block to move. -/
theorem tally_undisturbed {n : ℕ} (counted : ∀ n, cfg.count = some n → n < 2 ^ 64)
    (undisturbed : cfg.Undisturbed n ps) :
    (cfg.tally ps).finished = true ∧ (cfg.tally ps).lengths.length = n ∧
      (cfg.tally ps).untimed = if cfg.hasIn ∧ cfg.padin ∧ n ≠ 0 then 1 else 0 := by
  have number : (cfg.tally ps).lengths.length = n := by
    rw [(tally_eq counted).1, length_timed undisturbed]
  obtain ⟨count, long, full⟩ := undisturbed
  have isSome : cfg.count.isSome := by simp [count]
  have zero_lt : 0 < 2 ^ 64 := by decide
  obtain ⟨p, ps, rfl⟩ : ∃ p rest, ps = p :: rest := by
    cases ps with
    | nil => simp at long
    | cons p rest => exact ⟨p, rest, rfl⟩
  rw [List.length_cons] at long
  by_cases padding : cfg.hasIn ∧ cfg.padin
  · by_cases zero : n = 0
    · subst zero
      rw [tally_of_count_zero count] at number ⊢
      exact ⟨rfl, number, by simp [startTally]⟩
    · have some_blocks : cfg.count ≠ some 0 := by simp [count, zero]
      rw [tally_padding counted padding some_blocks] at number ⊢
      obtain ⟨-, -, untimed⟩ := @foldl_tallyPass cfg cfg.padded ps rfl (fun _ => rfl) zero_lt
      refine ⟨finished_foldl rfl (fun _ => rfl) isSome
        (fun q member => full q (List.mem_cons_of_mem p member)) ?_, number, ?_⟩
      · simp only [padded, startTally, count, Option.isSome_some, if_true, Option.getD_some]
        omega
      · rw [untimed, if_pos ⟨padding.1, padding.2, zero⟩, padded]
  · have ready := startTally_ready padding
    obtain ⟨-, -, untimed⟩ := @foldl_tallyPass cfg cfg.startTally (p :: ps) rfl ready zero_lt
    refine ⟨finished_foldl rfl ready isSome full ?_, number, ?_⟩
    · simp only [startTally, count, Option.getD_some, List.length_cons]
      omega
    · rw [tally, untimed, if_neg fun ⟨hin, padin, _⟩ => padding ⟨hin, padin⟩, startTally]

/-- Lengths are words and up to three bytes. -/
theorem sum_eq_words_add_rest (l : List ℕ) :
    l.sum = (l.map (· / 4)).sum * 4 + (l.map (· % 4)).sum := by
  induction l with
  | nil => rfl
  | cons m l ih =>
    simp only [List.sum_cons, List.map_cons, ih]
    omega

/-- The total is right up to the bytes that do not fill a word, and those that were moved by
the pass that ends the run. -/
theorem total_eq_iff (counted : ∀ n, cfg.count = some n → n < 2 ^ 64) :
    (cfg.tally ps).total = (cfg.tally ps).lengths.sum % 2 ^ 64 ↔
      (((cfg.blocks (cfg.timed ps)).map (· % 4)).sum + cfg.unfinished (cfg.timed ps)) % 2 ^ 64 =
        0 := by
  obtain ⟨lengths, total⟩ := @tally_eq cfg ps counted
  rw [Tally.total, total, lengths, sum_transfers,
    sum_eq_words_add_rest (cfg.blocks (cfg.timed ps))]
  omega

/-- The total is what was moved exactly if the bytes that do not fill a word and those that
were moved by the pass that ends the run vanish, and `padin` is only given with an input
and a block to move. -/
theorem reportsMoved_iff (counted : ∀ n, cfg.count = some n → n < 2 ^ 64) :
    cfg.ReportsMoved ps ↔
      (((cfg.blocks (cfg.timed ps)).map (· % 4)).sum + cfg.unfinished (cfg.timed ps)) % 2 ^ 64 =
          0 ∧
        ∀ n, cfg.Undisturbed n ps → cfg.padin → cfg.hasIn ∧ n ≠ 0 := by
  constructor
  · rintro ⟨total, moved⟩
    refine ⟨(total_eq_iff counted).mp total, fun n undisturbed padin => ?_⟩
    obtain ⟨-, -, untimed⟩ := tally_undisturbed counted undisturbed
    obtain ⟨-, -, one⟩ := moved n undisturbed
    rw [untimed, if_pos padin] at one
    by_contra missing
    rw [if_neg fun ⟨hin, _, positive⟩ => missing ⟨hin, positive⟩] at one
    simp at one
  · rintro ⟨whole, padding⟩
    refine ⟨(total_eq_iff counted).mpr whole, fun n undisturbed => ?_⟩
    obtain ⟨finished, number, untimed⟩ := tally_undisturbed counted undisturbed
    refine ⟨finished, number, untimed.trans ?_⟩
    cases padin : cfg.padin with
    | false => simp
    | true =>
      obtain ⟨hin, positive⟩ := padding n undisturbed padin
      simp [hin, positive]

/-- `lmdd if=... count=n padin=1 bs=...`. -/
def reading (n bs : ℕ) (four_le : 4 ≤ bs) : Config where
  littleEndian := true
  bs := bs
  nbufs := 1
  count := some n
  skip := none
  padin := true
  inpat := false
  outpat := false
  mismatch := -1
  touch := false
  hasIn := true
  hasOut := false
  append := false
  inLimit := 2 ^ 44
  outLimit := 2 ^ 44
  four_le := four_le

/-- Two blocks of 8 bytes behind a padding read. -/
theorem reportsMoved_eight :
    (reading 2 8 (by decide)).ReportsMoved (List.replicate 4 ⟨8, false, 0⟩) := by
  refine (reportsMoved_iff fun n count => ?_).mpr ⟨by decide, fun n undisturbed _ => ?_⟩
  · obtain rfl : 2 = n := Option.some.inj count
    decide
  · obtain rfl : 2 = n := Option.some.inj undisturbed.count
    decide

/-- One block of 5 bytes is reported as 4 bytes. -/
theorem not_reportsMoved_five :
    ¬ (reading 1 5 (by decide)).ReportsMoved (List.replicate 3 ⟨5, false, 0⟩) := by
  rintro ⟨total, -⟩
  revert total
  decide

end Config

/-- The counters of a run of the transfer loop, whose blocks moved `off` along as long as it
goes on. -/
structure Tallied (cfg : Config) (s : State) (t : Tally) : Prop where
  count : t.count = s.count
  padIn : t.padIn = s.padIn
  finished : t.finished = s.finished
  off : t.finished = false → s.off = (cfg.firstOff + t.lengths.sum) % 2 ^ 64

/-- What handling a block does to the counters: a step leaves `count` and the padding
alone, and moves `off` unless it ends the run. -/
structure Counted (s t : State) (moved : ℕ) : Prop where
  count : t.count = s.count
  padIn : t.padIn = s.padIn
  off : t.off = if t.finished then s.off else (s.off + moved) % 2 ^ 64

namespace Config

variable {cfg : Config} {u v : State} {t : Tally} {input out : List UInt8} {buf pos moved : ℕ}
  {write : Option ℕ}

theorem counters_fill : (cfg.fill buf moved u).count = u.count ∧
    (cfg.fill buf moved u).padIn = u.padIn ∧ (cfg.fill buf moved u).off = u.off ∧
    (cfg.fill buf moved u).finished = u.finished := by
  rw [fill]
  exact List.foldlRecOn (List.range (moved / 4)) (cfg.fillWord buf)
    (motive := fun v : State => v.count = u.count ∧ v.padIn = u.padIn ∧ v.off = u.off ∧
      v.finished = u.finished) ⟨rfl, rfl, rfl, rfl⟩ fun v kept _ _ => kept

theorem counted_put (live : u.finished = false) :
    Counted u (cfg.put buf moved write u) moved := by
  cases write with
  | none => exact ⟨rfl, rfl, by simp [put]⟩
  | some n =>
    rw [put]
    split
    · exact ⟨rfl, rfl, by simp [writeBlock]⟩
    · split <;> exact ⟨rfl, rfl, by simp [advance, touchBlock, writeBlock, live]⟩

theorem counted_output (live : u.finished = false) :
    Counted u (cfg.output buf moved write u) moved := by
  have touched : ∃ bufs,
      (if cfg.hasIn && cfg.touch then touchBlock buf moved u else u) = { u with bufs := bufs } := by
    split
    · exact ⟨_, rfl⟩
    · exact ⟨u.bufs, rfl⟩
  obtain ⟨bufs, touched⟩ := touched
  rw [output, touched]
  cases hout : cfg.hasOut with
  | false => exact ⟨rfl, rfl, by simp [advance, live]⟩
  | true =>
    simp only [if_true]
    split
    · obtain ⟨count, padIn, off, finished⟩ := @counters_fill cfg { u with bufs := bufs } buf moved
      have put := @counted_put cfg (cfg.fill buf moved { u with bufs := bufs }) buf moved write
        (finished.trans live)
      exact ⟨put.count.trans count, put.padIn.trans padIn, by rw [put.off, off]⟩
    · have put := @counted_put cfg { u with bufs := bufs } buf moved write live
      exact ⟨put.count, put.padIn, put.off⟩

/-- The part of a pass behind the read leaves the padding alone, counts nothing down and
moves `off` unless it ends the run. -/
theorem counted_handle (live : u.finished = false) :
    Counted u (cfg.handle buf pos moved write u) moved := by
  rw [handle]
  split
  · exact ⟨rfl, rfl, by simp⟩
  · cases inpat : cfg.inpat with
    | false => simpa [live] using counted_output live
    | true =>
      obtain ⟨reports, misses, finished, compared⟩ := @compare_eq cfg buf pos moved u
      simp only [if_true, compared]
      cases finished with
      | true => exact ⟨rfl, rfl, by simp⟩
      | false =>
        have output := @counted_output cfg
          { u with
            trace := u.trace ++ (if cfg.hasIn then [⟨.compare, u.off, pos⟩] else [])
            reports := reports
            misses := misses
            finished := false } buf moved write rfl
        exact ⟨output.count, output.padIn, output.off⟩

theorem finished_put (live : u.finished = false) :
    (cfg.put buf moved write u).finished = write.all (· < moved) := by
  cases write with
  | none => rfl
  | some n =>
    rw [put]
    by_cases short : n < moved
    · simp [short]
    · simp only [short, if_false]
      split <;> simp [advance, touchBlock, writeBlock, live, short]

/-- The write, if there is one, is all that can end the run behind the comparison. -/
theorem finished_output (live : u.finished = false) :
    (cfg.output buf moved write u).finished = (cfg.hasOut && write.all (· < moved)) := by
  rw [output]
  cases hout : cfg.hasOut with
  | false =>
    simp only [Bool.false_eq_true, if_false, Bool.false_and, advance]
    split <;> exact live
  | true =>
    simp only [if_true, Bool.true_and]
    refine finished_put ?_
    split
    · rw [counters_fill.2.2.2]
      split <;> exact live
    · split <;> exact live

/-- What happened to a block of the transfer loop. -/
def outcome (buf pos moved : ℕ) (write : Option ℕ) (u : State) : Outcome where
  read := moved
  mismatched := (cfg.compare buf pos moved u).finished
  write := write.elim (-1) fun n => min n moved

/-- The pass ends the run exactly if its outcome does. -/
theorem block_outcome (live : u.finished = false) (source : cfg.hasIn = false → moved = cfg.bs) :
    cfg.block (cfg.outcome buf pos moved write u) =
      if (cfg.handle buf pos moved write u).finished then none else some moved := by
  have length : cfg.moved (cfg.outcome buf pos moved write u) = moved := by
    cases hin : cfg.hasIn with
    | false => simp [Config.moved, hin, source hin]
    | true => simp [Config.moved, hin, outcome]
  have short : (cfg.outcome buf pos moved write u).write ≠ moved ↔
      write.all (· < moved) = true := by
    cases write with
    | none => simp [outcome]
    | some n =>
      simp only [outcome, Option.elim_some, Option.all_some, decide_eq_true_eq]
      omega
  rw [block, length, handle]
  by_cases empty : moved = 0
  · simp [empty]
  have positive : ¬ ((moved : ℤ) ≤ 0) := by omega
  simp only [positive, empty, short, if_false, Int.toNat_natCast]
  cases inpat : cfg.inpat with
  | false => simp [live, finished_output live]
  | true =>
    cases ended : (cfg.compare buf pos moved u).finished with
    | true => simp [outcome, ended]
    | false => simp [outcome, ended, finished_output ended]

/-- The block of a pass that was begun and read, in the counters. -/
theorem tallied_handle (tallied : Tallied cfg u t) (live : u.finished = false)
    (left : cfg.count.isSome → t.count ≠ 0) (ready : cfg.hasIn → t.padIn = false)
    (source : cfg.hasIn = false → moved = cfg.bs) (begun : v.finished = false)
    (count : v.count = if cfg.count.isSome then u.count - 1 else u.count)
    (padIn : v.padIn = u.padIn) (off : v.off = u.off) :
    ∃ p, Tallied cfg (cfg.handle buf pos moved write v) (cfg.tallyPass t p) := by
  have counted := @counted_handle cfg v buf pos moved write begun
  have outcome := @block_outcome cfg v buf pos moved write begun source
  have counting : t.finished = false := tallied.finished.trans live
  refine ⟨cfg.outcome buf pos moved write v, ?_⟩
  cases ended : (cfg.handle buf pos moved write v).finished with
  | true =>
    rw [ended, if_pos rfl] at outcome
    obtain ⟨lengths, stopped⟩ := tallyPass_stops counting left ready outcome
    rw [stopped]
    exact ⟨by rw [counted.count, count, tallied.count],
      by rw [counted.padIn, padIn, tallied.padIn], ended.symm, nofun⟩
  | false =>
    rw [ended, if_neg Bool.false_ne_true] at outcome
    rw [tallyPass_of_block counting left ready outcome]
    refine ⟨by rw [counted.count, count, tallied.count],
      by rw [counted.padIn, padIn, tallied.padIn], by rw [counting, ended], fun _ => ?_⟩
    rw [counted.off, ended, if_neg Bool.false_ne_true, off, tallied.off counting, Nat.mod_add_mod,
      List.sum_append, List.sum_singleton, Nat.add_assoc]

/-- The pass of the padding read: whatever it returns, `count` is given back. -/
theorem tallied_padding (tallied : Tallied cfg u t) (live : u.finished = false)
    (running : ¬ (cfg.count.isSome ∧ u.count = 0)) (hin : cfg.hasIn = true)
    (padding : u.padIn = true) (r : Transfer) :
    ∃ p, Tallied cfg (cfg.pass input u r) (cfg.tallyPass t p) := by
  have counting : t.finished = false := tallied.finished.trans live
  have padIn : t.padIn = true := tallied.padIn.trans padding
  have more : ¬ (cfg.count.isSome ∧ t.count = 0) := by rwa [tallied.count]
  have counts : cfg.tallyPass t ⟨0, false, 0⟩ =
      { t with
        count := ((if cfg.count.isSome then t.count - 1 else t.count) + 1) % 2 ^ 64
        padIn := false
        untimed := t.untimed + 1 } := by
    simp only [tallyPass, counting, Bool.false_eq_true, if_false, more, hin, padIn, and_self,
      if_true]
  refine ⟨⟨0, false, 0⟩, ?_⟩
  rw [counts, pass, if_neg (by simp [live]), if_neg running]
  cases read : r.read with
  | none =>
    simp only [hin, beginPass, padding, if_true]
    exact ⟨by simp only [tallied.count], rfl, tallied.finished, tallied.off⟩
  | some n =>
    simp only [hin, beginPass, readBlock, padding, if_true]
    exact ⟨by simp only [tallied.count], rfl, tallied.finished, tallied.off⟩

/-- Every pass of the transfer loop counts like a pass of the counters. -/
theorem tallied_pass (tallied : Tallied cfg u t) (r : Transfer) :
    ∃ p, Tallied cfg (cfg.pass input u r) (cfg.tallyPass t p) := by
  cases live : u.finished with
  | true =>
    refine ⟨⟨0, false, 0⟩, ?_⟩
    rw [pass_of_finished live, tallyPass_of_finished (tallied.finished.trans live)]
    exact tallied
  | false =>
    have counting : t.finished = false := tallied.finished.trans live
    by_cases exhausted : cfg.count.isSome ∧ u.count = 0
    · have stops : cfg.pass input u r = { u with finished := true } := by
        rw [pass, if_neg (by simp [live]), if_pos exhausted]
      refine ⟨⟨0, false, 0⟩, ?_⟩
      rw [stops, tallyPass_of_exhausted counting exhausted.1 (tallied.count.trans exhausted.2)]
      exact ⟨tallied.count, tallied.padIn, rfl, fun running => Bool.noConfusion running⟩
    have left : cfg.count.isSome → t.count ≠ 0 := fun counted zero =>
      exhausted ⟨counted, tallied.count.symm.trans zero⟩
    cases hin : cfg.hasIn with
    | false =>
      rw [pass, if_neg (by simp [live]), if_neg exhausted, hin]
      exact tallied_handle tallied live left (by simp [hin]) (fun _ => rfl) live rfl rfl rfl
    | true =>
      cases padding : u.padIn with
      | true => exact tallied_padding tallied live exhausted hin padding r
      | false =>
        have ready : cfg.hasIn → t.padIn = false := fun _ => tallied.padIn.trans padding
        rw [pass, if_neg (by simp [live]), if_neg exhausted, hin]
        cases read : r.read with
        | none =>
          have stops : cfg.block ⟨0, false, 0⟩ = none := by simp [block, Config.moved, hin]
          refine ⟨⟨0, false, 0⟩, ?_⟩
          obtain ⟨lengths, stopped⟩ := tallyPass_stops counting left ready stops
          rw [stopped]
          simp only [beginPass, padding, Bool.false_eq_true, if_true, if_false]
          exact ⟨by simp only [tallied.count], ready hin, rfl,
            fun running => Bool.noConfusion running⟩
        | some n =>
          have timed : ¬ (cfg.readBlock input u.nextbuf n (cfg.beginPass u)).padIn = true := by
            simp [readBlock, beginPass, padding]
          simp only [if_true, timed]
          exact tallied_handle tallied live left ready (by simp [hin]) live rfl rfl rfl

/-- The transfer loop counts like the counters: for every run there are outcomes of its
passes with the same counters, and `off` grew by what they have moved. -/
theorem tallied_run (ts : List Transfer) :
    ∃ ps : List Outcome, ps.length = ts.length ∧
      Tallied cfg (cfg.run input out ts) (cfg.tally ps) := by
  induction ts using List.reverseRecOn with
  | nil =>
    exact ⟨[], rfl, rfl, rfl, rfl, fun _ => by simp [tally, startTally, run, start, firstOff]⟩
  | append_singleton ts r ih =>
    obtain ⟨ps, long, tallied⟩ := ih
    obtain ⟨p, last⟩ := tallied_pass tallied r
    refine ⟨ps ++ [p], by simp [long], ?_⟩
    rw [run, tally, List.foldl_append, List.foldl_append]
    exact last

end Config

end Lmbench.Lmdd
