import Lmbench.Benchmp.Completion

/-!
# The room for the results

`insertsort` does not know how long the array behind a `result_t` is. The room was
computed beforehand, in two processes: every child asks `sizeof_result` for its own
`repetitions`, the parent for `parallel * repetitions`, and both pass an `int` on to
`malloc`. Whether the entries fit depends on what a child inserts at most, on the
product, and on the size surviving the conversions.

A child inserts before it looks at `repetitions`. A count of zero, which `-N 0`
sets, is therefore worth one entry to a child and none to the parent.

## Main definitions

* `effectiveRepetitions` - what `benchmp` makes of the count given with `-N`
* `slots` - the entries that the block `malloc` was asked for has room for
* `InBounds` - nothing has been inserted behind the end of a block

## Main results

* `length_merged_le` - the parent merges at most one set for each child
* `inBounds_of_run` - along every run, under `Roomy`, all entries have a place
-/

namespace Lmbench.Benchmp

open Lib

/-- `if (repetitions < 0) repetitions = (1 < parallel || 1000000 <= enough ? 1 : TRIES);` -/
def effectiveRepetitions (parallel : ℕ) (enough repetitions : ℤ) : ℕ :=
  if repetitions < 0 then if 1 < parallel ∨ 1000000 ≤ enough then 1 else tries
  else repetitions.toNat

namespace Params

variable (p : Params)

/-- The arguments behind the default for a count given as `repetitions`. -/
def withRepetitions (repetitions : ℤ) : Params :=
  { p with repetitions := effectiveRepetitions p.parallel p.enough repetitions }

/-- The product of two `int`s, where C defines it. -/
def mulInt (a b : ℕ) : Option ℕ := if 2 * (a * b) < p.dm.intSpan then some (a * b) else none

/-- `sizeof_result(n)`, computed as a `size_t` and returned as an `int`. -/
def resultBytes (n : ℕ) : ℤ :=
  p.dm.sizeToInt (sizeofResult p.rHeader 16 n % p.dm.sizeSpan)

/-- The entries for which `malloc(sizeof_result(n))`, if it succeeds, has room. -/
def slots (n : ℕ) : ℕ := (p.dm.intToSize (p.resultBytes n) - p.rHeader) / 16

/-- The most entries that a child inserts: it looks at the count afterwards. -/
def most : ℕ := max 1 p.repetitions

/-- The size of a set for `n` entries is a positive `int`, or a negative one that is a
full `size_t` again when `malloc` takes it. -/
def Fits (n : ℕ) : Prop :=
  2 * sizeofResult p.rHeader 16 n < p.dm.intSpan ∨
    p.dm.intSpan ≤ 2 * (sizeofResult p.rHeader 16 n % p.dm.intSpan) ∧
      sizeofResult p.rHeader 16 n < p.dm.sizeSpan

/-- A count of zero goes with no more children than a set has entries at least, the
product is an `int`, and both sizes survive. -/
structure Roomy : Prop where
  counted : p.repetitions = 0 → p.parallel ≤ tries
  product : 2 * (p.parallel * p.repetitions) < p.dm.intSpan
  own : p.Fits p.repetitions
  merged : p.Fits (p.parallel * p.repetitions)

end Params

/-- No set has more entries than its block has room for. -/
def InBounds {p : Params} (cfg : Config p) : Prop :=
  ∃ product, p.mulInt p.parallel p.repetitions = some product ∧
    (∀ c s, cfg.child c = some s → s.r.N ≤ p.slots p.repetitions) ∧
    cfg.merged.N ≤ p.slots product

variable {p : Params} {past : List (Label (Fin p.parallel))} {cfg cfg' : Config p}

/-- A size that survives has room for the entries that fit in it. -/
theorem Params.Fits.le_slots {n entries : ℕ} (fits : p.Fits n)
    (room : p.rHeader + entries * 16 ≤ sizeofResult p.rHeader 16 n) : entries ≤ p.slots n := by
  have whole : sizeofResult p.rHeader 16 n ≤ p.dm.intToSize (p.resultBytes n) :=
    DataModel.le_intToSize_sizeToInt fits
  exact (Nat.le_div_iff_mul_le (by decide)).mpr (by omega)

/-! ### What the parent merges -/

/-- The parent comes to the last phases with what it had before. -/
theorem merged_parentAdvance {k : ℕ} {wild : ResultT} {pe : ParentEvent (Fin p.parallel)}
    (stepped : parentAdvance p cfg k wild = some (pe, cfg')) :
    4 ≤ cfg'.parent.phase ∨ cfg.parent.phase < 4 ∧ cfg'.merged = cfg.merged := by
  unfold parentAdvance at stepped
  split at stepped <;> rename_i here
  case h_1 | h_3 =>
    split at stepped <;> obtain ⟨-, rfl⟩ := by simpa using stepped
    · exact .inr ⟨by simp [here, ParentPc.phase], rfl⟩
    · exact .inr ⟨by simp [here, ParentPc.phase], rfl⟩
  case h_2 =>
    split at stepped
    · obtain ⟨⟨bytes, cfg₁⟩, got, same⟩ := Option.map_eq_some_iff.mp stepped
      obtain ⟨-, -, -, -, response, -, -, rfl⟩ := readResponse_eq_some got
      obtain ⟨-, rfl⟩ := Prod.mk.inj same
      exact .inr ⟨by simp [here, ParentPc.phase], rfl⟩
    · obtain ⟨-, rfl⟩ := by simpa using stepped
      exact .inr ⟨by simp [here, ParentPc.phase], rfl⟩
  case h_4 =>
    split at stepped
    · obtain ⟨⟨bytes, cfg₁⟩, got, same⟩ := Option.map_eq_some_iff.mp stepped
      obtain ⟨-, -, -, -, response, -, -, rfl⟩ := readResponse_eq_some got
      obtain ⟨-, rfl⟩ := Prod.mk.inj same
      exact .inr ⟨by simp [here, ParentPc.phase], rfl⟩
    · -- only here is the set initialised
      obtain ⟨-, rfl⟩ := by simpa using stepped
      exact .inl le_rfl
  case h_5 | h_7 =>
    split at stepped <;> obtain ⟨-, rfl⟩ := by simpa using stepped
    · exact .inl (by simp [ParentPc.phase])
    · exact .inl (by simp [ParentPc.phase])
  case h_6 =>
    split at stepped
    · obtain ⟨⟨bytes, cfg₁⟩, got, same⟩ := Option.map_eq_some_iff.mp stepped
      obtain ⟨-, rfl⟩ := Prod.mk.inj same
      exact .inl le_rfl
    · obtain ⟨-, rfl⟩ := by simpa using stepped
      exact .inl le_rfl
  case h_8 =>
    obtain ⟨-, rfl⟩ := by simpa using stepped
    exact .inl (by simp [ParentPc.phase])
  case h_9 => cases stepped

/-- Before the last phases nothing is merged. -/
def MergedLate (cfg : Config p) : Prop := cfg.parent.phase < 4 → cfg.merged = insertinit

theorem mergedLate_of_run (run : Run (SystemStep p) (.initial p) past cfg) :
    MergedLate cfg := by
  refine run.invariant (fun _ => rfl) ?_
  rintro cfg l cfg' before ⟨choice, stepped⟩
  cases choice with
  | parent k wild =>
    obtain ⟨⟨pe, cfg₁⟩, moved, same⟩ := Option.map_eq_some_iff.mp stepped
    obtain ⟨-, rfl⟩ := Prod.mk.inj same
    rcases merged_parentAdvance moved with late | ⟨early, kept⟩
    · exact fun early => absurd late (not_le.mpr early)
    · exact fun _ => kept.trans (before early)
  | child c input =>
    obtain ⟨⟨e, cfg₁⟩, moved, same⟩ := Option.map_eq_some_iff.mp stepped
    obtain ⟨-, rfl⟩ := Prod.mk.inj same
    obtain ⟨s, s', step⟩ := childMove_of_childAdvance moved
    have parent : cfg₁.parent = cfg.parent := step.performs.parent
    have merged : cfg₁.merged = cfg.merged := step.performs.merged
    rw [MergedLate, parent, merged]
    exact before

/-- The entries of several sets with at most `most` entries each. -/
theorem card_sum_le {ι : Type} {most : ℕ} (sets : ι → List ValueT) (l : List ι)
    (bounded : ∀ i ∈ l, (sets i).length ≤ most) :
    (l.map fun i => (sets i : Multiset ValueT)).sum.card ≤ l.length * most := by
  induction l with
  | nil => simp
  | cons i rest ih =>
    have first := bounded i (by simp)
    have others := ih fun j member => bounded j (by simp [member])
    rw [List.map_cons, List.sum_cons, Multiset.card_add, Multiset.coe_card, List.length_cons,
      Nat.succ_mul]
    omega

/-- **The merged set has at most one full set of entries for each child.** -/
theorem length_merged_le (run : Run (SystemStep p) (.initial p) past cfg) :
    cfg.merged.N ≤ p.parallel * p.most := by
  have ledger := ledger_of_run run
  by_cases early : cfg.parent.phase < 4
  · rw [mergedLate_of_run run early]
    exact Nat.zero_le _
  · -- the sets merged are those of the children called, each of them once
    have merged := congrArg Multiset.card (ledger.parent.merged (not_lt.mp early))
    have few := ledger.children.served.nodup.length_le_card
    rw [Fintype.card_fin] at few
    have bound := card_sum_le (fun c => (cfg.view c).r.v)
      ((performers .readResult past).take (cfg.parent.count p.parallel))
      fun c _ => (ledger.children.regular c).entries.trans (ledger.children.regular c).room
    rw [Multiset.coe_card] at merged
    have shorter := List.length_take_le (cfg.parent.count p.parallel) (performers .readResult past)
    calc cfg.merged.N
        _ ≤ ((performers .readResult past).take (cfg.parent.count p.parallel)).length * p.most :=
          merged.le.trans bound
        _ ≤ p.parallel * p.most := Nat.mul_le_mul_right _ (by simp; omega)

/-- All entries have a place. -/
theorem Params.Roomy.inBounds (roomy : p.Roomy)
    (run : Run (SystemStep p) (.initial p) past cfg) : InBounds cfg := by
  refine ⟨_, if_pos roomy.product, fun c s forked => ?_, ?_⟩
  · have regular := (ledger_of_run run).children.regular c
    have same : cfg.view c = s := by simp [Config.view, forked]
    rw [same] at regular
    exact roomy.own.le_slots regular.record_fits
  · have atMost := length_merged_le run
    have enough : p.parallel * p.most ≤ max tries (p.parallel * p.repetitions) := by
      unfold Params.most
      rcases Nat.eq_zero_or_pos p.repetitions with none | some
      · rw [none, Nat.max_eq_left (Nat.zero_le 1), Nat.mul_one]
        exact (roomy.counted none).trans (Nat.le_max_left _ _)
      · rw [Nat.max_eq_right some]
        exact Nat.le_max_right _ _
    apply roomy.merged.le_slots
    unfold sizeofResult
    split <;> omega

/-- **No entry is inserted behind the end of a block.** For every number of children
and every `-N`, if the count behind the default is `Roomy`, this holds of the set of
every child and of the merged set, wherever a run is. -/
theorem inBounds_of_run (p : Params) (repetitions : ℤ)
    (roomy : (p.withRepetitions repetitions).Roomy) :
    ∀ past cfg, Run (SystemStep (p.withRepetitions repetitions))
      (.initial (p.withRepetitions repetitions)) past cfg → InBounds cfg :=
  fun _ _ => roomy.inBounds

/-- As many children as a set has entries at least. -/
def Params.eleven : Params := { Params.single with parallel := 11 }

/-- One more. -/
def Params.dozen : Params := { Params.single with parallel := 12 }

/-- With `-P 11 -N 0` the merged set comes to be full. -/
theorem inBounds_of_run_eleven :
    ∃ past cfg, Run (SystemStep (Params.eleven.withRepetitions 0))
        (.initial (Params.eleven.withRepetitions 0)) past cfg ∧
      cfg.merged.N = 11 ∧ InBounds cfg := by
  obtain ⟨past, cfg, run, -, full⟩ :=
    exists_run_merged (p := Params.eleven.withRepetitions 0) (by decide) (by decide)
  have roomy : (Params.eleven.withRepetitions 0).Roomy :=
    ⟨by decide, by decide, .inl (by decide), .inl (by decide)⟩
  exact ⟨past, cfg, run, full, inBounds_of_run Params.eleven 0 roomy past cfg run⟩

/-- **The slip.** With `-P 12 -N 0` twelve entries are merged into a set for eleven. -/
theorem not_inBounds :
    ∃ past cfg, Run (SystemStep (Params.dozen.withRepetitions 0))
        (.initial (Params.dozen.withRepetitions 0)) past cfg ∧
      cfg.merged.N = 12 ∧ ¬InBounds cfg := by
  obtain ⟨past, cfg, run, -, full⟩ :=
    exists_run_merged (p := Params.dozen.withRepetitions 0) (by decide) (by decide)
  refine ⟨past, cfg, run, full, ?_⟩
  rintro ⟨product, defined, -, room⟩
  obtain rfl : 0 = product := by simpa using (show some 0 = some product from defined)
  have slots : (Params.dozen.withRepetitions 0).slots 0 = 11 := by decide +kernel
  rw [full, slots] at room
  exact absurd room (by decide)

end Lmbench.Benchmp
