import Mathlib.Data.List.Basic
import Mathlib.Data.Nat.Bitwise
import Mathlib.Logic.Function.Basic

/-!
# The random offsets of `lmdd` with `norepeat`

Both random modes draw an offset until `been_there` does not find it in the history, and
store it there. `norepeats` starts at -1, so the first offset is stored in front of the
array and never looked at again, and the search includes the slot that is stored next,
which holds a zero or what an earlier window left there.

A draw is the number that the product of `drand48()` with the size becomes. Each draw is
recorded with what is done with it, and whether its offset was used in this window before.

## Main results

* `norepeat_right_iff` - the history is right only if nothing is drawn
* `first_of_stored_again` - an offset that is used again is the first one
* `zero_of_refused` - with a count, an unused offset that is refused is 0
-/

namespace Lmbench.Lmdd.Norepeat

/-- The arguments of a run: `count` is none without `count=`, `ending` and `start` are
none without `end=` and `start=`. -/
structure Config where
  bs : ℕ
  count : Option ℕ
  rand : ℕ
  ending : Option ℕ
  start : Option ℕ

/-- What is done with a draw: its offset is stored in the slot `index`, or refused. -/
inductive Choice
  | stored (index : ℤ) (off : ℕ) (used : Bool)
  | refused (off : ℕ) (used : Bool)
deriving DecidableEq, Repr

/-- The variables of the loop; the offsets of this window and the choices so far. -/
structure State where
  count : ℕ
  start : ℕ
  norepeats : ℤ
  norepeat : ℕ → ℕ
  window : List ℕ
  trace : List Choice
  finished : Bool

/-- `ALIGN(x, bs)` on a `uint64`. -/
def align (x bs : ℕ) : ℕ := (x + (bs - 1)) % 2 ^ 64 &&& (2 ^ 64 - bs)

/-- `been_there(off)`. -/
def State.beenThere (s : State) (off : ℕ) : Bool :=
  -- `i <= norepeats`, so the slot that is stored next is looked at too
  (List.range (s.norepeats + 1).toNat).any fun i => s.norepeat i == off

namespace Config

variable (cfg : Config)

/-- The entries of the array. -/
def size : ℕ := cfg.count.getD (10 * 2 ^ 10)

/-- The offset of a draw. -/
def offset (start d : ℕ) : ℕ :=
  match cfg.ending with
  | some _ => (align d cfg.bs + start + cfg.start.getD 0) % 2 ^ 64
  -- here the start is added before the alignment
  | none => align ((d + cfg.start.getD 0) % 2 ^ 64) cfg.bs

/-- The other end point, `End` being at most `Rand`. -/
def nextStart (start : ℕ) : ℕ :=
  match cfg.ending with
  | some ending => if start = 0 then cfg.rand - min ending cfg.rand else 0
  | none => start

/-- The head of a pass, up to the draws. -/
def beginPass (s : State) : State :=
  if cfg.count.isSome ∧ s.count = 0 then { s with finished := true }
  else { s with count := s.count - 1, start := cfg.nextStart s.start }

/-- `norepeat[norepeats++] = off` and the wrap. -/
def record (s : State) (off : ℕ) : State :=
  let wraps := cfg.count = none ∧ s.norepeats + 1 = 10 * 2 ^ 10
  { s with
    -- a store in front of the array changes none of its slots
    norepeat := if 0 ≤ s.norepeats then Function.update s.norepeat s.norepeats.toNat off
      else s.norepeat
    norepeats := if wraps then 0 else s.norepeats + 1
    window := if wraps then [] else s.window ++ [off]
    trace := s.trace ++ [.stored s.norepeats off (decide (off ∈ s.window))] }

/-- One draw. -/
def draw (s : State) (d : ℕ) : State :=
  let off := cfg.offset s.start d
  if s.finished then s
  else if s.beenThere off then
    { s with trace := s.trace ++ [.refused off (decide (off ∈ s.window))] }
  else cfg.beginPass (cfg.record s off)

/-- The state in front of the loop. -/
def initial : State where
  count := cfg.count.getD (2 ^ 64 - 1)
  start := 0
  norepeats := -1
  norepeat _ := 0
  window := []
  trace := []
  finished := false

/-- All draws. -/
def run (draws : List ℕ) : State := draws.foldl cfg.draw (cfg.beginPass cfg.initial)

end Config

/-- What the history is for. -/
structure Right (cfg : Config) (trace : List Choice) : Prop where
  inside : ∀ (index : ℤ) off used, .stored index off used ∈ trace → 0 ≤ index ∧ index < cfg.size
  fresh : ∀ (index : ℤ) off, .stored index off true ∉ trace
  needed : ∀ off, .refused off false ∉ trace

variable {cfg : Config} {s : State} {d off first n : ℕ} {draws : List ℕ}

section Record

/-- The wrap after a store, where no count was given. -/
abbrev Wraps (cfg : Config) (s : State) : Prop :=
  cfg.count = none ∧ s.norepeats + 1 = 10 * 2 ^ 10

theorem norepeats_record : (cfg.record s off).norepeats =
    if Wraps cfg s then 0 else s.norepeats + 1 := rfl

theorem norepeat_record : (cfg.record s off).norepeat =
    if 0 ≤ s.norepeats then Function.update s.norepeat s.norepeats.toNat off
    else s.norepeat := rfl

theorem window_record : (cfg.record s off).window =
    if Wraps cfg s then [] else s.window ++ [off] := rfl

theorem trace_record : (cfg.record s off).trace =
    s.trace ++ [.stored s.norepeats off (decide (off ∈ s.window))] := rfl

end Record

section Trace

theorem trace_beginPass : (cfg.beginPass s).trace = s.trace := by
  rw [Config.beginPass]
  split <;> rfl

/-- A draw adds to the trace. -/
theorem trace_draw : s.trace <+: (cfg.draw s d).trace := by
  simp only [Config.draw]
  split
  · exact List.prefix_rfl
  · split
    · exact List.prefix_append _ _
    · rw [trace_beginPass]
      exact List.prefix_append _ _

theorem trace_foldl (draws : List ℕ) (s : State) :
    s.trace <+: (draws.foldl cfg.draw s).trace := by
  refine List.foldlRecOn (motive := (s.trace <+: ·.trace)) draws cfg.draw List.prefix_rfl ?_
  exact fun _ sofar _ _ => sofar.trans trace_draw

/-- Nothing is searched before the first offset is stored. -/
theorem draw_first (live : s.finished = false) (nothing : s.norepeats = -1) :
    cfg.draw s d = cfg.beginPass (cfg.record s (cfg.offset s.start d)) := by
  have unseen : s.beenThere (cfg.offset s.start d) = false := by
    simp [State.beenThere, nothing]
  simp only [Config.draw, live, unseen, Bool.false_eq_true, if_false]

theorem beginPass_initial (begins : cfg.count ≠ some 0) :
    cfg.beginPass cfg.initial = { cfg.initial with
      count := cfg.initial.count - 1, start := cfg.nextStart 0 } := by
  have goes : ¬ (cfg.count.isSome = true ∧ cfg.initial.count = 0) := by
    rintro ⟨given, zero⟩
    obtain ⟨count, given⟩ := Option.isSome_iff_exists.mp given
    simp only [Config.initial, given, Option.getD_some] at zero
    exact begins (by rw [given, zero])
  rw [Config.beginPass, if_neg goes]
  rfl

/-- The first draw is stored in front of the array. -/
theorem trace_first (begins : cfg.count ≠ some 0) :
    (cfg.draw (cfg.beginPass cfg.initial) d).trace =
      [.stored (-1) (cfg.offset (cfg.nextStart 0) d) false] := by
  rw [beginPass_initial begins, draw_first rfl rfl, trace_beginPass]
  rfl

theorem foldl_of_finished (ended : s.finished = true) : draws.foldl cfg.draw s = s :=
  List.foldl_fixed' (fun d => by simp [Config.draw, ended]) draws

end Trace

section Window

/-- The offsets that the history holds. -/
def State.recorded (s : State) : List ℕ := (List.range s.norepeats.toNat).map s.norepeat

theorem beenThere_iff (counted : s.norepeats = n) :
    s.beenThere off = true ↔ off ∈ s.recorded ∨ s.norepeat n = off := by
  have bound : (s.norepeats + 1).toNat = n + 1 := by omega
  have bound' : s.norepeats.toNat = n := by omega
  simp only [State.beenThere, State.recorded, bound, bound', List.range_succ, List.any_append,
    List.any_eq_true, List.mem_map, Bool.or_eq_true, List.any_cons, List.any_nil, Bool.or_false,
    beq_iff_eq]

theorem norepeat_record_of_eq (counted : s.norepeats = n) :
    (cfg.record s off).norepeat = Function.update s.norepeat n off := by
  rw [norepeat_record, if_pos (by omega), counted]
  rfl

section Store

variable (counted : s.norepeats = n) (goes : ¬ Wraps cfg s)
include counted goes

theorem norepeats_record_of_goes : (cfg.record s off).norepeats = (n + 1 : ℕ) := by
  rw [norepeats_record, if_neg goes, counted]
  rfl

/-- Within a window a store adds to the history. -/
theorem recorded_record : (cfg.record s off).recorded = s.recorded ++ [off] := by
  rw [State.recorded, State.recorded, norepeats_record_of_goes counted goes, counted,
    norepeat_record_of_eq counted]
  simp only [Int.toNat_natCast, List.range_succ, List.map_append, List.map_cons, List.map_nil,
    Function.update_self]
  congr 1
  apply List.map_congr_left
  intro i below
  rw [Function.update_of_ne (List.mem_range.mp below).ne]

end Store

/-- The history holds this window's offsets, except the first one of the run. -/
structure Remembered (cfg : Config) (first : ℕ) (s : State) : Prop where
  counted : ∃ n : ℕ, s.norepeats = n
  window : s.window = s.recorded ∨ s.window = first :: s.recorded
  zeros : cfg.count.isSome → ∀ i : ℕ, s.norepeats ≤ i → s.norepeat i = 0
  again : ∀ index off, .stored index off true ∈ s.trace → off = first
  refused : cfg.count.isSome → ∀ off, .refused off false ∈ s.trace → off = 0

theorem Remembered.beginPass (remembered : Remembered cfg first s) :
    Remembered cfg first (cfg.beginPass s) := by
  rw [Config.beginPass]
  split
  · exact ⟨remembered.counted, remembered.window, remembered.zeros, remembered.again,
      remembered.refused⟩
  · exact ⟨remembered.counted, remembered.window, remembered.zeros, remembered.again,
      remembered.refused⟩

/-- An offset that `been_there` does not find. -/
theorem Remembered.record (remembered : Remembered cfg first s)
    (unseen : s.beenThere off = false) : Remembered cfg first (cfg.record s off) := by
  obtain ⟨n, counted⟩ := remembered.counted
  have not_recorded : off ∉ s.recorded := by
    intro mem
    rw [(beenThere_iff counted).mpr (.inl mem)] at unseen
    cases unseen
  have again : ∀ index off', .stored index off' true ∈ (cfg.record s off).trace →
      off' = first := by
    intro index off' mem
    rcases List.mem_append.mp mem with earlier | now
    · exact remembered.again index off' earlier
    · obtain ⟨-, rfl, used⟩ : index = s.norepeats ∧ off' = off ∧ off ∈ s.window := by
        simpa using now
      rcases remembered.window with window | window <;> rw [window] at used
      · exact absurd used not_recorded
      · exact (List.mem_cons.mp used).resolve_right not_recorded
  have refused : cfg.count.isSome → ∀ off', .refused off' false ∈ (cfg.record s off).trace →
      off' = 0 := by
    intro given off' mem
    apply remembered.refused given off'
    simpa [Config.record] using mem
  by_cases wraps : Wraps cfg s
  · -- a new window
    have next : (cfg.record s off).norepeats = 0 := by rw [norepeats_record, if_pos wraps]
    refine ⟨⟨0, next⟩, .inl ?_, ?_, again, refused⟩
    · rw [window_record, if_pos wraps, State.recorded, next]
      rfl
    · simp [wraps.1]
  · have slots : (cfg.record s off).norepeat = Function.update s.norepeat n off :=
      norepeat_record_of_eq counted
    refine ⟨⟨n + 1, norepeats_record_of_goes counted wraps⟩, ?_, ?_, again, refused⟩
    · rw [window_record, if_neg wraps, recorded_record counted wraps]
      rcases remembered.window with same | same
      · exact .inl (by rw [same])
      · exact .inr (by rw [same]; rfl)
    · intro given i above
      rw [norepeats_record_of_goes counted wraps] at above
      rw [slots, Function.update_of_ne (by omega)]
      exact remembered.zeros given i (by omega)

/-- An offset that `been_there` finds. -/
theorem Remembered.refuse (remembered : Remembered cfg first s)
    (seen : s.beenThere off = true) :
    Remembered cfg first
      { s with trace := s.trace ++ [.refused off (decide (off ∈ s.window))] } := by
  obtain ⟨n, counted⟩ := remembered.counted
  refine ⟨remembered.counted, remembered.window, remembered.zeros, ?_, ?_⟩
  · intro index off' mem
    apply remembered.again index off'
    simpa using mem
  · intro given off' mem
    rcases List.mem_append.mp mem with earlier | now
    · exact remembered.refused given off' earlier
    · obtain ⟨rfl, unused⟩ : off' = off ∧ off ∉ s.window := by simpa using now
      -- it was found in the slot that is stored next
      have not_recorded : off' ∉ s.recorded := by
        rcases remembered.window with window | window <;> rw [window] at unused
        · exact unused
        · exact fun mem => unused (List.mem_cons_of_mem _ mem)
      rcases (beenThere_iff counted).mp seen with recorded | next
      · exact absurd recorded not_recorded
      · rw [← next]
        exact remembered.zeros given n (by omega)

theorem Remembered.draw (remembered : Remembered cfg first s) :
    Remembered cfg first (cfg.draw s d) := by
  simp only [Config.draw]
  split
  · exact remembered
  · split
    · rename_i seen
      exact remembered.refuse seen
    · rename_i unseen
      exact (remembered.record (by simpa using unseen)).beginPass

/-- The history after the first draw. -/
theorem remembered_first (begins : cfg.count ≠ some 0) :
    Remembered cfg (cfg.offset (cfg.nextStart 0) d)
      (cfg.draw (cfg.beginPass cfg.initial) d) := by
  rw [beginPass_initial begins, draw_first rfl rfl]
  apply Remembered.beginPass
  generalize hs : ({ cfg.initial with
    count := cfg.initial.count - 1, start := cfg.nextStart 0 } : State) = s
  have nothing : s.norepeats = -1 := by rw [← hs]; rfl
  have empty : s.window = [] := by rw [← hs]; rfl
  have start : s.start = cfg.nextStart 0 := by rw [← hs]
  have silent : s.trace = [] := by rw [← hs]; rfl
  have zeros : ∀ i, s.norepeat i = 0 := by rw [← hs]; exact fun _ => rfl
  have wraps : ¬ Wraps cfg s := by
    rintro ⟨-, reached⟩
    omega
  have next : (cfg.record s (cfg.offset s.start d)).norepeats = 0 := by
    rw [norepeats_record, if_neg wraps, nothing]
    rfl
  refine ⟨⟨0, next⟩, .inr ?_, ?_, ?_, ?_⟩
  · rw [window_record, if_neg wraps, empty, State.recorded, next, start]
    rfl
  · intro _ i _
    rw [norepeat_record, if_neg (by omega)]
    exact zeros i
  · intro index off mem
    simp [trace_record, silent, empty] at mem
  · intro _ off mem
    simp [trace_record, silent] at mem

theorem remembered_of_run (begins : cfg.count ≠ some 0) (d : ℕ) (draws : List ℕ) :
    Remembered cfg (cfg.offset (cfg.nextStart 0) d) (cfg.run (d :: draws)) :=
  List.foldlRecOn draws cfg.draw (remembered_first begins) fun _ remembered _ _ =>
    remembered.draw

end Window

theorem trace_of_idle (idle : cfg.count = some 0 ∨ draws = []) : (cfg.run draws).trace = [] := by
  rcases idle with ended | rfl
  · have finished : (cfg.beginPass cfg.initial).finished = true := by
      simp [Config.beginPass, Config.initial, ended]
    rw [Config.run, foldl_of_finished finished, trace_beginPass]
    rfl
  · exact trace_beginPass

/-- An offset that is used again within a window is the first one of the run. -/
theorem first_of_stored_again {index : ℤ}
    (again : .stored index off true ∈ (cfg.run (d :: draws)).trace) :
    off = cfg.offset (cfg.nextStart 0) d := by
  by_cases begins : cfg.count = some 0
  · rw [trace_of_idle (.inl begins)] at again
    cases again
  · exact (remembered_of_run begins d draws).again index off again

/-- With a count, an offset that is refused although it was not used is 0. -/
theorem zero_of_refused (given : cfg.count.isSome)
    (refused : .refused off false ∈ (cfg.run draws).trace) : off = 0 := by
  by_cases idle : cfg.count = some 0 ∨ draws = []
  · rw [trace_of_idle idle] at refused
    cases refused
  · obtain ⟨begins, drawn⟩ := not_or.mp idle
    obtain ⟨d, draws, rfl⟩ := List.exists_cons_of_ne_nil drawn
    exact (remembered_of_run begins d draws).refused given off refused

/-- **The history is right only if nothing is drawn.** The first offset is stored in
front of the array. -/
theorem norepeat_right_iff (cfg : Config) (draws : List ℕ) :
    Right cfg (cfg.run draws).trace ↔ cfg.count = some 0 ∨ draws = [] := by
  constructor
  · intro right
    by_contra drawn
    obtain ⟨begins, some_draw⟩ := not_or.mp drawn
    obtain ⟨d, draws, rfl⟩ := List.exists_cons_of_ne_nil some_draw
    have mem : .stored (-1) (cfg.offset (cfg.nextStart 0) d) false ∈
        (cfg.run (d :: draws)).trace := by
      apply (trace_foldl draws _).subset
      rw [trace_first begins]
      exact List.mem_singleton_self _
    have bounds := right.inside _ _ _ mem
    omega
  · intro idle
    rw [trace_of_idle idle]
    exact ⟨by simp, by simp, by simp⟩

/-- Three transfers of `lmdd rand=64 bs=8 count=3 norepeat=1`: the first offset is stored
in front of the array and used again, and 0 is refused at once. -/
theorem norepeat_wrong :
    ¬ (∀ cfg draws (index : ℤ) off used, .stored index off used ∈ (Config.run cfg draws).trace →
        0 ≤ index ∧ index < cfg.size) ∧
      ¬ (∀ cfg draws (index : ℤ) off, .stored index off true ∉ (Config.run cfg draws).trace) ∧
      ¬ (∀ cfg draws off, .refused off false ∉ (Config.run cfg draws).trace) := by
  have trace : (Config.run ⟨8, some 3, 64, none, none⟩ [5, 0, 5]).trace =
      [.stored (-1) 8 false, .refused 0 false, .stored 0 8 true] := by
    decide
  refine ⟨fun always => ?_, fun always => ?_, fun always => ?_⟩
  · have bounds := always ⟨8, some 3, 64, none, none⟩ [5, 0, 5] (-1) 8 false (by simp [trace])
    omega
  · exact always ⟨8, some 3, 64, none, none⟩ [5, 0, 5] 0 8 (by simp [trace])
  · exact always ⟨8, some 3, 64, none, none⟩ [5, 0, 5] 0 (by simp [trace])

end Lmbench.Lmdd.Norepeat
