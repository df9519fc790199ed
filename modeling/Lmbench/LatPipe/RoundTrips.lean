import Lmbench.Benchmp.Usage
import Lmbench.Lib.PingPong

/-!
# The round trips of `lat_pipe`

`initialize` makes two pipes, forks a process that runs `writer` and sends a byte around once;
`doit` sends a byte around for each of its iterations. What the two processes do is interleaved in
any way that the pipes allow. `lat_fifo` has the same two loops, on two named pipes.

## Main results

* `round_trips_of_child` - the moves of the two processes are round trips one behind the other, as
  many as the calls ask for
-/

namespace Lmbench.LatPipe

open Lib Lib.PingPong Benchmp

/-- The parent by its calls, with the iterations that the last of them has left; what is on the
way, and whether `writer` runs. -/
structure Pair where
  use : Usage
  left : ℕ
  link : Link
  writer : Bool
deriving DecidableEq, Repr

/-- A message is a byte. -/
def pipes (room : ℕ) : Sizes := ⟨1, room, room⟩

/-- What a call starts with. -/
def Pair.perform (s : Pair) : Call → Pair
  | (.initializeF, iterations) =>
    if iterations ≠ 0 then s else { s with link := .start (pipes 1), writer := true, left := 1 }
  | (.benchmark, iterations) => { s with left := iterations }
  | (.cleanup, iterations) => if iterations ≠ 0 then s else { s with writer := false }

inductive Label
  | call (call : Call)
  | move (e : Move)
deriving DecidableEq, Repr

/-- The moves of `initialize` and `doit`; the others are those of `writer`. -/
def OfParent : Move → Prop
  | .ask _ | .get _ => True
  | .hear _ | .answer _ => False

inductive Pair.Step (room : ℕ) : Pair → Label → Pair → Prop
  /-- the last call has returned -/
  | call {s : Pair} {call : Call} {use : Usage} (idle : s.left = 0)
      (next : Usage.Step (1 ≤ ·) s.use call use) :
      Step room s (.call call) { s.perform call with use := use }
  | parent {s : Pair} {e : Move} {l : Link} (busy : 0 < s.left) (mine : OfParent e)
      (taken : PingPong.Step (pipes room) s.link e l) :
      Step room s (.move e) { s with link := l, left := s.left - e.gets }
  | writer {s : Pair} {e : Move} {l : Link} (alive : s.writer = true) (mine : ¬OfParent e)
      (taken : PingPong.Step (pipes room) s.link e l) :
      Step room s (.move e) { s with link := l }

/-- A child of `benchmp` in front of its first call. -/
def Pair.initial : Pair := ⟨.fresh, 0, .start (pipes 1), false⟩

/-- A byte that goes around. -/
def roundTrip : List Move := [.ask 1, .hear 1, .answer 1, .get 1]

/-- Where the byte is after so many moves of a round trip. -/
def place : ℕ → Link
  | 0 => ⟨1, 0, 0, 0⟩
  | 1 => ⟨0, 1, 0, 0⟩
  | 2 => ⟨0, 0, 1, 0⟩
  | _ => ⟨0, 0, 0, 1⟩

/-- The round trips that a call makes. -/
def tripsOf : Call → ℕ
  | (.initializeF, iterations) => if iterations ≠ 0 then 0 else 1
  | (.benchmark, iterations) => iterations
  | (.cleanup, _) => 0

def due (calls : List Call) : ℕ := (calls.map tripsOf).sum

def calls (past : List Label) : List Call :=
  past.filterMap fun
    | .call call => some call
    | .move _ => none

def moves (past : List Label) : List Move :=
  past.filterMap fun
    | .call _ => none
    | .move e => some e

/-- So many round trips and the begin of another one. -/
def trace (trips phase : ℕ) : List Move :=
  (List.replicate trips roundTrip).flatten ++ roundTrip.take phase

variable {room : ℕ} {s s' : Pair} {l : Label} {past : List Label} {phase : ℕ} {e : Move}
  {link : Link} {call : Call} {use : Usage}

/-- The byte moves from place to place. -/
theorem step_place (below : phase < 4) (taken : PingPong.Step (pipes room) (place phase) e link) :
    link = place ((phase + 1) % 4) ∧ roundTrip[phase]? = some e := by
  cases taken with
  | @ask n some_bytes left _ =>
    match phase, below with
    | 0, _ =>
      obtain rfl : n = 1 := le_antisymm left some_bytes
      exact ⟨rfl, rfl⟩
    | 1, _ | 2, _ | 3, _ => exact absurd left (not_le.mpr some_bytes)
  | @get n reads some_bytes _ here =>
    match phase, below with
    | 0, _ => exact absurd reads one_ne_zero
    | 1, _ | 2, _ => exact absurd here (not_le.mpr some_bytes)
    | 3, _ =>
      obtain rfl : n = 1 := le_antisymm here some_bytes
      exact ⟨rfl, rfl⟩
  | @hear n reads some_bytes _ here =>
    match phase, below with
    | 0, _ | 3, _ => exact absurd here (not_le.mpr some_bytes)
    | 1, _ =>
      obtain rfl : n = 1 := le_antisymm here some_bytes
      exact ⟨rfl, rfl⟩
    | 2, _ => exact absurd reads one_ne_zero
  | @answer n some_bytes left _ =>
    match phase, below with
    | 0, _ | 1, _ | 3, _ => exact absurd left (not_le.mpr some_bytes)
    | 2, _ =>
      obtain rfl : n = 1 := le_antisymm left some_bytes
      exact ⟨rfl, rfl⟩

/-- It can always move. -/
theorem exists_step_place (positive : 0 < room) (below : phase < 4) :
    ∃ e link, PingPong.Step (pipes room) (place phase) e link := by
  match phase, below with
  | 0, _ => exact ⟨_, _, .ask Nat.one_pos le_rfl positive⟩
  | 1, _ => exact ⟨_, _, .hear rfl Nat.one_pos le_rfl le_rfl⟩
  | 2, _ => exact ⟨_, _, .answer Nat.one_pos le_rfl positive⟩
  | 3, _ => exact ⟨_, _, .get rfl Nat.one_pos le_rfl le_rfl⟩

/-- One more move of a round trip. -/
theorem trace_snoc (trips : ℕ) (below : phase < 4) (next : roundTrip[phase]? = some e) :
    trace trips phase ++ [e] = trace (trips + (phase + 1) / 4) ((phase + 1) % 4) := by
  match phase, below with
  | 0, _ | 1, _ | 2, _ =>
    obtain rfl := Option.some.inj next
    simp [trace, roundTrip]
  | 3, _ =>
    obtain rfl := Option.some.inj next
    simp [trace, roundTrip, List.replicate_succ']

/-- Wherever the two processes are. -/
structure Sound (past : List Label) (s : Pair) (phase : ℕ) : Prop where
  below : phase < 4
  link : s.link = place phase
  left_le : s.left ≤ due (calls past)
  moves : moves past = trace (due (calls past) - s.left) phase
  quiet : s.left = 0 → phase = 0
  fresh : s.use = .fresh → due (calls past) = 0
  writer : 0 < s.left ∨ s.use = .idle ∨ (∃ k, s.use = .ready k ∨ s.use = .used k) →
    s.writer = true
  counts : ∀ k, s.use = .ready k ∨ s.use = .used k → 1 ≤ k

theorem sound_initial : Sound [] .initial 0 where
  below := by decide
  link := rfl
  left_le := le_rfl
  moves := rfl
  quiet _ := rfl
  fresh _ := rfl
  writer := by simp [Pair.initial]
  counts := by simp [Pair.initial]

theorem calls_snoc_call (past : List Label) (call : Call) :
    calls (past ++ [.call call]) = calls past ++ [call] := by simp [calls]

theorem calls_snoc_move (past : List Label) (e : Move) :
    calls (past ++ [.move e]) = calls past := by simp [calls]

theorem moves_snoc_call (past : List Label) (call : Call) :
    moves (past ++ [.call call]) = moves past := by simp [moves]

theorem moves_snoc_move (past : List Label) (e : Move) :
    moves (past ++ [.move e]) = moves past ++ [e] := by simp [moves]

theorem due_snoc (cs : List Call) (call : Call) : due (cs ++ [call]) = due cs + tripsOf call := by
  simp [due]

/-- A round trip ends with a read of the parent. -/
theorem gets_eq (below : phase < 4) (next : roundTrip[phase]? = some e) :
    e.gets = (phase + 1) / 4 := by
  match phase, below with
  | 0, _ | 1, _ | 2, _ | 3, _ =>
    obtain rfl := Option.some.inj next
    rfl

/-- A move leads on in the round trip, whoever makes it. -/
theorem Sound.move (sound : Sound past s phase) (busy : 0 < s.left)
    (taken : PingPong.Step (pipes room) s.link e link) :
    Sound (past ++ [.move e]) { s with link := link, left := s.left - e.gets }
      ((phase + 1) % 4) := by
  obtain ⟨below, here, left_le, trips, quiet, fresh, writer, counts⟩ := sound
  rw [here] at taken
  obtain ⟨rfl, next⟩ := step_place below taken
  have gets := gets_eq below next
  refine ⟨Nat.mod_lt _ (by decide), rfl, ?_, ?_, ?_, ?_, ?_, counts⟩
  · rw [calls_snoc_move]
    exact (Nat.sub_le _ _).trans left_le
  · rw [calls_snoc_move, moves_snoc_move, trips, trace_snoc _ below next, gets]
    congr 1
    dsimp only
    omega
  · intro none
    dsimp only at none
    omega
  · rw [calls_snoc_move]
    exact fresh
  · exact fun _ => writer (.inl busy)

theorem sound_step (sound : Sound past s phase) (taken : Pair.Step room s l s') :
    ∃ phase, Sound (past ++ [l]) s' phase := by
  cases taken with
  | @call call use idle next =>
    obtain ⟨below, here, left_le, trips, quiet, fresh, writer, counts⟩ := sound
    obtain rfl := quiet idle
    generalize before : s.use = u at next
    refine ⟨0, ?_⟩
    cases next with
    | first =>
      have none := fresh before
      refine ⟨below, rfl, ?_, ?_, fun _ => rfl, by simp, fun _ => rfl, by simp⟩
      · rw [calls_snoc_call, due_snoc]
        exact Nat.le_add_left _ _
      · rw [calls_snoc_call, due_snoc, moves_snoc_call, trips, none, idle]
        rfl
    | @prepare k positive =>
      have kept : s.perform (.initializeF, k) = s := if_pos (by omega)
      rw [kept]
      have same : due (calls (past ++ [.call (.initializeF, k)])) = due (calls past) := by
        rw [calls_snoc_call, due_snoc, tripsOf, if_pos (by omega), Nat.add_zero]
      refine ⟨below, here, ?_, ?_, quiet, by simp, fun _ => ?_, ?_⟩
      · rw [same]
        exact left_le
      · rw [same, moves_snoc_call]
        exact trips
      · exact writer (.inr (.inl before))
      · rintro k' (⟨⟨⟩⟩ | ⟨⟨⟩⟩)
        exact positive
    | work k =>
      refine ⟨below, here, ?_, ?_, fun _ => rfl, by simp, fun _ => ?_, ?_⟩
      · rw [calls_snoc_call, due_snoc]
        exact Nat.le_add_left _ _
      · rw [calls_snoc_call, due_snoc, moves_snoc_call, trips, idle]
        congr 1
        exact (Nat.add_sub_cancel _ k).symm
      · exact writer (.inr (.inr ⟨k, .inl before⟩))
      · rintro k' (⟨⟨⟩⟩ | ⟨⟨⟩⟩)
        exact counts k (.inl before)
    | clear k =>
      have positive := counts k (.inr before)
      have kept : s.perform (.cleanup, k) = s := if_pos (by omega)
      rw [kept]
      refine ⟨below, here, ?_, ?_, quiet, by simp, fun _ => ?_, by simp⟩
      · rw [calls_snoc_call, due_snoc]
        exact left_le
      · rw [calls_snoc_call, due_snoc, moves_snoc_call]
        exact trips
      · exact writer (.inr (.inr ⟨k, .inr before⟩))
    | last =>
      refine ⟨below, here, ?_, ?_, quiet, by simp, ?_, by simp⟩
      · rw [calls_snoc_call, due_snoc]
        exact left_le
      · rw [calls_snoc_call, due_snoc, moves_snoc_call]
        exact trips
      · rintro (busy | ⟨⟨⟩⟩ | ⟨k, ⟨⟨⟩⟩ | ⟨⟨⟩⟩⟩)
        exact absurd idle busy.ne'
  | parent busy mine taken => exact ⟨_, sound.move busy taken⟩
  | @writer e link alive mine taken =>
    have busy : 0 < s.left := by
      by_contra none
      -- the writer waits in its read
      obtain rfl := sound.quiet (by omega)
      have next := (step_place sound.below (sound.link ▸ taken)).2
      obtain rfl := Option.some.inj next
      exact mine trivial
    have kept : e.gets = 0 := by
      cases e with
      | get n => exact absurd trivial mine
      | _ => rfl
    have moved := sound.move busy taken
    rw [kept, Nat.sub_zero] at moved
    exact ⟨_, moved⟩

theorem sound_of_run (run : Run (Pair.Step room) .initial past s) :
    ∃ phase, Sound past s phase := by
  apply run.invariant_history
  · exact ⟨0, sound_initial⟩
  · rintro past s l s' - ⟨phase, sound⟩ taken
    exact sound_step sound taken

/-- While a call goes on one of the processes can move. -/
theorem Sound.exists_step (positive : 0 < room) (sound : Sound past s phase)
    (busy : 0 < s.left) : ∃ e link, PingPong.Step (pipes room) s.link e link ∧
      Pair.Step room s (.move e) { s with link := link, left := s.left - e.gets } := by
  obtain ⟨e, link, taken⟩ := exists_step_place positive sound.below
  rw [← sound.link] at taken
  by_cases mine : OfParent e
  · exact ⟨e, link, taken, .parent busy mine taken⟩
  · have kept : e.gets = 0 := by
      cases e with
      | get n => exact absurd trivial mine
      | _ => rfl
    have step := Pair.Step.writer (sound.writer (.inl busy)) mine taken
    refine ⟨e, link, taken, ?_⟩
    rwa [kept, Nat.sub_zero]

/-- A call comes to its end. -/
theorem exists_finish (positive : 0 < room) (n : ℕ)
    (run : Run (Pair.Step room) .initial past s) (sound : Sound past s phase)
    (enough : 4 * s.left ≤ n + phase) :
    ∃ past' s', Run (Pair.Step room) .initial past' s' ∧ calls past' = calls past ∧
      s'.use = s.use ∧ s'.left = 0 := by
  induction n generalizing past s phase with
  | zero =>
    have below := sound.below
    exact ⟨past, s, run, rfl, rfl, by omega⟩
  | succ n ih =>
    rcases Nat.eq_zero_or_pos s.left with none | busy
    · exact ⟨past, s, run, rfl, rfl, none⟩
    · obtain ⟨e, link, link_step, taken⟩ := sound.exists_step positive busy
      have moved := sound.move busy link_step
      have next := (step_place sound.below (sound.link ▸ link_step)).2
      have gets := gets_eq sound.below next
      have below := sound.below
      obtain ⟨past', s', run', same, use, none⟩ := ih (run.snoc taken) moved (by
        dsimp only
        omega)
      exact ⟨past', s', run', same.trans (calls_snoc_move past e), use, none⟩

/-- All calls of a path can be made. -/
theorem exists_run_of_calls (positive : 0 < room) {cs : List Call}
    (path : Run (Usage.Step (1 ≤ ·)) .fresh cs use) :
    ∃ past s, Run (Pair.Step room) .initial past s ∧ calls past = cs ∧ s.use = use ∧
      s.left = 0 := by
  induction path with
  | nil => exact ⟨[], .initial, .nil, rfl, rfl, rfl⟩
  | @snoc cs use use' call _ next ih =>
    obtain ⟨past, s, run, rfl, rfl, none⟩ := ih
    have called := run.snoc (.call none next)
    obtain ⟨phase, sound⟩ := sound_of_run called
    obtain ⟨past', s', run', same, use, none⟩ := exists_finish positive _ called sound
      (Nat.le_add_right _ _)
    exact ⟨past', s', run', same.trans (calls_snoc_call past call), use, none⟩

/-- **A child of `benchmp` that runs `lat_pipe`** can make all its calls, and in whatever order the
two processes move, they make the round trips that the calls ask for, one behind the other: no
process is waited for in vain, and nothing is on the way between two calls. -/
theorem round_trips_of_child {p : Params} {events : List Event} {c : Child}
    (hasInitialize : p.hasInitialize = true) (hasCleanup : p.hasCleanup = true)
    (ran : 1 ≤ p.iterations) (batch : 1 ≤ p.iterationsBatch) (positive : 0 < room)
    (run : Run (fun c e c' => RetuneKeeps p c ∧ QuietStep p c e c') (initial p) events c) :
    (∃ past s, Run (Pair.Step room) .initial past s ∧ calls past = callsOf events ∧
        s.left = 0) ∧
      ∀ past s, Run (Pair.Step room) .initial past s → calls past = callsOf events →
        (∃ phase < 4, s.link = place phase ∧
          moves past = trace (due (callsOf events) - s.left) phase) ∧
        (0 < s.left → ∃ e s', Pair.Step room s (.move e) s') ∧
        (s.left = 0 → s.link = place 0 ∧ moves past = trace (due (callsOf events)) 0) := by
  constructor
  · have deals := deals_of_run hasInitialize hasCleanup ran batch run
    obtain ⟨past, s, made, same, -, none⟩ :=
      exists_run_of_calls positive (usage_of_run hasInitialize hasCleanup deals)
    exact ⟨past, s, made, same, none⟩
  · intro past s made same
    obtain ⟨phase, sound⟩ := sound_of_run made
    have moved := sound.moves
    rw [same] at moved
    refine ⟨⟨phase, sound.below, sound.link, moved⟩, ?_, ?_⟩
    · intro busy
      obtain ⟨e, link, -, taken⟩ := sound.exists_step positive busy
      exact ⟨e, _, taken⟩
    · intro none
      obtain rfl := sound.quiet none
      rw [none] at moved
      exact ⟨sound.link, moved⟩

/-- A child that has called `doit` twice. -/
theorem round_trips_of_child_twice : ∃ (past : List Label) (s : Pair) (events : List Event),
    2 ≤ events.count (.call .benchmark 1 4096) ∧ calls past = callsOf events ∧ s.left = 0 ∧
      moves past = trace (due (callsOf events)) 0 := by
  let p : Params := { Params.single with parallel := 2 }
  have executed : (execute p (List.replicate 20 (answer 700)) (initial p)).map
      (fun ended => decide (2 ≤ ended.1.count (.call .benchmark 1 4096))) = some true := by
    decide +kernel
  obtain ⟨⟨events, c⟩, ended, twice⟩ := Option.map_eq_some_iff.mp executed
  have keeps : ∀ c, RetuneKeeps p c := fun _ _ _ _ single => absurd single (by decide)
  have run : Run (fun c e c' => RetuneKeeps p c ∧ QuietStep p c e c') (initial p) events c :=
    (run_of_execute .nil ended).mono fun c _ _ step => ⟨keeps c, step⟩
  obtain ⟨⟨past, s, made, same, none⟩, all⟩ :=
    round_trips_of_child rfl rfl (by decide) (by decide) (show 0 < 65536 by decide) run
  exact ⟨past, s, events, of_decide_eq_true twice, same, none, ((all past s made same).2.2 none).2⟩

end Lmbench.LatPipe
