import Lmbench.Lib.Transition
import Mathlib.Data.List.Basic
import Mathlib.Logic.Function.Basic

/-!
# The ring of pipes of `lat_ctx`

`create_daemons` forks a child for each pipe but the first, which reads the pipe before its
own and writes what it has read to its own. The parent sends a message round once and then,
in `benchmark`, once for each iteration.

A lap is a fixed sequence of hops, into and out of each pipe in turn. The invariant is how
many hops the message has made in its lap.

## Main results

* `Token.step` - a step of any process makes the next hop or leaves the message where it is
* `ring` - one message, whole laps, no deadlock
-/

namespace Lmbench.LatCtx

open Lib

/-- Where a child is: not forked, before or in `read`, or between `read` and `write`. -/
inductive Child
  | unborn
  | reading
  | holding (msg : ℤ)
deriving DecidableEq, Repr

/-- Where the parent is. -/
inductive Main
  /-- in `create_daemons`, about to fork child `i` -/
  | forking (i : ℕ)
  /-- in `create_daemons`, waiting for its message -/
  | warming
  /-- between two calls of `benchmark` -/
  | idle
  /-- in `benchmark`, at the loop condition -/
  | looping (iterations : ℕ)
  /-- in `benchmark`, waiting for its message -/
  | reading (iterations : ℕ)
deriving DecidableEq, Repr

/-- The pipes, the children, and the parent with the `msg` of the function it is in. -/
structure State where
  pipe : ℕ → List ℤ
  child : ℕ → Child
  main : Main
  msg : ℤ

/-- What `create_daemons` finds; its `msg` has no value assigned. -/
def start (msg : ℤ) : State := ⟨fun _ => [], fun _ => .unborn, .forking 1, msg⟩

/-- A fork, an `int` written to or read from `p[i]`, and `benchmark` called and returning. -/
inductive Event
  | fork (i : ℕ)
  | put (i : ℕ)
  | take (i : ℕ)
  | call (iterations : ℕ)
  | ret
deriving DecidableEq, Repr

/-- One step of the parent or of a child. A pipe has room for `capacity` messages; a `read`
of an empty pipe and a `write` to a full one have to wait and are no steps. -/
inductive Step (procs capacity : ℕ) : State → Event → State → Prop
  | fork (s : State) (i : ℕ) (main : s.main = .forking i) (more : i < procs) :
      Step procs capacity s (.fork i)
        { s with child := Function.update s.child i .reading, main := .forking (i + 1) }
  | warm (s : State) (i : ℕ) (main : s.main = .forking i) (through : ¬ i < procs)
      (room : (s.pipe 0).length < capacity) :
      Step procs capacity s (.put 0)
        { s with pipe := Function.update s.pipe 0 (s.pipe 0 ++ [s.msg]), main := .warming }
  | warmed (s : State) (m : ℤ) (rest : List ℤ) (main : s.main = .warming)
      (there : s.pipe (procs - 1) = m :: rest) :
      Step procs capacity s (.take (procs - 1))
        { s with pipe := Function.update s.pipe (procs - 1) rest, main := .idle, msg := m }
  | call (s : State) (iterations : ℕ) (msg : ℤ) (main : s.main = .idle) :
      Step procs capacity s (.call iterations) { s with main := .looping iterations, msg := msg }
  | write (s : State) (left : ℕ) (main : s.main = .looping (left + 1))
      (room : (s.pipe 0).length < capacity) :
      Step procs capacity s (.put 0)
        { s with pipe := Function.update s.pipe 0 (s.pipe 0 ++ [s.msg]), main := .reading left }
  | read (s : State) (left : ℕ) (m : ℤ) (rest : List ℤ) (main : s.main = .reading left)
      (there : s.pipe (procs - 1) = m :: rest) :
      Step procs capacity s (.take (procs - 1))
        { s with
          pipe := Function.update s.pipe (procs - 1) rest
          main := .looping left
          msg := m }
  | ret (s : State) (main : s.main = .looping 0) :
      Step procs capacity s .ret { s with main := .idle }
  -- `doit(p[i - 1][0], p[i][1], process_size)`; the `bread` in between touches neither pipe
  | childRead (s : State) (i : ℕ) (m : ℤ) (rest : List ℤ) (child : s.child i = .reading)
      (there : s.pipe (i - 1) = m :: rest) :
      Step procs capacity s (.take (i - 1))
        { s with
          pipe := Function.update s.pipe (i - 1) rest
          child := Function.update s.child i (.holding m) }
  | childWrite (s : State) (i : ℕ) (m : ℤ) (child : s.child i = .holding m)
      (room : (s.pipe i).length < capacity) :
      Step procs capacity s (.put i)
        { s with
          pipe := Function.update s.pipe i (s.pipe i ++ [m])
          child := Function.update s.child i .reading }

/-! ### Messages and laps -/

/-- What a child has read and not yet written. -/
def Child.held : Child → List ℤ
  | .holding m => [m]
  | .unborn | .reading => []

/-- What the parent has read, or is about to write in its next iteration. -/
def Main.held (msg : ℤ) : Main → List ℤ
  | .idle | .looping _ => [msg]
  | .forking _ | .warming | .reading _ => []

/-- All messages there are, in the pipes and between a read and a write. -/
def State.messages (procs : ℕ) (s : State) : List ℤ :=
  (List.range procs).flatMap s.pipe ++ (List.range procs).flatMap (fun i => (s.child i).held) ++
    s.main.held s.msg

/-- Whether a message has gone into or out of a pipe. -/
def Event.isHop : Event → Bool
  | .put _ | .take _ => true
  | .fork _ | .call _ | .ret => false

/-- One lap of the ring. -/
def lap (procs : ℕ) : List Event := (List.range procs).flatMap fun i => [.put i, .take i]

/-- So many laps, one after the other. -/
def laps (procs n : ℕ) : List Event := (List.replicate n (lap procs)).flatten

/-- The hop that follows `h` hops of a lap. -/
def hop (h : ℕ) : Event := if h % 2 = 0 then .put (h / 2) else .take (h / 2)

theorem hop_even (i : ℕ) : hop (2 * i) = .put i := by
  rw [hop, if_pos (by omega)]
  congr
  omega

theorem hop_odd (i : ℕ) : hop (2 * i + 1) = .take i := by
  have odd : ¬ (2 * i + 1) % 2 = 0 := by omega
  rw [hop, if_neg odd]
  congr
  omega

theorem lap_eq_map_hop (procs : ℕ) : lap procs = (List.range (2 * procs)).map hop := by
  induction procs with
  | zero => rfl
  | succ procs ih =>
    rw [lap, List.range_succ, List.flatMap_append, ← lap, ih, Nat.mul_succ, List.range_succ,
      List.range_succ]
    simp [hop_even, hop_odd]

theorem laps_succ (procs n : ℕ) : laps procs (n + 1) = laps procs n ++ lap procs := by
  simp [laps, List.replicate_succ']

/-! ### Where the message is -/

/-- How many children there are, counting the parent as the first. -/
def Main.forked (procs : ℕ) : Main → ℕ
  | .forking i => i
  | .warming | .idle | .looping _ | .reading _ => procs

/-- Where the parent can be when the message has made `h` hops of its lap. -/
def Main.Fits (procs h : ℕ) : Main → Prop
  | .forking i => h = 0 ∧ 0 < i ∧ i ≤ procs
  | .idle | .looping _ => h = 0
  | .warming | .reading _ => 0 < h

/-- The message has made `h` hops of its lap: after an odd number it is in a pipe, after an
even number a process has it, the parent if there are none. -/
structure Token (procs : ℕ) (s : State) (h : ℕ) : Prop where
  h_lt : h < 2 * procs
  pipe : ∀ i, s.pipe i = if h = 2 * i + 1 then [s.msg] else []
  child : ∀ i, s.child i =
    if 0 < i ∧ i < s.main.forked procs then
      if h = 2 * i then .holding s.msg else .reading
    else .unborn
  main : s.main.Fits procs h

/-- The number of hops after one more; the last one of a lap leads back to none. -/
def nextHop (procs h : ℕ) : ℕ := if h + 1 = 2 * procs then 0 else h + 1

variable {procs capacity h : ℕ} {s t : State} {e : Event} {past mid : List Event}

theorem token_start (msg : ℤ) (positive : 0 < procs) : Token procs (start msg) 0 where
  h_lt := by omega
  pipe i := by simp [start]
  child i := by
    have none : ¬ (0 < i ∧ i < 1) := by omega
    exact (if_neg none).symm
  main := ⟨rfl, Nat.one_pos, positive⟩

theorem nextHop_even {i : ℕ} : nextHop procs (2 * i) = 2 * i + 1 := by
  rw [nextHop, if_neg (by omega)]

/-- A message in a pipe is the one that is going round. -/
theorem Token.of_there (token : Token procs s h) {i : ℕ} {m : ℤ} {rest : List ℤ}
    (there : s.pipe i = m :: rest) : h = 2 * i + 1 ∧ m = s.msg ∧ rest = [] := by
  rw [token.pipe i] at there
  split at there
  · rename_i here
    obtain ⟨rfl, rfl⟩ := List.cons.inj there
    exact ⟨here, rfl, rfl⟩
  · cases there

/-- So is one that a child has. -/
theorem Token.of_holding (token : Token procs s h) {i : ℕ} {m : ℤ}
    (child : s.child i = .holding m) : h = 2 * i ∧ 0 < i ∧ m = s.msg := by
  rw [token.child i] at child
  split at child
  · rename_i born
    split at child
    · rename_i here
      exact ⟨here, born.1, (Child.holding.inj child).symm⟩
    · cases child
  · cases child

/-- A child that reads has been forked. -/
theorem Token.of_reading (token : Token procs s h) {i : ℕ} (child : s.child i = .reading) :
    0 < i ∧ i < s.main.forked procs := by
  rw [token.child i] at child
  split at child
  · assumption
  · cases child

/-- Once the message is in the ring all children are there. -/
theorem Token.forked_eq (token : Token procs s h) (sent : 0 < h) :
    s.main.forked procs = procs := by
  have fits := token.main
  cases main : s.main with
  | forking i =>
    rw [main] at fits
    exact absurd fits.1 (by omega)
  | warming | idle | looping _ | reading _ => rfl

/-- The pipes after the message has been written. -/
theorem Token.pipe_put (token : Token procs s h) {i : ℕ} (here : h = 2 * i) (j : ℕ) :
    Function.update s.pipe i (s.pipe i ++ [s.msg]) j =
      if h + 1 = 2 * j + 1 then [s.msg] else [] := by
  have empty : ∀ k, s.pipe k = [] := fun k => by rw [token.pipe k, if_neg (by omega)]
  by_cases same : j = i
  · subst same
    rw [Function.update_self, empty, if_pos (by omega), List.nil_append]
  · rw [Function.update_of_ne same, empty, if_neg (by omega)]

/-- The pipes after it has been read. -/
theorem Token.pipe_take (token : Token procs s h) {i h' : ℕ} (here : h = 2 * i + 1)
    (even : h' % 2 = 0) (j : ℕ) :
    Function.update s.pipe i [] j = if h' = 2 * j + 1 then [s.msg] else [] := by
  rw [if_neg (by omega)]
  by_cases same : j = i
  · rw [same, Function.update_self]
  · rw [Function.update_of_ne same, token.pipe j, if_neg (by omega)]

/-- The children while the message is with none of them. -/
theorem Token.child_reading (token : Token procs s h) {n h' : ℕ} {msg : ℤ}
    (forked : s.main.forked procs = n) (before : ∀ i, 0 < i → i < n → h ≠ 2 * i)
    (after : ∀ i, 0 < i → i < n → h' ≠ 2 * i) (i : ℕ) :
    s.child i =
      if 0 < i ∧ i < n then if h' = 2 * i then .holding msg else .reading else .unborn := by
  rw [token.child i, forked]
  by_cases born : 0 < i ∧ i < n
  · rw [if_pos born, if_pos born, if_neg (before i born.1 born.2), if_neg (after i born.1 born.2)]
  · rw [if_neg born, if_neg born]

/-- `benchmark` is called or returns. -/
theorem Token.keep_main (token : Token procs s 0) (main : Main) (msg : ℤ)
    (forked : s.main.forked procs = main.forked procs) (fits : main.Fits procs 0) :
    Token procs { s with main := main, msg := msg } 0 where
  h_lt := token.h_lt
  pipe i := by
    have nowhere : ¬ 0 = 2 * i + 1 := by omega
    rw [token.pipe i, if_neg nowhere, if_neg nowhere]
  child :=
    token.child_reading forked (fun _ _ _ => by omega) (fun _ _ _ => by omega)
  main := fits

/-- A child is forked. -/
theorem Token.fork (token : Token procs s 0) {i : ℕ} (main : s.main = .forking i)
    (more : i < procs) :
    Token procs { s with child := Function.update s.child i .reading, main := .forking (i + 1) }
      0 where
  h_lt := token.h_lt
  pipe := token.pipe
  child j := by
    have positive : 0 < i := by
      have fits := token.main
      rw [main] at fits
      exact fits.2.1
    have forked : s.main.forked procs = i := by rw [main, Main.forked]
    dsimp only
    by_cases same : j = i
    · have born : 0 < i ∧ i < i + 1 := by omega
      rw [same, Function.update_self, Main.forked, if_pos born, if_neg (by omega)]
    · have born : 0 < j ∧ j < i ↔ 0 < j ∧ j < i + 1 := by omega
      rw [Function.update_of_ne same, token.child j, forked]
      exact if_congr born rfl rfl
  main := ⟨rfl, Nat.succ_pos i, more⟩

/-- The parent writes. -/
theorem Token.put_main (token : Token procs s 0) (main : Main)
    (forked : s.main.forked procs = main.forked procs) (fits : main.Fits procs 1) :
    Token procs
      { s with pipe := Function.update s.pipe 0 (s.pipe 0 ++ [s.msg]), main := main } 1 where
  h_lt := by
    have := token.h_lt
    omega
  pipe := token.pipe_put (i := 0) rfl
  child :=
    token.child_reading forked (fun _ _ _ => by omega) (fun _ _ _ => by omega)
  main := fits

/-- The parent reads. -/
theorem Token.take_main (token : Token procs s h) (main : Main) {m : ℤ} {rest : List ℤ}
    (there : s.pipe (procs - 1) = m :: rest) (forked : main.forked procs = procs)
    (fits : main.Fits procs 0) :
    h + 1 = 2 * procs ∧
      Token procs
        { s with
          pipe := Function.update s.pipe (procs - 1) rest
          main := main
          msg := m } 0 := by
  have bound := token.h_lt
  obtain ⟨here, rfl, rfl⟩ := token.of_there there
  have last : h + 1 = 2 * procs := by omega
  refine ⟨last, ?_⟩
  exact
    { h_lt := by omega
      pipe := token.pipe_take here rfl
      child := by
        have all := token.forked_eq (by omega)
        exact token.child_reading (all.trans forked.symm) (fun _ _ _ => by omega)
          (fun _ _ _ => by omega)
      main := fits }

/-- While a child has the message or a pipe has it, the parent stays where it is. -/
theorem Main.Fits.of_pos {main : Main} (fits : main.Fits procs h) (sent : 0 < h) {h' : ℕ}
    (still : 0 < h') : main.Fits procs h' := by
  cases main with
  | forking i => exact absurd fits.1 sent.ne'
  | idle | looping _ => exact absurd fits sent.ne'
  | warming | reading _ => exact still

/-- A child reads. -/
theorem Token.take_child (token : Token procs s h) {i : ℕ} {m : ℤ} {rest : List ℤ}
    (child : s.child i = .reading) (there : s.pipe (i - 1) = m :: rest) :
    h + 1 = 2 * i ∧
      Token procs
        { s with
          pipe := Function.update s.pipe (i - 1) rest
          child := Function.update s.child i (.holding m) } (h + 1) := by
  obtain ⟨here, rfl, rfl⟩ := token.of_there there
  have all := token.forked_eq (by omega)
  have born := token.of_reading child
  rw [all] at born
  have next : h + 1 = 2 * i := by omega
  refine ⟨next, ?_⟩
  exact
    { h_lt := by omega
      pipe := token.pipe_take here (by omega)
      child := fun j => by
        dsimp only
        by_cases same : j = i
        · subst same
          rw [Function.update_self, all, if_pos born, if_pos next]
        · rw [Function.update_of_ne same]
          refine (token.child j).trans (if_congr Iff.rfl ?_ rfl)
          rw [if_neg (by omega), if_neg (by omega)]
      main := token.main.of_pos (by omega) (Nat.succ_pos h) }

/-- A child writes. -/
theorem Token.put_child (token : Token procs s h) {i : ℕ} {m : ℤ}
    (child : s.child i = .holding m) :
    h = 2 * i ∧
      Token procs
        { s with
          pipe := Function.update s.pipe i (s.pipe i ++ [m])
          child := Function.update s.child i .reading } (h + 1) := by
  obtain ⟨here, born, rfl⟩ := token.of_holding child
  refine ⟨here, ?_⟩
  have below := token.h_lt
  have all := token.forked_eq (by omega)
  exact
    { h_lt := by omega
      pipe := token.pipe_put here
      child := fun j => by
        dsimp only
        by_cases same : j = i
        · have live : 0 < i ∧ i < procs := by omega
          rw [same, Function.update_self, all, if_pos live, if_neg (by omega)]
        · rw [Function.update_of_ne same]
          refine (token.child j).trans (if_congr Iff.rfl ?_ rfl)
          rw [if_neg (by omega), if_neg (by omega)]
      main := token.main.of_pos (by omega) (Nat.succ_pos h) }

/-- **The hops.** A step makes the hop that is next in the lap, or it makes none and the
message stays. -/
theorem Token.step (positive : 0 < procs) (token : Token procs s h)
    (step : Step procs capacity s e t) :
    (e.isHop = false ∧ Token procs t h) ∨ (e = hop h ∧ Token procs t (nextHop procs h)) := by
  have fits := token.main
  cases step with
  | fork i main more =>
    rw [main] at fits
    obtain rfl : h = 0 := fits.1
    exact .inl ⟨rfl, token.fork main more⟩
  | warm i main through room =>
    rw [main] at fits
    obtain ⟨rfl, _, below⟩ := fits
    obtain rfl : i = procs := by omega
    refine .inr ⟨hop_even 0, ?_⟩
    rw [nextHop_even (i := 0)]
    exact token.put_main .warming (by rw [main]; rfl) Nat.one_pos
  | write left main room =>
    rw [main] at fits
    obtain rfl : h = 0 := fits
    refine .inr ⟨hop_even 0, ?_⟩
    rw [nextHop_even (i := 0)]
    exact token.put_main (.reading left) (by rw [main]; rfl) Nat.one_pos
  | warmed m rest main there =>
    obtain ⟨last, moved⟩ := token.take_main .idle there rfl rfl
    obtain rfl : h = 2 * (procs - 1) + 1 := by omega
    refine .inr ⟨(hop_odd _).symm, ?_⟩
    rwa [nextHop, if_pos last]
  | read left m rest main there =>
    obtain ⟨last, moved⟩ := token.take_main (.looping left) there rfl rfl
    obtain rfl : h = 2 * (procs - 1) + 1 := by omega
    refine .inr ⟨(hop_odd _).symm, ?_⟩
    rwa [nextHop, if_pos last]
  | call iterations msg main =>
    rw [main] at fits
    obtain rfl : h = 0 := fits
    exact .inl ⟨rfl, token.keep_main (.looping iterations) msg (by rw [main]; rfl) rfl⟩
  | ret main =>
    rw [main] at fits
    obtain rfl : h = 0 := fits
    exact .inl ⟨rfl, token.keep_main .idle s.msg (by rw [main]; rfl) rfl⟩
  | childRead i m rest child there =>
    obtain ⟨next, moved⟩ := token.take_child child there
    have bound := moved.h_lt
    obtain rfl : h = 2 * (i - 1) + 1 := by omega
    refine .inr ⟨(hop_odd _).symm, ?_⟩
    rwa [nextHop, if_neg (by omega)]
  | childWrite i m child room =>
    obtain ⟨rfl, moved⟩ := token.put_child child
    refine .inr ⟨(hop_even i).symm, ?_⟩
    rwa [nextHop_even]

/-! ### Laps of a run -/

/-- Laps that the parent has still to finish. -/
def Main.toDo : Main → ℕ
  | .forking _ | .warming => 1
  | .idle => 0
  | .looping n => n
  | .reading n => n + 1

/-- The last hop of a lap finishes it for the parent. -/
theorem Token.toDo_step (token : Token procs s h) (step : Step procs capacity s e t)
    (same : ∀ n, e ≠ .call n) :
    s.main.toDo = t.main.toDo + if e.isHop ∧ h + 1 = 2 * procs then 1 else 0 := by
  have fits := token.main
  cases step with
  | fork i main more => simp [main, Main.toDo, Event.isHop]
  | warm i main through room =>
    rw [main] at fits
    have first : ¬ h + 1 = 2 * procs := by
      have := fits.1
      omega
    simp [main, Main.toDo, first]
  | write left main room =>
    rw [main] at fits
    obtain rfl : h = 0 := fits
    have first : ¬ 0 + 1 = 2 * procs := by omega
    simp [main, Main.toDo, first]
  | warmed m rest main there =>
    obtain ⟨last, _⟩ := token.take_main .idle there rfl rfl
    simp [main, Main.toDo, Event.isHop, last]
  | read left m rest main there =>
    obtain ⟨last, _⟩ := token.take_main .idle there rfl rfl
    simp [main, Main.toDo, Event.isHop, last]
  | call iterations msg main => exact absurd rfl (same iterations)
  | ret main => simp [main, Main.toDo, Event.isHop]
  | childRead i m rest child there =>
    obtain ⟨next, moved⟩ := token.take_child child there
    have inside : ¬ h + 1 = 2 * procs := moved.h_lt.ne
    simp [inside]
  | childWrite i m child room =>
    obtain ⟨_, moved⟩ := token.put_child child
    have inside : ¬ h + 1 = 2 * procs := moved.h_lt.ne
    simp [inside]

/-- Where the message is and how it has got there: by `n` laps and `h` hops of another. -/
structure Travelled (procs : ℕ) (past : List Event) (s : State) (n h : ℕ) : Prop where
  token : Token procs s h
  hops : past.filter Event.isHop = laps procs n ++ (lap procs).take h

theorem isHop_hop (h : ℕ) : (hop h).isHop = true := by
  unfold hop
  split <;> rfl

theorem take_lap (below : h ≤ 2 * procs) : (lap procs).take h = (List.range h).map hop := by
  rw [lap_eq_map_hop, ← List.map_take, List.take_range, Nat.min_eq_left below]

/-- One step further. -/
theorem Travelled.step {n : ℕ} (positive : 0 < procs) (travelled : Travelled procs past s n h)
    (step : Step procs capacity s e t) :
    ∃ h', Travelled procs (past ++ [e]) t
      (n + if e.isHop ∧ h + 1 = 2 * procs then 1 else 0) h' := by
  obtain ⟨token, hops⟩ := travelled
  have bound := token.h_lt
  -- what is not a hop leaves both the message and the list of hops as they are
  rcases token.step positive step with ⟨none, kept⟩ | ⟨rfl, moved⟩
  · refine ⟨h, kept, ?_⟩
    simpa [none] using hops
  · refine ⟨_, moved, ?_⟩
    have extended : past.filter Event.isHop ++ [hop h] =
        laps procs n ++ (lap procs).take (h + 1) := by
      rw [hops, take_lap bound.le, take_lap bound, List.range_succ, List.map_append,
        List.append_assoc]
      rfl
    rw [List.filter_append, List.filter_singleton, isHop_hop, cond_true, extended, nextHop]
    -- the lap may be complete
    by_cases last : h + 1 = 2 * procs
    · rw [if_pos last, if_pos ⟨rfl, last⟩, laps_succ, take_lap last.le, last, ← lap_eq_map_hop]
      simp
    · rw [if_neg last, if_neg fun ⟨_, last'⟩ => last last']
      rfl

/-- From any state in which the parent has the message, a run makes whole laps and a part of
one; those of one call are what its counter has gone down by. -/
theorem travelled_of_run (positive : 0 < procs) (token : Token procs s 0)
    (run : Run (Step procs capacity) s mid t) :
    ∃ n h, Travelled procs mid t n h ∧
      ((∀ k, .call k ∉ mid) → s.main.toDo = t.main.toDo + n) := by
  induction run with
  | nil => exact ⟨0, 0, ⟨token, rfl⟩, fun _ => rfl⟩
  | snoc before taken ih =>
    obtain ⟨n, h, travelled, toDo⟩ := ih
    obtain ⟨h', travelled'⟩ := travelled.step positive taken
    refine ⟨_, h', travelled', fun noCall => ?_⟩
    rw [toDo fun k called => noCall k (List.mem_append_left _ called),
      travelled.token.toDo_step taken fun k called => noCall k (by simp [called])]
    omega

/-- Somewhere in its lap the message can be moved on by the process whose turn it is. -/
theorem Token.live (token : Token procs s h) (room : 0 < capacity) (toDo : 0 < s.main.toDo) :
    ∃ e t, Step procs capacity s e t := by
  have fits := token.main
  have below := token.h_lt
  obtain ⟨i, even | odd⟩ : ∃ i, h = 2 * i ∨ h = 2 * i + 1 := ⟨h / 2, by omega⟩
  · have empty : s.pipe i = [] := by rw [token.pipe i, if_neg (by omega)]
    have fitting : (s.pipe i).length < capacity := by rwa [empty]
    rcases Nat.eq_zero_or_pos i with rfl | positive
    · -- the parent has the message
      subst even
      cases main : s.main with
      | forking i =>
        by_cases more : i < procs
        · exact ⟨_, _, .fork s i main more⟩
        · exact ⟨_, _, .warm s i main more fitting⟩
      | idle => simp [main, Main.toDo] at toDo
      | looping n =>
        cases n with
        | zero => simp [main, Main.toDo] at toDo
        | succ left => exact ⟨_, _, .write s left main fitting⟩
      | warming | reading n =>
        rw [main] at fits
        exact absurd fits (lt_irrefl 0)
    · have all := token.forked_eq (by omega)
      have child := token.child i
      rw [all, if_pos ⟨positive, by omega⟩, if_pos even] at child
      exact ⟨_, _, .childWrite s i s.msg child fitting⟩
  · have there : s.pipe i = [s.msg] := by rw [token.pipe i, if_pos odd]
    have sent : 0 < h := by omega
    by_cases last : i = procs - 1
    · subst last
      cases main : s.main with
      | warming => exact ⟨_, _, .warmed s s.msg [] main there⟩
      | reading left => exact ⟨_, _, .read s left s.msg [] main there⟩
      | forking i =>
        rw [main] at fits
        exact absurd fits.1 sent.ne'
      | idle | looping n =>
        rw [main] at fits
        exact absurd fits sent.ne'
    · have all := token.forked_eq sent
      have child := token.child (i + 1)
      rw [all, if_pos ⟨Nat.succ_pos i, by omega⟩, if_neg (by omega)] at child
      exact ⟨_, _, .childRead s (i + 1) s.msg [] child there⟩

/-! ### The ring -/

/-- A row with something at one place only. -/
theorem flatMap_range_of_eq {α : Type*} {f : ℕ → List α} {n k : ℕ} (below : k < n)
    (elsewhere : ∀ i < n, i ≠ k → f i = []) : (List.range n).flatMap f = f k := by
  induction n with
  | zero => exact absurd below (Nat.not_lt_zero k)
  | succ n ih =>
    rw [List.range_succ, List.flatMap_append, List.flatMap_singleton]
    rcases Nat.lt_or_eq_of_le (Nat.le_of_lt_succ below) with before | rfl
    · rw [ih before fun i inside => elsewhere i (by omega),
        elsewhere n (Nat.lt_succ_self n) before.ne', List.append_nil]
    · have none : (List.range k).flatMap f = [] :=
        List.flatMap_eq_nil_iff.mpr fun i member =>
          have inside := List.mem_range.mp member
          elsewhere i (by omega) inside.ne
      rw [none, List.nil_append]

theorem Main.Fits.held_of_pos {main : Main} {msg : ℤ} (fits : main.Fits procs h) (sent : 0 < h) :
    main.held msg = [] := by
  cases main with
  | idle | looping _ => exact absurd fits sent.ne'
  | forking _ | warming | reading _ => rfl

theorem Main.Fits.held_of_zero {main : Main} {msg : ℤ} (fits : main.Fits procs 0)
    (setUp : ∀ i, main ≠ .forking i) : main.held msg = [msg] := by
  cases main with
  | forking i => exact absurd rfl (setUp i)
  | idle | looping _ => rfl
  | warming | reading _ => exact absurd fits (lt_irrefl 0)

/-- A pipe that the message is not in. -/
theorem Token.pipe_of_ne (token : Token procs s h) {i : ℕ} (other : h ≠ 2 * i + 1) :
    s.pipe i = [] := by
  rw [token.pipe i, if_neg other]

/-- A child that does not have it. -/
theorem Token.held_of_ne (token : Token procs s h) {i : ℕ} (other : 0 < i → h ≠ 2 * i) :
    (s.child i).held = [] := by
  rw [token.child i]
  split
  · rename_i born
    rw [if_neg (other born.1), Child.held]
  · rfl

/-- **One message.** -/
theorem Token.messages_eq (token : Token procs s h) (setUp : ∀ i, s.main ≠ .forking i) :
    s.messages procs = [s.msg] := by
  have below := token.h_lt
  have fits := token.main
  obtain ⟨i, rfl | rfl⟩ : ∃ i, h = 2 * i ∨ h = 2 * i + 1 := ⟨h / 2, by omega⟩
  · have pipes : (List.range procs).flatMap s.pipe = [] :=
      List.flatMap_eq_nil_iff.mpr fun j _ => token.pipe_of_ne (by omega)
    rw [State.messages, pipes, List.nil_append]
    rcases Nat.eq_zero_or_pos i with rfl | positive
    · have children : ((List.range procs).flatMap fun j => (s.child j).held) = [] :=
        List.flatMap_eq_nil_iff.mpr fun j _ => token.held_of_ne (by omega)
      rw [children, List.nil_append, fits.held_of_zero setUp]
    · have child : (s.child i).held = [s.msg] := by
        rw [token.child i, token.forked_eq (by omega), if_pos ⟨positive, by omega⟩, if_pos rfl,
          Child.held]
      rw [flatMap_range_of_eq (k := i) (by omega) fun j _ other => token.held_of_ne (by omega),
        child, fits.held_of_pos (by omega), List.append_nil]
  · have children : ((List.range procs).flatMap fun j => (s.child j).held) = [] :=
      List.flatMap_eq_nil_iff.mpr fun j _ => token.held_of_ne (by omega)
    have there : s.pipe i = [s.msg] := by rw [token.pipe i, if_pos rfl]
    rw [State.messages, children, fits.held_of_pos (by omega),
      flatMap_range_of_eq (k := i) (by omega) fun j _ other => token.pipe_of_ne (by omega), there,
      List.append_nil, List.append_nil]

/-- What the cost of a context switch rests on. -/
structure Ring (procs capacity : ℕ) (past : List Event) (s : State) : Prop where
  /-- Once the children are forked there is one message, in a pipe or with a process. -/
  messages : (∀ i, s.main ≠ .forking i) → s.messages procs = [s.msg]
  /-- It has gone round and round. -/
  hops : ∃ n h, past.filter Event.isHop = laps procs n ++ (lap procs).take h
  /-- From here on, `benchmark` takes one lap for each iteration until it is called again. -/
  iterations : ∀ n left mid t, s.main = .looping n → Run (Step procs capacity) s mid t →
    t.main = .looping left → (∀ k, .call k ∉ mid) →
    left ≤ n ∧ mid.filter Event.isHop = laps procs (n - left)
  /-- While there is a lap to be finished, a process can go on. -/
  live : 0 < s.main.toDo → ∃ e t, Step procs capacity s e t

/-- **One token**, whatever the size of the ring and of its pipes, the number of calls and the
order of the steps. -/
theorem ring (procs capacity : ℕ) (positive : 0 < procs) (room : 0 < capacity) (msg : ℤ)
    (past : List Event) (s : State) (run : Run (Step procs capacity) (start msg) past s) :
    Ring procs capacity past s := by
  obtain ⟨n, h, ⟨token, hops⟩, _⟩ := travelled_of_run positive (token_start msg positive) run
  refine ⟨token.messages_eq, ⟨n, h, hops⟩, fun n left mid t main onward main' noCall => ?_,
    token.live room⟩
  have fits := token.main
  rw [main] at fits
  obtain rfl : h = 0 := fits
  obtain ⟨rounds, h, ⟨token', hops'⟩, toDo⟩ := travelled_of_run positive token onward
  have fits' := token'.main
  rw [main'] at fits'
  obtain rfl : h = 0 := fits'
  -- the counter of `benchmark` has gone down by the laps made
  have counted := toDo noCall
  rw [main, main', Main.toDo, Main.toDo] at counted
  refine ⟨by omega, ?_⟩
  rw [hops', List.take_zero, List.append_nil]
  congr
  omega

/-- Two processes: the lap of `create_daemons`, and a call of `benchmark` for one more. -/
theorem ring_two : ∃ s,
    Run (Step 2 1) (start 0) (.fork 1 :: (lap 2 ++ .call 1 :: (lap 2 ++ [.ret]))) s ∧
      Ring 2 1 (.fork 1 :: (lap 2 ++ .call 1 :: (lap 2 ++ [.ret]))) s := by
  have fork : Run (Step 2 1) (start 0) [.fork 1] _ :=
    Run.nil.snoc (.fork _ 1 rfl (by decide))
  have warm := fork.snoc (.warm _ 2 rfl (by decide) (by decide))
  have childRead := warm.snoc (.childRead _ 1 0 [] rfl rfl)
  have childWrite := childRead.snoc (.childWrite _ 1 0 rfl (by decide))
  have warmed := childWrite.snoc (.warmed _ 0 [] rfl rfl)
  have call := warmed.snoc (.call _ 1 0 rfl)
  have write := call.snoc (.write _ 0 rfl (by decide))
  have childRead' := write.snoc (.childRead _ 1 0 [] rfl rfl)
  have childWrite' := childRead'.snoc (.childWrite _ 1 0 rfl (by decide))
  have read := childWrite'.snoc (.read _ 0 0 [] rfl rfl)
  have ret := read.snoc (.ret _ rfl)
  exact ⟨_, ret, ring 2 1 (by decide) (by decide) 0 _ _ ret⟩

end Lmbench.LatCtx
