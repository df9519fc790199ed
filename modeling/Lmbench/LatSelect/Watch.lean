import Lmbench.Benchmp.Usage
import Lmbench.Lib.Descriptors

/-!
# The descriptors of `lat_select`

`initialize` opens a file or a connection, duplicates it as often as asked for and closes the
first descriptor again; `doit` selects on the set of the duplicates, and `cleanup` closes them.
`select` is told to look at the descriptors below their number. The duplicates are the least
descriptors that were free, so some of them are not below it: as many as other descriptors are,
and one more for the one that was closed.

## Main results

* `opened_initialize`, `table_cleanup` - what the functions do to the table
* `watched_of_run` - what is selected on over all calls of a child, and what is left in the end
-/

namespace Lmbench.LatSelect

open Lib Lib.Descriptors Benchmp

/-- `FD_SETSIZE` -/
def FD_SETSIZE : ℕ := 1024

/-- `state->num`, and the limit on descriptors that `morefds` has set. -/
structure Config where
  num : ℕ
  limit : ℕ

/-- The table of the process, `state->max` and `state->set`, and the descriptors that were looked
at by each `select`. -/
structure Process where
  table : Finset ℕ
  max : ℕ
  set : Finset ℕ
  watched : List (Finset ℕ)
deriving DecidableEq

section Functions

variable (cfg : Config)

/-- The loop of `initialize` with so many duplicates to make. It ends the program where no
descriptor is left, and writes behind the set where it cannot hold the descriptor. -/
def dupAll : ℕ → Process → Option Process
  | 0, s => some s
  | left + 1, s =>
    let fd := lowest s.table
    if fd < cfg.limit ∧ fd < FD_SETSIZE then
      dupAll left
        { s with
          table := insert fd s.table
          max := if s.max < fd then fd else s.max
          set := insert fd s.set }
    else none

/-- `initialize` -/
def initializeF (iterations : ℕ) (s : Process) : Option Process :=
  if iterations ≠ 0 then some s
  else
    let fid := lowest s.table
    -- descriptor 0 is taken for a failure
    if fid = 0 ∨ cfg.limit ≤ fid then none
    else do
      let s ← dupAll cfg cfg.num { s with table := insert fid s.table, max := 0, set := ∅ }
      return { s with max := s.max + 1, table := s.table.erase fid }

/-- `doit` -/
def doit (iterations : ℕ) (s : Process) : Option Process :=
  some { s with
    watched := s.watched ++ List.replicate iterations (s.set.filter (· < cfg.num)) }

/-- `cleanup`; the set is read up to `max`. -/
def cleanup (iterations : ℕ) (s : Process) : Option Process :=
  if iterations ≠ 0 then some s
  else if s.max < FD_SETSIZE then
    some { s with
      table := (List.range (s.max + 1)).foldl
        (fun table i => if i ∈ s.set then table.erase i else table) s.table
      set := ∅ }
  else none

/-- The functions handed to `benchmp`. -/
def act : Call → Process → Option Process
  | (.initializeF, iterations), s => initializeF cfg iterations s
  | (.benchmark, iterations), s => doit cfg iterations s
  | (.cleanup, iterations), s => cleanup iterations s

end Functions

variable {cfg : Config} {s s' : Process} {before : Finset ℕ} {k left : ℕ}

section Initialize

/-- The loop, with `k` descriptors taken so far. -/
structure Dupping (cfg : Config) (before : Finset ℕ) (k : ℕ) (s : Process) : Prop where
  filled : Filled before s.table k
  set : s.set = s.table \ insert (lowest before) before
  first : lowest before ∈ s.table
  max : ∀ fd ∈ s.set, fd ≤ s.max
  max_le : s.max ≤ before.card + cfg.num

theorem dupAll_spec (room : before.card + cfg.num < cfg.limit)
    (fits : before.card + cfg.num + 1 < FD_SETSIZE) (dupping : Dupping cfg before k s)
    (few : k + left = cfg.num + 1) :
    ∃ s', dupAll cfg left s = some s' ∧ Dupping cfg before (cfg.num + 1) s' ∧
      s'.watched = s.watched := by
  induction left generalizing k s with
  | zero =>
    obtain rfl : k = cfg.num + 1 := few
    exact ⟨s, rfl, dupping, rfl⟩
  | succ left ih =>
    have new := lowest_notMem s.table
    have low : lowest s.table ≤ before.card + cfg.num := by
      have := lowest_le_card s.table
      rw [dupping.filled.card] at this
      omega
    have goes : lowest s.table < cfg.limit ∧ lowest s.table < FD_SETSIZE := ⟨by omega, by omega⟩
    have other : lowest s.table ∉ insert (lowest before) before := by
      intro old
      rcases Finset.mem_insert.mp old with same | old
      · exact new (same ▸ dupping.first)
      · exact new (dupping.filled.subset old)
    rw [dupAll, if_pos goes]
    refine ih ⟨dupping.filled.insert_lowest, ?_, ?_, ?_, ?_⟩ (by omega)
    · rw [dupping.set, Finset.insert_sdiff_of_notMem _ other]
    · exact Finset.mem_insert_of_mem dupping.first
    · intro fd member
      dsimp only
      rcases Finset.mem_insert.mp member with rfl | old
      · split_ifs <;> omega
      · have := dupping.max fd old
        split_ifs <;> omega
    · have := dupping.max_le
      dsimp only
      split_ifs <;> omega

/-- The duplicates are open, and nothing else is new. -/
structure Opened (cfg : Config) (before : Finset ℕ) (s : Process) : Prop where
  table : s.table = before ∪ s.set
  disjoint : Disjoint s.set before
  card : s.set.card = cfg.num
  max : ∀ fd ∈ s.set, fd ≤ s.max
  max_lt : s.max < FD_SETSIZE
  watched : (s.set.filter (· < cfg.num)).card =
    cfg.num - (Finset.range cfg.num ∩ before).card - 1

/-- What is left behind the loop once the first descriptor is closed. -/
theorem opened_of_dupping (fits : before.card + cfg.num + 1 < FD_SETSIZE)
    (dupping : Dupping cfg before (cfg.num + 1) s) :
    Opened cfg before { s with max := s.max + 1, table := s.table.erase (lowest before) } := by
  have fresh := lowest_notMem before
  have filled := dupping.filled
  have taken : s.set = (s.table \ before).erase (lowest before) := by
    rw [dupping.set]
    ext fd
    simp only [Finset.mem_sdiff, Finset.mem_insert, Finset.mem_erase, not_or]
    tauto
  refine ⟨?_, ?_, ?_, ?_, ?_, ?_⟩
  · dsimp only
    rw [taken]
    ext fd
    simp only [Finset.mem_union, Finset.mem_erase, Finset.mem_sdiff]
    constructor
    · rintro ⟨other, member⟩
      by_cases old : fd ∈ before
      · exact .inl old
      · exact .inr ⟨other, member, old⟩
    · rintro (old | ⟨other, member, -⟩)
      · exact ⟨fun same => fresh (same ▸ old), filled.subset old⟩
      · exact ⟨other, member⟩
  · dsimp only
    rw [taken]
    apply Finset.disjoint_left.mpr
    intro fd member
    exact (Finset.mem_sdiff.mp (Finset.mem_of_mem_erase member)).2
  · dsimp only
    have inside : lowest before ∈ s.table \ before := Finset.mem_sdiff.mpr ⟨dupping.first, fresh⟩
    rw [taken, Finset.card_erase_of_mem inside, Finset.card_sdiff_of_subset filled.subset,
      filled.card]
    omega
  · intro fd member
    exact (dupping.max fd member).trans (Nat.le_succ _)
  · have := dupping.max_le
    dsimp only
    omega
  · dsimp only
    have new := filled.card_new (n := cfg.num) (by omega)
    rw [taken, Finset.filter_erase]
    -- the closed descriptor is below the number if any of the new ones is
    rcases ((s.table \ before).filter (· < cfg.num)).eq_empty_or_nonempty with none_new | some_new
    · rw [none_new, Finset.card_empty] at new
      rw [none_new, Finset.erase_empty, Finset.card_empty]
      omega
    · obtain ⟨fd, member⟩ := some_new
      obtain ⟨there, less⟩ := Finset.mem_filter.mp member
      obtain ⟨-, free⟩ := Finset.mem_sdiff.mp there
      have inside : lowest before ∈ (s.table \ before).filter (· < cfg.num) := by
        refine Finset.mem_filter.mpr ⟨Finset.mem_sdiff.mpr ⟨dupping.first, fresh⟩, ?_⟩
        exact (lowest_le free).trans_lt less
      rw [Finset.card_erase_of_mem inside, new]

theorem opened_initialize (stdin : 0 ∈ before) (room : before.card + cfg.num < cfg.limit)
    (fits : before.card + cfg.num + 1 < FD_SETSIZE) (table : s.table = before) :
    ∃ s', initializeF cfg 0 s = some s' ∧ Opened cfg before s' ∧ s'.watched = s.watched := by
  have positive : lowest before ≠ 0 := fun zero => lowest_notMem before (zero ▸ stdin)
  have low := lowest_le_card before
  have goes : ¬ (lowest before = 0 ∨ cfg.limit ≤ lowest before) := by
    rintro (zero | none_left)
    · exact positive zero
    · omega
  have begun : Dupping cfg before 1
      { s with table := insert (lowest before) before, max := 0, set := ∅ } := by
    refine ⟨(filled_refl before).insert_lowest, ?_, Finset.mem_insert_self _ _, ?_, Nat.zero_le _⟩
    · exact (Finset.sdiff_self _).symm
    · intro fd member
      cases Finset.notMem_empty fd member
  obtain ⟨s', returned, dupping, kept⟩ := dupAll_spec room fits begun (Nat.add_comm 1 cfg.num)
  refine ⟨_, ?_, opened_of_dupping fits dupping, kept⟩
  rw [initializeF, if_neg (not_not.mpr rfl), table, if_neg goes, returned]
  rfl

end Initialize

section Cleanup

/-- The loop of `cleanup` closes what is in the set. -/
theorem foldl_erase (set table : Finset ℕ) (n : ℕ) :
    (List.range n).foldl (fun table i => if i ∈ set then table.erase i else table) table =
      table \ set.filter (· < n) := by
  induction n with
  | zero =>
    ext fd
    simp
  | succ n ih =>
    rw [List.range_succ, List.foldl_append, ih]
    ext fd
    simp only [List.foldl_cons, List.foldl_nil]
    split_ifs with member
    · simp only [Finset.mem_erase, Finset.mem_sdiff, Finset.mem_filter, Nat.lt_succ_iff_lt_or_eq]
      grind
    · simp only [Finset.mem_sdiff, Finset.mem_filter, Nat.lt_succ_iff_lt_or_eq]
      grind

theorem table_cleanup (opened : Opened cfg before s) :
    ∃ s', cleanup 0 s = some s' ∧ s'.table = before ∧ s'.watched = s.watched := by
  have all : s.set.filter (· < s.max + 1) = s.set := by
    apply Finset.filter_true_of_mem
    intro fd member
    exact Nat.lt_succ_of_le (opened.max fd member)
  refine ⟨_, (if_neg (not_not.mpr rfl)).trans (if_pos opened.max_lt), ?_, rfl⟩
  dsimp only
  rw [foldl_erase, all, opened.table]
  exact Finset.union_sdiff_cancel_right opened.disjoint.symm

end Cleanup

section Main

/-- Where the calls of a child have come to. -/
def Holds (cfg : Config) (before : Finset ℕ) (u : Usage) (s : Process) : Prop :=
  (∀ w ∈ s.watched, w.card = cfg.num - (Finset.range cfg.num ∩ before).card - 1) ∧
    match u with
    | .fresh | .done => s.table = before
    | .idle => Opened cfg before s
    | .ready k | .used k => 1 ≤ k ∧ Opened cfg before s

theorem keeps_holds (stdin : 0 ∈ before) (room : before.card + cfg.num < cfg.limit)
    (fits : before.card + cfg.num + 1 < FD_SETSIZE) :
    Keeps (1 ≤ ·) (act cfg) (Holds cfg before) := by
  rintro u call u' s step ⟨watched, here⟩
  cases step with
  | first =>
    obtain ⟨s', returned, opened, kept⟩ := opened_initialize stdin room fits here
    exact ⟨s', returned, kept ▸ watched, opened⟩
  | prepare positive =>
    exact ⟨s, if_pos (Nat.ne_of_gt positive), watched, positive, here⟩
  | work k =>
    obtain ⟨positive, opened⟩ := here
    refine ⟨_, rfl, ?_, positive, opened.table, opened.disjoint, opened.card, opened.max,
      opened.max_lt, opened.watched⟩
    intro w member
    rcases List.mem_append.mp member with earlier | now
    · exact watched w earlier
    · rw [List.eq_of_mem_replicate now]
      exact opened.watched
  | clear k =>
    obtain ⟨positive, opened⟩ := here
    exact ⟨s, if_pos (Nat.ne_of_gt positive), watched, opened⟩
  | last =>
    obtain ⟨s', returned, table, kept⟩ := table_cleanup here
    exact ⟨s', returned, kept ▸ watched, table⟩

variable {p : Params} {c : Child} {past : List Event}

/-- **What a child of `lat_select` selects on.** No call fails; every `select` looks at fewer
descriptors than asked for, by those below the number that were open before and one more; and
behind the last call of `cleanup` the table is what it was. -/
theorem watched_of_run (hasInitialize : p.hasInitialize = true) (hasCleanup : p.hasCleanup = true)
    (ran : 1 ≤ p.iterations) (batch : 1 ≤ p.iterationsBatch) (stdin : 0 ∈ before)
    (room : before.card + cfg.num < cfg.limit) (fits : before.card + cfg.num + 1 < FD_SETSIZE)
    (run : Run (fun c e c' => RetuneKeeps p c ∧ QuietStep p c e c') (Benchmp.initial p) past c) :
    ∃ s, actAll (act cfg) past { table := before, max := 0, set := ∅, watched := [] } = some s ∧
      (∀ w ∈ s.watched, w.card = cfg.num - (Finset.range cfg.num ∩ before).card - 1) ∧
      (c.use p = .done → s.table = before) := by
  have start : Holds cfg before .fresh { table := before, max := 0, set := ∅, watched := [] } := by
    refine ⟨?_, rfl⟩
    intro w member
    cases member
  obtain ⟨s, acted, watched, here⟩ := keeps_of_run_positive hasInitialize hasCleanup ran batch
    (keeps_holds stdin room fits) start run
  refine ⟨s, acted, watched, ?_⟩
  intro done
  rwa [done] at here

/-- Five duplicates where four descriptors are open: none of them is looked at. -/
theorem watched_of_run_five : ∃ past s,
    actAll (act ⟨5, 100⟩) past { table := {0, 1, 2, 4}, max := 0, set := ∅, watched := [] } =
      some s ∧ (.call .benchmark 1 4096) ∈ past ∧ ∀ w ∈ s.watched, w.card = 0 := by
  let p : Params := { Params.single with parallel := 2 }
  have executed : (execute p (List.replicate 12 (answer 700)) (Benchmp.initial p)).map
      (fun ended => decide ((.call .benchmark 1 4096) ∈ ended.1)) = some true := by
    decide +kernel
  obtain ⟨⟨past, c⟩, ended, called⟩ := Option.map_eq_some_iff.mp executed
  have keeps : ∀ c, RetuneKeeps p c := fun _ _ _ _ single => absurd single (by decide)
  have run : Run (fun c e c' => RetuneKeeps p c ∧ QuietStep p c e c') (Benchmp.initial p) past c :=
    (run_of_execute .nil ended).mono fun c _ _ step => ⟨keeps c, step⟩
  have stdin : 0 ∈ ({0, 1, 2, 4} : Finset ℕ) := by decide
  have room : ({0, 1, 2, 4} : Finset ℕ).card + (⟨5, 100⟩ : Config).num <
      (⟨5, 100⟩ : Config).limit := by decide
  obtain ⟨s, acted, watched, -⟩ :=
    watched_of_run rfl rfl (by decide) (by decide) stdin room (by decide) run
  exact ⟨past, s, acted, of_decide_eq_true called, watched⟩

end Main

end Lmbench.LatSelect
