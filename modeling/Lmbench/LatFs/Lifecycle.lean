import Lmbench.Benchmp.Usage
import Lmbench.LatFs.Names
import Lmbench.Lib.FileTree

/-!
# The files of `lat_fs`

`lat_fs` hands two triples of functions to `benchmp`: one that makes files, where the
cleanup removes them, and one that removes files, where the initialization makes them. Each
function is modelled by the calls it makes to the operating system and by what it does to
`struct _state`. The results of these calls are not looked at, but for the first `mkdir`,
so a call that fails is here one that gives no result, and the theorem is that none does.

## Main results

* `setupNamesCalls_eq` - what `mkdir` is called with is what `dirs` is filled with
* `standing_setupNames`, `populated_benchmarkMk`, `standing_benchmarkRm`,
  `restored_cleanupNames` - what each function relies on and leaves behind
* `restored_of_run` - over all calls of a child no call fails, and the files are gone in the
  end
-/

namespace Lmbench.LatFs

open Lib Lib.FillTree Lib.FileTree Benchmp

/-- What the functions are configured with; `tempnam i` is the name made by the call `i` of
`tempnam`. -/
structure Config where
  size : ℕ
  max : ℕ
  tempnam : ℕ → Path

/-- What the functions change of `struct _state`, and the calls of `tempnam` made. -/
structure Process where
  -- `none` as long as `names` and `dirs` point to nothing that is allocated
  tree : Option State
  setups : ℕ

abbrev Calls := List (Command Path)

section Functions

/-- `sizeof(buf)` in `mkfile` -/
def bufSize : ℕ := 128 * 1024

/-- The sizes that `mkfile` writes. -/
def chunks (size : ℕ) : List ℕ :=
  if 0 < size then
    let chunk := if bufSize < size then bufSize else size
    chunk :: chunks (size - chunk)
  else []
termination_by size
decreasing_by
  unfold bufSize
  split <;> omega

/-- `mkfile` -/
def mkfile (size : ℕ) (name : Path) : Calls := .creat name :: (chunks size).map (.write name)

/-- The loop over the directories in `setup_names_recurse`, with the calls of `mkdir`. -/
def makeDirsCalls (recurse : State × Calls → Option (State × Calls)) (basename : Path)
    (ndirs : ℕ) : ℕ → ℕ → State × Calls → Option (State × Calls)
  | 0, _, s => some s
  | left + 1, i, (s, calls) =>
    if i < ndirs ∧ s.foff < s.n then do
      let s ← addDir basename i s
      let s ← recurse (s, calls ++ [.mkdir (child basename i)])
      makeDirsCalls recurse basename ndirs left (i + 1) s
    else some (s, calls)

/-- `setup_names_recurse` with the calls of `mkdir`. -/
def setupNamesRecurseCalls : ℕ → State × Calls → Option (State × Calls)
  | 0, (s, calls) => do
    let basename ← s.basename
    let s ← nameFiles basename s.max 0 s
    return (s, calls)
  | depth + 1, (s, calls) => do
    let basename ← s.basename
    let count := s.max ^ (depth + 1)
    let ndirs := (s.n - s.foff) / count + 1
    makeDirsCalls (setupNamesRecurseCalls depth) basename ndirs s.max 0 (s, calls)

/-- `setup_names` behind its test of `iterations`, with the calls of `mkdir`. -/
def setupNamesCalls (iterations max : ℕ) (dirname : Path) : Option (State × Calls) := do
  let (ndirs, depth) ← plan iterations max
  setupNamesRecurseCalls depth
    ({ max := max
       n := iterations
       names := List.replicate iterations none
       dirs := (List.replicate ndirs none).set 0 (some dirname)
       foff := 0
       doff := 0 }, [.mkdir dirname])

/-- The loop `while (iterations-- > 0)` over the names, where a name that is not set is
passed over. -/
def forNames (f : Path → Calls) (names : List (Option Path)) : ℕ → Option Calls
  | 0 => some []
  | i + 1 => do
    let name ← names[i]?
    let later ← forNames f names i
    return name.elim [] f ++ later

variable (cfg : Config)

/-- A function of the benchmark: its calls, and the state behind them. -/
abbrev Function := ℕ → Process → Option (Calls × Process)

/-- One function after the other, with the same arguments. -/
def Function.andThen (f g : Function) : Function := fun iterations s => do
  let (calls, s) ← f iterations s
  let (later, s) ← g iterations s
  return (calls ++ later, s)

/-- `if (!iterations) return;` -/
def Function.unlessZero (f : Function) : Function := fun iterations s =>
  if iterations = 0 then some ([], s) else f iterations s

/-- `setup_names` -/
def setupNamesF : Function := Function.unlessZero fun iterations s => do
  let (tree, calls) ← setupNamesCalls iterations cfg.max (cfg.tempnam s.setups)
  return (calls, { tree := some tree, setups := s.setups + 1 })

/-- `cleanup_names` -/
def cleanupNames : Function := Function.unlessZero fun _ s => do
  let tree ← s.tree
  return (tree.dirs.reverse.filterMap fun dir => dir.map .rmdir, { s with tree := none })

/-- `benchmark_mk` -/
def benchmarkMk : Function := fun iterations s =>
  if iterations = 0 then some ([], s) else do
    let tree ← s.tree
    let calls ← forNames (mkfile cfg.size) tree.names iterations
    return (calls, s)

/-- `benchmark_rm` -/
def benchmarkRm : Function := fun iterations s =>
  if iterations = 0 then some ([], s) else do
    let tree ← s.tree
    let calls ← forNames (fun name => [.unlink name]) tree.names iterations
    return (calls, s)

/-- `setup_rm` -/
def setupRm : Function :=
  Function.unlessZero (Function.andThen (setupNamesF cfg) (benchmarkMk cfg))

/-- `cleanup_mk` -/
def cleanupMk : Function := Function.unlessZero (Function.andThen benchmarkRm cleanupNames)

/-- The two calls of `benchmp` in `measure`. -/
inductive Kind
  | mk
  | rm
deriving DecidableEq, Repr

/-- The functions handed to `benchmp`. -/
def callback : Kind → Callback → Function
  | .mk, .initializeF => setupNamesF cfg
  | .mk, .benchmark => benchmarkMk cfg
  | .mk, .cleanup => cleanupMk
  | .rm, .initializeF => setupRm cfg
  | .rm, .benchmark => benchmarkRm
  | .rm, .cleanup => cleanupNames

/-- What a call does to the process and to the file system. -/
noncomputable def act (kind : Kind) (call : Call) (s : Process × FileTree parent) :
    Option (Process × FileTree parent) := do
  let (calls, process) ← callback cfg kind call.1 call.2 s.1
  let t ← performAll calls s.2
  return (process, t)

end Functions

section Mkdirs

variable {basename : Path} {left i ndirs : ℕ} {s s' : State}

/-- The calls of `mkdir` for the directories that are set. -/
def mkdirs (s : State) : Calls := ((s.dirs.take (s.doff + 1)).filterMap id).map .mkdir

theorem mkdirs_addDir (added : addDir basename i s = some s') :
    mkdirs s' = mkdirs s ++ [.mkdir (child basename i)] := by
  unfold addDir at added
  split_ifs at added with room
  obtain rfl := Option.some.inj added
  have front : (s.dirs.set (s.doff + 1) (some (child basename i))).take (s.doff + 1 + 1) =
      s.dirs.take (s.doff + 1) ++ [some (child basename i)] := by
    rw [List.take_add_one, List.getElem?_set_self room, List.take_set_of_le le_rfl]
    rfl
  simp [mkdirs, front]

theorem mkdirs_nameFiles (named : nameFiles basename left i s = some s') :
    mkdirs s' = mkdirs s := by
  induction left generalizing i s with
  | zero =>
    obtain rfl := Option.some.inj named
    rfl
  | succ left ih =>
    unfold nameFiles at named
    split_ifs at named with room
    · obtain ⟨s₁, added, rest⟩ := Option.bind_eq_some_iff.mp named
      rw [ih rest]
      unfold addName at added
      split_ifs at added
      obtain rfl := Option.some.inj added
      rfl
    · obtain rfl := Option.some.inj named
      rfl

theorem makeDirsCalls_eq {recurse : State → Option State}
    {recurseCalls : State × Calls → Option (State × Calls)}
    (same : ∀ s, recurseCalls (s, mkdirs s) = (recurse s).map fun s => (s, mkdirs s)) :
    makeDirsCalls recurseCalls basename ndirs left i (s, mkdirs s) =
      (makeDirs recurse basename ndirs left i s).map fun s => (s, mkdirs s) := by
  induction left generalizing i s with
  | zero => rfl
  | succ left ih =>
    rw [makeDirsCalls, makeDirs]
    split_ifs with go
    · cases added : addDir basename i s with
      | none => rfl
      | some s₁ =>
        simp only [Option.bind_eq_bind, Option.bind_some, ← mkdirs_addDir added, same]
        cases recurse s₁ with
        | none => rfl
        | some s₂ => exact ih
    · rfl

theorem setupNamesRecurseCalls_eq (depth : ℕ) (s : State) :
    setupNamesRecurseCalls depth (s, mkdirs s) =
      (setupNamesRecurse depth s).map fun s => (s, mkdirs s) := by
  induction depth generalizing s with
  | zero =>
    rw [setupNamesRecurseCalls, setupNamesRecurse]
    cases s.basename with
    | none => rfl
    | some basename =>
      simp only [Option.bind_eq_bind, Option.bind_some]
      cases named : nameFiles basename s.max 0 s with
      | none => rfl
      | some s' => simp [mkdirs_nameFiles named]
  | succ depth ih =>
    rw [setupNamesRecurseCalls, setupNamesRecurse]
    cases s.basename with
    | none => rfl
    | some basename => exact makeDirsCalls_eq ih

/-- What `mkdir` is called with is what `dirs` is filled with, in this order. -/
theorem setupNamesCalls_eq (n : ℕ) {max ndirs depth : ℕ} (dirname : Path)
    (planned : plan n max = some (ndirs, depth)) (positive : 0 < ndirs) :
    setupNamesCalls n max dirname = (setupNames n max dirname).map fun s => (s, mkdirs s) := by
  rw [setupNamesCalls, setupNames, planned]
  simp only [Option.bind_eq_bind, Option.bind_some]
  rw [← setupNamesRecurseCalls_eq]
  obtain ⟨rest, rfl⟩ := Nat.exists_eq_succ_of_ne_zero positive.ne'
  simp [mkdirs, List.replicate_succ]

end Mkdirs

section Files

variable {f : Path → Calls} {l : List Path}

/-- `mkfile` writes what it is asked to. -/
theorem sum_chunks (size : ℕ) : (chunks size).sum = size := by
  induction size using Nat.strong_induction_on with
  | _ size ih =>
    rw [chunks]
    split_ifs with some_left large
    · rw [List.sum_cons, ih (size - bufSize) (by unfold bufSize; omega)]
      omega
    · rw [List.sum_cons, ih (size - size) (by omega)]
      omega
    · simp
      omega

theorem mkfile_eq (size : ℕ) : mkfile size = fill (chunks size) := rfl

theorem forNames_map_some {i : ℕ} (room : i ≤ l.length) :
    forNames f (l.map some) i = some ((l.take i).reverse.flatMap f) := by
  induction i with
  | zero => rfl
  | succ i ih =>
    have inside : i < l.length := room
    rw [forNames, List.getElem?_map, List.getElem?_eq_getElem inside, ih (by omega),
      List.take_succ_eq_append_getElem inside, List.reverse_append, List.flatMap_append,
      List.reverse_singleton, List.flatMap_singleton]
    rfl

/-- All names, from the last to the first. -/
theorem forNames_filled {max n ndirs : ℕ} {dirs : List Path} (all : l.length = n) :
    forNames f (filled max n ndirs l dirs).names n = some (l.reverse.flatMap f) := by
  have names : (filled max n ndirs l dirs).names = l.map some := by simp [filled, all]
  rw [names, forNames_map_some all.ge, ← all, List.take_length]

end Files

variable {cfg : Config} {s s' : Process} {t t' t₀ : FileTree parent} {n ndirs depth max : ℕ}
  {dirname p : Path} {a : List ℕ}

/-- Nothing is there below a name that is not there. -/
theorem render_absent (absent : t₀.node dirname = none) (a : List ℕ) :
    t₀.node (render dirname a) = none := by
  induction a using List.reverseRecOn with
  | nil => exact absent
  | append_singleton a i ih =>
    by_contra present
    have above := t₀.closed _ present
    rw [render_snoc, parent_child, ih] at above
    cases above

/-- The directories of a tree are there, and nothing else is new. -/
structure Standing (cfg : Config) (t₀ : FileTree parent) (n : ℕ) (dirname : Path)
    (ndirs depth : ℕ) (s : Process) (t : FileTree parent) : Prop where
  some_file : 0 < n
  planned : Planned n cfg.max 0 depth ndirs
  absent : t₀.node dirname = none
  tree : s.tree = some (filled cfg.max n ndirs (fileNames dirname cfg.max n depth)
    (dirNames dirname cfg.max n depth))
  made : performAll ((dirNames dirname cfg.max n depth).map .mkdir) t₀ = some t
  dirs : ∀ p ∈ dirNames dirname cfg.max n depth, t.node p = some .dir
  others : ∀ p, p ∉ dirNames dirname cfg.max n depth → t.node p = t₀.node p

/-- The files are there too. -/
structure Populated (cfg : Config) (t₀ : FileTree parent) (n : ℕ) (dirname : Path)
    (ndirs depth : ℕ) (s : Process) (t t' : FileTree parent) : Prop where
  standing : Standing cfg t₀ n dirname ndirs depth s t
  files : ∀ p ∈ fileNames dirname cfg.max n depth, t'.node p = some (.file cfg.size)
  others : ∀ p, p ∉ fileNames dirname cfg.max n depth → t'.node p = t.node p

theorem length_fileNames (two_le : 2 ≤ max) : (fileNames dirname max n depth).length = n := by
  rw [List.length_map, length_leaves (by omega)]

theorem mkdirs_filled {files dirs : List Path} (some_dir : dirs ≠ []) :
    mkdirs (filled max n ndirs files dirs) = dirs.map .mkdir := by
  have positive := List.length_pos_of_ne_nil some_dir
  have last : dirs.length - 1 + 1 = dirs.length := by omega
  simp [mkdirs, filled, last]

theorem not_mem_dirNames (file : p ∈ fileNames dirname max n depth) :
    p ∉ dirNames dirname max n depth := by
  have distinct := nodup_names dirname max n depth
  exact fun dir => List.disjoint_of_nodup_append distinct file dir

theorem setupNamesF_of_calls {tree : State} {calls : Calls} (some_file : 0 < n)
    (made : setupNamesCalls n cfg.max (cfg.tempnam s.setups) = some (tree, calls)) :
    setupNamesF cfg n s = some (calls, ⟨some tree, s.setups + 1⟩) := by
  rw [setupNamesF, Function.unlessZero, if_neg some_file.ne', made]
  rfl

/-- `setup_names` makes the directories. -/
theorem standing_setupNames (two_le : 2 ≤ cfg.max) (some_file : 0 < n)
    (absent : t₀.node (cfg.tempnam s.setups) = none)
    (inside : t₀.node (parent (cfg.tempnam s.setups)) = some .dir) :
    ∃ calls s' t ndirs depth, setupNamesF cfg n s = some (calls, s') ∧
      performAll calls t₀ = some t ∧
      Standing cfg t₀ n (cfg.tempnam s.setups) ndirs depth s' t := by
  obtain ⟨ndirs, depth, counted, planned⟩ := @plan_eq cfg.max n two_le
  have positive : 0 < ndirs := by
    rw [planned.ndirs_eq two_le some_file]
    omega
  have calls := setupNamesCalls_eq n (cfg.tempnam s.setups) counted positive
  rw [setupNames_eq two_le some_file counted planned, Option.map_some,
    mkdirs_filled (by simp)] at calls
  obtain ⟨t, made, dirs, others⟩ := performAll_mkdirs (t := t₀)
    (dirNames (cfg.tempnam s.setups) cfg.max n depth)
    (List.Nodup.of_append_right (nodup_names (cfg.tempnam s.setups) cfg.max n depth))
    (by
      intro p mem
      obtain ⟨a, -, rfl⟩ := List.mem_map.mp mem
      exact render_absent absent a)
    (by
      intro k p here
      rcases Nat.eq_zero_or_pos k with rfl | later
      · obtain rfl : cfg.tempnam s.setups = p := by simpa [render_nil] using here
        exact .inr inside
      · obtain ⟨j, earlier, dir, found, rfl⟩ :=
          exists_earlier_parent two_le planned.fits later here
        exact .inl ⟨j, earlier, found⟩)
  have ran := setupNamesF_of_calls some_file calls
  exact ⟨_, _, t, ndirs, depth, ran, made, some_file, planned, absent, rfl, made, dirs, others⟩

/-- `benchmark_mk` makes the files. -/
theorem populated_benchmarkMk (two_le : 2 ≤ cfg.max)
    (standing : Standing cfg t₀ n dirname ndirs depth s t) :
    ∃ calls t', benchmarkMk cfg n s = some (calls, s) ∧ performAll calls t = some t' ∧
      Populated cfg t₀ n dirname ndirs depth s t t' := by
  obtain ⟨t', made, files, others⟩ := performAll_fill (t := t)
    (fileNames dirname cfg.max n depth).reverse (chunks cfg.size)
    (by
      intro p mem
      rw [List.mem_reverse] at mem
      obtain ⟨a, -, rfl⟩ := List.mem_map.mp mem
      rw [standing.others _ (not_mem_dirNames mem), render_absent standing.absent]
      simp)
    (by
      intro p mem
      rw [List.mem_reverse] at mem
      obtain ⟨dir, node, i, -, rfl⟩ :=
        exists_parent two_le standing.planned.fits (List.mem_append_left _ mem)
      rw [parent_child]
      exact standing.dirs dir node)
  simp only [List.mem_reverse, sum_chunks] at files others
  refine ⟨_, t', ?_, made, standing, files, others⟩
  rw [benchmarkMk, if_neg standing.some_file.ne', standing.tree]
  simp [forNames_filled (length_fileNames two_le), mkfile_eq]

/-- `benchmark_rm` removes them. -/
theorem standing_benchmarkRm (two_le : 2 ≤ cfg.max)
    (populated : Populated cfg t₀ n dirname ndirs depth s t t') :
    ∃ calls, benchmarkRm n s = some (calls, s) ∧ performAll calls t' = some t := by
  have standing := populated.standing
  obtain ⟨t₁, removed, gone, others⟩ := performAll_unlinks (t := t')
    (fileNames dirname cfg.max n depth).reverse
    (List.nodup_reverse.mpr
      (List.Nodup.of_append_left (nodup_names dirname cfg.max n depth)))
    (by
      intro p mem
      exact ⟨_, populated.files p (List.mem_reverse.mp mem)⟩)
  obtain rfl : t₁ = t := by
    ext1
    funext p
    by_cases file : p ∈ fileNames dirname cfg.max n depth
    · rw [gone p (List.mem_reverse.mpr file), standing.others p (not_mem_dirNames file)]
      obtain ⟨a, -, rfl⟩ := List.mem_map.mp file
      exact (render_absent standing.absent a).symm
    · rw [others p (by rwa [List.mem_reverse]), populated.others p file]
  refine ⟨_, ?_, removed⟩
  rw [benchmarkRm, if_neg standing.some_file.ne', standing.tree, List.map_eq_flatMap]
  simp [forNames_filled (length_fileNames two_le)]

/-- `cleanup_names` removes the directories. -/
theorem restored_cleanupNames
    (standing : Standing cfg t₀ n dirname ndirs depth s t) :
    ∃ calls, cleanupNames n s = some (calls, { s with tree := none }) ∧
      performAll calls t = some t₀ := by
  refine ⟨_, ?_, performAll_rmdirs standing.made⟩
  rw [cleanupNames, Function.unlessZero, if_neg standing.some_file.ne', standing.tree]
  simp [filled, List.filterMap_map, Function.comp_def]

section Contract

variable {kind : Kind} {s₁ s₂ : Process} {calls later : Calls} {f g : Function} {files : Bool}

/-- Nothing is allocated, and the file system is as it was. -/
def Bare (t₀ : FileTree parent) (s : Process) (t : FileTree parent) : Prop :=
  s.tree = none ∧ t = t₀

/-- A tree of directories is there, with its files or without. -/
def Made (cfg : Config) (t₀ : FileTree parent) (n : ℕ) (files : Bool) (s : Process)
    (t : FileTree parent) : Prop :=
  ∃ dirname ndirs depth,
    if files then ∃ t₁, Populated cfg t₀ n dirname ndirs depth s t₁ t
    else Standing cfg t₀ n dirname ndirs depth s t

/-- What holds around each call; a call with count zero does nothing. -/
def Holds (cfg : Config) (t₀ : FileTree parent) (kind : Kind) (u : Usage)
    (s : Process × FileTree parent) : Prop :=
  match u with
  | .fresh | .idle | .done => Bare t₀ s.1 s.2
  | .ready k => if k = 0 then Bare t₀ s.1 s.2 else Made cfg t₀ k (kind = .rm) s.1 s.2
  | .used k => if k = 0 then Bare t₀ s.1 s.2 else Made cfg t₀ k (kind = .mk) s.1 s.2

theorem callback_zero (kind : Kind) (which : Callback) (s : Process) :
    callback cfg kind which 0 s = some ([], s) := by
  cases kind <;> cases which <;> rfl

theorem andThen_eq (first : f n s = some (calls, s₁)) (second : g n s₁ = some (later, s₂)) :
    f.andThen g n s = some (calls ++ later, s₂) := by
  rw [Function.andThen, first]
  simp [second]

theorem act_eq {call : Call} (ran : callback cfg kind call.1 call.2 s = some (calls, s'))
    (done : performAll calls t = some t') : act cfg kind call (s, t) = some (s', t') := by
  rw [act, ran]
  simp [done]

theorem performAll_two {t₁ t₂ : FileTree parent} (first : performAll calls t = some t₁)
    (second : performAll later t₁ = some t₂) : performAll (calls ++ later) t = some t₂ := by
  rw [performAll_append, first, Option.bind_some, second]

/-- What each function leaves behind is what the next one relies on. -/
theorem keeps (two_le : 2 ≤ cfg.max)
    (fresh : ∀ i, t₀.node (cfg.tempnam i) = none ∧ t₀.node (parent (cfg.tempnam i)) = some .dir)
    (kind : Kind) : Keeps (fun _ => True) (act cfg kind) (Holds cfg t₀ kind) := by
  rintro u call u' ⟨s, t⟩ step held
  have nothing : ∀ which, act cfg kind (which, 0) (s, t) = some (s, t) := fun which =>
    act_eq (callback_zero kind which s) rfl
  cases step with
  | first => exact ⟨_, nothing _, held⟩
  | last => exact ⟨_, nothing _, held⟩
  | @prepare k =>
    obtain ⟨free, rfl⟩ := held
    rcases Nat.eq_zero_or_pos k with rfl | some_file
    · exact ⟨_, nothing _, free, rfl⟩
    · obtain ⟨calls, s₁, t₁, ndirs, depth, ran, done, standing⟩ :=
        standing_setupNames two_le some_file (fresh s.setups).1 (fresh s.setups).2
      cases kind with
      | mk =>
        refine ⟨_, act_eq ran done, ?_⟩
        rw [Holds, if_neg some_file.ne']
        exact ⟨_, _, _, standing⟩
      | rm =>
        obtain ⟨later, t₂, ran', done', populated⟩ := populated_benchmarkMk two_le standing
        have both : setupRm cfg k s = some (calls ++ later, s₁) := by
          rw [setupRm, Function.unlessZero, if_neg some_file.ne']
          exact andThen_eq ran ran'
        refine ⟨_, act_eq both (performAll_two done done'), ?_⟩
        rw [Holds, if_neg some_file.ne']
        exact ⟨_, _, _, t₁, populated⟩
  | work k =>
    rcases Nat.eq_zero_or_pos k with rfl | some_file
    · exact ⟨_, nothing _, held⟩
    · rw [Holds, if_neg some_file.ne'] at held
      obtain ⟨dirname, ndirs, depth, made⟩ := held
      cases kind with
      | mk =>
        obtain ⟨calls, t₁, ran, done, populated⟩ := populated_benchmarkMk two_le made
        refine ⟨_, act_eq ran done, ?_⟩
        rw [Holds, if_neg some_file.ne']
        exact ⟨_, _, _, t, populated⟩
      | rm =>
        obtain ⟨t₁, populated⟩ := made
        obtain ⟨calls, ran, done⟩ := standing_benchmarkRm two_le populated
        refine ⟨_, act_eq ran done, ?_⟩
        rw [Holds, if_neg some_file.ne']
        exact ⟨_, _, _, populated.standing⟩
  | clear k =>
    rcases Nat.eq_zero_or_pos k with rfl | some_file
    · exact ⟨_, nothing _, held⟩
    · rw [Holds, if_neg some_file.ne'] at held
      obtain ⟨dirname, ndirs, depth, made⟩ := held
      cases kind with
      | mk =>
        obtain ⟨t₁, populated⟩ := made
        obtain ⟨calls, ran, done⟩ := standing_benchmarkRm two_le populated
        obtain ⟨later, ran', done'⟩ := restored_cleanupNames populated.standing
        have both : cleanupMk k s = some (calls ++ later, { s with tree := none }) := by
          rw [cleanupMk, Function.unlessZero, if_neg some_file.ne']
          exact andThen_eq ran ran'
        exact ⟨_, act_eq both (performAll_two done done'), rfl, rfl⟩
      | rm =>
        obtain ⟨calls, ran, done⟩ := restored_cleanupNames made
        exact ⟨_, act_eq ran done, rfl, rfl⟩

/-- The tree that `struct _state` describes is there, with its files or without, and the
rest of the file system is as it was. -/
def Present (cfg : Config) (t₀ : FileTree parent) (n : ℕ) (files : Bool) (s : Process)
    (t : FileTree parent) : Prop :=
  ∃ ndirs tree, s.tree = some tree ∧ LaidOut n cfg.max ndirs tree ∧
    (∀ p, some p ∈ tree.dirs → t.node p = some .dir) ∧
    (∀ p, some p ∈ tree.names → t.node p = if files then some (.file cfg.size) else none) ∧
    (∀ p, some p ∈ tree.names ++ tree.dirs → t₀.node p = none) ∧
    ∀ p, some p ∉ tree.names ++ tree.dirs → t.node p = t₀.node p

theorem mem_names_filled (two_le : 2 ≤ cfg.max) (p : Path) :
    some p ∈ (filled cfg.max n ndirs (fileNames dirname cfg.max n depth)
      (dirNames dirname cfg.max n depth)).names ↔ p ∈ fileNames dirname cfg.max n depth := by
  have whole : n - (fileNames dirname cfg.max n depth).length = 0 := by
    rw [length_fileNames two_le, Nat.sub_self]
  simp only [filled, whole, List.replicate_zero, List.append_nil]
  rw [List.mem_map_of_injective (Option.some_injective _)]

theorem Standing.mem_dirs_filled (two_le : 2 ≤ cfg.max)
    (standing : Standing cfg t₀ n dirname ndirs depth s t) (p : Path) :
    some p ∈ (filled cfg.max n ndirs (fileNames dirname cfg.max n depth)
      (dirNames dirname cfg.max n depth)).dirs ↔ p ∈ dirNames dirname cfg.max n depth := by
  have whole : ndirs - (dirNames dirname cfg.max n depth).length = 0 := by
    rw [standing.planned.ndirs_eq two_le standing.some_file, List.length_map, List.length_cons]
    omega
  simp only [filled, whole, List.replicate_zero, List.append_nil]
  rw [List.mem_map_of_injective (Option.some_injective _)]

theorem Made.present (two_le : 2 ≤ cfg.max) (made : Made cfg t₀ n files s t) :
    Present cfg t₀ n files s t := by
  obtain ⟨dirname, ndirs, depth, made⟩ := made
  obtain ⟨t₁, standing, named, others⟩ : ∃ t₁, Standing cfg t₀ n dirname ndirs depth s t₁ ∧
      (∀ p ∈ fileNames dirname cfg.max n depth,
        t.node p = if files then some (.file cfg.size) else none) ∧
      ∀ p, p ∉ fileNames dirname cfg.max n depth → t.node p = t₁.node p := by
    cases files with
    | true =>
      obtain ⟨t₁, populated⟩ := made
      exact ⟨t₁, populated.standing, populated.files, populated.others⟩
    | false =>
      refine ⟨t, made, ?_, fun _ _ => rfl⟩
      intro p file
      rw [Standing.others made p (not_mem_dirNames file)]
      obtain ⟨a, -, rfl⟩ := List.mem_map.mp file
      exact render_absent (Standing.absent made) a
  refine ⟨ndirs, _, standing.tree,
    laidOut_filled two_le standing.some_file standing.planned dirname, ?_, ?_, ?_, ?_⟩
  · intro p mem
    rw [standing.mem_dirs_filled two_le] at mem
    rw [others p (fun file => not_mem_dirNames file mem), standing.dirs p mem]
  · intro p mem
    exact named p ((mem_names_filled two_le p).mp mem)
  · intro p mem
    rw [List.mem_append, mem_names_filled two_le, standing.mem_dirs_filled two_le] at mem
    obtain ⟨a, rfl⟩ : ∃ a, render dirname a = p := by
      rcases mem with mem | mem <;> obtain ⟨a, -, rfl⟩ := List.mem_map.mp mem <;> exact ⟨a, rfl⟩
    exact render_absent standing.absent a
  · intro p mem
    rw [List.mem_append, mem_names_filled two_le, standing.mem_dirs_filled two_le, not_or] at mem
    rw [others p mem.1, standing.others p mem.2]

end Contract

/-- What is to be found between two calls. -/
def Expected (cfg : Config) (t₀ : FileTree parent) (kind : Kind) (u : Usage) (s : Process)
    (t : FileTree parent) : Prop :=
  match u with
  | .fresh | .idle | .done => Bare t₀ s t
  | .ready k => if k = 0 then Bare t₀ s t else Present cfg t₀ k (kind = .rm) s t
  | .used k => if k = 0 then Bare t₀ s t else Present cfg t₀ k (kind = .mk) s t

/-- **The file system is given back.** In every run of a child that gets no signal, no call
to the operating system fails and no freed or unset name is used; before and behind each
benchmark the planned tree is there, and between the rounds and in the end nothing is left. -/
theorem restored_of_run (cfg : Config) (kind : Kind) (t₀ : FileTree parent) (p : Params)
    (past : List Event) (c : Child) (two_le : 2 ≤ cfg.max)
    (fresh : ∀ i, t₀.node (cfg.tempnam i) = none ∧ t₀.node (parent (cfg.tempnam i)) = some .dir)
    (hasInitialize : p.hasInitialize = true) (hasCleanup : p.hasCleanup = true)
    (run : Run (QuietStep p) (initial p) past c) :
    ∃ s t, actAll (act cfg kind) past (⟨none, 0⟩, t₀) = some (s, t) ∧
      Expected cfg t₀ kind (c.use p) s t := by
  have dealt : Run (fun c e c' => Deals (fun _ => True) c ∧ QuietStep p c e c') (initial p)
      past c := run.mono fun _ _ _ step => ⟨fun _ _ => trivial, step⟩
  obtain ⟨⟨s, t⟩, acted, held⟩ := keeps_of_run hasInitialize hasCleanup (keeps two_le fresh kind)
    (s := (⟨none, 0⟩, t₀)) ⟨rfl, rfl⟩ dealt
  refine ⟨s, t, acted, ?_⟩
  cases now : c.use p with
  | fresh | idle | done =>
    rw [now] at held
    exact held
  | ready k | used k =>
    rw [now, Holds] at held
    rw [Expected]
    split_ifs at held ⊢ with none_made
    · exact held
    · exact held.present two_le

/-- A file system with nothing in it. -/
def emptyRoot : FileTree parent where
  node p := if p = [] then some .dir else none
  closed := by
    intro p present
    obtain rfl : p = [] := by simpa using present
    rfl

/-- A child that makes one file at a time measures, warms down, hands over its result and
exits. -/
theorem restored_of_run_first :
    ∃ (past : List Event) (c : Child),
      Run (QuietStep Params.single) (initial Params.single) past c ∧
      callsOf past = (.initializeF, 0) :: bracket 1 ++ bracket 1 ++ [(.cleanup, 0)] ∧
      c.pc = .exited 0 ∧
      ∃ s t, actAll (act ⟨1024, 2, fun _ => ['t']⟩ .mk) past (⟨none, 0⟩, emptyRoot) = some (s, t) ∧
        Bare emptyRoot s t := by
  have executed : (execute Params.single (List.replicate 211 (answer 1000000))
      (initial Params.single)).map (fun ended => (callsOf ended.1, ended.2.pc)) =
        some ((.initializeF, 0) :: bracket 1 ++ bracket 1 ++ [(.cleanup, 0)],
          .exited 0) := by
    decide +kernel
  obtain ⟨⟨past, c⟩, ran, ended⟩ := Option.map_eq_some_iff.mp executed
  obtain ⟨calls, exited⟩ := Prod.mk.inj ended
  have run := run_of_execute .nil ran
  refine ⟨past, c, run, calls, exited, ?_⟩
  obtain ⟨s, t, acted, expected⟩ := restored_of_run ⟨1024, 2, fun _ => ['t']⟩ .mk emptyRoot
    Params.single past c (by decide) (fun _ => ⟨rfl, rfl⟩) rfl rfl run
  have finished : c.use Params.single = .done := by
    rw [Child.use, show c.pc = .exited 0 from exited]
  rw [finished] at expected
  exact ⟨s, t, acted, expected⟩

end Lmbench.LatFs
