import Lmbench.Cache.Measure
import Lmbench.Lib.CycleDetection

/-!
# The check of a working set

`check_memory` follows the chain of a working set from its first slot until it is back
there. On the way it looks up the page of each slot among the pages of the working set,
and a second pointer that moves in every other pass tells it when the chain has run into
a cycle that the first slot is not on. In `measure` the call is commented out.

Addresses are offsets from the base of the memory, and a read of a slot that holds no
address gives no result.

## Main results

* `checkMemory_spec` - the check ends on every chain, and what it complains of is what is
  wrong
* `checkMemory_of_run` - over all runs it has nothing to complain of when timing starts
-/

namespace Lmbench

open Lib Lib.CycleDetection Function

/-- The messages of `check_memory`. -/
inductive Complaint
  /-- "bad memory reference" -/
  | badReference
  /-- "unwanted memory cycle!" -/
  | unwantedCycle (page : ℕ)
  /-- "wrong word count" -/
  | wrongCount (expected got : ℕ)
deriving DecidableEq, Repr

/-- The variables of the loop. -/
structure Probe where
  firstPage : ℕ
  p : ℕ
  q : ℕ
  wordCount : ℕ

section Model

/-- A loop over `pages` from `j` on that breaks at `page`, with `left` passes left. -/
def scanPages (pages : List ℕ) (page : ℕ) : ℕ → ℕ → ℕ
  | 0, j => j
  | left + 1, j => if pages[j]? = some page then j else scanPages pages page left (j + 1)

/-- The lookup of a page from `firstPage` on and then before it: where it ended, and whether
it found nothing. -/
def lookup (pages : List ℕ) (npages firstPage page : ℕ) : ℕ × Bool :=
  let j := scanPages pages page (npages - firstPage) firstPage
  if j = npages then
    let j := scanPages pages page firstPage 0
    (j, j = firstPage)
  else (j, false)

variable (s : MemState) (size : ℕ) (c : Chain)

/-- `if (word_count != nwords)` behind the loop. -/
def countComplaint (wordCount : ℕ) : List Complaint :=
  if wordCount ≠ size / s.ptr then [.wrongCount (size / s.ptr) wordCount] else []

/-- The body of the loop: what it says, and the variables behind it unless it returned. -/
def checkPass (probe : Probe) : Option (List Complaint × Option Probe) :=
  let found := lookup c.pages (s.pagesOf size) probe.firstPage (probe.p - probe.p % s.pagesize)
  let said := if found.2 then [Complaint.badReference] else []
  let wordCount := probe.wordCount + 1
  (c.mem probe.p).bind fun p =>
  (if wordCount % 2 = 1 then c.mem probe.q else some probe.q).bind fun q =>
  -- what the pointers point to is compared, not the pointers
  (c.mem p).bind fun pNext => (c.mem q).bind fun qNext =>
    if pNext = qNext then some (said ++ [.unwantedCycle found.1], none)
    else some (said, some ⟨found.1 % s.pagesOf size, p, q, wordCount⟩)

/-- The loop of `check_memory`, for some number of passes at most. -/
def checkLoop (start : ℕ) : ℕ → Probe → Option (List Complaint)
  | 0, _ => none
  | passes + 1, probe =>
    if probe.p = start then some (countComplaint s size probe.wordCount)
    else do
      match ← checkPass s size c probe with
      | (said, none) => some said
      | (said, some next) => (checkLoop start passes next).map (said ++ ·)

/-- `check_memory` -/
def checkMemory (passes : ℕ) : Option (List Complaint) := do
  let start := c.pages.getD 0 0 + s.lineAt 0 + s.wordAt 0
  let p ← c.mem start
  checkLoop s size c start passes ⟨0, p, p, 1⟩

end Model

section Lookup

variable {pages : List ℕ} {page npages firstPage left j : ℕ}

/-- The loop goes to its end if the page is not there. -/
theorem scanPages_eq_iff :
    scanPages pages page left j = j + left ↔ ∀ k, j ≤ k → k < j + left → pages[k]? ≠ some page := by
  induction left generalizing j with
  | zero => exact ⟨fun _ k above below => by omega, fun _ => rfl⟩
  | succ left ih =>
    rw [scanPages]
    split_ifs with here
    · refine iff_of_false (by omega) ?_
      intro absent
      exact absent j le_rfl (by omega) here
    · rw [show j + (left + 1) = j + 1 + left by omega, ih]
      constructor
      · intro absent k above below
        rcases Nat.eq_or_lt_of_le above with rfl | later
        · exact here
        · exact absent k later below
      · intro absent k above below
        exact absent k (by omega) below

/-- **The lookup.** It goes through all pages of the working set, wherever it begins. -/
theorem lookup_iff (first : firstPage < npages) :
    (lookup pages npages firstPage page).2 = true ↔ page ∉ pages.take npages := by
  have front := @scanPages_eq_iff pages page (npages - firstPage) firstPage
  have back := @scanPages_eq_iff pages page firstPage 0
  rw [Nat.add_sub_of_le first.le] at front
  rw [Nat.zero_add] at back
  have mem : page ∈ pages.take npages ↔ ∃ k < npages, pages[k]? = some page := by
    rw [List.mem_iff_getElem?]
    constructor
    · rintro ⟨k, here⟩
      rw [List.getElem?_take] at here
      split_ifs at here with below
      exact ⟨k, below, here⟩
    · rintro ⟨k, below, here⟩
      exact ⟨k, by rw [List.getElem?_take, if_pos below, here]⟩
  rw [mem, lookup]
  split_ifs with missed
  · rw [decide_eq_true_iff, back]
    rw [front] at missed
    constructor
    · rintro absent ⟨k, below, here⟩
      rcases Nat.lt_or_ge k firstPage with before | behind
      · exact absent k (Nat.zero_le k) before here
      · exact missed k behind below here
    · intro absent k _ below here
      exact absent ⟨k, below.trans first, here⟩
  · refine iff_of_false (by simp) ?_
    rw [not_not]
    by_contra absent
    apply missed
    apply front.mpr
    intro k _ below here
    exact absent ⟨k, below, here⟩

end Lookup

section Loop

variable {s : MemState} {size : ℕ} {c : Chain} {start : ℕ} {f : ℕ → ℕ} {i k passes : ℕ}
  {probe : Probe}

/-- The page of an address is not one of the working set. -/
def Outside (s : MemState) (size : ℕ) (c : Chain) (a : ℕ) : Prop :=
  a - a % s.pagesize ∉ c.pages.take (s.pagesOf size)

instance (a : ℕ) : Decidable (Outside s size c a) := inferInstanceAs (Decidable (_ ∉ _))

/-- What is said about the page of a slot. -/
def note (s : MemState) (size : ℕ) (c : Chain) (a : ℕ) : List Complaint :=
  if Outside s size c a then [.badReference] else []

/-- What is said about the pages of `k` slots of the chain. -/
def notes (s : MemState) (size : ℕ) (c : Chain) (f : ℕ → ℕ) (start i k : ℕ) : List Complaint :=
  (List.range' i k).flatMap fun n => note s size c (f^[n] start)

theorem notes_succ : notes s size c f start i (k + 1) =
    note s size c (f^[i] start) ++ notes s size c f start (i + 1) k := by
  rw [notes, List.range'_succ, List.flatMap_cons]
  rfl

theorem notes_eq_nil_iff : notes s size c f start i k = [] ↔
    ∀ n, i ≤ n → n < i + k → ¬Outside s size c (f^[n] start) := by
  have each : ∀ a, note s size c a = [] ↔ ¬Outside s size c a := by
    intro a
    rw [note]
    split_ifs <;> simp_all
  simp only [notes, List.flatMap_eq_nil_iff, each, List.mem_range'_1, and_imp]

theorem eq_badReference_of_mem_notes {x : Complaint} (mem : x ∈ notes s size c f start i k) :
    x = .badReference := by
  obtain ⟨n, -, said⟩ := List.mem_flatMap.mp mem
  rw [note] at said
  split_ifs at said
  · exact List.mem_singleton.mp said
  · cases said

/-- The variables behind `i` passes. -/
structure AtPass (s : MemState) (size : ℕ) (f : ℕ → ℕ) (start i : ℕ) (probe : Probe) : Prop where
  p : probe.p = f^[i + 1] start
  q : probe.q = f^[1 + i / 2] start
  wordCount : probe.wordCount = i + 1
  firstPage : probe.firstPage < s.pagesOf size

theorem checkLoop_back (at_pass : AtPass s size f start i probe)
    (back : f^[i + 1] start = start) :
    checkLoop s size c start (passes + 1) probe = some (countComplaint s size (i + 1)) := by
  rw [checkLoop, if_pos (at_pass.p.trans back), at_pass.wordCount]

/-- One pass, from a slot other than the first. -/
theorem checkPass_eq (links : ∀ n, c.mem (f^[n] start) = some (f^[n + 1] start))
    (at_pass : AtPass s size f start i probe) :
    ∃ probe' page, AtPass s size f start (i + 1) probe' ∧ checkPass s size c probe =
      if f^[2 + (i + 1)] start = f^[2 + (i + 1) / 2] start then
        some (note s size c (f^[i + 1] start) ++ [.unwantedCycle page], none)
      else some (note s size c (f^[i + 1] start), some probe') := by
  have pages : 0 < s.pagesOf size := Nat.zero_lt_of_lt at_pass.firstPage
  have slow : (if (i + 1 + 1) % 2 = 1 then c.mem (f^[1 + i / 2] start)
      else some (f^[1 + i / 2] start)) = some (f^[1 + (i + 1) / 2] start) := by
    split_ifs with turn
    · rw [links, show 1 + i / 2 + 1 = 1 + (i + 1) / 2 by omega]
    · rw [show 1 + i / 2 = 1 + (i + 1) / 2 by omega]
  obtain ⟨found, looked⟩ : ∃ found, lookup c.pages (s.pagesOf size) probe.firstPage
      (f^[i + 1] start - f^[i + 1] start % s.pagesize) = found := ⟨_, rfl⟩
  have said : found.2 = true ↔ Outside s size c (f^[i + 1] start) := by
    rw [← looked]
    exact lookup_iff at_pass.firstPage
  have noted : (if found.2 = true then [Complaint.badReference] else []) =
      note s size c (f^[i + 1] start) := if_congr said rfl rfl
  refine ⟨⟨found.1 % s.pagesOf size, f^[i + 1 + 1] start, f^[1 + (i + 1) / 2] start, i + 1 + 1⟩,
    found.1, ⟨rfl, rfl, rfl, Nat.mod_lt _ pages⟩, ?_⟩
  simp only [checkPass, at_pass.p, at_pass.q, at_pass.wordCount]
  rw [looked, noted, slow, links, Option.bind_some, Option.bind_some, links, Option.bind_some,
    links, Option.bind_some, show i + 1 + 1 + 1 = 2 + (i + 1) by omega,
    show 1 + (i + 1) / 2 + 1 = 2 + (i + 1) / 2 by omega]

/-- **A chain that comes back**, where the pointers do not meet on the way. -/
theorem checkLoop_of_return (passes : ℕ)
    (links : ∀ n, c.mem (f^[n] start) = some (f^[n + 1] start))
    (at_pass : AtPass s size f start i probe) (back : f^[i + k + 1] start = start)
    (away : ∀ n, i < n → n < i + k + 1 → f^[n] start ≠ start)
    (apart : ∀ n, i < n → n < i + k + 1 → f^[2 + n] start ≠ f^[2 + n / 2] start) :
    checkLoop s size c start (k + 1 + passes) probe =
      some (notes s size c f start (i + 1) k ++ countComplaint s size (i + k + 1)) := by
  induction k generalizing i probe with
  | zero =>
    rw [Nat.add_right_comm]
    exact checkLoop_back at_pass back
  | succ k ih =>
    have fuel : k + 1 + 1 + passes = k + 1 + passes + 1 := by omega
    obtain ⟨probe', page, next, pass⟩ := checkPass_eq links at_pass
    rw [if_neg (apart (i + 1) (by omega) (by omega))] at pass
    have later := ih next (by rwa [show i + 1 + k + 1 = i + (k + 1) + 1 by omega])
      (fun n above below => away n (by omega) (by omega))
      (fun n above below => apart n (by omega) (by omega))
    rw [fuel, checkLoop, at_pass.p, if_neg (away (i + 1) (by omega) (by omega)), pass]
    change (checkLoop s size c start (k + 1 + passes) probe').map _ = _
    rw [later, Option.map_some, show i + 1 + k + 1 = i + (k + 1) + 1 by omega, notes_succ,
      List.append_assoc]

/-- **A chain on which the pointers meet** before it has come back. -/
theorem checkLoop_of_meeting (links : ∀ n, c.mem (f^[n] start) = some (f^[n + 1] start))
    (at_pass : AtPass s size f start i probe)
    (meet : f^[2 + (i + k + 1)] start = f^[2 + (i + k + 1) / 2] start)
    (away : ∀ n, i < n → n ≤ i + k + 1 → f^[n] start ≠ start)
    (apart : ∀ n, i < n → n < i + k + 1 → f^[2 + n] start ≠ f^[2 + n / 2] start) :
    ∃ page, ∀ passes, checkLoop s size c start (k + 1 + passes) probe =
      some (notes s size c f start (i + 1) (k + 1) ++ [.unwantedCycle page]) := by
  induction k generalizing i probe with
  | zero =>
    obtain ⟨probe', page, next, pass⟩ := checkPass_eq links at_pass
    rw [if_pos meet] at pass
    refine ⟨page, fun passes => ?_⟩
    rw [Nat.add_right_comm, checkLoop, at_pass.p, if_neg (away (i + 1) (by omega) (by omega)),
      pass]
    simp [notes]
  | succ k ih =>
    obtain ⟨probe', page, next, pass⟩ := checkPass_eq links at_pass
    rw [if_neg (apart (i + 1) (by omega) (by omega))] at pass
    obtain ⟨page', later⟩ := ih next (by rwa [show i + 1 + k + 1 = i + (k + 1) + 1 by omega])
      (fun n above below => away n (by omega) (by omega))
      (fun n above below => apart n (by omega) (by omega))
    refine ⟨page', fun passes => ?_⟩
    have fuel : k + 1 + 1 + passes = k + 1 + passes + 1 := by omega
    rw [fuel, checkLoop, at_pass.p, if_neg (away (i + 1) (by omega) (by omega)), pass]
    change (checkLoop s size c start (k + 1 + passes) probe').map _ = _
    rw [later, Option.map_some, notes_succ (k := k + 1), List.append_assoc]

/-- The slot that the check starts from. -/
def firstSlot (s : MemState) (c : Chain) : ℕ := c.pages.getD 0 0 + s.lineAt 0 + s.wordAt 0

/-- What the check says, for a chain that comes back and for one that does not. -/
theorem checkMemory_cases
    (links : ∀ n, c.mem (f^[n] (firstSlot s c)) = some (f^[n + 1] (firstSlot s c)))
    (finite : (Set.range fun n => f^[n] (firstSlot s c)).Finite) (pages : 0 < s.pagesOf size) :
    (0 < minimalPeriod f (firstSlot s c) ∧ ∀ passes,
      checkMemory s size c (minimalPeriod f (firstSlot s c) + passes) =
        some (notes s size c f (firstSlot s c) 1 (minimalPeriod f (firstSlot s c) - 1) ++
          countComplaint s size (minimalPeriod f (firstSlot s c)))) ∨
      (minimalPeriod f (firstSlot s c) = 0 ∧ ∃ k page, ∀ passes,
        checkMemory s size c (k + passes) =
          some (notes s size c f (firstSlot s c) 1 k ++ [.unwantedCycle page])) := by
  have begins : ∀ passes, checkMemory s size c passes = checkLoop s size c (firstSlot s c) passes
      ⟨0, f^[1] (firstSlot s c), f^[1] (firstSlot s c), 1⟩ := by
    intro passes
    rw [checkMemory]
    change (c.mem (f^[0] (firstSlot s c))).bind _ = _
    rw [links]
    rfl
  have at_start : AtPass s size f (firstSlot s c) 0
      ⟨0, f^[1] (firstSlot s c), f^[1] (firstSlot s c), 1⟩ := ⟨rfl, rfl, rfl, pages⟩
  rcases Nat.eq_zero_or_pos (minimalPeriod f (firstSlot s c)) with never | period
  · right
    refine ⟨never, ?_⟩
    -- the first meeting
    have meets := exists_meeting finite 2
    classical
    obtain ⟨positive, meet⟩ := Nat.find_spec meets
    have first := fun n => @Nat.find_min _ _ meets n
    obtain ⟨k, last⟩ := Nat.exists_eq_succ_of_ne_zero positive.ne'
    rw [last] at meet first
    obtain ⟨page, run⟩ := checkLoop_of_meeting (k := k) links at_start (by rwa [Nat.zero_add])
      (by
        intro n above _ back
        have periodic : IsPeriodicPt f n (firstSlot s c) := back
        have period := periodic.minimalPeriod_pos above
        omega)
      (fun n above below meet => first n (by omega) ⟨above, meet⟩)
    exact ⟨k + 1, page, fun passes => (begins _).trans (run passes)⟩
  · left
    refine ⟨period, fun passes => ?_⟩
    obtain ⟨k, last⟩ := Nat.exists_eq_succ_of_ne_zero period.ne'
    have run := checkLoop_of_return (k := k) passes links at_start
      (by
        rw [Nat.zero_add, ← Nat.succ_eq_add_one, ← last]
        exact iterate_minimalPeriod)
      (by
        intro n above below back
        exact not_isPeriodicPt_of_pos_of_lt_minimalPeriod above.ne' (by omega) back)
      (fun n above below => iterate_ne_of_lt above (by omega) 2)
    rw [begins, last, Nat.succ_sub_one]
    rw [show 0 + k + 1 = k + 1 by omega] at run
    exact run

/-- What a check that says `said` has found out. -/
structure Findings (s : MemState) (size : ℕ) (c : Chain) (said : List Complaint) : Prop where
  /-- It is silent for the working set that `measure` is to link, and for no other chain. -/
  silent : said = [] ↔ ∃ slots, IsCycle c.mem (firstSlot s c) slots ∧
    slots.length = size / s.ptr ∧ ∀ slot ∈ slots.tail, ¬Outside s size c slot
  cycle : (∃ page, .unwantedCycle page ∈ said) ↔ ¬∃ slots, IsCycle c.mem (firstSlot s c) slots
  count : ∀ expected got, .wrongCount expected got ∈ said ↔
    ∃ slots, IsCycle c.mem (firstSlot s c) slots ∧ slots.length = got ∧
      expected = size / s.ptr ∧ got ≠ expected

theorem mem_countComplaint {x : Complaint} {n : ℕ} : x ∈ countComplaint s size n ↔
    x = .wrongCount (size / s.ptr) n ∧ n ≠ size / s.ptr := by
  unfold countComplaint
  split_ifs with wrong
  · simp [wrong]
  · simp [wrong]

/-- The slots of a cycle, from the second one on. -/
theorem forall_mem_tail_iff (f : ℕ → ℕ) (start : ℕ) (P : ℕ → Prop) {n : ℕ} (positive : 0 < n) :
    (∀ a ∈ ((List.range n).map fun i => f^[i] start).tail, P a) ↔
      ∀ i, 1 ≤ i → i < 1 + (n - 1) → P (f^[i] start) := by
  obtain ⟨k, rfl⟩ := Nat.exists_eq_succ_of_ne_zero positive.ne'
  rw [List.range_succ_eq_map, List.map_cons, List.tail_cons]
  simp only [List.map_map, List.mem_map, List.mem_range, forall_exists_index, and_imp,
    forall_apply_eq_imp_iff₂, Nat.succ_sub_one]
  constructor
  · intro each i above below
    obtain ⟨j, rfl⟩ := Nat.exists_eq_add_of_le' above
    exact each j (by omega)
  · intro each i below
    exact each (i + 1) (by omega) (by omega)

/-- What is found on a chain that comes back. -/
theorem findings_of_period (links : ∀ n, c.mem (f^[n] (firstSlot s c)) =
    some (f^[n + 1] (firstSlot s c))) (period : 0 < minimalPeriod f (firstSlot s c)) :
    Findings s size c (notes s size c f (firstSlot s c) 1 (minimalPeriod f (firstSlot s c) - 1) ++
      countComplaint s size (minimalPeriod f (firstSlot s c))) := by
  have cycle : IsCycle c.mem (firstSlot s c) _ := (isCycle_iff links).mpr ⟨period, rfl⟩
  have only : ∀ slots, IsCycle c.mem (firstSlot s c) slots →
      slots.length = minimalPeriod f (firstSlot s c) := by
    intro slots other
    rw [((isCycle_iff links).mp other).2, List.length_map, List.length_range]
  constructor
  · have tail := forall_mem_tail_iff f (firstSlot s c) (fun a => ¬Outside s size c a) period
    rw [List.append_eq_nil_iff, notes_eq_nil_iff, ← tail]
    constructor
    · rintro ⟨inside, counted⟩
      refine ⟨_, cycle, ?_, inside⟩
      rw [only _ cycle]
      by_contra wrong
      rw [countComplaint, if_pos wrong] at counted
      cases counted
    · rintro ⟨slots, other, length, inside⟩
      refine ⟨?_, ?_⟩
      · rwa [← ((isCycle_iff links).mp other).2]
      · rw [countComplaint, if_neg]
        rw [not_not, ← only slots other, length]
  · refine iff_of_false ?_ (not_not.mpr ⟨_, cycle⟩)
    rintro ⟨page, said⟩
    rcases List.mem_append.mp said with noted | counted
    · cases eq_badReference_of_mem_notes noted
    · cases (mem_countComplaint.mp counted).1
  · intro expected got
    rw [List.mem_append]
    constructor
    · rintro (noted | counted)
      · cases eq_badReference_of_mem_notes noted
      · obtain ⟨same, wrong⟩ := mem_countComplaint.mp counted
        obtain ⟨rfl, rfl⟩ := Complaint.wrongCount.inj same
        exact ⟨_, cycle, only _ cycle, rfl, wrong⟩
    · rintro ⟨slots, other, rfl, rfl, wrong⟩
      rw [only slots other] at wrong ⊢
      exact .inr (mem_countComplaint.mpr ⟨rfl, wrong⟩)

/-- What is found on a chain that does not. -/
theorem findings_of_meeting (links : ∀ n, c.mem (f^[n] (firstSlot s c)) =
    some (f^[n + 1] (firstSlot s c))) (never : minimalPeriod f (firstSlot s c) = 0)
    (k page : ℕ) :
    Findings s size c (notes s size c f (firstSlot s c) 1 k ++ [.unwantedCycle page]) := by
  have none_back : ∀ slots, ¬IsCycle c.mem (firstSlot s c) slots := by
    intro slots cycle
    have period := ((isCycle_iff links).mp cycle).1
    omega
  constructor
  · refine iff_of_false (by simp) ?_
    rintro ⟨slots, cycle, -⟩
    exact none_back slots cycle
  · refine iff_of_true ⟨page, List.mem_append_right _ (List.mem_singleton.mpr rfl)⟩ ?_
    rintro ⟨slots, cycle⟩
    exact none_back slots cycle
  · intro expected got
    refine iff_of_false ?_ ?_
    · intro said
      rcases List.mem_append.mp said with noted | last
      · cases eq_badReference_of_mem_notes noted
      · cases List.mem_singleton.mp last
    · rintro ⟨slots, cycle, -⟩
      exact none_back slots cycle

end Loop

/-- **The check is right.** On every chain that goes on through finitely many slots it ends,
and it complains of what is wrong and of nothing else: a chain that never comes back to the
first slot, a wrong number of slots, a slot in a page that is not of the working set. -/
theorem checkMemory_spec (s : MemState) (size : ℕ) (c : Chain) (pages : 0 < s.pagesOf size)
    (readable : ∀ n, ∃ a, walk c.mem (firstSlot s c) n = some a)
    (bounded : ∃ bound, ∀ n a, walk c.mem (firstSlot s c) n = some a → a < bound) :
    ∃ passes said, (∀ more, checkMemory s size c (passes + more) = some said) ∧
      Findings s size c said := by
  have follows : ∀ n, walk c.mem (firstSlot s c) n =
      some ((fun a => (c.mem a).getD a)^[n] (firstSlot s c)) := by
    intro n
    induction n with
    | zero => rfl
    | succ n ih =>
      obtain ⟨a, next⟩ := readable (n + 1)
      rw [next]
      rw [walk_succ, ih, Option.bind_some] at next
      rw [Function.iterate_succ_apply', next, Option.getD_some]
  have links : ∀ n, c.mem ((fun a => (c.mem a).getD a)^[n] (firstSlot s c)) =
      some ((fun a => (c.mem a).getD a)^[n + 1] (firstSlot s c)) := by
    intro n
    have next := follows (n + 1)
    rwa [walk_succ, follows n, Option.bind_some] at next
  have finite : (Set.range fun n =>
      (fun a => (c.mem a).getD a)^[n] (firstSlot s c)).Finite := by
    obtain ⟨bound, below⟩ := bounded
    apply (Finset.range bound).finite_toSet.subset
    rintro _ ⟨n, rfl⟩
    exact Finset.mem_coe.mpr (Finset.mem_range.mpr (below n _ (follows n)))
  rcases checkMemory_cases links finite pages with ⟨period, run⟩ | ⟨never, k, page, run⟩
  · exact ⟨_, _, run, findings_of_period links period⟩
  · exact ⟨k, _, run, findings_of_meeting links never k page⟩

section Runs

variable {s : MemState} {a b size : ℕ} {c c' : Chain} {e : CacheEvent}

/-- A slot in an aligned page of the working set is not outside. -/
theorem not_outside {slot page : ℕ} (member : page ∈ c.pages.take (s.pagesOf size))
    (aligned : s.pagesize ∣ page) (below : page ≤ slot) (above : slot < page + s.pagesize) :
    ¬Outside s size c slot := by
  obtain ⟨k, rfl⟩ := aligned
  obtain ⟨r, rfl⟩ := Nat.exists_eq_add_of_le below
  have small : r < s.pagesize := by omega
  rw [Outside, not_not, Nat.mul_add_mod, Nat.mod_eq_of_lt small, Nat.add_sub_cancel]
  exact member

/-- A working set that is linked passes the check. -/
theorem checkMemory_timed (shape : s.Shape a b) (fits : s.Fits size) (ready : Ready s c) :
    ∃ passes, ∀ more, checkMemory s size (timed s size c) (passes + more) = some [] := by
  obtain ⟨start, slots, first, cycle, length, inside⟩ := timed_isCycle shape fits ready
  obtain rfl : firstSlot s (timed s size c) = start := by
    simpa [timed, firstSlot] using first
  have visited : ∀ n, ∃ slot ∈ slots,
      walk (timed s size c).mem (firstSlot s (timed s size c)) n = some slot := by
    intro n
    have room := Nat.mod_lt n cycle.length_pos
    refine ⟨_, List.getElem_mem room, ?_⟩
    rw [cycle.visits, List.getElem?_eq_getElem room]
  obtain ⟨passes, said, run, findings⟩ := checkMemory_spec s size (timed s size c)
    (shape.pagesOf_bounds fits).1
    (by
      intro n
      obtain ⟨slot, -, here⟩ := visited n
      exact ⟨slot, here⟩)
    (by
      refine ⟨slots.sum + 1, ?_⟩
      intro n slot here
      obtain ⟨slot', member, there⟩ := visited n
      obtain rfl := Option.some.inj (here.symm.trans there)
      exact Nat.lt_succ_of_le (List.le_sum_of_mem member))
  refine ⟨passes, ?_⟩
  have silent : said = [] := by
    apply findings.silent.mpr
    refine ⟨slots, cycle, length, ?_⟩
    intro slot member
    obtain ⟨page, listed, below, above⟩ := inside slot (List.mem_of_mem_tail member)
    exact not_outside listed (ready.order.aligned (List.mem_of_mem_take listed)) below above
  rwa [silent] at run

/-- **Nothing to complain of.** In every run of `measure` calls and rearrangements of the page
list that lose no page, from a chain that `mem_initialize` has laid, the check would be silent
wherever timing starts. -/
theorem checkMemory_of_run (s : MemState) (a b : ℕ) (shape : s.Shape a b) (all : s.len = s.maxlen)
    (whole : s.pagesize ∣ s.maxlen) (r : ℕ → ℕ) (c₀ : Chain) (laid : Chain.initial s r = some c₀)
    (past : List CacheEvent) (c : Chain) (run : Run (CacheStep s) c₀ past c) (size : ℕ) (t : Chain)
    (started : .timed size t ∈ past) :
    ∃ passes, ∀ more, checkMemory s size t (passes + more) = some [] := by
  obtain ⟨before, after, rfl⟩ := List.append_of_mem started
  obtain ⟨c₁, c₂, prior, step⟩ := run.exists_step_of_split
  have ready : Ready s c₁ := prior.invariant (ready_initial shape all whole laid)
    fun _ _ _ ready step => ready_step shape ready step
  cases step with
  | measure size fits => exact checkMemory_timed shape fits ready

/-- A page and a half of four pages. -/
theorem checkMemory_of_run_half :
    ∃ c₀ past c t, Chain.initial .fourPages (fun i => i + 1) = some c₀ ∧
      Run (CacheStep .fourPages) c₀ past c ∧ .timed 24 t ∈ past ∧
      ∃ passes, ∀ more, checkMemory .fourPages 24 t (passes + more) = some [] := by
  have shape : MemState.fourPages.Shape 2 1 := ⟨by decide, by decide, by decide⟩
  obtain ⟨c₀, laid⟩ := Option.isSome_iff_exists.mp
    ((Chain.initial_isSome_iff shape (by decide) fun i => i + 1).mpr (by decide))
  have start : Run (CacheStep .fourPages) c₀ [] c₀ := .nil
  have run := start.snoc (.measure 24 ⟨by decide, by decide, by decide⟩)
  exact ⟨c₀, _, _, _, laid, run, List.mem_cons_self,
    checkMemory_of_run .fourPages 2 1 shape rfl (by decide) _ c₀ laid _ _ run 24 _
      List.mem_cons_self⟩

/-- Four slots of one page, of which the last one leads back to the second. -/
def Chain.lasso : Chain where
  pages := [0]
  mem := fun a => if a = 0 then some 2 else if a = 2 then some 4 else if a = 4 then some 6
    else if a = 6 then some 2 else none
  p := fun _ => none

/-- The check ends on it. -/
theorem checkMemory_spec_lasso :
    ∃ passes said, (∀ more, checkMemory .fourPages 8 .lasso (passes + more) = some said) ∧
      Findings .fourPages 8 .lasso said := by
  have closed : ∀ n, ∃ a, walk Chain.lasso.mem (firstSlot .fourPages .lasso) n = some a ∧
      (a = 0 ∨ a = 2 ∨ a = 4 ∨ a = 6) := by
    intro n
    induction n with
    | zero => exact ⟨_, rfl, .inl rfl⟩
    | succ n ih =>
      obtain ⟨a, here, rfl | rfl | rfl | rfl⟩ := ih
      · exact ⟨2, by rw [walk_succ, here]; rfl, .inr (.inl rfl)⟩
      · exact ⟨4, by rw [walk_succ, here]; rfl, .inr (.inr (.inl rfl))⟩
      · exact ⟨6, by rw [walk_succ, here]; rfl, .inr (.inr (.inr rfl))⟩
      · exact ⟨2, by rw [walk_succ, here]; rfl, .inr (.inl rfl)⟩
  apply checkMemory_spec .fourPages 8 .lasso (by decide)
  · intro n
    obtain ⟨a, here, -⟩ := closed n
    exact ⟨a, here⟩
  · refine ⟨8, ?_⟩
    intro n a here
    obtain ⟨a', there, cases'⟩ := closed n
    obtain rfl := Option.some.inj (here.symm.trans there)
    omega

end Runs

end Lmbench
