import Lmbench.Cache.CollectData
import Mathlib.Data.List.Nodup
import Mathlib.Tactic.FieldSimp

/-!
# The cache levels

`main` of `cache` reads the levels of the cache off the latencies that `collect_data`
has left. `find_cache` looks for a sample behind which the latency rises steeply and
which is followed by no other such sample until the size has doubled. Where the size
of that sample is no power of two and no three halves of one, the next sample is
taken. For each level the latency is then that of the sample with the flattest slope
between this boundary and the one before.

What the samples hold is arbitrary, up to their lengths; arithmetic on latencies is
exact. `findCache` leaves out what `find_cache` computes into `prev`, which nothing
reads.

## Main results

* `findCache_spec` - the boundary that `find_cache` finds is the first one, or there is none
* `levels_spec` - the levels are in order, at sizes that caches have, and the indices that
  the code uses are inside the samples with two exceptions
-/

namespace Lmbench.Levels

/-- The fields of `struct cache_results` that the analysis reads. -/
structure Sample extends CacheResult where
  len : ℕ

/-- `THRESHOLD` -/
def threshold : ℚ := 3 / 2

/-- What `find_cache` returns; it may read the sample before the first one. -/
inductive Found
  | none
  | overrun
  | boundary (j : ℕ)
deriving DecidableEq, Repr

/-- `c = r[i].len`, for an `int c` of 32 bits. -/
def asInt (len : ℕ) : ℤ := (len : ℤ).bmod 4294967296

/-- `for (c = r[i].len; c > 0x7; c >>= 1)`; a `c` below zero stays as it is. -/
def topBits (c : ℤ) : ℤ := if 7 < c then topBits (c / 2) else c
termination_by c.toNat
decreasing_by omega

/-- A level: where the search for it began, its boundary in `levels`, and the sample
whose latency goes to `prev_lat`. -/
structure Level where
  start : ℕ
  index : ℕ
  prevLat : ℤ
deriving DecidableEq, Repr

section Model

variable (r : ℕ → Sample)

/-- The loop of `find_cache`, with `left` samples to go. -/
def scanFrom : ℕ → ℕ → Option ℕ → ℚ → Found
  | 0, _, _, _ => .none
  | left + 1, i, j, max =>
    if (r i).latency < 0 then scanFrom left (i + 1) j max
    else
      let max := if max < (r i).ratio then (r i).ratio else max
      let j := if threshold < (r i).ratio then some i else j
      if threshold < max then
        match j with
        | none => .overrun
        | some k =>
          if (r k).len * 2 ≤ (r i).len then .boundary k else scanFrom left (i + 1) (some k) max
      else scanFrom left (i + 1) j max

/-- `find_cache`. -/
def findCache (start n : ℕ) : Found := scanFrom r (n - start) start none (-1)

/-- "cache sizes are never 1.25*2^N or 1.75*2^N": the sample that is taken. -/
def legal (j : ℕ) : ℕ :=
  if topBits (asInt (r j).len) = 5 ∨ topBits (asInt (r j).len) = 7 then j + 1 else j

/-- The loop of `main` over the levels, none if `find_cache` fails or the fuel is
used up. -/
def levelsFrom (n : ℕ) : ℕ → ℕ → Option (List Level)
  | 0, _ => none
  | fuel + 1, start =>
    match findCache r start n with
    | .none => some []
    | .overrun => none
    | .boundary j =>
      -- not much faster than the memory
      if 1 / 2 < (r j).latency / (r (n - 1)).latency then some []
      else if n ≤ legal r j then some []
      else do
        let rest ← levelsFrom n fuel (legal r j + 1)
        let prevLat : ℤ := if 0 < (r start).latency then start else start - 1
        return ⟨start, legal r j, prevLat⟩ :: rest

/-- The levels of all `n` samples. -/
def levels (n : ℕ) : Option (List Level) := levelsFrom r n (n + 1) 0

/-- The loop that locates the most likely latency, from sample `j` on. -/
def locateFrom : ℕ → ℕ → ℕ → ℕ
  | 0, _, min => min
  | left + 1, j, min =>
    if (r j).latency ≤ 0 then locateFrom left (j + 1) min
    else if (r min).latency ≤ 0 ∨ |(r j).slope| < |(r min).slope| then locateFrom left (j + 1) j
    else locateFrom left (j + 1) min

/-- `for (j = min = prev + 1; j < levels[i]; ++j)`. -/
def Level.locate (l : Level) : ℕ := locateFrom r (l.index - l.start) l.start l.start

/-- The sample whose length is handed to `par_mem`. -/
def Level.parallel (l : Level) : ℤ := l.index - 1

end Model

/-! ### The boundary of one level -/

/-- The sample was measured, and the latency rises steeply behind it. -/
def Steep (r : ℕ → Sample) (k : ℕ) : Prop := 0 ≤ (r k).latency ∧ threshold < (r k).ratio

/-- At sample `i` a boundary at `j` can be told: it is the last steep one so far, and
the size has doubled since. -/
structure Boundary (r : ℕ → Sample) (start i j : ℕ) : Prop where
  start_le : start ≤ j
  le : j ≤ i
  steep : Steep r j
  measured : 0 ≤ (r i).latency
  flat : ∀ k, j < k → k ≤ i → ¬Steep r k
  doubled : (r j).len * 2 ≤ (r i).len

/-- What the loop knows in front of sample `i`. -/
inductive Known (r : ℕ → Sample) (start i : ℕ) : Option ℕ → ℚ → Prop
  | flat {max : ℚ} : max ≤ threshold → (∀ k, start ≤ k → k < i → ¬Steep r k) →
      Known r start i none max
  | steep {max : ℚ} {j : ℕ} : threshold < max → start ≤ j → j < i → Steep r j →
      (∀ k, j < k → k < i → ¬Steep r k) → Known r start i (some j) max

variable {r : ℕ → Sample} {start n i j left : ℕ} {max : ℚ} {last : Option ℕ}

/-- A boundary is the last steep sample. -/
theorem Boundary.unique {j' : ℕ} (first : Boundary r start i j) (second : Boundary r start i j') :
    j = j' := by
  rcases lt_trichotomy j j' with less | same | more
  · exact absurd second.steep (first.flat j' less second.le)
  · exact same
  · exact absurd first.steep (second.flat j more first.le)

/-- What becomes of the state of the loop at a sample that was measured. -/
theorem known_succ (known : Known r start i last max) (from_start : start ≤ i)
    (measured : 0 ≤ (r i).latency) :
    Known r start (i + 1) (if threshold < (r i).ratio then some i else last)
      (if max < (r i).ratio then (r i).ratio else max) := by
  by_cases rises : threshold < (r i).ratio
  · rw [if_pos rises]
    refine .steep ?_ from_start (Nat.lt_succ_self i) ⟨measured, rises⟩ fun k above below => ?_
    · split
      · exact rises
      · exact rises.trans_le (not_lt.mp ‹_›)
    · omega
  · rw [if_neg rises]
    have gentle : ¬Steep r i := fun steep => rises steep.2
    cases known with
    | flat low none_steep =>
      refine .flat ?_ fun k above below => ?_
      · split
        · exact not_lt.mp rises
        · exact low
      · rcases Nat.lt_succ_iff_lt_or_eq.mp below with before | rfl
        · exact none_steep k above before
        · exact gentle
    | steep high above before steep rest =>
      refine .steep ?_ above (before.trans (Nat.lt_succ_self i)) steep fun k behind below => ?_
      · split
        · exact high.trans ‹_›
        · exact high
      · rcases Nat.lt_succ_iff_lt_or_eq.mp below with before | rfl
        · exact rest k behind before
        · exact gentle

theorem known_skip (known : Known r start i last max) (unmeasured : (r i).latency < 0) :
    Known r start (i + 1) last max := by
  have gentle : ¬Steep r i := fun steep => absurd steep.1 (not_le.mpr unmeasured)
  cases known with
  | flat low none_steep =>
    refine .flat low fun k above below => ?_
    rcases Nat.lt_succ_iff_lt_or_eq.mp below with before | rfl
    · exact none_steep k above before
    · exact gentle
  | steep high above before steep rest =>
    refine .steep high above (before.trans (Nat.lt_succ_self i)) steep fun k behind below => ?_
    rcases Nat.lt_succ_iff_lt_or_eq.mp below with before | rfl
    · exact rest k behind before
    · exact gentle

/-- What the result of `find_cache` says about the samples before `n`. -/
def Finds (r : ℕ → Sample) (start n : ℕ) : Found → Prop
  | .none => ∀ i j, i < n → ¬Boundary r start i j
  | .overrun => False
  | .boundary j =>
    ∃ i < n, Boundary r start i j ∧ ∀ i' j', i' < i → ¬Boundary r start i' j'

/-- No boundary up to sample `i`, once there is none at `i` itself. -/
theorem no_boundary_succ (before : ∀ i' j', i' < i → ¬Boundary r start i' j')
    (here : ∀ j', ¬Boundary r start i j') : ∀ i' j', i' < i + 1 → ¬Boundary r start i' j' := by
  intro i' j' below
  rcases Nat.lt_succ_iff_lt_or_eq.mp below with earlier | rfl
  · exact before i' j' earlier
  · exact here j'

/-- The loop of `find_cache`, by induction on the samples to go. -/
theorem finds_scanFrom (known : Known r start i last max) (from_start : start ≤ i)
    (before : ∀ i' j', i' < i → ¬Boundary r start i' j') :
    Finds r start (i + left) (scanFrom r left i last max) := by
  induction left generalizing i last max with
  | zero => exact fun i' j' below => before i' j' below
  | succ left ih =>
    have shift : i + (left + 1) = i + 1 + left := by omega
    rw [scanFrom]
    split
    · rename_i unmeasured
      rw [shift]
      refine ih (known_skip known unmeasured) (by omega) (no_boundary_succ before fun j' told => ?_)
      exact absurd told.measured (not_le.mpr unmeasured)
    · rename_i measured
      have next := known_succ known from_start (not_lt.mp measured)
      dsimp only
      generalize (if threshold < (r i).ratio then some i else last) = last' at next ⊢
      generalize (if max < (r i).ratio then (r i).ratio else max) = max' at next ⊢
      cases next with
      | flat low none_steep =>
        rw [if_neg (not_lt.mpr low), shift]
        refine ih (.flat low none_steep) (by omega) (no_boundary_succ before fun j' told => ?_)
        exact none_steep j' told.start_le (Nat.lt_succ_of_le told.le) told.steep
      | @steep _ k high above below steep rest =>
        rw [if_pos high]
        dsimp only
        have told (double : (r k).len * 2 ≤ (r i).len) : Boundary r start i k :=
          ⟨above, Nat.le_of_lt_succ below, steep, not_lt.mp measured,
            fun k' behind upto => rest k' behind (Nat.lt_succ_of_le upto), double⟩
        split
        · rename_i double
          exact ⟨i, by omega, told double, before⟩
        · rename_i short
          rw [shift]
          refine ih (.steep high above below steep rest) (by omega)
            (no_boundary_succ before fun j' other => short ?_)
          -- the boundary would be the last steep sample
          rcases lt_trichotomy j' k with less | rfl | more
          · exact absurd steep (other.flat k less (Nat.le_of_lt_succ below))
          · exact other.doubled
          · exact absurd other.steep (rest j' more (Nat.lt_succ_of_le other.le))

/-- **The search for one level.** `find_cache` reads no sample in front of the first
one; it returns the boundary that can be told first, and none if none can be told. -/
theorem findCache_spec (r : ℕ → Sample) {start n : ℕ} (inside : start ≤ n) :
    Finds r start n (findCache r start n) := by
  have whole : start + (n - start) = n := by omega
  have found : Finds r start (start + (n - start)) (findCache r start n) := by
    refine finds_scanFrom (.flat (by norm_num [threshold]) fun k above below => by omega) le_rfl
      fun i' j' below told => ?_
    have above := told.start_le.trans told.le
    omega
  rwa [whole] at found

/-! ### The sizes of the levels -/

/-- The length of a sample that `collect_data` lays out. -/
def gridLen (i : ℕ) : ℕ := (4 + i % 4) * 2 ^ (i / 4 + 7)

theorem asInt_of_lt {len : ℕ} (small : len < 2147483648) : asInt len = len :=
  Int.bmod_eq_of_le (by omega) (by omega)

theorem topBits_of_lt {c : ℤ} (small : c < 8) : topBits c = c := by
  rw [topBits, if_neg (by omega)]

/-- Shifting right as far as three bits gives the first three bits. -/
theorem topBits_mul (k : ℕ) (quarter : j < 4) : topBits ((4 + j) * 2 ^ k : ℕ) = (4 + j : ℕ) := by
  induction k with
  | zero =>
    rw [pow_zero, mul_one]
    exact topBits_of_lt (by omega)
  | succ k ih =>
    have positive : 0 < 2 ^ k := Nat.two_pow_pos k
    have large : 7 < (4 + j) * 2 ^ (k + 1) := by
      calc 7 < 4 * 2 := by decide
        _ ≤ (4 + j) * (2 ^ k * 2) := Nat.mul_le_mul (by omega) (by omega)
        _ = (4 + j) * 2 ^ (k + 1) := by rw [pow_succ]
    have half : (4 + j) * 2 ^ (k + 1) / 2 = (4 + j) * 2 ^ k := by
      rw [pow_succ, ← mul_assoc, Nat.mul_div_cancel _ (by decide)]
    have half_int : (((4 + j) * 2 ^ (k + 1) : ℕ) : ℤ) / 2 = ((4 + j) * 2 ^ k : ℕ) := by
      rw [← half]
      rfl
    rw [topBits, if_pos (by exact_mod_cast large), half_int, ih]

/-- A size that caches have: a power of two, or three halves of one. -/
def Legal (size : ℕ) : Prop := ∃ k, size = 2 ^ k ∨ size = 3 * 2 ^ k

/-- On the grid, the sample that is taken has such a size, if that of the boundary is an `int`. -/
theorem legal_gridLen (grid : ∀ i, (r i).len = gridLen i) (small : (r j).len < 2147483648) :
    Legal (r (legal r j)).len := by
  have quarter : j % 4 < 4 := Nat.mod_lt _ (by decide)
  have bits : topBits (asInt (r j).len) = (4 + j % 4 : ℕ) := by
    rw [asInt_of_lt small, grid, gridLen]
    exact topBits_mul _ quarter
  rw [legal, bits, grid]
  obtain first | second | third | fourth : j % 4 = 0 ∨ j % 4 = 1 ∨ j % 4 = 2 ∨ j % 4 = 3 := by
    omega
  · rw [if_neg (by omega), gridLen, first]
    exact ⟨j / 4 + 9, .inl (by ring)⟩
  · have next : (j + 1) % 4 = 2 ∧ (j + 1) / 4 = j / 4 := by omega
    rw [if_pos (by omega), gridLen, next.1, next.2]
    exact ⟨j / 4 + 8, .inr (by ring)⟩
  · rw [if_neg (by omega), gridLen, third]
    exact ⟨j / 4 + 8, .inr (by ring)⟩
  · have next : (j + 1) % 4 = 0 ∧ (j + 1) / 4 = j / 4 + 1 := by omega
    rw [if_pos (by omega), gridLen, next.1, next.2]
    exact ⟨j / 4 + 10, .inl (by ring)⟩

/-! ### All levels -/

/-- What is known of a level: its boundary can be told before the samples end, it is no
more than half as slow as the memory, and the sample that is taken has a legal size. -/
structure Level.Sound (r : ℕ → Sample) (n : ℕ) (l : Level) : Prop where
  found : ∃ i < n, ∃ j, Boundary r l.start i j ∧ (∀ i' j', i' < i → ¬Boundary r l.start i' j') ∧
    l.index = legal r j ∧ 2 * (r j).latency ≤ (r (n - 1)).latency
  inside : l.index < n
  start_le : l.start ≤ l.index
  legal : Legal (r l.index).len
  prevLat : l.prevLat = if 0 < (r l.start).latency then (l.start : ℤ) else l.start - 1

/-- The searches go on behind the level before. -/
def Ordered : ℕ → List Level → Prop
  | _, [] => True
  | start, l :: rest => l.start = start ∧ Ordered (l.index + 1) rest

theorem le_legal (r : ℕ → Sample) (j : ℕ) : j ≤ legal r j := by
  unfold legal
  split <;> omega

/-- The loop of `main`, by induction on the fuel. -/
theorem levelsFrom_spec (grid : ∀ i, (r i).len = gridLen i)
    (small : ∀ i < n, (r i).len < 2147483648) (slow : 0 < (r (n - 1)).latency)
    {fuel : ℕ} (inside : start ≤ n) (enough : n - start < fuel) :
    ∃ ls, levelsFrom r n fuel start = some ls ∧ Ordered start ls ∧ ∀ l ∈ ls, l.Sound r n := by
  induction fuel generalizing start with
  | zero => omega
  | succ fuel ih =>
    have found := findCache_spec r inside
    rw [levelsFrom]
    cases result : findCache r start n with
    | none => exact ⟨[], rfl, trivial, by simp⟩
    | overrun =>
      rw [result] at found
      exact found.elim
    | boundary j =>
      rw [result] at found
      obtain ⟨i, before, told, first⟩ := found
      dsimp only
      by_cases fast : 1 / 2 < (r j).latency / (r (n - 1)).latency
      · exact ⟨[], by rw [if_pos fast], trivial, by simp⟩
      by_cases beyond : n ≤ legal r j
      · exact ⟨[], by rw [if_neg fast, if_pos beyond], trivial, by simp⟩
      have above := le_legal r j
      have upward := told.start_le
      obtain ⟨rest, later, ordered, sound⟩ := ih (by omega : legal r j + 1 ≤ n) (by omega)
      rw [if_neg fast, if_neg beyond, later]
      refine ⟨_, rfl, ⟨rfl, ordered⟩, fun l member => ?_⟩
      rcases List.mem_cons.mp member with rfl | behind
      · refine ⟨⟨i, before, j, told, first, rfl, ?_⟩, not_le.mp beyond, upward.trans above,
          legal_gridLen grid (small j (told.le.trans_lt before)), rfl⟩
        have half := not_lt.mp fast
        rw [div_le_iff₀ slow] at half
        linarith
      · exact sound l behind

/-! ### The latency of a level -/

/-- The loop that locates the flattest sample; `min` is the best so far. -/
theorem locateFrom_spec {min : ℕ} (before : ∀ k, start ≤ k → k < j → 0 < (r k).latency →
      0 < (r min).latency ∧ |(r min).slope| ≤ |(r k).slope|)
    (from_start : start ≤ min) (upto : min ≤ j) :
    start ≤ locateFrom r left j min ∧ locateFrom r left j min ≤ j + left ∧
      ∀ k, start ≤ k → k < j + left → 0 < (r k).latency →
        0 < (r (locateFrom r left j min)).latency ∧
          |(r (locateFrom r left j min)).slope| ≤ |(r k).slope| := by
  induction left generalizing j min with
  | zero => exact ⟨from_start, upto, before⟩
  | succ left ih =>
    have shift : j + (left + 1) = j + 1 + left := by omega
    rw [locateFrom, shift]
    split_ifs with unmeasured flatter
    · refine ih (fun k above below positive => ?_) from_start (by omega)
      rcases Nat.lt_succ_iff_lt_or_eq.mp below with earlier | rfl
      · exact before k above earlier positive
      · exact absurd positive (not_lt.mpr unmeasured)
    · refine ih (fun k above below positive => ?_) (by omega) (Nat.le_succ j)
      rcases Nat.lt_succ_iff_lt_or_eq.mp below with earlier | rfl
      · obtain ⟨measured, least⟩ := before k above earlier positive
        rcases flatter with none | less
        · exact absurd measured (not_lt.mpr none)
        · exact ⟨not_le.mp unmeasured, less.le.trans least⟩
      · exact ⟨not_le.mp unmeasured, le_rfl⟩
    · obtain ⟨measured, least⟩ := not_or.mp flatter
      refine ih (fun k above below positive => ?_) from_start (by omega)
      rcases Nat.lt_succ_iff_lt_or_eq.mp below with earlier | rfl
      · exact before k above earlier positive
      · exact ⟨not_le.mp measured, not_lt.mp least⟩

/-- The flattest sample of a level, if any of those between the boundaries was measured. -/
theorem locate_spec {l : Level} (order : l.start ≤ l.index) :
    l.start ≤ l.locate r ∧ l.locate r ≤ l.index ∧
      ∀ k, l.start ≤ k → k < l.index → 0 < (r k).latency →
        0 < (r (l.locate r)).latency ∧ |(r (l.locate r)).slope| ≤ |(r k).slope| := by
  have whole : l.start + (l.index - l.start) = l.index := by omega
  have located : l.start ≤ l.locate r ∧ l.locate r ≤ l.start + (l.index - l.start) ∧ _ :=
    locateFrom_spec (fun k above below => by omega) le_rfl le_rfl
  rwa [whole] at located

/-! ### The order of the levels -/

section Order

variable {ls : List Level}

/-- No search begins in front of the first one. -/
theorem le_start_of_ordered (ordered : Ordered start ls) (forward : ∀ l ∈ ls, l.start ≤ l.index) :
    ∀ l ∈ ls, start ≤ l.start := by
  induction ls generalizing start with
  | nil => simp
  | cons first rest ih =>
    obtain ⟨rfl, later⟩ := ordered
    have step := forward first List.mem_cons_self
    intro l member
    rcases List.mem_cons.mp member with rfl | behind
    · exact le_rfl
    · have above := ih later (fun l member => forward l (List.mem_cons_of_mem _ member)) l behind
      omega

/-- Each search begins behind the boundaries found so far. -/
theorem pairwise_of_ordered (ordered : Ordered start ls) (forward : ∀ l ∈ ls, l.start ≤ l.index) :
    ls.Pairwise fun a b => a.index < b.start := by
  induction ls generalizing start with
  | nil => exact List.Pairwise.nil
  | cons first rest ih =>
    obtain ⟨_, later⟩ := ordered
    have forward' : ∀ l ∈ rest, l.start ≤ l.index := fun l member =>
      forward l (List.mem_cons_of_mem _ member)
    exact List.Pairwise.cons (le_start_of_ordered later forward') (ih later forward')

/-- Levels at different samples are no more than there are samples. -/
theorem length_le_of_pairwise (apart : ls.Pairwise fun a b => a.index < b.start)
    (forward : ∀ l ∈ ls, l.start ≤ l.index) (inside : ∀ l ∈ ls, l.index < n) : ls.length ≤ n := by
  have increasing : (ls.map Level.index).Pairwise (· < ·) := by
    rw [List.pairwise_map]
    refine apart.imp_of_mem fun _ later less => ?_
    exact less.trans_le (forward _ later)
  have distinct : (ls.map Level.index).Nodup := increasing.imp ne_of_lt
  have below : ls.map Level.index ⊆ List.range n := by
    intro i member
    obtain ⟨l, here, rfl⟩ := List.mem_map.mp member
    exact List.mem_range.mpr (inside l here)
  simpa using (List.subperm_of_subset distinct below).length_le

/-- Only the first level reaches in front of the samples: when the first sample was not
measured, or is itself the boundary. -/
theorem inBounds_iff (ordered : Ordered 0 ls) (sound : ∀ l ∈ ls, l.Sound r n) :
    (∀ l ∈ ls, 0 ≤ l.prevLat ∧ 0 ≤ l.parallel) ↔
      ∀ first ∈ ls.head?, 0 < (r 0).latency ∧ 0 < first.index := by
  cases ls with
  | nil => simp
  | cons first rest =>
    obtain ⟨zero, later⟩ := ordered
    have later_starts := le_start_of_ordered later fun l member =>
      (sound l (List.mem_cons_of_mem _ member)).start_le
    have own := (sound first List.mem_cons_self).prevLat
    rw [zero] at own
    have behind : ∀ l ∈ rest, 0 ≤ l.prevLat ∧ 0 ≤ l.parallel := by
      intro l member
      have soundly := sound l (List.mem_cons_of_mem _ member)
      have above := later_starts l member
      have order := soundly.start_le
      rw [soundly.prevLat, Level.parallel]
      split <;> omega
    simp only [List.forall_mem_cons, List.head?_cons, Option.mem_def, Option.some.injEq,
      forall_eq', Level.parallel, own]
    constructor
    · rintro ⟨⟨measured, inside⟩, _⟩
      split at measured
      · exact ⟨‹_›, by omega⟩
      · simp at measured
    · rintro ⟨measured, inside⟩
      refine ⟨⟨by simp [measured], by omega⟩, behind⟩

end Order

/-- **The cache levels.** From any latencies that `collect_data` may have left, if that
of the last sample is positive and all lengths are `int`s: the search comes to its end,
every level has the first boundary that can be told behind the one before, at a size of
`2^k` or `3 * 2^k`, and a latency of at most half that of the memory; there are no more
levels than `levels` holds; the latency that is printed is that of the flattest of the
measured samples between the boundaries. All indices are those of samples if and only if
the first sample was measured and is not itself a boundary, or there is no level. -/
theorem levels_spec (grid : ∀ i, (r i).len = gridLen i)
    (small : ∀ i < n, (r i).len < 2147483648) (slow : 0 < (r (n - 1)).latency) :
    ∃ ls, levels r n = some ls ∧ ls.Pairwise (fun a b => a.index < b.start) ∧ ls.length ≤ n ∧
      (∀ l ∈ ls, l.Sound r n ∧ l.start ≤ l.locate r ∧ l.locate r ≤ l.index ∧
        ∀ k, l.start ≤ k → k < l.index → 0 < (r k).latency →
          0 < (r (l.locate r)).latency ∧ |(r (l.locate r)).slope| ≤ |(r k).slope|) ∧
      ((∀ l ∈ ls, 0 ≤ l.prevLat ∧ 0 ≤ l.parallel) ↔
        ∀ first ∈ ls.head?, 0 < (r 0).latency ∧ 0 < first.index) := by
  obtain ⟨ls, found, ordered, sound⟩ :=
    levelsFrom_spec grid small slow (Nat.zero_le n) (by omega : n - 0 < n + 1)
  have forward : ∀ l ∈ ls, l.start ≤ l.index := fun l member => (sound l member).start_le
  have apart := pairwise_of_ordered ordered forward
  exact ⟨ls, found, apart, length_le_of_pairwise apart forward fun l member =>
    (sound l member).inside, fun l member => ⟨sound l member, locate_spec (forward l member)⟩,
    inBounds_iff ordered sound⟩

/-- A cache of 1024 bytes, and a memory that is four times as slow. -/
def Sample.kibibyte (i : ℕ) : Sample where
  latency := if i ≤ 4 then 1 else 4
  ratio := if i = 4 then 4 else 1
  slope := if i = 4 then 3 else 0
  len := gridLen i

theorem levels_spec_kibibyte :
    ∃ ls, levels Sample.kibibyte 10 = some ls ∧ ls.Pairwise (fun a b => a.index < b.start) ∧
      ls.length ≤ 10 := by
  obtain ⟨ls, found, apart, few, _⟩ := levels_spec (r := Sample.kibibyte) (n := 10)
    (fun _ => rfl) (by decide) (by norm_num [Sample.kibibyte])
  exact ⟨ls, found, apart, few⟩

end Lmbench.Levels
