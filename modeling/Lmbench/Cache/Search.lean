import Mathlib.Algebra.Order.Field.Rat
import Mathlib.Data.List.Basic
import Mathlib.Data.Set.Insert
import Mathlib.Tactic.Linarith
import Mathlib.Tactic.NormNum

/-!
# The search for steps in the latency

`search` compares the latencies at the two ends of an interval, and where they
differ by much has a sample collected in the middle and goes on in both halves,
the right one first. Comparing may overwrite the latency of the left end.

What `collect_sample` delivers is unknown: `sampled n` is the latency of sample
number `n`. Arithmetic on it is exact. Comparisons and samples are noted.

## Main results

* `search_searched` - what one call does, by induction over the interval
* `search_curve` - the latency curve is consistent between neighbouring samples
-/

namespace Lmbench

/-- The fields of `struct cache_results` that `search` works on. -/
structure CacheResult where
  latency : ℚ
  ratio : ℚ
  slope : ℚ

/-- What `search` does to the data points. -/
inductive SearchEvent
  | compare (left right : ℕ)
  | collect (middle : ℕ)
deriving DecidableEq

/-- The data points, the number of samples collected so far, and what was done. -/
structure Curve where
  p : ℕ → CacheResult
  samples : ℕ
  events : List SearchEvent

section Model

variable (sampled : ℕ → ℚ)

/-- The comparison that `search` begins with. -/
def compareEnds (left right : ℕ) (c : Curve) : Curve :=
  let noted := { c with events := c.events ++ [.compare left right] }
  if 0 < (c.p left).latency then
    let ratio := (c.p right).latency / (c.p left).latency
    -- "we probably have a bad data point, so ignore it"
    let result : CacheResult :=
      if ratio < 98 / 100 then ⟨(c.p right).latency, 1, 0⟩
      else ⟨(c.p left).latency, ratio, (ratio - 1) / (right - left : ℕ)⟩
    { noted with p := Function.update c.p left result }
  else noted

/-- `collect_sample`, as far as it changes the data point. -/
def collectPoint (middle : ℕ) (c : Curve) : Curve where
  p := Function.update c.p middle { c.p middle with latency := sampled c.samples }
  samples := c.samples + 1
  events := c.events ++ [.collect middle]

/-- `search`, with recursion no deeper than the fuel. -/
def search : ℕ → ℕ → ℕ → Curve → Option Curve
  | 0, _, _, _ => none
  | fuel + 1, left, right, c =>
    let middle := left + (right - left) / 2
    let c := compareEnds left right c
    if middle = left ∨ middle = right then some c
    else if 135 / 100 < (c.p left).ratio ∨ (c.p left).ratio < 97 / 100 then do
      let c ← search fuel middle right (collectPoint sampled middle c)
      search fuel left middle c
    else some c

end Model

/-! ### Consistent data points -/

/-- The samples collected, in order. -/
def collected (events : List SearchEvent) : List ℕ :=
  events.filterMap fun e => match e with
    | .collect middle => some middle
    | .compare _ _ => none

/-- Only measured data points are compared. -/
def Justified (measured : Set ℕ) : List SearchEvent → Prop
  | [] => True
  | .compare left right :: later => left ∈ measured ∧ right ∈ measured ∧ Justified measured later
  | .collect middle :: later => Justified (insert middle measured) later

/-- What two neighbouring measured points are to each other. -/
def Consistent (p : ℕ → CacheResult) (a b : ℕ) : Prop :=
  0 < (p a).latency →
    (p a).ratio = (p b).latency / (p a).latency ∧ 98 / 100 ≤ (p a).ratio ∧
      (p a).slope = ((p a).ratio - 1) / (b - a : ℕ) ∧ (2 ≤ b - a → (p a).ratio ≤ 135 / 100)

/-- Measured points with none between them. -/
def Neighbours (measured : Set ℕ) (a b : ℕ) : Prop :=
  a ∈ measured ∧ b ∈ measured ∧ a < b ∧ ∀ x ∈ measured, ¬(a < x ∧ x < b)

/-- The measured points of an interval, when these things were done. -/
def points (left right : ℕ) (events : List SearchEvent) : Set ℕ :=
  {x | x = left ∨ x = right ∨ x ∈ collected events}

/-- What a call of `search` does, with the events it adds. -/
structure Searched (left right : ℕ) (c c' : Curve) (events : List SearchEvent) : Prop where
  noted : c'.events = c.events ++ events
  nodup : (collected events).Nodup
  between : ∀ x ∈ collected events, left < x ∧ x < right
  justified : ∀ measured : Set ℕ, left ∈ measured → right ∈ measured → Justified measured events
  frame : ∀ x, x < left ∨ right ≤ x → c'.p x = c.p x
  consistent : ∀ a b, Neighbours (points left right events) a b → Consistent c'.p a b

theorem mem_points {left right x : ℕ} {events : List SearchEvent} :
    x ∈ points left right events ↔ x = left ∨ x = right ∨ x ∈ collected events := Iff.rfl

@[simp] theorem collected_append (first second : List SearchEvent) :
    collected (first ++ second) = collected first ++ collected second :=
  List.filterMap_append

theorem Justified.mono {events : List SearchEvent} {first second : Set ℕ}
    (justified : Justified first events) (sub : first ⊆ second) : Justified second events := by
  induction events generalizing first second with
  | nil => trivial
  | cons e rest ih =>
    cases e with
    | compare left right =>
      obtain ⟨left, right, later⟩ := justified
      exact ⟨sub left, sub right, ih later sub⟩
    | collect middle =>
      have later : Justified (insert middle first) rest := justified
      exact ih later (Set.insert_subset_insert sub)

theorem Justified.append {events later : List SearchEvent} {measured : Set ℕ}
    (first : Justified measured events) (second : Justified measured later) :
    Justified measured (events ++ later) := by
  induction events generalizing measured with
  | nil => exact second
  | cons e rest ih =>
    cases e with
    | compare left right => exact ⟨first.1, first.2.1, ih first.2.2 second⟩
    | collect middle =>
      have begun : Justified (insert middle measured) rest := first
      exact ih begun (second.mono (Set.subset_insert _ _))

/-! ### One comparison -/

theorem compareEnds_frame (left right : ℕ) (c : Curve) {x : ℕ} (other : x ≠ left) :
    (compareEnds left right c).p x = c.p x := by
  unfold compareEnds
  dsimp only
  split
  · exact Function.update_of_ne other _ _
  · rfl

theorem collectPoint_frame (sampled : ℕ → ℚ) (middle : ℕ) (c : Curve) {x : ℕ}
    (other : x ≠ middle) : (collectPoint sampled middle c).p x = c.p x :=
  Function.update_of_ne other _ _

theorem events_compareEnds (left right : ℕ) (c : Curve) :
    (compareEnds left right c).events = c.events ++ [.compare left right] := by
  unfold compareEnds
  dsimp only
  split <;> rfl

/-- Points that are compared last are consistent, if the ratio sends nobody between them. -/
theorem consistent_compareEnds {left right : ℕ} (less : left < right) (c : Curve)
    (stop : 2 ≤ right - left → ((compareEnds left right c).p left).ratio ≤ 135 / 100) :
    Consistent (compareEnds left right c).p left right := by
  intro positive
  have there := compareEnds_frame left right c less.ne'
  have here : (compareEnds left right c).p left =
      if 0 < (c.p left).latency then
        if (c.p right).latency / (c.p left).latency < 98 / 100 then ⟨(c.p right).latency, 1, 0⟩
        else ⟨(c.p left).latency, (c.p right).latency / (c.p left).latency,
          ((c.p right).latency / (c.p left).latency - 1) / (right - left : ℕ)⟩
      else c.p left := by
    unfold compareEnds
    dsimp only
    split
    · exact Function.update_self _ _ _
    · rfl
  rw [there]
  -- without a latency there is no ratio, and nothing to show
  by_cases measured : 0 < (c.p left).latency
  · rw [if_pos measured] at here
    by_cases bad : (c.p right).latency / (c.p left).latency < 98 / 100
    · -- the left point is a copy of the right one
      rw [if_pos bad] at here
      rw [here] at positive stop ⊢
      exact ⟨(div_self positive.ne').symm, by norm_num, by norm_num, stop⟩
    · rw [if_neg bad] at here
      rw [here] at stop ⊢
      exact ⟨rfl, not_lt.mp bad, rfl, stop⟩
  · rw [here, if_neg measured] at positive
    exact absurd positive measured

/-! ### The recursion -/

/-- Neighbours lie on one side of a measured point. -/
theorem Neighbours.beside {measured : Set ℕ} {a b middle : ℕ} (neighbours : Neighbours measured a b)
    (member : middle ∈ measured) : b ≤ middle ∨ middle ≤ a := by
  obtain ⟨_, _, less, none⟩ := neighbours
  have := none middle member
  omega

theorem Neighbours.subset {first second : Set ℕ} {a b : ℕ} (neighbours : Neighbours first a b)
    (sub : second ⊆ first) (ha : a ∈ second) (hb : b ∈ second) : Neighbours second a b :=
  ⟨ha, hb, neighbours.2.2.1, fun x member => neighbours.2.2.2 x (sub member)⟩

/-- A call that does not go on. -/
theorem searched_compareEnds {left right : ℕ} (less : left < right) (c : Curve)
    (stop : 2 ≤ right - left → ((compareEnds left right c).p left).ratio ≤ 135 / 100) :
    Searched left right c (compareEnds left right c) [.compare left right] where
  noted := events_compareEnds left right c
  nodup := List.nodup_nil
  between := fun x member => absurd member List.not_mem_nil
  justified := fun _ left right => ⟨left, right, trivial⟩
  frame := fun x outside => compareEnds_frame left right c (by omega)
  consistent := by
    -- the ends are the only measured points
    rintro a b ⟨ha, hb, order, _⟩
    simp only [mem_points, collected, List.filterMap_cons, List.filterMap_nil, List.not_mem_nil,
      or_false] at ha hb
    obtain ⟨rfl, rfl⟩ : a = left ∧ b = right := by omega
    exact consistent_compareEnds less c stop

section Split

variable {left middle right x : ℕ} {first second : List SearchEvent}

/-- The measured points of a call that goes on. -/
theorem mem_points_split :
    x ∈ points left right (.compare left right :: .collect middle :: (first ++ second)) ↔
      x = left ∨ x = right ∨ x = middle ∨ x ∈ collected first ∨ x ∈ collected second := by
  change x = left ∨ x = right ∨ x ∈ middle :: collected (first ++ second) ↔ _
  rw [List.mem_cons, collected_append, List.mem_append]

variable (lower : left < middle) (upper : middle < right)
  (inRight : ∀ y ∈ collected first, middle < y ∧ y < right)
  (inLeft : ∀ y ∈ collected second, left < y ∧ y < middle)

include lower upper inRight inLeft

/-- What is measured up to the middle was measured by the call for the left half. -/
theorem mem_points_left : x ∈ points left middle second ↔
    x ∈ points left right (.compare left right :: .collect middle :: (first ++ second)) ∧
      x ≤ middle := by
  rw [mem_points_split, mem_points]
  constructor
  · rintro (here | here | member)
    · exact ⟨.inl here, by omega⟩
    · exact ⟨.inr (.inr (.inl here)), here.le⟩
    · exact ⟨.inr (.inr (.inr (.inr member))), (inLeft x member).2.le⟩
  · rintro ⟨here | here | here | member | member, below⟩
    · exact .inl here
    · omega
    · exact .inr (.inl here)
    · have := inRight x member
      omega
    · exact .inr (.inr member)

/-- What is measured from the middle on was measured by the call for the right half. -/
theorem mem_points_right : x ∈ points middle right first ↔
    x ∈ points left right (.compare left right :: .collect middle :: (first ++ second)) ∧
      middle ≤ x := by
  rw [mem_points_split, mem_points]
  constructor
  · rintro (here | here | member)
    · exact ⟨.inr (.inr (.inl here)), here.ge⟩
    · exact ⟨.inr (.inl here), by omega⟩
    · exact ⟨.inr (.inr (.inr (.inl member))), (inRight x member).1.le⟩
  · rintro ⟨here | here | here | member | member, above⟩
    · omega
    · exact .inr (.inl here)
    · exact .inl here
    · exact .inr (.inr member)
    · have := inLeft x member
      omega

omit lower upper in
/-- The middle is measured in neither half, and nothing in both. -/
theorem nodup_collected_split (once : (collected first).Nodup) (once' : (collected second).Nodup) :
    (middle :: (collected first ++ collected second)).Nodup := by
  refine List.nodup_cons.mpr ⟨fun again => ?_, List.nodup_append.mpr
    ⟨once, once', fun x hx y hy => ?_⟩⟩
  · rcases List.mem_append.mp again with member | member
    · exact absurd (inRight middle member).1 (lt_irrefl _)
    · exact absurd (inLeft middle member).2 (lt_irrefl _)
  · have right := inRight x hx
    have left := inLeft y hy
    omega

/-- Nothing is measured at the ends or outside. -/
theorem between_of_mem_split (member : x ∈ middle :: (collected first ++ collected second)) :
    left < x ∧ x < right := by
  rcases List.mem_cons.mp member with rfl | member
  · exact ⟨lower, upper⟩
  · rcases List.mem_append.mp member with member | member
    · have := inRight x member
      omega
    · have := inLeft x member
      omega

end Split

/-- A call that goes on, in terms of the two it makes: the right half is final when the left
half is searched. -/
theorem Searched.halves {left middle right : ℕ} (lower : left < middle) (upper : middle < right)
    {sampled : ℕ → ℚ} {c c₁ c₂ : Curve} {first second : List SearchEvent}
    (toRight : Searched middle right (collectPoint sampled middle (compareEnds left right c)) c₁
      first)
    (toLeft : Searched left middle c₁ c₂ second) :
    Searched left right c c₂
      (.compare left right :: .collect middle :: (first ++ second)) where
  noted := by
    rw [toLeft.noted, toRight.noted, collectPoint, events_compareEnds]
    simp
  nodup := by
    change (middle :: collected (first ++ second)).Nodup
    rw [collected_append]
    exact nodup_collected_split toRight.between toLeft.between toRight.nodup toLeft.nodup
  between := by
    intro x member
    rw [show collected (.compare left right :: .collect middle :: (first ++ second)) =
      middle :: collected (first ++ second) from rfl, collected_append] at member
    exact between_of_mem_split lower upper toRight.between toLeft.between member
  justified := by
    intro measured hleft hright
    refine ⟨hleft, hright, ?_⟩
    have sub := Set.subset_insert middle measured
    have new := Set.mem_insert middle measured
    exact (toRight.justified _ new (sub hright)).append (toLeft.justified _ (sub hleft) new)
  frame := by
    intro x outside
    -- both halves and the comparison change points from `left` on and before `right`
    rw [toLeft.frame x (by omega), toRight.frame x (by omega),
      collectPoint_frame sampled middle _ (by omega), compareEnds_frame left right c (by omega)]
  consistent := by
    intro a b neighbours
    obtain ⟨ha, hb, less, _⟩ := id neighbours
    have atMiddle : middle ∈ points left right
        (.compare left right :: .collect middle :: (first ++ second)) :=
      mem_points_split.mpr (.inr (.inr (.inl rfl)))
    -- neighbours are on one side of the middle, which is measured
    rcases neighbours.beside atMiddle with before | after
    · refine toLeft.consistent a b (neighbours.subset (fun x member => ?_) ?_ ?_)
      · exact ((mem_points_left lower upper toRight.between toLeft.between).mp member).1
      · exact (mem_points_left lower upper toRight.between toLeft.between).mpr ⟨ha, by omega⟩
      · exact (mem_points_left lower upper toRight.between toLeft.between).mpr ⟨hb, before⟩
    · have final := toRight.consistent a b (neighbours.subset (fun x member => ?_) ?_ ?_)
      · -- the later search of the left half has not changed them
        rw [Consistent, ← toLeft.frame a (.inr after), ← toLeft.frame b (.inr (by omega))] at final
        exact final
      · exact ((mem_points_right lower upper toRight.between toLeft.between).mp member).1
      · exact (mem_points_right lower upper toRight.between toLeft.between).mpr ⟨ha, after⟩
      · exact (mem_points_right lower upper toRight.between toLeft.between).mpr ⟨hb, by omega⟩

/-- **One call of `search`** returns, for every interval, and does what it should. -/
theorem search_searched (sampled : ℕ → ℚ) {fuel left right : ℕ} (less : left < right)
    (enough : right - left ≤ fuel) (c : Curve) :
    ∃ c' events, search sampled fuel left right c = some c' ∧ Searched left right c c' events := by
  -- each half is shorter than the interval
  induction fuel generalizing left right c with
  | zero => omega
  | succ fuel ih =>
    rw [search]
    split
    · rename_i ends
      exact ⟨_, _, rfl, searched_compareEnds less c fun wide => by omega⟩
    · rename_i inside
      split
      · obtain ⟨c₁, first, toRight, rightDone⟩ :=
          ih (show left + (right - left) / 2 < right by omega) (by omega)
            (collectPoint sampled (left + (right - left) / 2) (compareEnds left right c))
        obtain ⟨c₂, second, toLeft, leftDone⟩ :=
          ih (show left < left + (right - left) / 2 by omega) (by omega) c₁
        refine ⟨c₂, _, ?_, rightDone.halves (by omega) (by omega) leftDone⟩
        rw [toRight]
        exact toLeft
      · rename_i small
        rw [not_or, not_lt, not_lt] at small
        exact ⟨_, _, rfl, searched_compareEnds less c fun _ => small.1⟩

/-- **A consistent latency curve.** For every interval and whatever latencies the samples have,
`search` returns; it collects points between the ends only and each at most once, and compares
measured points only; and then of any two neighbouring measured points the first has the ratio
and the slope of the two, the ratio is at least 0.98, and at most 1.35 where there is a point
between them. -/
theorem search_curve (sampled : ℕ → ℚ) (left right fuel : ℕ) (less : left < right)
    (enough : right - left ≤ fuel) (p : ℕ → CacheResult) :
    ∃ c, search sampled fuel left right ⟨p, 0, []⟩ = some c ∧ (collected c.events).Nodup ∧
      (∀ x ∈ collected c.events, left < x ∧ x < right) ∧ Justified {left, right} c.events ∧
      ∀ a b, Neighbours (points left right c.events) a b → 0 < (c.p a).latency →
        (c.p a).ratio = (c.p b).latency / (c.p a).latency ∧ 98 / 100 ≤ (c.p a).ratio ∧
          (c.p a).slope = ((c.p a).ratio - 1) / (b - a : ℕ) ∧
          (2 ≤ b - a → (c.p a).ratio ≤ 135 / 100) := by
  obtain ⟨c, events, returned, searched⟩ := search_searched sampled less enough ⟨p, 0, []⟩
  obtain rfl : c.events = events := searched.noted
  exact ⟨c, returned, searched.nodup, searched.between,
    searched.justified {left, right} (Set.mem_insert _ _) (Set.mem_insert_of_mem _ rfl),
    searched.consistent⟩

/-- Nine points, of which the samples in the middle are below the left end. -/
theorem search_curve_nine :
    ∃ c, search (fun n => 5 - n) 8 0 8 ⟨fun i => ⟨i + 1, -1, -1⟩, 0, []⟩ = some c ∧
      (collected c.events).Nodup ∧ (∀ x ∈ collected c.events, 0 < x ∧ x < 8) ∧
      Justified {0, 8} c.events ∧
      ∀ a b, Neighbours (points 0 8 c.events) a b → 0 < (c.p a).latency →
        (c.p a).ratio = (c.p b).latency / (c.p a).latency ∧ 98 / 100 ≤ (c.p a).ratio ∧
          (c.p a).slope = ((c.p a).ratio - 1) / (b - a : ℕ) ∧
          (2 ≤ b - a → (c.p a).ratio ≤ 135 / 100) :=
  search_curve (fun n => 5 - n) 0 8 8 (by decide) le_rfl fun i => ⟨i + 1, -1, -1⟩

end Lmbench
