import Mathlib.Algebra.Group.Int.Defs
import Mathlib.Algebra.Order.Group.Abs
import Mathlib.Algebra.Order.Group.Int
import Mathlib.Logic.Function.Iterate

/-!
# Seeking back and forth

`seek` of the disk test and the older seek test flip between two ends of the device that
move towards each other. Each pass makes two timed seeks: to the end that came down, and
back to the beginning that went up. They differ in the condition of the loop, in what they
print, and in which times and errors they care about.

## Main results

* `Scan.run_forall` - what holds of every timed seek
* `Scan.run_positions` - the ends after any number of passes
* `seekTest_prints` - the older test prints the distance
* `printsDistance_iff` - when the disk test does
-/

namespace Lmbench.Disk

/-- What happens during a timed seek: the I/O fails, and how long it took. -/
structure Shot where
  failed : Bool
  usecs : ℤ
deriving DecidableEq, Repr

/-- A seek test: the condition of the loop and the two printed distances, all from `begin`
and `end`. -/
structure Scan where
  stride : ℤ
  goes : ℤ → ℤ → Bool
  there : ℤ → ℤ → ℤ
  back : ℤ → ℤ → ℤ
  /-- the I/O is checked, and an error ends the test -/
  checks : Bool
  /-- the line is printed -/
  shows : ℤ → Bool

/-- A timed seek: where it went, from which earlier target, and the distance that was
printed, if a line was. -/
structure Timed where
  target : ℤ
  origin : ℤ
  printed : Option ℤ
deriving DecidableEq, Repr

/-- The variables of the loop, the last target, the number of passes and the timed seeks. -/
structure Heads where
  beginOff : ℤ
  endOff : ℤ
  last : ℤ
  exited : Bool
  passes : ℕ
  trace : List Timed
deriving DecidableEq, Repr

namespace Scan

variable (sc : Scan)

/-- One timed seek. -/
def shoot (shot : Shot) (target distance : ℤ) (s : Heads) : Heads :=
  if s.exited then s
  else if sc.checks ∧ shot.failed then { s with exited := true }
  else
    { s with
      last := target
      trace := s.trace ++
        [⟨target, s.last, if sc.shows shot.usecs then some distance else none⟩] }

/-- `end -= stride` and the seek to the end. -/
def outward (shot : Shot) (s : Heads) : Heads :=
  sc.shoot shot (s.endOff - sc.stride) (sc.there s.beginOff (s.endOff - sc.stride))
    { s with endOff := s.endOff - sc.stride, passes := s.passes + 1 }

/-- `begin += stride` and the seek back. -/
def homeward (shot : Shot) (s : Heads) : Heads :=
  sc.shoot shot (s.beginOff + sc.stride) (sc.back (s.beginOff + sc.stride) s.endOff)
    { s with beginOff := s.beginOff + sc.stride }

/-- One pass of the loop, or nothing when it has ended. -/
def pass (shots : ℕ → Shot) (s : Heads) : Heads :=
  if s.exited ∨ ¬ sc.goes s.beginOff s.endOff then s
  else sc.homeward (shots (2 * s.passes + 2)) (sc.outward (shots (2 * s.passes + 1)) s)

/-- The variables in front of the loop, behind the first I/O. -/
def start (size : ℤ) (shots : ℕ → Shot) : Heads where
  beginOff := 0
  endOff := size
  last := 0
  exited := sc.checks && (shots 0).failed
  passes := 0
  trace := []

/-- The loop after at most `n` passes. -/
def run (size : ℤ) (shots : ℕ → Shot) (n : ℕ) : Heads := (sc.pass shots)^[n] (sc.start size shots)

/-- The timed seek to the end that came down. -/
def thereTimed (b e : ℤ) (shown : Bool) : Timed :=
  ⟨e - sc.stride, b, if shown then some (sc.there b (e - sc.stride)) else none⟩

/-- The timed seek back to the beginning that went up. -/
def backTimed (b e : ℤ) (shown : Bool) : Timed :=
  ⟨b + sc.stride, e - sc.stride,
    if shown then some (sc.back (b + sc.stride) (e - sc.stride)) else none⟩

/-- What a pass does: the ends move, and at most two timed seeks are made, each from the
target of the one before. -/
structure Passed (s t : Heads) : Prop where
  beginOff : t.beginOff = s.beginOff + sc.stride
  endOff : t.endOff = s.endOff - sc.stride
  passes : t.passes = s.passes + 1
  last : t.exited = false → t.last = t.beginOff
  trace : ∃ l, t.trace = s.trace ++ l ∧ l.length ≤ 2 ∧ ∀ x ∈ l, ∃ shown,
    x = sc.thereTimed s.beginOff s.endOff shown ∨ x = sc.backTimed s.beginOff s.endOff shown

variable {sc} {size : ℤ} {shots : ℕ → Shot} {n : ℕ} {s : Heads} {shot : Shot}
  {target distance : ℤ}

theorem shoot_of_exited (ended : s.exited = true) : sc.shoot shot target distance s = s := by
  rw [shoot, if_pos ended]

/-- A timed seek is made, or there was an error. -/
theorem shoot_cases (live : s.exited = false) :
    sc.shoot shot target distance s = { s with exited := true } ∨
      sc.shoot shot target distance s =
        { s with
          last := target
          trace := s.trace ++
            [⟨target, s.last, if sc.shows shot.usecs then some distance else none⟩] } := by
  rw [shoot, if_neg (by simp [live])]
  split
  · exact .inl rfl
  · exact .inr rfl

theorem passed (live : s.exited = false) (goes : sc.goes s.beginOff s.endOff = true)
    (home : s.last = s.beginOff) : sc.Passed s (sc.pass shots s) := by
  rw [pass, if_neg (by simp [live, goes]), outward]
  rcases @shoot_cases sc { s with endOff := s.endOff - sc.stride, passes := s.passes + 1 }
    (shots (2 * s.passes + 1)) (s.endOff - sc.stride)
    (sc.there s.beginOff (s.endOff - sc.stride)) live with failed | made
  · rw [failed, homeward, shoot_of_exited rfl]
    exact ⟨rfl, rfl, rfl, by simp, [], by simp⟩
  · rw [made, homeward]
    rcases @shoot_cases sc
      { s with
        beginOff := s.beginOff + sc.stride
        endOff := s.endOff - sc.stride
        last := s.endOff - sc.stride
        passes := s.passes + 1
        trace := s.trace ++ [⟨s.endOff - sc.stride, s.last,
          if sc.shows (shots (2 * s.passes + 1)).usecs then
            some (sc.there s.beginOff (s.endOff - sc.stride)) else none⟩] }
      (shots (2 * s.passes + 2)) (s.beginOff + sc.stride)
      (sc.back (s.beginOff + sc.stride) (s.endOff - sc.stride)) live with failed | made
    · rw [failed]
      refine ⟨rfl, rfl, rfl, by simp, _, rfl, by simp, fun x member => ?_⟩
      rw [List.mem_singleton.mp member, home]
      exact ⟨_, .inl rfl⟩
    · rw [made]
      refine ⟨rfl, rfl, rfl, fun _ => rfl, _, List.append_assoc _ _ _, by simp, fun x member => ?_⟩
      rcases List.mem_append.mp member with first | second
      · rw [List.mem_singleton.mp first, home]
        exact ⟨_, .inl rfl⟩
      · rw [List.mem_singleton.mp second]
        exact ⟨_, .inr rfl⟩

theorem run_succ : sc.run size shots (n + 1) = sc.pass shots (sc.run size shots n) :=
  Function.iterate_succ_apply' _ _ _

/-- The head is where the beginning is, between two passes. -/
theorem last_run (live : (sc.run size shots n).exited = false) :
    (sc.run size shots n).last = (sc.run size shots n).beginOff := by
  induction n with
  | zero => rfl
  | succ n ih =>
    rw [run_succ] at live ⊢
    by_cases stays : (sc.run size shots n).exited = true ∨
        ¬ sc.goes (sc.run size shots n).beginOff (sc.run size shots n).endOff = true
    · rw [pass, if_pos stays] at live ⊢
      exact ih live
    · rw [not_or, Bool.not_eq_true, not_not] at stays
      exact (passed stays.1 stays.2 (ih stays.1)).last live

/-- A pass of a run changes nothing, or it is made. -/
theorem run_succ_cases : sc.run size shots (n + 1) = sc.run size shots n ∨
    sc.goes (sc.run size shots n).beginOff (sc.run size shots n).endOff = true ∧
      sc.Passed (sc.run size shots n) (sc.run size shots (n + 1)) := by
  rw [run_succ]
  by_cases stays : (sc.run size shots n).exited = true ∨
      ¬ sc.goes (sc.run size shots n).beginOff (sc.run size shots n).endOff = true
  · rw [pass, if_pos stays]
    exact .inl rfl
  · rw [not_or, Bool.not_eq_true, not_not] at stays
    exact .inr ⟨stays.2, passed stays.1 stays.2 (last_run stays.1)⟩

/-- **Invariant rule.** What the passes keep of the two ends, and what it implies for the
two timed seeks of a pass, holds of every timed seek. -/
theorem run_forall {inv : ℤ → ℤ → Prop} {holds : Timed → Prop} (initial : inv 0 size)
    (keeps : ∀ b e, inv b e → sc.goes b e → inv (b + sc.stride) (e - sc.stride))
    (there : ∀ b e shown, inv b e → sc.goes b e → holds (sc.thereTimed b e shown))
    (back : ∀ b e shown, inv b e → sc.goes b e → holds (sc.backTimed b e shown)) :
    inv (sc.run size shots n).beginOff (sc.run size shots n).endOff ∧
      ∀ x ∈ (sc.run size shots n).trace, holds x := by
  induction n with
  | zero => exact ⟨initial, by simp [run, start]⟩
  | succ n ih =>
    obtain ⟨kept, before⟩ := ih
    rcases @run_succ_cases sc size shots n with same | ⟨goes, passed⟩
    · rw [same]
      exact ⟨kept, before⟩
    · obtain ⟨l, trace, -, made⟩ := passed.trace
      rw [passed.beginOff, passed.endOff, trace]
      refine ⟨keeps _ _ kept goes, fun x member => ?_⟩
      rcases List.mem_append.mp member with old | new
      · exact before x old
      · obtain ⟨shown, rfl | rfl⟩ := made x new
        · exact there _ _ shown kept goes
        · exact back _ _ shown kept goes

/-- **Printing rule.** What holds of the distance of each of the two timed seeks of a pass,
printed, holds of every distance that is printed. -/
theorem printed_of_run {holds : Timed → ℤ → Prop} {x : Timed} {d : ℤ}
    (there : ∀ b e, sc.goes b e →
      holds (sc.thereTimed b e true) (sc.there b (e - sc.stride)))
    (back : ∀ b e, sc.goes b e →
      holds (sc.backTimed b e true) (sc.back (b + sc.stride) (e - sc.stride)))
    (made : x ∈ (sc.run size shots n).trace) (printed : x.printed = some d) : holds x d := by
  have each := @run_forall sc size shots n (fun _ _ => True)
    (fun x => ∀ d, x.printed = some d → holds x d) trivial (fun _ _ _ _ => trivial) ?_ ?_
  · exact each.2 x made d printed
  · rintro b e shown - goes d printed
    cases shown with
    | false => simp [thereTimed] at printed
    | true =>
      obtain rfl : sc.there b (e - sc.stride) = d := Option.some.inj printed
      exact there b e goes
  · rintro b e shown - goes d printed
    cases shown with
    | false => simp [backTimed] at printed
    | true =>
      obtain rfl : sc.back (b + sc.stride) (e - sc.stride) = d := Option.some.inj printed
      exact back b e goes

/-- The ends after some passes, and the condition under which the last one was made. -/
structure Positions (size : ℤ) (s : Heads) : Prop where
  beginOff : s.beginOff = s.passes * sc.stride
  endOff : s.endOff = size - s.passes * sc.stride
  trace : s.trace.length ≤ 2 * s.passes
  goes : ∀ k, s.passes = k + 1 → sc.goes (k * sc.stride) (size - k * sc.stride) = true

theorem run_positions : sc.Positions size (sc.run size shots n) := by
  induction n with
  | zero => exact ⟨by simp [run, start], by simp [run, start], by simp [run, start],
      by simp [run, start]⟩
  | succ n ih =>
    rcases @run_succ_cases sc size shots n with same | ⟨goes, passed⟩
    · rwa [same]
    · obtain ⟨l, trace, few, -⟩ := passed.trace
      refine ⟨?_, ?_, ?_, fun k last => ?_⟩
      · rw [passed.beginOff, passed.passes, ih.beginOff, Int.natCast_succ, Int.add_mul, Int.one_mul]
      · rw [passed.endOff, passed.passes, ih.endOff, Int.natCast_succ, Int.add_mul, Int.one_mul]
        omega
      · rw [trace, passed.passes, List.length_append]
        have := ih.trace
        omega
      · obtain rfl : (sc.run size shots n).passes = k := by
          rw [passed.passes] at last
          omega
        rwa [← ih.endOff, ← ih.beginOff]

end Scan

/-- The older seek test, in strides of 1 MB. It looks at no error. -/
def seekTest : Scan where
  stride := 1024 * 1024
  goes b e := b < e
  there b e := e - b
  back b e := e - b
  checks := false
  shows _ := true

/-- The loop of the disk test. -/
def diskScan (stride : ℤ) : Scan where
  stride := stride
  goes b e := b + stride * 2 ≤ e
  there b e := e - b - stride
  back b e := e + stride - b
  checks := true
  -- TOOSMALL and TOOBIG
  shows usecs := 1000 < usecs && usecs < 1000000

/-- The disk test. The product `stride*2` is one of `int`s; none if it does not fit. -/
def diskTest (stride : ℤ) : Option Scan :=
  if stride * 2 < 2 ^ 31 then some (diskScan stride) else none

variable {size stride : ℤ} {shots : ℕ → Shot} {n : ℕ}

theorem eq_of_diskTest {sc : Scan} (test : diskTest stride = some sc) : diskScan stride = sc := by
  unfold diskTest at test
  split at test
  · exact Option.some.inj test
  · simp at test

/-- The older test prints the distance, with a sign behind the middle of the device. -/
theorem seekTest_prints {x : Timed} {d : ℤ} (made : x ∈ (seekTest.run size shots n).trace)
    (printed : x.printed = some d) : |d| = |x.target - x.origin| := by
  refine @Scan.printed_of_run seekTest size shots n (fun x d => |d| = |x.target - x.origin|) x d
    (fun b e _ => rfl) (fun b e _ => ?_) made printed
  exact abs_sub_comm _ _

/-- The disk test is defined, and every distance that it prints is the one between two targets
that follow each other, up to a sector. -/
def PrintsDistance (size stride : ℤ) : Prop :=
  ∃ sc, diskTest stride = some sc ∧ ∀ shots n, ∀ x ∈ (sc.run size shots n).trace, ∀ d,
    x.printed = some d → |d - (|x.target - x.origin|)| ≤ 512

/-- Every distance that is printed is off by a stride. -/
theorem diskScan_prints {x : Timed} {d : ℤ} (positive : 0 < stride)
    (made : x ∈ ((diskScan stride).run size shots n).trace) (printed : x.printed = some d) :
    |d - (|x.target - x.origin|)| = stride := by
  refine @Scan.printed_of_run (diskScan stride) size shots n
    (fun x d => |d - (|x.target - x.origin|)| = stride) x d (fun b e goes => ?_)
    (fun b e goes => ?_) made printed
  · have apart : b + stride * 2 ≤ e := of_decide_eq_true goes
    simp only [Scan.thereTimed, diskScan]
    rw [abs_of_nonneg (by omega : 0 ≤ e - stride - b), abs_of_nonpos (by omega)]
    omega
  · have apart : b + stride * 2 ≤ e := of_decide_eq_true goes
    simp only [Scan.backTimed, diskScan]
    rw [abs_of_nonpos (by omega : b + stride - (e - stride) ≤ 0), abs_of_nonneg (by omega)]
    omega

/-- On a device of less than two strides nothing is timed. -/
theorem trace_diskScan_of_small (small : size < 2 * stride) :
    ((diskScan stride).run size shots n).trace = [] := by
  have stays : ∀ b e, b = 0 ∧ e = size → ¬ (diskScan stride).goes b e = true := by
    rintro b e ⟨rfl, rfl⟩ goes
    have apart : 0 + stride * 2 ≤ e := of_decide_eq_true goes
    omega
  obtain ⟨-, none⟩ := @Scan.run_forall (diskScan stride) size shots n
    (fun b e => b = 0 ∧ e = size) (fun _ => False) ⟨rfl, rfl⟩
    (fun b e kept goes => (stays b e kept goes).elim)
    (fun b e _ kept goes => stays b e kept goes) (fun b e _ kept goes => stays b e kept goes)
  exact List.eq_nil_iff_forall_not_mem.mpr none

/-- The first timed seek of a device of two strides, when it takes 5 ms. -/
theorem thereTimed_mem (large : 2 * stride ≤ size) :
    (diskScan stride).thereTimed 0 size true ∈
      ((diskScan stride).run size (fun _ => ⟨false, 5000⟩) 1).trace := by
  have goes : (diskScan stride).goes 0 size = true := by
    simp only [diskScan, decide_eq_true_eq]
    omega
  have run : (diskScan stride).run size (fun _ => ⟨false, 5000⟩) 1 =
      (diskScan stride).pass (fun _ => ⟨false, 5000⟩)
        ((diskScan stride).start size fun _ => ⟨false, 5000⟩) := rfl
  rw [run, Scan.pass, if_neg (by simp [Scan.start, goes])]
  simp [Scan.homeward, Scan.outward, Scan.shoot, Scan.start, Scan.thereTimed, diskScan]

/-- The disk test prints the distance exactly if a stride is no more than a sector, or two
of them are an `int` and nothing is timed. -/
theorem printsDistance_iff (positive : 0 < stride) :
    PrintsDistance size stride ↔
      stride ≤ 512 ∨ size < 2 * stride ∧ 2 * stride < 2 ^ 31 := by
  constructor
  · rintro ⟨sc, test, prints⟩
    have fits : stride * 2 < 2 ^ 31 := by
      by_contra wraps
      rw [diskTest, if_neg wraps] at test
      cases test
    obtain rfl := eq_of_diskTest test
    by_contra timed
    have large : 2 * stride ≤ size := by omega
    have bad := prints _ 1 _ (thereTimed_mem large) _ rfl
    rw [diskScan_prints positive (thereTimed_mem large) rfl] at bad
    omega
  · intro short
    refine ⟨diskScan stride, if_pos (by omega), fun shots n x made d printed => ?_⟩
    rcases short with sector | ⟨small, _⟩
    · exact (diskScan_prints positive made printed).le.trans sector
    · rw [trace_diskScan_of_small small] at made
      cases made

/-- Strides of a sector are short enough. -/
theorem printsDistance_sector : PrintsDistance (2 ^ 20) 512 :=
  (printsDistance_iff (by decide)).mpr (by decide)

/-- A device of 1000 MB is scanned in strides of half a MB, and each line is off by one. -/
theorem not_printsDistance_halfMB : ¬ PrintsDistance (1000 * 2 ^ 20) (2 ^ 19) := by
  rintro ⟨sc, test, prints⟩
  obtain rfl := eq_of_diskTest test
  have bad := prints _ 1 _ (thereTimed_mem (by decide)) _ rfl
  rw [diskScan_prints (by decide) (thereTimed_mem (by decide)) rfl] at bad
  revert bad
  decide

end Lmbench.Disk
