import Lmbench.Lib.Calendar
import Mathlib.Data.List.Basic
import Mathlib.Data.List.Chain

/-!
# The clock of `lmhttp`

`http_time` keeps the text that it has formatted last. While the minute is the same it
puts the new second into that text, at the two places where the second stands.

The clock is any integer, `gmtime` and `strftime` are the calendar's and C's, for the one
format that there is.

## Main results

* `front_gmtime_iff` - when two texts with one minute differ in the second at most
* `transparent_iff` - when all calls return what they should
-/

namespace Lmbench.Lmhttp

open Lib

/-- What `gmtime` fills in, within the ranges that C gives. -/
structure Tm where
  sec : Fin 60
  min : Fin 60
  hour : Fin 24
  mday : Fin 32
  mon : Fin 12
  /-- since 1900 -/
  year : ℤ
  wday : Fin 7
deriving DecidableEq

/-- The number of 1 January 1970. -/
def epoch : ℤ := daysBeforeYear 1970

theorem monthLength_le (year : ℤ) (month : ℕ) : monthLength year month ≤ 31 := by
  unfold monthLength
  split
  · split <;> omega
  all_goals omega

def gmtime (tt : ℤ) : Tm where
  sec := ⟨(tt % 60).toNat, by omega⟩
  min := ⟨(tt / 60 % 60).toNat, by omega⟩
  hour := ⟨(tt / 3600 % 24).toNat, by omega⟩
  mday := ⟨(dateOf (tt / 86400 + epoch)).day,
    Nat.lt_succ_of_le ((dateOf (tt / 86400 + epoch)).day_le.trans (monthLength_le _ _))⟩
  mon := ⟨(dateOf (tt / 86400 + epoch)).month, (dateOf (tt / 86400 + epoch)).month_lt⟩
  year := (dateOf (tt / 86400 + epoch)).year - 1900
  wday := ⟨weekday (tt / 86400 + epoch), by
    unfold weekday
    omega⟩

/-! ### The text -/

/-- `n + '0'`. -/
def digit (n : ℕ) : Char := Char.ofNat (n + '0'.toNat)

def twoDigits (n : ℕ) : List Char := [digit (n / 10), digit (n % 10)]

def dayName : Fin 7 → List Char
  | 0 => ['S', 'u', 'n']
  | 1 => ['M', 'o', 'n']
  | 2 => ['T', 'u', 'e']
  | 3 => ['W', 'e', 'd']
  | 4 => ['T', 'h', 'u']
  | 5 => ['F', 'r', 'i']
  | 6 => ['S', 'a', 't']

def monthName : Fin 12 → List Char
  | 0 => ['J', 'a', 'n']
  | 1 => ['F', 'e', 'b']
  | 2 => ['M', 'a', 'r']
  | 3 => ['A', 'p', 'r']
  | 4 => ['M', 'a', 'y']
  | 5 => ['J', 'u', 'n']
  | 6 => ['J', 'u', 'l']
  | 7 => ['A', 'u', 'g']
  | 8 => ['S', 'e', 'p']
  | 9 => ['O', 'c', 't']
  | 10 => ['N', 'o', 'v']
  | 11 => ['D', 'e', 'c']

/-- A conversion of `strftime`, of those in `format`. -/
def conversion (t : Tm) : Char → List Char
  | 'a' => dayName t.wday
  | 'd' => twoDigits t.mday
  | 'b' => monthName t.mon
  | 'y' => twoDigits (t.year % 100).toNat
  | 'H' => twoDigits t.hour
  | 'M' => twoDigits t.min
  | 'S' => twoDigits t.sec
  | 'Z' => ['G', 'M', 'T']
  | _ => []

def strftime (t : Tm) : List Char → List Char
  | '%' :: c :: rest => conversion t c ++ strftime t rest
  | c :: rest => c :: strftime t rest
  | [] => []

/-- `"%a, %d %b %y %H:%M:%S %Z"` -/
def format : List Char :=
  ['%', 'a', ',', ' ', '%', 'd', ' ', '%', 'b', ' ', '%', 'y', ' ', '%', 'H', ':', '%', 'M', ':',
    '%', 'S', ' ', '%', 'Z']

/-- The text up to the second. -/
def front (t : Tm) : List Char :=
  dayName t.wday ++ [',', ' '] ++ twoDigits t.mday ++ [' '] ++ monthName t.mon ++ [' '] ++
    twoDigits (t.year % 100).toNat ++ [' '] ++ twoDigits t.hour ++ [':'] ++ twoDigits t.min ++ [':']

def zone : List Char := [' ', 'G', 'M', 'T']

theorem strftime_format (t : Tm) :
    strftime t format = front t ++ (twoDigits t.sec ++ zone) := by
  simp [strftime, format, conversion, front, zone]

theorem length_dayName (d : Fin 7) : (dayName d).length = 3 := by
  revert d
  decide

theorem length_monthName (m : Fin 12) : (monthName m).length = 3 := by
  revert m
  decide

theorem length_front (t : Tm) : (front t).length = 21 := by
  simp [front, length_dayName, length_monthName, twoDigits]

theorem dayName_inj (d e : Fin 7) : dayName d = dayName e ↔ d = e := by
  revert d e
  decide

theorem monthName_inj (m n : Fin 12) : monthName m = monthName n ↔ m = n := by
  revert m n
  decide

theorem digit_inj {n m : ℕ} (small : n < 10) (small' : m < 10) : digit n = digit m ↔ n = m := by
  have digits : ∀ n < 10, ∀ m < 10, digit n = digit m ↔ n = m := by decide
  exact digits n small m small'

theorem twoDigits_inj {n m : ℕ} (small : n < 100) (small' : m < 100) :
    twoDigits n = twoDigits m ↔ n = m := by
  have tens : digit (n / 10) = digit (m / 10) ↔ n / 10 = m / 10 :=
    digit_inj (by omega) (by omega)
  have ones : digit (n % 10) = digit (m % 10) ↔ n % 10 = m % 10 :=
    digit_inj (by omega) (by omega)
  simp only [twoDigits, List.cons.injEq, tens, ones, and_true]
  omega

/-- The text says all but the second and the century. -/
theorem front_inj (t u : Tm) :
    front t = front u ↔
      t.wday = u.wday ∧ t.mday = u.mday ∧ t.mon = u.mon ∧ t.year % 100 = u.year % 100 ∧
        t.hour = u.hour ∧ t.min = u.min := by
  have mday : twoDigits t.mday = twoDigits u.mday ↔ t.mday = u.mday := by
    rw [twoDigits_inj (by omega) (by omega), Fin.val_inj]
  have year : twoDigits (t.year % 100).toNat = twoDigits (u.year % 100).toNat ↔
      t.year % 100 = u.year % 100 := by
    rw [twoDigits_inj (by omega) (by omega)]
    omega
  have hour : twoDigits t.hour = twoDigits u.hour ↔ t.hour = u.hour := by
    rw [twoDigits_inj (by omega) (by omega), Fin.val_inj]
  have min : twoDigits t.min = twoDigits u.min ↔ t.min = u.min := by
    rw [twoDigits_inj (by omega) (by omega), Fin.val_inj]
  constructor
  · intro same
    obtain ⟨same, -⟩ := List.append_inj' same rfl
    obtain ⟨same, minutes⟩ := List.append_inj' same rfl
    obtain ⟨same, -⟩ := List.append_inj' same rfl
    obtain ⟨same, hours⟩ := List.append_inj' same rfl
    obtain ⟨same, -⟩ := List.append_inj' same rfl
    obtain ⟨same, years⟩ := List.append_inj' same rfl
    obtain ⟨same, -⟩ := List.append_inj' same rfl
    obtain ⟨same, months⟩ := List.append_inj' same (by simp [length_monthName])
    obtain ⟨same, -⟩ := List.append_inj' same rfl
    obtain ⟨same, days⟩ := List.append_inj' same rfl
    obtain ⟨weekdays, -⟩ := List.append_inj' same rfl
    exact ⟨(dayName_inj _ _).mp weekdays, mday.mp days, (monthName_inj _ _).mp months,
      year.mp years, hour.mp hours, min.mp minutes⟩
  · rintro ⟨weekdays, days, months, years, hours, minutes⟩
    simp only [front, weekdays, days, months, years, hours, minutes]

/-! ### The cache -/

/-- The static variables of `http_time`; `buf` is the text up to its end. -/
structure Clock where
  saveTt : ℤ
  saveTm : Tm
  buf : List Char

/-- Static variables start with zeros. -/
def Clock.zero : Clock := ⟨0, ⟨0, 0, 0, 0, 0, 0, 0⟩, []⟩

/-- The full conversion, at the end of `http_time`. -/
def Clock.convert (t : Tm) (s : Clock) : Clock := { s with saveTm := t, buf := strftime t format }

/-- A call at the time `tt`. The caller gets `buf`. -/
def httpTime (tt : ℤ) (s : Clock) : Clock :=
  if tt = s.saveTt then s
  else
    let s := { s with saveTt := tt }
    let t := gmtime tt
    -- the difference is taken from the time just saved
    if s.buf ≠ [] ∧ tt - s.saveTt < 3600 then
      let s :=
        { s with
          buf := (s.buf.set 22 (digit (t.sec / 10))).set 21 (digit (t.sec % 10))
          saveTm := { s.saveTm with sec := t.sec } }
      if s.saveTm.min = t.min then s else s.convert t
    else s.convert t

/-- What a sequence of calls returns. -/
def returned (s : Clock) : List ℤ → List (List Char)
  | [] => []
  | tt :: rest => (httpTime tt s).buf :: returned (httpTime tt s) rest

/-- What a call should return. -/
def text (tt : ℤ) : List Char := strftime (gmtime tt) format

/-! ### When the cache is transparent -/

/-- Hours that cannot be told apart in the text: the calendar repeats itself with its weekdays
after 400 years. -/
def SameHour (s t : ℤ) : Prop := 24 * 146097 ∣ t / 3600 - s / 3600

/-- The call at `t` that follows one at `s` is right: if it only puts in the second, the hour has
not changed and the second has its two digits equal. -/
def Kept (s t : ℤ) : Prop :=
  s ≠ t → (gmtime s).min = (gmtime t).min →
    SameHour s t ∧ ((gmtime t).sec : ℕ) / 10 = (gmtime t).sec % 10

/-- After a call at `tt` that was right. -/
structure Shown (tt : ℤ) (s : Clock) : Prop where
  saveTt : s.saveTt = tt
  min : s.saveTm.min = (gmtime tt).min
  buf : s.buf = text tt

theorem length_text (tt : ℤ) : (text tt).length = 27 := by
  rw [text, strftime_format, List.length_append, length_front]
  rfl

theorem text_ne_nil (tt : ℤ) : text tt ≠ [] := by
  intro empty
  have length := length_text tt
  rw [empty] at length
  cases length

/-- A call in the same second. -/
theorem httpTime_again (s : Clock) : httpTime s.saveTt s = s := if_pos rfl

/-- A call in the same minute of any hour. -/
theorem httpTime_patch {tt : ℤ} {s : Clock} (later : tt ≠ s.saveTt) (formatted : s.buf ≠ [])
    (same : s.saveTm.min = (gmtime tt).min) :
    httpTime tt s =
      { saveTt := tt
        saveTm := { s.saveTm with sec := (gmtime tt).sec }
        buf := (s.buf.set 22 (digit ((gmtime tt).sec / 10))).set 21
          (digit ((gmtime tt).sec % 10)) } := by
  have recent : tt - tt < 3600 := by omega
  rw [httpTime, if_neg later]
  exact (if_pos ⟨formatted, recent⟩).trans (if_pos same)

/-- Any other call. -/
theorem httpTime_convert {tt : ℤ} {s : Clock} (later : tt ≠ s.saveTt)
    (other : s.buf ≠ [] → s.saveTm.min ≠ (gmtime tt).min) :
    httpTime tt s = ⟨tt, gmtime tt, text tt⟩ := by
  rw [httpTime, if_neg later]
  by_cases formatted : s.buf ≠ []
  · have recent : tt - tt < 3600 := by omega
    exact (if_pos ⟨formatted, recent⟩).trans (if_neg (other formatted))
  · exact if_neg fun patched => formatted patched.1

/-- The text with the second put in: its digits change places. -/
theorem patch_text (tt : ℤ) (n : ℕ) :
    ((text tt).set 22 (digit (n / 10))).set 21 (digit (n % 10)) =
      front (gmtime tt) ++ ([digit (n % 10), digit (n / 10)] ++ zone) := by
  rw [text, strftime_format, List.set_append, if_neg (by simp [length_front]), List.set_append,
    if_neg (by simp [length_front]), length_front]
  rfl

/-- Two texts with the same minute. -/
theorem front_gmtime_iff {s t : ℤ} (minutes : (gmtime s).min = (gmtime t).min) :
    front (gmtime s) = front (gmtime t) ↔ SameHour s t := by
  have days := sameDay_iff (s / 86400 + epoch) (t / 86400 + epoch)
  have hours : (gmtime s).hour = (gmtime t).hour ↔ s / 3600 % 24 = t / 3600 % 24 := by
    simp only [gmtime, Fin.mk.injEq]
    omega
  have years : (gmtime s).year % 100 = (gmtime t).year % 100 ↔
      (dateOf (s / 86400 + epoch)).year % 100 = (dateOf (t / 86400 + epoch)).year % 100 := by
    simp only [gmtime]
    omega
  have hoursOf : SameHour s t ↔
      s / 3600 % 24 = t / 3600 % 24 ∧ 146097 ∣ t / 86400 + epoch - (s / 86400 + epoch) := by
    unfold SameHour
    omega
  rw [front_inj, hours, years, hoursOf, ← days, SameDay, and_iff_left minutes]
  simp only [gmtime, Fin.mk.injEq]
  constructor
  · rintro ⟨weekdays, mdays, months, years, hours⟩
    exact ⟨hours, weekdays, mdays, months, years⟩
  · rintro ⟨hours, weekdays, mdays, months, years⟩
    exact ⟨weekdays, mdays, months, years, hours⟩

/-- When the text of `s` with the second of `t` is the text of `t`. -/
theorem patch_text_eq_iff {s t : ℤ} (minutes : (gmtime s).min = (gmtime t).min) :
    ((text s).set 22 (digit ((gmtime t).sec / 10))).set 21 (digit ((gmtime t).sec % 10)) = text t ↔
      SameHour s t ∧ ((gmtime t).sec : ℕ) / 10 = (gmtime t).sec % 10 := by
  have fronts : (front (gmtime s)).length = (front (gmtime t)).length := by
    rw [length_front, length_front]
  have ones : digit ((gmtime t).sec % 10) = digit ((gmtime t).sec / 10) ↔
      ((gmtime t).sec : ℕ) % 10 = (gmtime t).sec / 10 := digit_inj (by omega) (by omega)
  have tens : digit ((gmtime t).sec / 10) = digit ((gmtime t).sec % 10) ↔
      ((gmtime t).sec : ℕ) / 10 = (gmtime t).sec % 10 := digit_inj (by omega) (by omega)
  rw [patch_text, text, strftime_format, List.append_eq_append_iff_of_size_eq_left fronts,
    front_gmtime_iff minutes, List.append_left_inj, twoDigits, List.cons.injEq, List.cons.injEq,
    ones, tens]
  exact and_congr_right fun _ => ⟨fun same => same.2.1, fun same => ⟨same.symm, same, rfl⟩⟩

/-- **The step.** After a right call the next one is right exactly if `Kept` says so. -/
theorem Shown.call {last : ℤ} {s : Clock} (shown : Shown last s) (tt : ℤ) :
    ((httpTime tt s).buf = text tt ↔ Kept last tt) ∧
      (Kept last tt → Shown tt (httpTime tt s)) := by
  obtain ⟨rfl, min, buf⟩ := shown
  by_cases again : tt = s.saveTt
  · subst again
    rw [httpTime_again]
    exact ⟨iff_of_true buf fun other => absurd rfl other, fun _ => ⟨rfl, min, buf⟩⟩
  · have formatted : s.buf ≠ [] := buf ▸ text_ne_nil _
    by_cases same : (gmtime s.saveTt).min = (gmtime tt).min
    · -- the fast path: `tm_min` is all that is compared
      have right : (httpTime tt s).buf = text tt ↔ Kept s.saveTt tt := by
        rw [httpTime_patch again formatted (min.trans same), buf, patch_text_eq_iff same]
        exact ⟨fun agrees _ _ => agrees, fun kept => kept (Ne.symm again) same⟩
      refine ⟨right, fun kept => ?_⟩
      have shows := right.mpr kept
      rw [httpTime_patch again formatted (min.trans same)] at shows ⊢
      exact ⟨rfl, min.trans same, shows⟩
    · rw [httpTime_convert again fun _ => min ▸ same]
      exact ⟨iff_of_true rfl fun _ minutes => absurd minutes same, fun _ => ⟨rfl, rfl, rfl⟩⟩

/-- The first call formats, unless the clock shows 0. -/
theorem httpTime_zero (tt : ℤ) :
    ((httpTime tt Clock.zero).buf = text tt ↔ tt ≠ 0) ∧
      (tt ≠ 0 → Shown tt (httpTime tt Clock.zero)) := by
  by_cases zero : tt = 0
  · have again : httpTime tt Clock.zero = Clock.zero := by
      rw [zero]
      exact httpTime_again Clock.zero
    rw [again]
    exact ⟨iff_of_false (text_ne_nil tt).symm (not_not.mpr zero),
      fun nonzero => absurd zero nonzero⟩
  · rw [httpTime_convert zero fun formatted => absurd rfl formatted]
    exact ⟨iff_of_true rfl zero, fun _ => ⟨rfl, rfl, rfl⟩⟩

/-- The calls after a right one. -/
theorem returned_eq_iff {last : ℤ} {s : Clock} (shown : Shown last s) (times : List ℤ) :
    returned s times = times.map text ↔ (last :: times).IsChain Kept := by
  induction times generalizing last s with
  | nil => simp [returned]
  | cons tt rest ih =>
    obtain ⟨now, next⟩ := shown.call tt
    rw [returned, List.map_cons, List.cons.injEq, List.isChain_cons_cons, now]
    exact and_congr_right fun kept => ih (next kept)

/-- Every call of a sequence returns the text of its time. -/
def Transparent (times : List ℤ) : Prop := returned Clock.zero times = times.map text

/-- **The calls.** They are all right exactly if the clock does not show 0 at the first and,
at each later one that only puts the second in, the rest of the text has not changed and the
order of the digits does not matter. -/
theorem transparent_iff (times : List ℤ) :
    Transparent times ↔ times.head? ≠ some 0 ∧ times.IsChain Kept := by
  cases times with
  | nil => simp [Transparent, returned]
  | cons tt rest =>
    obtain ⟨now, next⟩ := httpTime_zero tt
    rw [Transparent, returned, List.map_cons, List.cons.injEq, now, List.head?_cons,
      (Option.some_injective ℤ).ne_iff]
    exact and_congr_right fun nonzero => returned_eq_iff (next nonzero) rest

/-- The second after the one in the comment of `http_time`: 01:20:31 comes out as 01:20:13. -/
theorem not_transparent :
    ¬ ∀ times : List ℤ, times.Pairwise (· ≤ ·) → Transparent times := by
  intro all
  have equal : returned Clock.zero [854414430, 854414431] = [854414430, 854414431].map text :=
    all _ (by decide)
  exact absurd equal (by decide)

end Lmbench.Lmhttp
