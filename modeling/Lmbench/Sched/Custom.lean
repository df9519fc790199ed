import Mathlib.Algebra.Group.Nat.Defs
import Mathlib.Data.List.Basic

/-!
# The custom schedule

`custom` reads a list of CPUs from the environment string behind the word that asks for
it. It ends each number with a NUL in place, and steps over that byte even if it was the
NUL that ends the string. The numbers are kept for later calls.

The memory is the bytes from `str` on, as far as they are known: the string, its NUL and
what lies behind it.

## Main results

* `scan_skip`, `scan_number` - what the scanner does with a byte and with a number
* `runs_induction` - a text, one byte or one number at a time
* `scan_string` - the numbers of the string come first; if it ends in a digit, the scan goes on
  behind its NUL
* `parsesString_iff` - when only the string is read and written
-/

namespace Lmbench.Sched

/-- `isdigit` -/
def isdigit (b : UInt8) : Bool := 48 ≤ b && b ≤ 57

/-- The number that a digit string stands for. -/
def decimal (digits : List UInt8) : ℕ := digits.foldl (fun n b => 10 * n + (b.toNat - 48)) 0

/-- `sscanf(q, "%d", ...)`: what it does with a number that is no `int` is not defined. -/
def convert (wild : List UInt8 → ℤ) (digits : List UInt8) : ℤ :=
  if decimal digits < 2 ^ 31 then decimal digits else wild digits

/-- The numbers that were found, and the offsets at which a NUL was stored. -/
structure Parse where
  values : List ℤ
  writes : List ℕ
deriving DecidableEq, Repr

/-- The loop of `custom` at offset `pos`. None if it reads behind the memory that is known. -/
def scan (wild : List UInt8 → ℤ) : ℕ → ℕ → List UInt8 → Option Parse
  | fuel, pos, mem =>
    match fuel, mem with
    | _, [] => none
    | 0, b :: _ => if b = 0 then some ⟨[], []⟩ else none
    | fuel + 1, b :: l =>
      if b = 0 then some ⟨[], []⟩
      else
        let text := (b :: l).dropWhile fun b => b ≠ 0 && !isdigit b
        let q := pos + ((b :: l).length - text.length)
        let number := text.takeWhile isdigit
        match text.dropWhile isdigit with
        | [] => none
        | _ :: behind =>
          if number = [] then some ⟨[], []⟩
          else
            -- `*str++ = 0`, whatever was there
            (scan wild fuel (q + number.length + 1) behind).map fun p =>
              ⟨convert wild number :: p.values, (q + number.length) :: p.writes⟩

/-- `values[cpu % nvalues]`, or 0. -/
def pick (values : List ℤ) (cpu : ℕ) : ℤ := values.getD (cpu % values.length) 0

/-- `custom(str, cpu)`: the numbers that are kept, the stores, and the result. -/
def custom (wild : List UInt8 → ℤ) (kept : Option (List ℤ)) (mem : List UInt8) (cpu : ℕ) :
    Option (List ℤ × List ℕ × ℤ) :=
  match kept with
  | some values => some (values, [], pick values cpu)
  | none => (scan wild mem.length 0 mem).map fun p => (p.values, p.writes, pick p.values cpu)

/-- The digit strings of a text that cannot be made longer. -/
def runs (s : List UInt8) : List (List UInt8) :=
  (s.splitOnP fun b => !isdigit b).filter (· ≠ [])

/-- The numbers in a text. -/
def numbers (s : List UInt8) : List ℤ := (runs s).map fun digits => (decimal digits : ℤ)

/-- The last byte is a digit. -/
def endsInDigit (s : List UInt8) : Bool := s.getLast?.any isdigit

/-- Whatever lies behind the string, the first call finds the numbers in the string, stores
nothing behind its NUL, and returns the number for the CPU; a later call does too. -/
def ParsesString (s : List UInt8) : Prop :=
  ∃ writes : List ℕ, (∀ o ∈ writes, o ≤ s.length) ∧ ∀ after wild cpu,
    custom wild none (s ++ 0 :: after) cpu = some (numbers s, writes, pick (numbers s) cpu) ∧
      ∀ later mem, custom wild (some (numbers s)) mem later =
        some (numbers s, [], pick (numbers s) later)

/-! ## Texts -/

theorem ne_zero_of_isdigit {b : UInt8} (h : isdigit b = true) : b ≠ 0 := by
  rintro rfl
  exact absurd h (by decide)

/-- A text is empty, or it starts with a byte that is no digit, or with a number that ends
at such a byte, or it is a number. -/
theorem runs_induction {P : List UInt8 → Prop} (nil : P [])
    (skip : ∀ a s, isdigit a = false → P s → P (a :: s))
    (number : ∀ r d s, r ≠ [] → (∀ b ∈ r, isdigit b = true) → isdigit d = false → P s →
      P (r ++ d :: s))
    (last : ∀ r, r ≠ [] → (∀ b ∈ r, isdigit b = true) → P r) (s : List UInt8) : P s := by
  induction h : s.length using Nat.strongRecOn generalizing s with
  | ind n ih =>
    cases s with
    | nil => exact nil
    | cons a l =>
      cases ha : isdigit a with
      | false => exact skip a l ha (ih l.length (by simp [← h]) l rfl)
      | true =>
        have hne : (a :: l).takeWhile isdigit ≠ [] := by simp [ha]
        have hall : ∀ b ∈ (a :: l).takeWhile isdigit, isdigit b = true := fun b hb =>
          List.all_eq_true.mp List.all_takeWhile b hb
        have hsplit := List.takeWhile_append_dropWhile (p := isdigit) (l := a :: l)
        have hd := List.head?_dropWhile_not isdigit (a :: l)
        rcases hrest : (a :: l).dropWhile isdigit with _ | ⟨d, s⟩
        · rw [hrest, List.append_nil] at hsplit
          rw [hsplit] at hne hall
          exact last _ hne hall
        · rw [hrest] at hsplit hd
          rw [← hsplit] at h ⊢
          have hlen : s.length < n := by
            simp only [List.length_append, List.length_cons] at h
            omega
          exact number _ d s hne hall (by simpa using hd) (ih s.length hlen s rfl)

@[simp]
theorem runs_nil : runs [] = [] := rfl

theorem runs_skip {a : UInt8} (ha : isdigit a = false) (s : List UInt8) :
    runs (a :: s) = runs s := by
  simp [runs, List.splitOnP_cons_eq_if_modifyHead, ha]

theorem runs_number {r : List UInt8} (hr : r ≠ []) (hd : ∀ b ∈ r, isdigit b = true) {d : UInt8}
    (h : isdigit d = false) (s : List UInt8) : runs (r ++ d :: s) = r :: runs s := by
  have hr' : ∀ b ∈ r, (!isdigit b) = false := fun b hb => by simp [hd b hb]
  have hd' : (!isdigit d) = true := by simp [h]
  simp [runs, List.splitOnP_append_cons_of_forall_mem hr' d hd', hr]

theorem runs_last {r : List UInt8} (hr : r ≠ []) (hd : ∀ b ∈ r, isdigit b = true) :
    runs r = [r] := by
  have hr' : ∀ b ∈ r, (!isdigit b) = false := fun b hb => by simp [hd b hb]
  simp [runs, List.splitOnP_eq_singleton hr', hr]

theorem length_runs_le (s : List UInt8) : (runs s).length ≤ s.length := by
  induction s using runs_induction with
  | nil => simp
  | skip a s ha ih =>
    rw [runs_skip ha, List.length_cons]
    omega
  | number r d s hr hd h ih =>
    rw [runs_number hr hd h]
    simp only [List.length_cons, List.length_append]
    omega
  | last r hr hd =>
    rw [runs_last hr hd]
    exact List.length_pos_iff.mpr hr

theorem endsInDigit_skip {a : UInt8} (ha : isdigit a = false) (s : List UInt8) :
    endsInDigit (a :: s) = endsInDigit s := by
  cases s <;> simp [endsInDigit, List.getLast?_cons, ha]

theorem endsInDigit_number (r : List UInt8) {d : UInt8} (h : isdigit d = false)
    (s : List UInt8) : endsInDigit (r ++ d :: s) = endsInDigit s := by
  rw [← endsInDigit_skip h s]
  simp [endsInDigit, List.getLast?_append, List.getLast?_cons]

theorem endsInDigit_last {r : List UInt8} (hr : r ≠ []) (hd : ∀ b ∈ r, isdigit b = true) :
    endsInDigit r = true := by
  rw [endsInDigit, List.getLast?_eq_some_getLast hr]
  exact hd _ (List.getLast_mem hr)

/-! ## The scanner -/

/-- A byte that is no digit is stepped over. -/
theorem scan_skip (wild : List UInt8 → ℤ) (fuel pos : ℕ) {a : UInt8} (h0 : a ≠ 0)
    (ha : isdigit a = false) (l : List UInt8) :
    scan wild (fuel + 1) pos (a :: l) = scan wild (fuel + 1) (pos + 1) l := by
  rcases l with _ | ⟨b, l⟩
  · simp [scan, h0, ha]
  by_cases hb : b = 0
  · subst hb
    simp [scan, h0, ha, show isdigit 0 = false from rfl]
  -- the first of the two loops is in the same place on both sides
  have htext : (a :: b :: l).dropWhile (fun b => b ≠ 0 && !isdigit b) =
      (b :: l).dropWhile (fun b => b ≠ 0 && !isdigit b) := by
    simp [h0, ha]
  have hle := (List.dropWhile_suffix (fun b => b ≠ 0 && !isdigit b) (l := b :: l)).length_le
  have hq : pos + ((a :: b :: l).length -
        ((b :: l).dropWhile fun b => b ≠ 0 && !isdigit b).length) =
      pos + 1 + ((b :: l).length -
        ((b :: l).dropWhile fun b => b ≠ 0 && !isdigit b).length) := by
    rw [List.length_cons (a := a)]
    omega
  simp only [scan, h0, hb, if_false, htext, hq]

/-- A number is kept, and the byte behind it is overwritten and stepped over. -/
theorem scan_number (wild : List UInt8 → ℤ) (fuel pos : ℕ) {r : List UInt8} (hr : r ≠ [])
    (hd : ∀ b ∈ r, isdigit b = true) {d : UInt8} (h : isdigit d = false) (l : List UInt8) :
    scan wild (fuel + 1) pos (r ++ d :: l) =
      (scan wild fuel (pos + r.length + 1) l).map fun p =>
        ⟨convert wild r :: p.values, (pos + r.length) :: p.writes⟩ := by
  obtain ⟨a, r, rfl⟩ := List.exists_cons_of_ne_nil hr
  have ha : isdigit a = true := hd a List.mem_cons_self
  have htext : (a :: r ++ d :: l).dropWhile (fun b => b ≠ 0 && !isdigit b) = a :: r ++ d :: l := by
    simp [ha]
  have htake : (a :: r ++ d :: l).takeWhile isdigit = a :: r := by
    rw [List.takeWhile_append_of_pos hd, List.takeWhile_cons_of_neg (by simp [h]),
      List.append_nil]
  have hdrop : (a :: r ++ d :: l).dropWhile isdigit = d :: l := by
    rw [List.dropWhile_append_of_pos hd, List.dropWhile_cons_of_neg (by simp [h])]
  rw [List.cons_append] at htext htake hdrop ⊢
  simp only [scan, ne_zero_of_isdigit ha, if_false, htext, htake, hdrop, Nat.sub_self,
    Nat.add_zero, List.cons_ne_nil]

theorem scan_nul (wild : List UInt8 → ℤ) (fuel pos : ℕ) (after : List UInt8) :
    scan wild fuel pos (0 :: after) = some ⟨[], []⟩ := by
  cases fuel <;> rfl

/-- The numbers of a string are found first, and the bytes that they end at are overwritten.
If the last of them is the NUL, then the scan goes on behind it. -/
theorem scan_string (s : List UInt8) (h0 : ∀ b ∈ s, b ≠ 0) (pos : ℕ) :
    ∃ writes : List ℕ, (∀ o ∈ writes, o ≤ pos + s.length) ∧ ∀ wild fuel after,
      s.length ≤ fuel → scan wild fuel pos (s ++ 0 :: after) =
        (if endsInDigit s then
            scan wild (fuel - (runs s).length) (pos + s.length + 1) after
          else some ⟨[], []⟩).map fun p =>
            ⟨(runs s).map (convert wild) ++ p.values, writes ++ p.writes⟩ := by
  induction s using runs_induction generalizing pos with
  | nil =>
    refine ⟨[], by simp, fun wild fuel after _ => ?_⟩
    simp [scan_nul, endsInDigit]
  | skip a s ha ih =>
    obtain ⟨writes, hle, hscan⟩ := ih (fun b hb => h0 b (List.mem_cons_of_mem _ hb)) (pos + 1)
    refine ⟨writes, fun o ho => ?_, fun wild fuel after hf => ?_⟩
    · have := hle o ho
      rw [List.length_cons]
      omega
    · obtain ⟨fuel, rfl⟩ : ∃ n, fuel = n + 1 := ⟨fuel - 1, by simp at hf; omega⟩
      rw [List.cons_append, scan_skip wild fuel pos (h0 a List.mem_cons_self) ha,
        hscan wild (fuel + 1) after (by simp at hf; omega), endsInDigit_skip ha, runs_skip ha,
        List.length_cons, show pos + 1 + s.length = pos + (s.length + 1) by omega]
  | number r d s hr hd h ih =>
    obtain ⟨writes, hle, hscan⟩ :=
      ih (fun b hb => h0 b (by simp [hb])) (pos + r.length + 1)
    refine ⟨(pos + r.length) :: writes, fun o ho => ?_, fun wild fuel after hf => ?_⟩
    · rw [List.length_append, List.length_cons]
      rcases List.mem_cons.mp ho with rfl | ho
      · omega
      · have := hle o ho
        omega
    · rw [List.length_append, List.length_cons] at hf
      obtain ⟨fuel, rfl⟩ : ∃ n, fuel = n + 1 := ⟨fuel - 1, by omega⟩
      rw [List.append_assoc, List.cons_append, scan_number wild fuel pos hr hd h,
        hscan wild fuel after (by omega), endsInDigit_number r h, runs_number hr hd h,
        List.length_append, List.length_cons, List.length_cons, Nat.add_sub_add_right,
        show pos + r.length + 1 + s.length = pos + (r.length + (s.length + 1)) by omega,
        Option.map_map]
      rfl
  | last r hr hd =>
    refine ⟨[pos + r.length], by simp, fun wild fuel after hf => ?_⟩
    have := List.length_pos_iff.mpr hr
    obtain ⟨fuel, rfl⟩ : ∃ n, fuel = n + 1 := ⟨fuel - 1, by omega⟩
    rw [scan_number wild fuel pos hr hd rfl, endsInDigit_last hr hd, runs_last hr hd]
    rfl

theorem map_convert {s : List UInt8} (h : ∀ r ∈ runs s, decimal r < 2 ^ 31)
    (wild : List UInt8 → ℤ) : (runs s).map (convert wild) = numbers s :=
  List.map_congr_left fun r hr => if_pos (h r hr)

theorem ParsesString.endsInDigit {s : List UInt8} (h0 : ∀ b ∈ s, b ≠ 0) (h : ParsesString s) :
    endsInDigit s = false := by
  by_contra hend
  rw [Bool.not_eq_false] at hend
  obtain ⟨_, -, hcustom⟩ := h
  obtain ⟨writes, -, hscan⟩ := scan_string s h0 0
  -- a digit behind the NUL is one number more
  have hrest := hscan (fun _ => 0) (s ++ [0, 53, 32, 0]).length [53, 32, 0] (by simp)
  have hfuel : (s ++ [0, 53, 32, 0]).length - (runs s).length =
      s.length - (runs s).length + 3 + 1 := by
    have := length_runs_le s
    simp only [List.length_append, List.length_cons, List.length_nil]
    omega
  have hfive : scan (fun _ => 0) ((s ++ [0, 53, 32, 0]).length - (runs s).length)
      (0 + s.length + 1) [53, 32, 0] = some ⟨[5], [0 + s.length + 1 + 1]⟩ := by
    rw [hfuel]
    rfl
  rw [if_pos hend, hfive] at hrest
  have hkept := (hcustom [53, 32, 0] (fun _ => 0) 0).1
  rw [custom, hrest] at hkept
  have hvalues : (runs s).map (convert fun _ => 0) ++ [5] = numbers s :=
    (Prod.ext_iff.mp (Option.some.inj hkept)).1
  simpa [numbers] using congrArg List.length hvalues

/-- Only the string is read and written if and only if it does not end in a digit and each of
its numbers is an `int`. -/
theorem parsesString_iff (s : List UInt8) (h0 : ∀ b ∈ s, b ≠ 0) :
    ParsesString s ↔ endsInDigit s = false ∧ ∀ r ∈ runs s, decimal r < 2 ^ 31 := by
  constructor
  · intro h
    have hend := h.endsInDigit h0
    refine ⟨hend, fun r hr => ?_⟩
    obtain ⟨_, -, hcustom⟩ := h
    obtain ⟨writes, -, hscan⟩ := scan_string s h0 0
    have hkept := (hcustom [] (fun _ => -1) 0).1
    rw [custom, hscan _ _ _ (by simp), hend] at hkept
    have hvalues : (runs s).map (convert fun _ => -1) = numbers s := by
      simpa using congrArg Prod.fst (Option.some.inj hkept)
    have hr' : convert (fun _ => -1) r = (decimal r : ℤ) := List.map_inj_left.mp hvalues r hr
    by_contra hbig
    rw [convert, if_neg hbig] at hr'
    omega
  · rintro ⟨hend, hfit⟩
    obtain ⟨writes, hle, hscan⟩ := scan_string s h0 0
    refine ⟨writes, fun o ho => by simpa using hle o ho, fun after wild cpu => ⟨?_, ?_⟩⟩
    · rw [custom, hscan _ _ _ (by simp), hend]
      simp [map_convert hfit]
    · exact fun later mem => rfl

/-- The numbers of ` 3,1 ` are read, with a blank behind them. -/
theorem parsesString_blank : ParsesString [32, 51, 44, 49, 32] :=
  (parsesString_iff [32, 51, 44, 49, 32] (by simp)).mpr ⟨rfl, by decide⟩

/-- `CUSTOM 1`: the next string of the environment is read too, here a `5`. -/
theorem not_parsesString_one : ¬ ParsesString [32, 49] := by
  rintro ⟨writes, -, h⟩
  have hkept := (h [53, 32, 0] (fun _ => 0) 1).1
  rw [show custom (fun _ => 0) none ([32, 49] ++ 0 :: [53, 32, 0]) 1 = some ([1, 5], [2, 4], 5)
    from rfl] at hkept
  have hpick : (5 : ℤ) = 1 := (Prod.ext_iff.mp (Prod.ext_iff.mp (Option.some.inj hkept)).2).2
  exact absurd hpick (by decide)

end Lmbench.Sched
