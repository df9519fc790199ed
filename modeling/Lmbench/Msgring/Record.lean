import Lmbench.Msgring.Rendezvous

/-!
# The record of the rendezvous file

`writefile` writes two decimal numbers and no NUL. `readfile` reads them into an array of 64
bytes whose other bytes it does not set, and parses the array as a string. The first number
ends in front of the blank; the second one ends where the array happens to go on with
something else than a digit.

## Main results

* `parse_text_of_ended`, `parse_text_of_endless` - what is parsed, for any bytes behind the text
* `roundTrips_iff` - for which bytes the numbers come back
-/

namespace Lmbench.Msgring.Rendezvous

/-- A file that `writefile` has written completely. -/
def writefile (pid chid : ℕ) : List Char := text pid chid

/-- What `readfile` stores of a file, when `txt` held `stale` before. -/
def readfile (file stale : List Char) : Result := parse (fill (file.take txtSize) stale)

/-- The numbers come back. -/
def RoundTrips (pid chid : ℕ) (stale : List Char) : Prop :=
  readfile (writefile pid chid) stale = .stored pid chid

/-- The bytes behind the text leave the second number as it is: none of them continues it,
except zeros behind a zero, and there is an end of the token. -/
def Harmless (chid : ℕ) (tail : List Char) : Prop :=
  (∀ c ∈ tail.takeWhile Char.isDigit, c = '0' ∧ chid = 0) ∧ ∃ c ∈ tail, inToken c = false

variable {pid chid n : ℕ} {digits tail : List Char}

/-- Digits behind a number make it larger, unless it is zero and they are zeros. -/
theorem ofDigitChars_eq_self_iff (all : ∀ c ∈ digits, c.isDigit) :
    Nat.ofDigitChars 10 digits n = n ↔ ∀ c ∈ digits, c = '0' ∧ n = 0 := by
  have grows : ∀ (l : List Char) (m : ℕ), m ≤ Nat.ofDigitChars 10 l m := by
    intro l m
    rw [Nat.ofDigitChars_eq_ofDigitChars_zero]
    have := Nat.le_mul_of_pos_left m (Nat.pow_pos (n := l.length) (by decide : 0 < 10))
    omega
  induction digits with
  | nil => simp
  | cons c cs ih =>
    have digit : 48 ≤ c.toNat ∧ c.toNat ≤ 57 := by
      simpa [Char.isDigit, UInt32.le_iff_toNat_le] using all c (by simp)
    have zero : '0'.toNat = 48 := rfl
    have rest := ih fun d member => all d (List.mem_cons_of_mem c member)
    rw [Nat.ofDigitChars_cons, List.forall_mem_cons]
    constructor
    · intro same
      have least := grows cs (10 * n + (c.toNat - '0'.toNat))
      have nothing : n = 0 ∧ c.toNat = '0'.toNat := by omega
      have next : 10 * n + (c.toNat - '0'.toNat) = n := by omega
      rw [next] at same
      exact ⟨⟨Char.toNat_inj.mp nothing.2, nothing.1⟩, rest.mp same⟩
    · rintro ⟨⟨rfl, rfl⟩, zeros⟩
      exact rest.mpr zeros

/-- The digits behind a text are those of the token that the second number begins. -/
theorem takeWhile_inToken (tail : List Char) :
    ∃ junk, tail.takeWhile inToken = tail.takeWhile Char.isDigit ++ junk ∧
      ∀ c ∈ junk.head?, c.isDigit = false := by
  induction tail with
  | nil => exact ⟨[], rfl, by simp⟩
  | cons c cs ih =>
    obtain ⟨junk, split, starts⟩ := ih
    cases digit : c.isDigit with
    | true =>
      refine ⟨junk, ?_, starts⟩
      rw [List.takeWhile_cons_of_pos (inToken_of_isDigit digit), List.takeWhile_cons_of_pos digit,
        split, List.cons_append]
    | false =>
      refine ⟨(c :: cs).takeWhile inToken, ?_, fun d first => ?_⟩
      · rw [List.takeWhile_cons_of_neg (p := Char.isDigit) (by simp [digit]), List.nil_append]
      · rw [List.takeWhile_cons] at first
        split at first
        · simp only [List.head?_cons, Option.mem_some_iff] at first
          rwa [← first]
        · simp at first

section Parse

theorem inToken_toDigits : ∀ c ∈ Nat.toDigits 10 n, inToken c = true := fun c member =>
  inToken_of_isDigit (isDigit_toDigits n c member)

/-- The first number ends in front of the blank. -/
theorem strtok_text : strtok (text pid chid ++ tail) =
    .found (Nat.toDigits 10 pid) (Nat.toDigits 10 chid ++ tail) := by
  rw [text, List.append_assoc, List.cons_append]
  exact strtok_append Nat.toDigits_ne_nil inToken_toDigits (by decide)

/-- With no end of the token in the array, `strtok` runs off it. -/
theorem parse_text_of_endless (endless : ∀ c ∈ tail, inToken c = true) :
    parse (text pid chid ++ tail) = .undefined := by
  have all : ∀ c ∈ Nat.toDigits 10 chid ++ tail, inToken c = true := by
    intro c member
    rcases List.mem_append.mp member with own | more
    · exact inToken_toDigits c own
    · exact endless c more
  have overrun : strtok (Nat.toDigits 10 chid ++ tail) = .overrun := by
    obtain ⟨c, cs, split⟩ := List.exists_cons_of_ne_nil
      (List.append_ne_nil_of_left_ne_nil (Nat.toDigits_ne_nil (b := 10) (n := chid)) tail)
    rw [split] at all ⊢
    have first := all c (by simp)
    simp only [inToken, ne_eq, decide_not, Bool.and_eq_true, Bool.not_eq_true',
      decide_eq_false_iff_not] at first
    rw [strtok, List.dropWhile_cons_of_neg (by simp [first.2])]
    simp only [if_neg first.1, List.dropWhile_eq_nil_iff.mpr all]
  simp only [parse, strtok_text, overrun]

/-- Otherwise the second number goes on with the digits that stand behind it. -/
theorem parse_text_of_ended (fitsPid : pid < 2 ^ 31) (ended : ∃ c ∈ tail, inToken c = false) :
    parse (text pid chid ++ tail) =
      if Nat.ofDigitChars 10 (tail.takeWhile Char.isDigit) chid < 2 ^ 31 then
        .stored pid (Nat.ofDigitChars 10 (tail.takeWhile Char.isDigit) chid)
      else .undefined := by
  obtain ⟨junk, token, starts⟩ := takeWhile_inToken tail
  have behind : tail.dropWhile inToken ≠ [] := by
    obtain ⟨c, member, ends⟩ := ended
    intro none_left
    have all := List.dropWhile_eq_nil_iff.mp none_left c member
    simp [all] at ends
  obtain ⟨e, rest, split⟩ := List.exists_cons_of_ne_nil behind
  have ends : inToken e = false := by
    have first := List.head?_dropWhile_not inToken tail
    rw [split] at first
    simpa using first
  have second : strtok (Nat.toDigits 10 chid ++ tail) =
      .found (Nat.toDigits 10 chid ++ tail.takeWhile Char.isDigit ++ junk)
        (if e = nul then [nul] else rest) := by
    have whole : Nat.toDigits 10 chid ++ tail =
        (Nat.toDigits 10 chid ++ tail.takeWhile inToken) ++ e :: rest := by
      rw [List.append_assoc, ← split, List.takeWhile_append_dropWhile]
    rw [whole, strtok_append (by simp [Nat.toDigits_ne_nil]) _ ends, token, List.append_assoc]
    intro c member
    rcases List.mem_append.mp member with own | more
    · exact inToken_toDigits c own
    · exact List.mem_takeWhile_imp more
  have ppid := @atoi_append _ [] Nat.toDigits_ne_nil (isDigit_toDigits pid) (by simp)
  rw [List.append_nil, Nat.ofDigitChars_ten_toDigits, if_pos fitsPid] at ppid
  have chid' := @atoi_append (Nat.toDigits 10 chid ++ tail.takeWhile Char.isDigit) junk
    (by simp [Nat.toDigits_ne_nil]) (fun c member => ?_) starts
  · rw [Nat.ofDigitChars_append, Nat.ofDigitChars_ten_toDigits] at chid'
    by_cases fits : Nat.ofDigitChars 10 (tail.takeWhile Char.isDigit) chid < 2 ^ 31
    · rw [if_pos fits] at chid' ⊢
      simp only [parse, strtok_text, second, ppid, chid']
    · rw [if_neg fits] at chid' ⊢
      simp only [parse, strtok_text, second, ppid, chid']
  · rcases List.mem_append.mp member with own | more
    · exact isDigit_toDigits chid c own
    · exact List.mem_takeWhile_imp more

end Parse

theorem length_text_le (fitsPid : pid < 2 ^ 31) (fitsChid : chid < 2 ^ 31) :
    (text pid chid).length ≤ txtSize := by
  have short : ∀ n < 2 ^ 31, (Nat.toDigits 10 n).length ≤ 10 := fun n fits =>
    (Nat.length_toDigits_le_iff (by decide) (by decide)).mpr (by omega)
  have first := short pid fitsPid
  have second := short chid fitsChid
  rw [text, List.length_append, List.length_cons, txtSize]
  omega

/-- The numbers come back exactly if the bytes behind the text are harmless. -/
theorem roundTrips_iff {stale : List Char} (fitsPid : pid < 2 ^ 31) (fitsChid : chid < 2 ^ 31) :
    RoundTrips pid chid stale ↔ Harmless chid (stale.drop (text pid chid).length) := by
  have all : (writefile pid chid).take txtSize = text pid chid :=
    List.take_of_length_le (length_text_le fitsPid fitsChid)
  rw [RoundTrips, readfile, all, fill]
  generalize stale.drop (text pid chid).length = tail
  by_cases ended : ∃ c ∈ tail, inToken c = false
  · rw [parse_text_of_ended fitsPid ended, Harmless, and_iff_left ended,
      ← ofDigitChars_eq_self_iff fun c member => List.mem_takeWhile_imp member]
    constructor
    · intro same
      split at same
      · exact Int.natCast_inj.mp (Result.stored.inj same).2
      · simp at same
    · intro same
      rw [same, if_pos fitsChid]
  · have endless : ∀ c ∈ tail, inToken c = true := by
      simpa using ended
    rw [parse_text_of_endless endless]
    exact iff_of_false (by simp) fun harmless => ended harmless.2

/-- Pid 12 and channel 3, with NULs in the array. -/
theorem roundTrips_twelve : RoundTrips 12 3 (List.replicate txtSize nul) := by
  refine (roundTrips_iff (by decide) (by decide)).mpr ⟨fun c member => ?_, nul, ?_, by decide⟩
  · have digit := List.mem_takeWhile_imp member
    obtain rfl := List.eq_of_mem_replicate
      (List.mem_of_mem_drop ((List.takeWhile_sublist _).subset member))
    exact absurd digit (by decide)
  · rw [show (text 12 3).length = 4 by decide, List.drop_replicate]
    exact List.mem_replicate.mpr ⟨by decide, rfl⟩

/-- With digits left in the array, channel 3 is read as 3777. -/
theorem not_roundTrips_digits : ¬ RoundTrips 12 3 ("0000777".toList ++ List.replicate 57 nul) := by
  intro stored
  have other : readfile (writefile 12 3) ("0000777".toList ++ List.replicate 57 nul) =
      .stored 12 3777 := by decide
  rw [RoundTrips, other] at stored
  simp at stored

end Lmbench.Msgring.Rendezvous
