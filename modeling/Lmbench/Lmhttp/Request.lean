import Mathlib.Data.List.Basic
import Mathlib.Data.List.Infix
import Mathlib.Data.List.TakeWhile

/-!
# The requests of `lat_http` and what `lmhttp` makes of them

`http` asks for a file in one line. `source` reads once, cuts the line and then the name out of
the bytes it got, and opens the file of that name. Behind the bytes read the buffer has what it
had before.

## Main results

* `asked_get` - what is opened for a request
* `opened_iff` - when it is the file that the client wants
* `type_eq` - the content type, by the end of the name
-/

namespace Lmbench.Lmhttp

/-- `"GET /%s HTTP/1.0\r\n\r\n\n"` -/
def request (file : List Char) : List Char :=
  "GET /".toList ++ file ++ " HTTP/1.0\r\n\r\n\n".toList

def NUL : Char := Char.ofNat 0

theorem get_toList : "GET /".toList = ['G', 'E', 'T', ' ', '/'] := rfl

/-- What a request is taken for. -/
inductive Asked
  /-- nothing was read, or all files are empty -/
  | nothing
  | exit
  | other
  | file (name : List Char)
deriving DecidableEq, Repr

/-- The text at an address. -/
def cstr (mem : List Char) (i : ℕ) : List Char := (mem.drop i).takeWhile (· ≠ NUL)

/-- The condition of a loop of `source`. -/
def goesOn (stop : Char → Bool) (c : Char) : Bool := c ≠ NUL && !stop c

/-- A loop of `source`: ends the text at `i` at the first character to stop at. -/
def cut (stop : Char → Bool) (i : ℕ) (mem : List Char) : List Char :=
  mem.set (i + ((mem.drop i).takeWhile (goesOn stop)).length) NUL

/-- `buf` after `buf[n] = 0`; it has `after` behind what was read. -/
def received (bytes after : List Char) : List Char := (bytes ++ after).set bytes.length NUL

/-- `source`, up to `open` -/
def asked (zflg : Bool) (bytes after : List Char) : Asked :=
  if bytes = [] then .nothing
  else
    let buf := received bytes after
    if zflg then .nothing
    else if buf.take 4 = "EXIT".toList then .exit
    else if buf.take 5 ≠ "GET /".toList then .other
    else
      let buf := cut (fun c => c = '\r' || c = '\n') 0 buf
      .file (cstr (cut (· = ' ') 5 buf) 5)

/-- `type`, of the name at `buf[5]` -/
def type (directory : Bool) (buf : List Char) : List Char :=
  let len := (cstr buf 5).length
  -- a name may be shorter than the ending; the bytes in front of it are `GET /`
  if cstr buf (5 + len - 4) = ".gif".toList then "image/gif".toList
  else if cstr buf (5 + len - 5) = ".jpeg".toList then "image/jpeg".toList
  else if cstr buf (5 + len - 5) = ".html".toList then "text/html".toList
  else if directory then "text/html".toList
  else "text/plain".toList

/-- The characters of a name that reach the server. -/
def plain (c : Char) : Bool := c ≠ NUL && c ≠ '\r' && c ≠ '\n' && c ≠ ' '

theorem plain_iff {c : Char} : plain c = true ↔ c ≠ NUL ∧ c ≠ '\r' ∧ c ≠ '\n' ∧ c ≠ ' ' := by
  simp [plain, and_assoc]

variable {stop : Char → Bool} {front text rest bytes after file : List Char} {i n : ℕ}
  {zflg directory : Bool}

section Parsing

/-- A text that ends has a place where the loop stops. -/
theorem exists_stop (stop : Char → Bool) (text rest : List Char) :
    ∃ c later, text ++ NUL :: rest = text.takeWhile (goesOn stop) ++ c :: later ∧
      ¬goesOn stop c = true := by
  induction text with
  | nil => exact ⟨NUL, rest, rfl, by simp [goesOn]⟩
  | cons first text ih =>
    by_cases pass : goesOn stop first = true
    · obtain ⟨c, later, same, stops⟩ := ih
      refine ⟨c, later, ?_, stops⟩
      rw [List.takeWhile_cons_of_pos pass, List.cons_append, same, List.cons_append]
    · refine ⟨first, text ++ NUL :: rest, ?_, pass⟩
      rw [List.takeWhile_cons_of_neg pass]
      rfl

/-- A loop of `source` cuts the text in front of what it stops at. -/
theorem exists_cut (at_i : front.length = i) (stop : Char → Bool) (text rest : List Char) :
    ∃ later, cut stop i (front ++ (text ++ NUL :: rest)) =
      front ++ (text.takeWhile (goesOn stop) ++ NUL :: later) := by
  obtain ⟨c, later, same, stops⟩ := exists_stop stop text rest
  refine ⟨later, ?_⟩
  have here : (text ++ NUL :: rest).takeWhile (goesOn stop) = text.takeWhile (goesOn stop) := by
    rw [same, List.takeWhile_append_of_pos (fun c member => List.mem_takeWhile_imp member),
      List.takeWhile_cons_of_neg stops, List.append_nil]
  rw [cut, List.drop_left' at_i, here, same, ← at_i, ← List.append_assoc,
    ← List.length_append, List.set_append_right _ _ le_rfl, Nat.sub_self, List.set_cons_zero,
    List.append_assoc]

theorem cstr_append (at_i : front.length = i) (whole : ∀ c ∈ text, c ≠ NUL) :
    cstr (front ++ (text ++ NUL :: rest)) i = text := by
  rw [cstr, List.drop_left' at_i, List.takeWhile_append_of_pos]
  · simp
  · intro c member
    exact decide_eq_true (whole c member)

theorem received_eq (room : after ≠ []) :
    received bytes after = bytes ++ NUL :: after.tail := by
  obtain ⟨old, after, rfl⟩ := List.exists_cons_of_ne_nil room
  rw [received, List.set_append_right _ _ le_rfl, Nat.sub_self]
  rfl

/-- **What is opened** is what stands between the slash and the first space or the end of the
line, whatever the buffer had before. -/
theorem asked_get (room : after ≠ []) (rest : List Char) :
    asked false ("GET /".toList ++ rest) after = .file (rest.takeWhile plain) := by
  let endOfLine (c : Char) : Bool := c = '\r' || c = '\n'
  let line := rest.takeWhile (goesOn endOfLine)
  let name := line.takeWhile (goesOn (· = ' '))
  have buf : received ("GET /".toList ++ rest) after =
      [] ++ (("GET /".toList ++ rest) ++ NUL :: after.tail) := received_eq room
  have start : ([] : List Char).length = 0 := rfl
  have slash : "GET /".toList.length = 5 := rfl
  obtain ⟨later, cutLine⟩ := exists_cut start endOfLine ("GET /".toList ++ rest) after.tail
  have whole : ("GET /".toList ++ rest).takeWhile (goesOn endOfLine) = "GET /".toList ++ line := by
    apply List.takeWhile_append_of_pos
    rw [get_toList]
    simp [goesOn, endOfLine, NUL]
  obtain ⟨behind, cutName⟩ := exists_cut slash (· = ' ') line later
  have none_ends : ∀ c ∈ name, c ≠ NUL := by
    intro c member
    have goes := List.mem_takeWhile_imp member
    rw [goesOn, Bool.and_eq_true] at goes
    exact of_decide_eq_true goes.1
  have same : name = rest.takeWhile plain := by
    change (List.takeWhile _ (List.takeWhile _ rest)) = _
    rw [List.takeWhile_takeWhile]
    congr 1
    funext c
    rw [Bool.eq_iff_iff, plain_iff]
    simp [goesOn, endOfLine]
    tauto
  rw [whole] at cutLine
  rw [asked, if_neg (by simp), buf]
  dsimp only
  rw [if_neg Bool.false_ne_true, if_neg (by simp), if_neg (by simp), cutLine, List.nil_append,
    List.append_assoc, cutName, cstr_append slash none_ends, same]

/-- Less than the slash is not a request for a file. -/
theorem asked_short (room : after ≠ []) (short : bytes.length < 5) (name : List Char) :
    asked zflg bytes after ≠ .file name := by
  have early : (received bytes after).take 5 ≠ "GET /".toList := by
    intro same
    have inside : NUL ∈ (received bytes after).take 5 := by
      rw [received_eq room, List.take_append, List.mem_append]
      obtain ⟨k, more⟩ := Nat.exists_eq_add_of_lt short
      rw [more, Nat.add_assoc, Nat.add_sub_cancel_left]
      exact .inr List.mem_cons_self
    rw [same] at inside
    exact absurd inside (by decide)
  rw [asked]
  dsimp only
  split_ifs <;> simp

/-- A loop gets no further than the character it stops at. -/
theorem takeWhile_prefix_of_stop {p : Char → Bool} {c : Char} (stops : p c = false)
    (text rest : List Char) : (text ++ c :: rest).takeWhile p <+: text := by
  induction text with
  | nil =>
    rw [List.nil_append, List.takeWhile_cons, stops]
    exact List.nil_prefix
  | cons first text ih =>
    rw [List.cons_append, List.takeWhile_cons]
    split
    · exact (List.prefix_cons_inj first).mpr ih
    · exact List.nil_prefix

/-- The part of a text that is read. -/
theorem takeWhile_prefix_of_take (p : Char → Bool) (text : List Char) (n : ℕ) :
    (text.take n).takeWhile p <+: text.takeWhile p := by
  induction text generalizing n with
  | nil => simp
  | cons first text ih =>
    cases n with
    | zero => exact List.nil_prefix
    | succ n =>
      rw [List.take_succ_cons, List.takeWhile_cons, List.takeWhile_cons]
      split
      · exact (List.prefix_cons_inj first).mpr (ih n)
      · exact List.nil_prefix

/-- What `source` makes of the first bytes of a request. -/
theorem asked_request (room : after ≠ []) (enough : 5 ≤ n) (file : List Char) :
    asked false ((request file).take n) after =
      .file (((file ++ " HTTP/1.0\r\n\r\n\n".toList).take (n - 5)).takeWhile plain) := by
  have get : (request file).take n =
      "GET /".toList ++ (file ++ " HTTP/1.0\r\n\r\n\n".toList).take (n - 5) := by
    rw [request, List.append_assoc, List.take_append, List.take_of_length_le]
    · rfl
    · exact enough
  rw [get, asked_get room]

/-- Whatever is opened has a name that the wanted one starts with. -/
theorem prefix_of_opened (room : after ≠ []) {name : List Char}
    (opened : asked false ((request file).take n) after = .file name) : name <+: file := by
  by_cases enough : 5 ≤ n
  · rw [asked_request room enough] at opened
    cases opened
    exact (takeWhile_prefix_of_take _ _ _).trans (takeWhile_prefix_of_stop (by decide) file _)
  · have short : ((request file).take n).length < 5 :=
      (List.length_take_le _ _).trans_lt (not_le.mp enough)
    exact absurd opened (asked_short room short name)

theorem asked_file_iff (room : after ≠ []) :
    asked false ((request file).take n) after = .file file ↔
      (∀ c ∈ file, plain c = true) ∧ 5 + file.length ≤ n := by
  by_cases enough : 5 ≤ n
  · rw [asked_request room enough, Asked.file.injEq]
    constructor
    · intro same
      constructor
      · intro c member
        rw [← same] at member
        exact List.mem_takeWhile_imp member
      · have length := (List.takeWhile_sublist plain).length_le.trans (List.length_take_le (n - 5)
          (file ++ " HTTP/1.0\r\n\r\n\n".toList))
        rw [same] at length
        omega
    · rintro ⟨all, covered⟩
      rw [List.take_append, List.take_of_length_le (by omega),
        List.takeWhile_append_of_pos all]
      -- the name is followed by a space
      have ends (k : ℕ) : ((" HTTP/1.0\r\n\r\n\n".toList).take k).takeWhile plain = [] := by
        cases k <;> rfl
      rw [ends, List.append_nil]
  · have short : ((request file).take n).length < 5 :=
      (List.length_take_le _ _).trans_lt (not_le.mp enough)
    constructor
    · intro opened
      exact absurd opened (asked_short room short file)
    · rintro ⟨-, covered⟩
      omega

/-- **When the file is opened that the client wants**: if its name has no character that ends it,
and the read got all of it. A name that is opened is the begin of the one that is wanted. -/
theorem opened_iff (room : after ≠ []) (file : List Char) (n : ℕ) :
    (asked false ((request file).take n) after = .file file ↔
      (∀ c ∈ file, plain c = true) ∧ 5 + file.length ≤ n) ∧
      ∀ name, asked false ((request file).take n) after = .file name → name <+: file :=
  ⟨asked_file_iff room, fun _ opened => prefix_of_opened room opened⟩

/-- A read that stops within the name. -/
theorem opened_iff_cut : asked false ((request "index.html".toList).take 10) [' '] ≠
    .file "index.html".toList := by
  intro opened
  obtain ⟨-, covered⟩ := (opened_iff (by simp) "index.html".toList 10).1.mp opened
  exact absurd covered (by decide)

end Parsing

section ContentType

variable {name : List Char}

/-- An ending is looked for in what stands in front of the name too, where no dot is. -/
theorem cstr_ending_iff (whole : ∀ c ∈ name, c ≠ NUL) (ending : List Char)
    (dot : ending.head? = some '.') (few : ending.length ≤ 5) (rest : List Char) :
    cstr ("GET /".toList ++ (name ++ NUL :: rest)) (5 + name.length - ending.length) = ending ↔
      ending <:+ name := by
  have slash : "GET /".toList.length = 5 := rfl
  have all : ("GET /".toList ++ name).length = 5 + name.length := by
    rw [List.length_append, slash]
  have found : cstr ("GET /".toList ++ (name ++ NUL :: rest)) (5 + name.length - ending.length) =
      ("GET /".toList ++ name).drop (5 + name.length - ending.length) := by
    rw [cstr, ← List.append_assoc, List.drop_append_of_le_length (by omega),
      List.takeWhile_append_of_pos]
    · simp
    · intro c member
      rcases List.mem_append.mp (List.mem_of_mem_drop member) with front | inside
      · have none_ends : ∀ c ∈ "GET /".toList, c ≠ NUL := by
          rw [get_toList]
          simp [NUL]
        exact decide_eq_true (none_ends c front)
      · exact decide_eq_true (whole c inside)
  rw [found]
  constructor
  · intro same
    have suffix : ending <:+ "GET /".toList ++ name := same ▸ List.drop_suffix _ _
    rcases List.suffix_or_suffix_of_suffix suffix (List.suffix_append _ _) with inside | ⟨t, longer⟩
    · exact inside
    · -- the ending would start in `GET /`
      cases t with
      | nil => exact longer ▸ List.suffix_refl _
      | cons first t =>
        rw [← longer, List.suffix_append_self_iff] at suffix
        have early : first ∈ "GET /".toList := suffix.subset List.mem_cons_self
        rw [← longer] at dot
        cases dot
        exact absurd early (by decide)
  · intro suffix
    have enough := suffix.length_le
    rw [← all]
    exact (List.suffix_iff_eq_drop.mp (suffix.trans (List.suffix_append _ _))).symm

/-- **The content type** goes by the end of the name. -/
theorem type_eq (whole : ∀ c ∈ name, c ≠ NUL) (directory : Bool) (rest : List Char) :
    type directory ("GET /".toList ++ (name ++ NUL :: rest)) =
      if ".gif".toList <:+ name then "image/gif".toList
      else if ".jpeg".toList <:+ name then "image/jpeg".toList
      else if ".html".toList <:+ name ∨ directory = true then "text/html".toList
      else "text/plain".toList := by
  have slash : "GET /".toList.length = 5 := rfl
  have gif := cstr_ending_iff whole ".gif".toList rfl (by decide) rest
  have jpeg := cstr_ending_iff whole ".jpeg".toList rfl (by decide) rest
  have html := cstr_ending_iff whole ".html".toList rfl (by decide) rest
  rw [show ".gif".toList.length = 4 from rfl] at gif
  rw [show ".jpeg".toList.length = 5 from rfl] at jpeg
  rw [show ".html".toList.length = 5 from rfl] at html
  rw [type, cstr_append slash whole]
  simp only [gif, jpeg, html]
  by_cases page : ".html".toList <:+ name
  · simp only [page, if_true, true_or]
  · simp only [page, if_false, false_or]

end ContentType

end Lmbench.Lmhttp
