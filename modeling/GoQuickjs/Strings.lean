import GoQuickjs.JsValue
import GoQuickjs.Library.Narrowing

/-!
# Making engine strings

`makeString` and `makeBytes` hand a Go string or byte slice to `JS_NewStringLen`, with
its length cut to an `int` and widened again to a `size_t`. The bytes are read as UTF-8
by `unicode_from_utf8`, and what cannot be decoded becomes the replacement character.

The engine computes the sizes of its allocations as an `int` plus the 16 bytes of the
head of a string. A size that came out negative is an impossible number of bytes, so
that strings of a gigabyte and more may be refused. A few lengths come out as no bytes
at all, or as fewer than the head takes, and the process does not survive them.
-/

namespace GoQuickjs

/-- `JS_STRING_LEN_MAX`. -/
def stringLenMax : Nat := 2 ^ 30 - 1

/-- A byte inside a UTF-8 sequence. -/
def isContinuation (b : UInt8) : Bool := 0x80 ≤ b && b < 0xc0

/-- The switch of `unicode_from_utf8`: how many bytes follow the first one. -/
def tailLength (c : UInt8) : Option Nat :=
  if c < 0xc0 then none
  else if c < 0xe0 then some 1
  else if c < 0xf0 then some 2
  else if c < 0xf8 then some 3
  else if c < 0xfc then some 4
  else if c < 0xfe then some 5
  else none

/-- The tables `utf8_first_code_mask` and `utf8_min_code`, by the number of bytes that
follow. -/
def firstCode : Nat → UInt8 × Nat
  | 1 => (0x1f, 0x80)
  | 2 => (0xf, 0x800)
  | 3 => (0x7, 0x10000)
  | 4 => (0x3, 0x200000)
  | _ => (0x1, 0x4000000)

/-- `unicode_from_utf8`: the code point and the bytes after it. -/
def unicodeFromUtf8 : List UInt8 → Option (Nat × List UInt8)
  | [] => none
  | c :: rest =>
    if c < 0x80 then some (c.toNat, rest)
    else
      (tailLength c).bind fun l =>
        if rest.length < l ∨ !(rest.take l).all isContinuation then none
        else
          let code := (rest.take l).foldl (fun code b => code <<< 6 ||| (b &&& 0x3f).toNat)
            (c &&& (firstCode l).1).toNat
          if code < (firstCode l).2 then none else some (code, rest.drop l)

/-- How `JS_NewStringLen` goes on after bytes that are no character: past continuation
bytes, one more byte, and continuation bytes again. -/
def skipInvalid (p : List UInt8) : List UInt8 :=
  ((p.dropWhile isContinuation).drop 1).dropWhile isContinuation

theorem skipInvalid_shorter (c : UInt8) (rest : List UInt8) :
    (skipInvalid (c :: rest)).length < (c :: rest).length := by
  have first := (List.dropWhile_sublist isContinuation (l := c :: rest)).length_le
  have last := (List.dropWhile_sublist isContinuation
    (l := ((c :: rest).dropWhile isContinuation).drop 1)).length_le
  rw [List.length_drop] at last
  rw [List.length_cons] at *
  change (List.dropWhile _ _).length < _
  omega

theorem unicodeFromUtf8_shorter {p next : List UInt8} {code : Nat}
    (decoded : unicodeFromUtf8 p = some (code, next)) : next.length < p.length := by
  cases p with
  | nil => cases decoded
  | cons c rest =>
    have kept : next = rest ∨ ∃ l, next = rest.drop l := by
      simp only [unicodeFromUtf8] at decoded
      split at decoded
      · exact .inl (Prod.mk.inj (Option.some.inj decoded)).2.symm
      · obtain ⟨l, _, here⟩ := Option.bind_eq_some_iff.mp decoded
        split at here
        · cases here
        · split at here
          · cases here
          · exact .inr ⟨l, (Prod.mk.inj (Option.some.inj here)).2.symm⟩
    obtain rfl | ⟨l, rfl⟩ := kept
    · simp
    · simp only [List.length_drop, List.length_cons]
      omega

/-- The loop of `JS_NewStringLen`: the units of the string that some bytes stand for. A
code point above `0xffff` is two units. -/
def unitsOf : List UInt8 → List Nat
  | [] => []
  | c :: rest =>
    if c < 0x80 then c.toNat :: unitsOf rest
    else
      match decoded : unicodeFromUtf8 (c :: rest) with
      | some (code, next) =>
        if code < 0x10000 then code :: unitsOf next
        else if code ≤ 0x10ffff then
          (0xd800 + (code - 0x10000) / 0x400) :: (0xdc00 + (code - 0x10000) % 0x400) :: unitsOf next
        else 0xfffd :: unitsOf (skipInvalid (c :: rest))
      | none => 0xfffd :: unitsOf (skipInvalid (c :: rest))
termination_by p => p.length
decreasing_by
  all_goals first
    | exact unicodeFromUtf8_shorter decoded
    | exact skipInvalid_shorter c rest
    | simp

/-- The ASCII bytes that `count_ascii` counts. -/
def countAscii (buf : List UInt8) : Nat := (buf.takeWhile (· < 0x80)).length

/-- How the engine answers a request for memory, or for a string: with what was asked for,
with an exception, or not at all. -/
inductive Allocation where
  | made
  | refused
  | crashed
deriving DecidableEq

/-- `js_malloc` of a number of bytes. Where it was computed from a negative `int` it is an
impossible one. No bytes at all fail the assertion of `js_def_malloc`, which ends the
process. -/
def mallocs (size : Int) : Allocation :=
  if size < 0 then .refused else if size = 0 then .crashed else .made

/-- `string_buffer_widen` for a number of bytes. No bytes at all free the buffer, which is
then freed again; memory for less than the head of a string is written past its end. -/
def widens (size : Int) : Allocation :=
  if size < 0 then .refused else if size < 16 then .crashed else .made

/-- `JS_NewStringLen`, as whether it makes a string of the first `len` bytes. An ASCII
string is copied. Else the buffer has room for as many 8-bit units as there are bytes,
which is enough, and the first unit above `0xff` makes it twice as large; the doubled
size overflows from a gigabyte on.

A negative length ends before it begins: no byte is read, and where the buffer can be
allocated at all, the string is empty. -/
def newStringLen (buf : List UInt8) (len : Int32) : Allocation :=
  if len < 0 then mallocs (16 + len.toInt + 1)
  else
    let p := buf.take len.toInt.toNat
    if stringLenMax < countAscii p then .refused
    else if countAscii p = p.length then .made
    else
      match mallocs (16 + len.toInt + 1) with
      | .made => if (unitsOf p).all (· < 0x100) then .made else widens (16 + (2 * len).toInt)
      | other => other

/-- The length that reaches the engine. -/
def cutLength (bytes : List UInt8) : Nat := bytes.length % 2 ^ 32

/-- The bytes that no engine string can be made of: a gigabyte or more of them, as their
length is cut to 32 bits, unless the text is below `2 ^ 31` bytes, begins with less than a
gigabyte of ASCII and has no character above `0xff`. The lengths that are cut to minus
sixteen and more stand for the empty string. -/
def Oversized (bytes : List UInt8) : Prop :=
  2 ^ 30 ≤ cutLength bytes ∧ cutLength bytes < 2 ^ 32 - 16 ∧
    ¬ (cutLength bytes < 2 ^ 31 ∧ countAscii (bytes.take (cutLength bytes)) < 2 ^ 30 ∧
      ∀ unit ∈ unitsOf (bytes.take (cutLength bytes)), unit < 0x100)

/-- The bytes that the process does not survive: a length that is cut to minus seventeen, for
which no memory at all is asked, and the eight lengths below `2 ^ 31` of a text that begins
with less than a gigabyte of ASCII and has a character above `0xff`. -/
def Fatal (bytes : List UInt8) : Prop :=
  cutLength bytes = 2 ^ 32 - 17 ∨
    2 ^ 31 - 8 ≤ cutLength bytes ∧ cutLength bytes < 2 ^ 31 ∧
      countAscii (bytes.take (cutLength bytes)) < 2 ^ 30 ∧
      ¬ ∀ unit ∈ unitsOf (bytes.take (cutLength bytes)), unit < 0x100

/-- No string is made of bytes that the process does not survive. -/
theorem Fatal.oversized {bytes : List UInt8} (fatal : Fatal bytes) : Oversized bytes := by
  obtain cut | ⟨lower, upper, _, wide⟩ := fatal
  · rw [Oversized]
    omega
  · exact ⟨by omega, by omega, fun allowed => wide allowed.2.2⟩

/-- A string below a gigabyte is never refused. -/
theorem not_oversized {bytes : List UInt8} (short : bytes.length < 2 ^ 30) : ¬ Oversized bytes := by
  intro ⟨long, _⟩
  rw [cutLength, Nat.mod_eq_of_lt (by omega)] at long
  omega

theorem cutLength_toInt (bytes : List UInt8) : (Int32.ofNat bytes.length).toInt =
    if cutLength bytes < 2 ^ 31 then (cutLength bytes : Int) else cutLength bytes - 2 ^ 32 := by
  rw [Narrowing.int32_ofNat]
  exact Narrowing.cut_eq 31 bytes.length

/-- The doubled size is that of an allocation below a gigabyte only. -/
theorem widens_doubled {len : Int32} {n : Nat} (length : len.toInt = n) (positive : 0 < n) :
    widens (16 + (2 * len).toInt) = if n < 2 ^ 30 then .made
      else if n < 2 ^ 31 - 8 then .refused else .crashed := by
  have below := Int32.toInt_lt len
  have doubled : (2 * len).toInt = (2 * (n : Int)).bmod (2 ^ 32) :=
    length ▸ Int32.toInt_mul 2 len
  rw [widens, doubled, Int.bmod]
  split_ifs <;> first | rfl | omega

theorem length_negative_iff (bytes : List UInt8) :
    Int32.ofNat bytes.length < 0 ↔ ¬ cutLength bytes < 2 ^ 31 := by
  rw [Narrowing.int32_neg_iff, cutLength, Nat.not_lt]

/-- A length that the engine reads as negative stands for the empty string, if anything. -/
theorem newStringLen_negative {bytes : List UInt8} (long : ¬ cutLength bytes < 2 ^ 31) :
    newStringLen bytes (Int32.ofNat bytes.length) =
      if cutLength bytes < 2 ^ 32 - 17 then .refused
      else if cutLength bytes = 2 ^ 32 - 17 then .crashed else .made := by
  have length := cutLength_toInt bytes
  rw [if_neg long] at length
  rw [newStringLen, if_pos ((length_negative_iff bytes).mpr long), mallocs, length]
  congr 1
  · apply propext
    omega
  · congr 1
    apply propext
    omega

/-- A string of a gigabyte or more is made of few ASCII bytes and narrow characters only. -/
theorem newStringLen_positive {bytes : List UInt8} (short : cutLength bytes < 2 ^ 31) :
    newStringLen bytes (Int32.ofNat bytes.length) =
      if cutLength bytes < 2 ^ 30 then .made
      else if 2 ^ 30 ≤ countAscii (bytes.take (cutLength bytes)) then .refused
      else if ∀ unit ∈ unitsOf (bytes.take (cutLength bytes)), unit < 0x100 then .made
      else if cutLength bytes < 2 ^ 31 - 8 then .refused else .crashed := by
  have length := cutLength_toInt bytes
  rw [if_pos short] at length
  have inside : (bytes.take (cutLength bytes)).length = cutLength bytes := by
    rw [List.length_take]
    exact Nat.min_eq_left (Nat.mod_le _ _)
  have few : countAscii (bytes.take (cutLength bytes)) ≤ cutLength bytes := by
    have taken := (List.takeWhile_sublist (· < 0x80)
      (l := bytes.take (cutLength bytes))).length_le
    rwa [inside] at taken
  have room : mallocs (16 + cutLength bytes + 1) = .made := by
    rw [mallocs, if_neg (by omega), if_neg (by omega)]
  have narrow : ((unitsOf (bytes.take (cutLength bytes))).all (· < 0x100) = true) =
      ∀ unit ∈ unitsOf (bytes.take (cutLength bytes)), unit < 0x100 := by
    simp only [List.all_eq_true, decide_eq_true_iff]
  simp only [newStringLen, length_negative_iff, length, Int.toNat_natCast, inside, stringLenMax,
    not_not.mpr short, if_false, room, narrow]
  by_cases small : cutLength bytes < 2 ^ 30
  · rw [if_neg (by omega), if_pos small]
    split_ifs with ascii
    · rfl
    · rfl
    · rw [widens_doubled length (by omega), if_pos small]
  · rw [if_neg small]
    by_cases ascii : 2 ^ 30 ≤ countAscii (bytes.take (cutLength bytes))
    · have refused : 2 ^ 30 - 1 < countAscii (bytes.take (cutLength bytes)) := by omega
      rw [if_pos refused, if_pos ascii]
    · have few : ¬ 2 ^ 30 - 1 < countAscii (bytes.take (cutLength bytes)) := by omega
      have mixed : countAscii (bytes.take (cutLength bytes)) ≠ cutLength bytes := by omega
      rw [if_neg few, if_neg mixed, if_neg ascii, widens_doubled length (by omega), if_neg small]
/-- The engine makes a string unless the bytes are too many for it. -/
theorem newStringLen_iff (bytes : List UInt8) :
    newStringLen bytes (Int32.ofNat bytes.length) = .made ↔ ¬ Oversized bytes := by
  rw [Oversized]
  by_cases short : cutLength bytes < 2 ^ 31
  · rw [newStringLen_positive short]
    split_ifs with small ascii narrow refused
    · exact iff_of_true rfl fun large => absurd large.1 (by omega)
    · exact iff_of_false (by simp) (not_not.mpr ⟨by omega, by omega, fun few => by omega⟩)
    · exact iff_of_true rfl fun large => large.2.2 ⟨short, by omega, narrow⟩
    · exact iff_of_false (by simp) (not_not.mpr ⟨by omega, by omega, fun few => narrow few.2.2⟩)
    · exact iff_of_false (by simp) (not_not.mpr ⟨by omega, by omega, fun few => narrow few.2.2⟩)
  · rw [newStringLen_negative short]
    simp only [short, false_and, not_false_eq_true, and_true, not_and]
    split_ifs with refused crashed
    · exact iff_of_false (by simp) (by omega)
    · exact iff_of_false (by simp) (by omega)
    · exact iff_of_true rfl (by omega)

/-- The process does not survive the attempt exactly for these bytes. -/
theorem newStringLen_crashed_iff (bytes : List UInt8) :
    newStringLen bytes (Int32.ofNat bytes.length) = .crashed ↔ Fatal bytes := by
  rw [Fatal]
  by_cases short : cutLength bytes < 2 ^ 31
  · rw [newStringLen_positive short]
    split_ifs with small ascii narrow refused
    · exact iff_of_false (by simp) (by omega)
    · exact iff_of_false (by simp) (by omega)
    · refine iff_of_false (by simp) ?_
      rintro (cut | fatal)
      · omega
      · exact fatal.2.2.2 narrow
    · exact iff_of_false (by simp) (by omega)
    · exact iff_of_true rfl (.inr ⟨by omega, short, by omega, narrow⟩)
  · rw [newStringLen_negative short]
    split_ifs with refused crashed
    · exact iff_of_false (by simp) (by omega)
    · exact iff_of_true rfl (.inl crashed)
    · exact iff_of_false (by simp) (by omega)

end GoQuickjs
