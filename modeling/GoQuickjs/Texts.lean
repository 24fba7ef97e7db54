import GoQuickjs.Decode
import GoQuickjs.Library.Wtf8

/-!
# Engine strings and property keys

A string of the engine holds 8-bit or 16-bit units, never more than `2 ^ 30 - 1` of
them. `JS_ToCStringLen2` writes it as UTF-8 into a new string whose size it computes
as an `int`: two bytes for each non-ASCII unit of an 8-bit string, three for each unit
of a 16-bit one. The second product does not fit for every length, and a negative size
cannot be allocated, so that the conversion answers `NULL`.

A property key is an atom: a string, or a symbol with its description. As a C string it
is the text of the string, or the description.

Go takes the C string over with its length, which `JS_ToCStringLen` reports as a `size_t`
and `C.GoStringN` takes as an `int`. After `NULL` the reported length is 0.
-/

namespace GoQuickjs

/-- The C structure `JSString`. -/
structure JSString where
  units : List UInt16
  isWideChar : Bool
  narrow : isWideChar = false → ∀ c ∈ units, c < 0x100
  bounded : units.length ≤ 2 ^ 30 - 1

namespace JSString

/-- The string without characters. -/
def empty : JSString := ⟨[], false, by simp, by simp⟩

/-- The string of one 8-bit character. -/
def ofChar (c : UInt16) (small : c < 0x100) : JSString :=
  ⟨[c], false, by simp [small], by simp⟩

/-- The text that a script sees, in UTF-8. -/
def text (s : JSString) : List UInt8 := Wtf8.encode s.units

/-- `js_alloc_string` for 8-bit units: the size is an `int`, and a negative one is an
impossible number of bytes. -/
def allocates (maxLen : Nat) : Bool := !(Int32.ofNat maxLen < 0)

/-- The bytes of a unit of an 8-bit string. -/
def narrowBytes (c : UInt16) : List UInt8 :=
  if c < 0x80 then [c.toUInt8] else [(c >>> 6 ||| 0xc0).toUInt8, (c &&& 0x3f ||| 0x80).toUInt8]

/-- `JS_ToCStringLen2`. A string of ASCII characters is returned as it is. -/
def toCStringLen (s : JSString) : Option (List UInt8) :=
  if !s.isWideChar then
    let count := s.units.countP (0x80 ≤ ·)
    if count = 0 then some (s.units.map UInt16.toUInt8)
    else if allocates (s.units.length + count) then some (s.units.flatMap narrowBytes)
    else none
  else if allocates (s.units.length * 3) then some (Wtf8.encode s.units)
  else none

/-- The string is wide and three bytes for each of its units are more than an `int`. -/
def TooLong (s : JSString) : Prop := s.isWideChar = true ∧ 2 ^ 31 ≤ 3 * s.units.length

instance (s : JSString) : Decidable s.TooLong := inferInstanceAs (Decidable (_ ∧ _))

theorem allocates_iff {maxLen : Nat} (below : maxLen < 2 ^ 32) :
    allocates maxLen = true ↔ maxLen < 2 ^ 31 := by
  rw [allocates, Bool.not_eq_true', decide_eq_false_iff_not, Narrowing.int32_neg_iff,
    Nat.mod_eq_of_lt below, Nat.not_le]

/-- The bytes of a unit below `0x100` are those of its code point. -/
theorem narrowBytes_eq {c : UInt16} (small : c < 0x100) : narrowBytes c = Wtf8.utf8 c.toNat := by
  have bound : c.toNat < 0x100 := UInt16.lt_iff_toNat_lt.mp small
  have all : ∀ n < 0x100, narrowBytes (UInt16.ofNat n) = Wtf8.utf8 n := by decide +kernel
  simpa using all c.toNat bound

/-- An 8-bit string has no surrogates. -/
theorem codePoints_narrow {units : List UInt16} (small : ∀ c ∈ units, c < 0x100) :
    Wtf8.codePoints units = units.map UInt16.toNat := by
  induction units with
  | nil => rfl
  | cons c rest inductionHypothesis =>
    have bound : c.toNat < 0x100 := UInt16.lt_iff_toNat_lt.mp (small c (by simp))
    rw [Wtf8.codePoints_single, inductionHypothesis fun c found => small c (by simp [found]),
      List.map_cons]
    intro c1 _ isPair
    rw [Bool.and_eq_true, Wtf8.isHi_iff] at isPair
    omega

theorem encode_narrow {units : List UInt16} (small : ∀ c ∈ units, c < 0x100) :
    Wtf8.encode units = units.flatMap narrowBytes := by
  rw [Wtf8.encode, codePoints_narrow small, List.flatMap_map]
  apply List.flatMap_congr
  intro c found
  rw [narrowBytes_eq (small c found)]

/-- The C string is the text, unless the string is too long. -/
theorem toCStringLen_eq (s : JSString) :
    s.toCStringLen = if s.TooLong then none else some s.text := by
  have bounded := s.bounded
  cases wide : s.isWideChar with
  | true =>
    simp only [toCStringLen, wide, TooLong, text, Bool.not_true, Bool.false_eq_true, if_false,
      allocates_iff (show s.units.length * 3 < 2 ^ 32 by omega), true_and]
    by_cases long : s.units.length * 3 < 2 ^ 31
    · rw [if_pos long, if_neg (by omega)]
    · rw [if_neg long, if_pos (by omega)]
  | false =>
    have small := s.narrow wide
    have few : s.units.countP (0x80 ≤ ·) ≤ s.units.length := List.countP_le_length
    simp only [toCStringLen, wide, TooLong, text, Bool.not_false, if_true, Bool.false_eq_true,
      false_and, if_false, encode_narrow small]
    split
    · rename_i ascii
      rw [List.countP_eq_zero] at ascii
      congr 1
      rw [← List.flatMap_singleton' (s.units.map _), List.flatMap_map]
      apply List.flatMap_congr
      intro c found
      have below : c < 0x80 := by simpa using ascii c found
      rw [narrowBytes, if_pos below]
    · rw [if_pos ((allocates_iff (by omega)).mpr (by omega))]

theorem flatMap_narrowBytes_length (units : List UInt16) :
    (units.flatMap narrowBytes).length ≤ 2 * units.length := by
  induction units with
  | nil => simp
  | cons c rest inductionHypothesis =>
    have here : (narrowBytes c).length ≤ 2 := by
      unfold narrowBytes
      split <;> simp
    simp only [List.flatMap_cons, List.length_append, List.length_cons]
    omega

/-- No C string is longer than an `int`. -/
theorem toCStringLen_length (s : JSString) : (s.toCStringLen.getD []).length < 2 ^ 31 := by
  have bounded := s.bounded
  rw [toCStringLen_eq]
  split
  · simp
  · rename_i fits
    rw [Option.getD_some, text]
    cases wide : s.isWideChar with
    | true =>
      have bytes := Wtf8.encode_length s.units
      have below : ¬ 2 ^ 31 ≤ 3 * s.units.length := fun long => fits ⟨wide, long⟩
      omega
    | false =>
      have bytes := flatMap_narrowBytes_length s.units
      rw [encode_narrow (s.narrow wide)]
      omega

/-- Every unit of a text takes a byte or more. -/
theorem units_le_text (s : JSString) : s.units.length ≤ s.text.length :=
  Wtf8.length_le_encode s.units

/-- A string that is too long has a long text. -/
theorem TooLong.le_text {s : JSString} (long : s.TooLong) : 2 ^ 29 ≤ s.text.length := by
  have units := s.units_le_text
  have many := long.2
  omega

theorem TooLong.text_ne_nil {s : JSString} (long : s.TooLong) : s.text ≠ [] := by
  intro empty
  have bytes := long.le_text
  rw [empty, List.length_nil] at bytes
  omega

/-! ## The Go string of a C string -/

/-- What `JS_ToCStringLen` stores in `plen`: the length of the C string, in a field of 31
bits, and 0 along with `NULL`. -/
def plen (s : JSString) : UInt64 := UInt64.ofNat ((s.toCStringLen.getD []).length % 2 ^ 31)

end JSString

/-- A call of `C.GoStringN`: what the pointer points to, if it is not `NULL`, and the length. -/
structure GoStringNCall where
  cstr : Option (List UInt8)
  n : Int32

/-- The Go string that is returned, and a panic for a negative length. -/
def GoStringNCall.result (call : GoStringNCall) : Option (List UInt8) :=
  if call.n < 0 then none else some ((call.cstr.getD []).take call.n.toInt.toNat)

namespace JSString

/-- `C.GoStringN(cstr, C.int(plen))` after `JS_ToCStringLen`. -/
def goStringNCall (s : JSString) : GoStringNCall := ⟨s.toCStringLen, s.plen.toInt64.toInt32⟩

/-- The length of the C string reaches `C.GoStringN`. -/
theorem goStringNCall_toInt (s : JSString) :
    s.goStringNCall.n.toInt = (s.toCStringLen.getD []).length := by
  have short := s.toCStringLen_length
  rw [goStringNCall, plen, Nat.mod_eq_of_lt short, Int64.toInt_toInt32]
  generalize (s.toCStringLen.getD []).length = n at short
  have signed : (UInt64.ofNat n).toInt64.toInt = n := Int64.toInt_ofNat_of_lt (by omega)
  rw [signed]
  exact Narrowing.cut_eq_iff.mpr short

theorem goStringNCall_n (s : JSString) :
    s.goStringNCall.n = Int32.ofNat (s.toCStringLen.getD []).length := by
  rw [← Int32.toInt_inj, goStringNCall_toInt, Narrowing.int32_ofNat]
  exact (Narrowing.cut_eq_iff.mpr s.toCStringLen_length).symm

/-- The Go string is the C string. -/
theorem goStringNCall_result (s : JSString) :
    s.goStringNCall.result = some (s.toCStringLen.getD []) := by
  have whole := s.goStringNCall_toInt
  have short := s.toCStringLen_length
  have positive : ¬ s.goStringNCall.n < 0 := by
    rw [goStringNCall_n, Narrowing.int32_neg_iff]
    omega
  rw [GoStringNCall.result, if_neg positive, whole, Int.toNat_natCast]
  exact congrArg some (List.take_length)

end JSString

end GoQuickjs
