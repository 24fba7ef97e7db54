import GoQuickjs.Proxies
import GoQuickjs.Reached

/-!
# The lengths of strings at the boundary

A Go string or byte slice goes to the engine as a pointer and a length. `getStrPtrLen` and
`getBytesPtrLen` cut the length, an `int` of 64 bits, to a C `int`, and `makeString` and
`makeBytes` extend that to a `size_t`. The length is passed as it is up to `2 ^ 31 - 1`. Beyond
that the engine is told of fewer bytes than there are, or of more bytes than memory has.

A string of the engine comes to Go as a C string and its length. Every C string is shorter than
`2 ^ 31` bytes, so that `C.int(plen)` loses nothing; but where the engine makes no C string, the
length is 0.
-/

namespace GoQuickjs

open Tracing Traced

/-! ## From Go to the engine -/

/-- The header of a Go string or byte slice: the bytes that it points to. Their number is a Go
`int`. -/
structure Header where
  data : List UInt8
  fits : data.length < 2 ^ 63

namespace Header

/-- The field `Len`. -/
def len (h : Header) : Int64 := Int64.ofNat h.data.length

/-- The pointer of a header, and its length as a C `int`. -/
def ptrLen (h : Header) : List UInt8 × Int32 := (h.data, h.len.toInt32)

end Header

/-- `getStrPtrLen`. -/
def getStrPtrLen (goStr : Header) : List UInt8 × Int32 := goStr.ptrLen

/-- `getBytesPtrLen`. -/
def getBytesPtrLen (goBytes : Header) : List UInt8 × Int32 := goBytes.ptrLen

/-- A call of `JS_NewStringLen`: what the pointer points to, and the length. -/
structure NewStringLenCall where
  buf : List UInt8
  bufLen : UInt64

/-- `C.JS_NewStringLen(ctx, cstr, C.size_t(sLen))`. -/
def newStringLenCall (p : List UInt8 × Int32) : NewStringLenCall := ⟨p.1, p.2.toInt64.toUInt64⟩

/-- The call that `makeString` makes. -/
def makeStringCall (s : Header) : NewStringLenCall := newStringLenCall (getStrPtrLen s)

/-- The call that `makeBytes` makes. -/
def makeBytesCall (b : Header) : NewStringLenCall := newStringLenCall (getBytesPtrLen b)

namespace Header

variable (h : Header)

/-- The length is cut to 32 bits with a sign. -/
theorem ptrLen_toInt : h.ptrLen.2.toInt = Narrowing.cut 31 h.data.length := by
  have whole : h.len.toInt = h.data.length := Int64.toInt_ofNat_of_lt h.fits
  rw [ptrLen, Int64.toInt_toInt32, whole]
  rfl

/-- The length that is passed on is that of the cut length in 64 bits. -/
theorem bufLen_toNat : (newStringLenCall h.ptrLen).bufLen.toNat =
    Narrowing.extended 63 (Narrowing.cut 31 h.data.length) := by
  rw [newStringLenCall, Narrowing.int32_toUInt64, ptrLen_toInt]

/-- The length is passed as it is up to `2 ^ 31 - 1`. -/
theorem bufLen_kept_iff :
    (newStringLenCall h.ptrLen).bufLen.toNat = h.data.length ↔ h.data.length < 2 ^ 31 := by
  rw [bufLen_toNat]
  exact Narrowing.extended_cut_eq_iff (by omega) h.fits

/-- The engine reads only the first bytes when the last 32 bits of the length have no sign. -/
theorem bufLen_truncated_iff : (newStringLenCall h.ptrLen).bufLen.toNat < h.data.length ↔
    2 ^ 31 ≤ h.data.length ∧ h.data.length % 2 ^ 32 < 2 ^ 31 := by
  rw [bufLen_toNat]
  exact Narrowing.extended_cut_lt_iff (by omega) h.fits

/-- The engine is told to read past the end when they have one. -/
theorem bufLen_beyond_iff : h.data.length < (newStringLenCall h.ptrLen).bufLen.toNat ↔
    2 ^ 31 ≤ h.data.length % 2 ^ 32 := by
  rw [bufLen_toNat]
  exact Narrowing.lt_extended_cut_iff (by omega) h.fits

/-- The call is that of the engine string that `makeString` gives. -/
theorem makeString_call (fresh : Fresh) : World.makeString fresh h.data =
    match newStringLen (makeStringCall h).buf (makeStringCall h).bufLen.toInt64.toInt32 with
    | .made => .value (.string fresh.object)
    | .refused => .value .exception
    | .crashed => .panicked := by
  have length : (makeStringCall h).bufLen.toInt64.toInt32 = Int32.ofNat h.data.length := by
    change h.ptrLen.2.toInt64.toInt32 = _
    rw [Int32.toInt32_toInt64, ← Int32.toInt_inj, ptrLen_toInt, Narrowing.int32_ofNat]
  rw [length]
  rfl

end Header

/-! ## From the engine to Go -/

/-- The call that `fromJsValue` makes for a string. -/
def fromJsValueCall (s : JSString) : GoStringNCall := s.goStringNCall

/-- The call that `getKeyName` makes for a key; for a symbol it makes none. -/
def getKeyNameCall : Proxies.PropertyKey → Option GoStringNCall
  | .symbol => none
  | .text s => some s.goStringNCall

/-- The length of the text reaches Go, except that of a string that is too long for a C string. -/
theorem goStringNCall_kept_iff (s : JSString) :
    s.goStringNCall.n.toInt = s.text.length ↔ ¬ s.TooLong := by
  rw [s.goStringNCall_toInt, s.toCStringLen_eq]
  split
  · rename_i long
    have nonempty := List.length_pos_iff.mpr long.text_ne_nil
    exact iff_of_false (by simp; omega) (not_not.mpr long)
  · rename_i fits
    exact iff_of_true rfl fits

/-- A conversion that calls `C.GoStringN` ends as the call does. -/
theorem goStringN_ending (call : GoStringNCall) : (goStringN (call.cstr.getD []) call.n).ending =
    call.result.elim .panics fun goVal => .returns (.ok (.string goVal)) := by
  rw [goStringN, GoStringNCall.result]
  split <;> rfl

/-- Where a string is read, `fromJsValue` ends as its call does. -/
theorem fromJsValue_call {r : Reading} {p : Path} {s : JSString}
    (read : r p = .string ((fromJsValueCall s).cstr.getD [])) (depth : Nat) :
    (fromJsValue r (depth + 1) p).ending =
      (fromJsValueCall s).result.elim .panics fun goVal => .returns (.ok (.string goVal)) := by
  have sameLength : Int32.ofNat ((fromJsValueCall s).cstr.getD []).length = (fromJsValueCall s).n :=
    s.goStringNCall_n.symm
  simp only [fromJsValue, read, uses_bind, holding_ending, sameLength, goStringN_ending]

/-- The call is that of `getKeyName`. -/
theorem getKeyName_call (key : Proxies.PropertyKey) :
    Proxies.getKeyName key =
      ((getKeyNameCall key).map GoStringNCall.result).getD (some []) := by
  cases key <;> rfl

/-! ## Every length -/

/-- The length of a Go string or byte slice is passed as it is exactly when it is below `2 ^ 31`.
The length of an engine string is passed as it is, as a value and as a key, exactly when the string
is narrow or three bytes for each of its units are below `2 ^ 31`. -/
theorem lengthsKept_iff (goStr goBytes : Header) (s : JSString) :
    ((makeStringCall goStr).bufLen.toNat = goStr.data.length ↔ goStr.data.length < 2 ^ 31) ∧
      ((makeBytesCall goBytes).bufLen.toNat = goBytes.data.length ↔
        goBytes.data.length < 2 ^ 31) ∧
      ((fromJsValueCall s).n.toInt = s.text.length ↔ ¬ s.TooLong) ∧
      ∃ call, getKeyNameCall (.text s) = some call ∧
        (call.n.toInt = s.text.length ↔ ¬ s.TooLong) :=
  ⟨goStr.bufLen_kept_iff, goBytes.bufLen_kept_iff, goStringNCall_kept_iff s, _, rfl,
    goStringNCall_kept_iff s⟩

/-- As many letters `a`. -/
def letters (n : Nat) (few : n < 2 ^ 63) : Header :=
  ⟨List.replicate n 97, by rwa [List.length_replicate]⟩

/-- As many euro signs. -/
def euros (n : Nat) (few : n ≤ 2 ^ 30 - 1) : JSString :=
  ⟨List.replicate n 0x20ac, true, nofun, by rwa [List.length_replicate]⟩

theorem letters_length {n : Nat} (few : n < 2 ^ 63) : (letters n few).data.length = n :=
  List.length_replicate

theorem euros_tooLong {n : Nat} (few : n ≤ 2 ^ 30 - 1) (many : 2 ^ 31 ≤ 3 * n) :
    (euros n few).TooLong :=
  ⟨rfl, by rwa [euros, List.length_replicate]⟩

/-- The length of a string of `2 ^ 31` bytes is passed as one beyond all memory, and that of a
slice of `2 ^ 32 + 1` bytes as 1. For a string of 715827883 euro signs, as a value and as a key,
the length that is passed is 0. -/
theorem lengths_changed :
    (letters (2 ^ 31) (by decide)).data.length = 2 ^ 31 ∧
      (makeStringCall (letters (2 ^ 31) (by decide))).bufLen.toNat = 2 ^ 64 - 2 ^ 31 ∧
      (letters (2 ^ 32 + 1) (by decide)).data.length = 2 ^ 32 + 1 ∧
      (makeBytesCall (letters (2 ^ 32 + 1) (by decide))).bufLen.toNat = 1 ∧
      (fromJsValueCall (euros 715827883 (by decide))).n.toInt = 0 ∧
      (∃ call, getKeyNameCall (.text (euros 715827883 (by decide))) = some call ∧
        call.n.toInt = 0) ∧
      (euros 715827883 (by decide)).text.length ≠ 0 := by
  have passed : ∀ {n} (few : n < 2 ^ 63), (newStringLenCall (letters n few).ptrLen).bufLen.toNat =
      Narrowing.extended 63 (Narrowing.cut 31 n) := by
    intro n few
    rw [Header.bufLen_toNat, letters_length]
  have long : (euros 715827883 (by decide)).TooLong := euros_tooLong _ (by decide)
  have nothing : (euros 715827883 (by decide)).goStringNCall.n.toInt = 0 := by
    rw [JSString.goStringNCall_toInt, JSString.toCStringLen_eq, if_pos long]
    rfl
  refine ⟨letters_length _, (passed _).trans (by decide), letters_length _,
    (passed _).trans (by decide), nothing, ⟨_, rfl, nothing⟩, ?_⟩
  exact fun empty => long.text_ne_nil (List.length_eq_zero_iff.mp empty)

end GoQuickjs
