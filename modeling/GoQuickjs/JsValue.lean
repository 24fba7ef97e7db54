import Mathlib
import GoQuickjs.Library.Binary64

/-!
# Engine values and numbers

`JSValue` of `quickjs.h` on a 64-bit platform: a tag and a payload. The payload of
a tag below zero points to a reference-counted structure of the engine, named here
by its address; the contents behind the address are the business of the modules
that read them. Numbers are 32-bit integers or doubles, and the engine's own
conversions between them are embedded bit for bit.
-/

namespace GoQuickjs

/-- The address of a structure allocated by the engine. -/
abbrev Ptr := Nat

/-- The tags of `quickjs.h` with their payloads. -/
inductive JSValue where
  | bigInt : Ptr → JSValue
  | symbol : Ptr → JSValue
  | string : Ptr → JSValue
  | stringRope : Ptr → JSValue
  | module : Ptr → JSValue
  | functionBytecode : Ptr → JSValue
  | object : Ptr → JSValue
  | int : Int32 → JSValue
  | bool : Bool → JSValue
  | null : JSValue
  | undefined : JSValue
  | uninitialized : JSValue
  | catchOffset : Int32 → JSValue
  | exception : JSValue
  | shortBigInt : Int64 → JSValue
  | float64 : UInt64 → JSValue
deriving DecidableEq

namespace JSValue

/-- `JS_VALUE_HAS_REF_COUNT`: the tags below zero. -/
def hasRefCount : JSValue → Bool
  | .bigInt _ | .symbol _ | .string _ | .stringRope _ | .module _ | .functionBytecode _
  | .object _ => true
  | _ => false

/-- `JS_IsNumber`. -/
def isNumber : JSValue → Bool
  | .int _ | .float64 _ => true
  | _ => false

/-- `JS_IsUndefined`. -/
def isUndefined : JSValue → Bool
  | .undefined => true
  | _ => false

/-- `JS_IsNull`. -/
def isNull : JSValue → Bool
  | .null => true
  | _ => false

end JSValue

/-! ## Making numbers -/

/-- `JS_NewInt32`. -/
def jsNewInt32 (val : Int32) : JSValue := .int val

/-- `JS_NewInt64`: the integer tag when the value fits in 32 bits, else the double
nearest to it. -/
def jsNewInt64 (val : Int) : JSValue :=
  if (Int32.ofInt val).toInt = val then jsNewInt32 (Int32.ofInt val)
  else .float64 (Binary64.ofInt val)

/-- `JS_NewUint32`: the integer tag up to `0x7fffffff`, else the double equal to
the value. -/
def jsNewUint32 (val : UInt32) : JSValue :=
  if val ≤ 0x7fffffff then jsNewInt32 val.toInt32 else .float64 (Binary64.ofNat val.toNat)

/-- `JS_NewFloat64`: the integer tag when the double is exactly a 32-bit integer
other than minus zero, decided by comparing the word with that of the truncated
value. -/
def jsNewFloat64 (d : UInt64) : JSValue :=
  let val := Binary64.truncate d
  if Int32.minValue.toInt ≤ val ∧ val ≤ Int32.maxValue.toInt ∧ Binary64.ofInt val = d then
    .int (Int32.ofInt val)
  else .float64 d

/-! ## Reading numbers -/

/-- The double case of `JS_ToInt32Free`. Small exponents are truncated; larger ones
are reduced modulo `2 ^ 32` by shifting the significand inside a 64-bit word. -/
def float64ToInt32 (word : UInt64) : Int32 :=
  let e := Binary64.exponent word
  if e ≤ 1023 + 30 then Int32.ofInt (Binary64.truncate word)
  else if e ≤ 1023 + 30 + 53 then
    let v : UInt64 := Binary64.fraction word ||| ((1 : UInt64) <<< 52)
    let v := v <<< (UInt64.ofNat (e - 1023 - 20))
    let ret := (v >>> 32).toUInt32.toInt32
    if Binary64.negative word then -ret else ret
  else 0

/-- `JS_ToInt32` on the tags that need no conversion by a script. -/
def jsToInt32 : JSValue → Option Int32
  | .int i => some i
  | .bool b => some (if b then 1 else 0)
  | .null | .undefined => some 0
  | .float64 word => some (float64ToInt32 word)
  | _ => none

/-- `JS_ToUint32` reads the same bits as an unsigned number. -/
def jsToUint32 (v : JSValue) : Option UInt32 := (jsToInt32 v).map Int32.toUInt32

/-! ## Ids above the integer tag -/

/-- The double of a number from `2 ^ 31` on, below `2 ^ 32`, as a word. -/
theorem ofNat_word {n : Nat} (lower : 2 ^ 31 ≤ n) (upper : n < 2 ^ 32) :
    (Binary64.ofNat n).toNat = 1053 * 2 ^ 52 + n * 2 ^ 21 := by
  have leading : Nat.log2 n = 31 := (Nat.log2_eq_iff (by omega)).mpr ⟨lower, upper⟩
  rw [Binary64.ofNat_toNat (by omega) (by omega), leading]

/-- The significand of such a double is the number moved up by 21 bits. -/
theorem ofNat_significand {n : Nat} (lower : 2 ^ 31 ≤ n) (upper : n < 2 ^ 32) :
    (Binary64.fraction (Binary64.ofNat n) ||| ((1 : UInt64) <<< 52)).toNat = n * 2 ^ 21 := by
  have fraction : (Binary64.fraction (Binary64.ofNat n)).toNat = n * 2 ^ 21 - 2 ^ 52 := by
    rw [Binary64.fraction_toNat, ofNat_word lower upper]
    omega
  have disjoint : n * 2 ^ 21 - 2 ^ 52 < 2 ^ 52 := by omega
  rw [UInt64.toNat_or, fraction, Nat.or_comm]
  change 2 ^ 52 ||| (n * 2 ^ 21 - 2 ^ 52) = n * 2 ^ 21
  have joined := Nat.two_pow_add_eq_or_of_lt disjoint 1
  rw [Nat.mul_one] at joined
  rw [← joined]
  omega

/-- The engine's reduction modulo `2 ^ 32` gives such a number back. -/
theorem float64ToInt32_ofNat {n : Nat} (lower : 2 ^ 31 ≤ n) (upper : n < 2 ^ 32) :
    float64ToInt32 (Binary64.ofNat n) = (UInt32.ofNat n).toInt32 := by
  have word := ofNat_word lower upper
  have exponent : Binary64.exponent (Binary64.ofNat n) = 1054 := by
    rw [Binary64.exponent_eq, word]
    omega
  have positive : Binary64.negative (Binary64.ofNat n) = false :=
    Binary64.negative_eq_false (by omega)
  have reduced : ((Binary64.fraction (Binary64.ofNat n) ||| ((1 : UInt64) <<< 52)) <<<
      (UInt64.ofNat (1054 - 1023 - 20)) >>> 32).toUInt32 = UInt32.ofNat n := by
    apply UInt32.toNat_inj.mp
    rw [UInt64.toNat_toUInt32, UInt64.toNat_shiftRight, UInt64.toNat_shiftLeft,
      ofNat_significand lower upper, UInt32.toNat_ofNat_of_lt' upper]
    change (((n * 2 ^ 21) <<< 11) % 2 ^ 64) >>> 32 % 2 ^ 32 = n
    rw [Nat.shiftLeft_eq, Nat.shiftRight_eq_div_pow]
    omega
  simp only [float64ToInt32, exponent, positive, reduced, Nat.reduceAdd, Nat.reduceLeDiff,
    if_true, if_false, Bool.false_eq_true]

/-- Every 32-bit id survives the trip through an engine number. -/
theorem jsToUint32_jsNewUint32 (val : UInt32) : jsToUint32 (jsNewUint32 val) = some val := by
  by_cases small : val ≤ 0x7fffffff
  · have made : jsNewUint32 val = .int val.toInt32 := if_pos small
    rw [made]
    exact congrArg some (UInt32.toUInt32_toInt32 val)
  · have made : jsNewUint32 val = .float64 (Binary64.ofNat val.toNat) := if_neg small
    have lower : 2 ^ 31 ≤ val.toNat := by
      have above := UInt32.lt_iff_toNat_lt.mp (UInt32.not_le.mp small)
      change 2147483647 < val.toNat at above
      omega
    have reduced := float64ToInt32_ofNat lower (UInt32.toNat_lt val)
    rw [UInt32.ofNat_toNat] at reduced
    rw [made]
    change some (float64ToInt32 _).toUInt32 = some val
    rw [reduced, UInt32.toUInt32_toInt32]

end GoQuickjs
