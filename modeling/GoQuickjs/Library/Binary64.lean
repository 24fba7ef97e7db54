import Mathlib.Data.Nat.Log
import Mathlib.Tactic.NormNum
import Mathlib.Tactic.Ring

/-!
# Doubles as 64-bit words

A double is its IEEE 754 word: sign bit, eleven exponent bits biased by 1023, and
52 fraction bits below an implicit leading one. Integers are converted to the
nearest word, ties to even; a word is truncated toward zero to an integer. No
runtime floating-point operation is used.
-/

namespace Binary64

/-- The biased exponent field. -/
def exponent (word : UInt64) : Nat := ((word >>> 52) &&& 0x7ff).toNat

/-- The fraction field without the implicit leading one. -/
def fraction (word : UInt64) : UInt64 := word &&& (((1 : UInt64) <<< 52) - 1)

/-- The sign bit. -/
def negative (word : UInt64) : Bool := word >>> 63 != 0

/-- The significand of a positive integer whose leading bit stands at `exponent`:
53 bits, rounded to nearest with ties to even when lower bits are lost. A carry
out of the top bit gives `2 ^ 53`, the significand of the next exponent. -/
def significand (n exponent : Nat) : Nat :=
  if exponent ≤ 52 then n * 2 ^ (52 - exponent)
  else
    let lost := exponent - 52
    let kept := n / 2 ^ lost
    let rest := n % 2 ^ lost
    if 2 ^ (lost - 1) < rest ∨ (rest = 2 ^ (lost - 1) ∧ kept % 2 = 1) then kept + 1 else kept

/-- The word nearest to a natural number below `2 ^ 1023`. Adding the significand
to the exponent field lets its leading one, and a rounding carry, move the
exponent up by one. -/
def ofNat (n : Nat) : UInt64 :=
  if n = 0 then 0
  else UInt64.ofNat ((Nat.log2 n + 1022) * 2 ^ 52 + significand n (Nat.log2 n))

/-- The word nearest to an integer; zero is positive. -/
def ofInt (n : Int) : UInt64 :=
  if n < 0 then ofNat n.natAbs ||| ((1 : UInt64) <<< 63) else ofNat n.natAbs

/-- The integer part of a finite word, toward zero; zero for infinities and NaN. -/
def truncate (word : UInt64) : Int :=
  let e := exponent word
  let significand := 2 ^ 52 + (fraction word).toNat
  let magnitude : Nat :=
    if e < 1023 ∨ e = 0x7ff then 0
    else if e ≤ 1075 then significand / 2 ^ (1075 - e) else significand * 2 ^ (e - 1075)
  if negative word then -magnitude else magnitude

/-! ## The fields as numbers -/

/-- The exponent is made of eleven bits from the 53rd on. -/
theorem exponent_eq (word : UInt64) : exponent word = word.toNat / 2 ^ 52 % 2 ^ 11 := by
  rw [exponent, UInt64.toNat_and, UInt64.toNat_shiftRight, Nat.shiftRight_eq_div_pow]
  exact Nat.and_two_pow_sub_one_eq_mod _ 11

/-- The fraction is made of the lowest 52 bits. -/
theorem fraction_toNat (word : UInt64) : (fraction word).toNat = word.toNat % 2 ^ 52 := by
  rw [fraction, UInt64.toNat_and]
  exact Nat.and_two_pow_sub_one_eq_mod _ 52

/-- A word whose highest bit is clear is not negative. -/
theorem negative_eq_false {word : UInt64} (small : word.toNat < 2 ^ 63) :
    negative word = false := by
  have shifted : word >>> 63 = 0 := by
    apply UInt64.toNat_inj.mp
    rw [UInt64.toNat_shiftRight, Nat.shiftRight_eq_div_pow]
    exact Nat.div_eq_of_lt small
  simp [negative, shifted]

/-- The word of a positive integer with at most 53 bits, as a number. -/
theorem ofNat_toNat {n : Nat} (positive : n ≠ 0) (small : Nat.log2 n ≤ 52) :
    (ofNat n).toNat = (Nat.log2 n + 1022) * 2 ^ 52 + n * 2 ^ (52 - Nat.log2 n) := by
  have upper : n < 2 ^ (Nat.log2 n + 1) := Nat.lt_log2_self
  have shifted : n * 2 ^ (52 - Nat.log2 n) < 2 ^ 53 := by
    calc n * 2 ^ (52 - Nat.log2 n)
        < 2 ^ (Nat.log2 n + 1) * 2 ^ (52 - Nat.log2 n) :=
          Nat.mul_lt_mul_of_pos_right upper (Nat.two_pow_pos _)
      _ = 2 ^ 53 := by
          rw [← Nat.pow_add]
          congr 1
          omega
  rw [ofNat, if_neg positive, significand, if_pos small, UInt64.toNat_ofNat_of_lt']
  have leading : (Nat.log2 n + 1022) * 2 ^ 52 ≤ 1074 * 2 ^ 52 :=
    Nat.mul_le_mul_right _ (by omega)
  change _ < 2 ^ 64
  omega

end Binary64
