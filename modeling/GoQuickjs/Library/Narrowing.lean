import Mathlib.Algebra.Group.Nat.Defs
import Mathlib.Data.Int.Order.Basic

/-!
# Numbers cut to a signed type

A signed type with `w` bits beside its sign holds the numbers from `-2 ^ w` to `2 ^ w - 1`. A
number that is cut to it keeps its last `w + 1` bits, of which the first one is the sign. If the
result is extended to an unsigned type of `v + 1` bits, a negative one becomes a number in the
upper half of that type. So a number of the lower half comes back as it was, as a smaller one, or
as a larger one, and its last `w + 1` bits and its size tell which.
-/

namespace Narrowing

variable {w v n : Nat}

/-- The number that remains in a signed type. -/
def cut (w n : Nat) : Int := (n : Int).bmod (2 ^ (w + 1))

/-- The number that a signed one is extended to in an unsigned type. -/
def extended (v : Nat) (z : Int) : Nat := (z % (2 ^ (v + 1) : Nat)).toNat

theorem cut_eq (w n : Nat) : cut w n =
    if n % 2 ^ (w + 1) < 2 ^ w then ((n % 2 ^ (w + 1) : Nat) : Int)
    else (n % 2 ^ (w + 1) : Nat) - (2 ^ (w + 1) : Nat) := by
  have double : 2 ^ (w + 1) = 2 * 2 ^ w := Nat.pow_succ'
  have residue : (n : Int) % (2 ^ (w + 1) : Nat) = (n % 2 ^ (w + 1) : Nat) :=
    (Int.natCast_emod n (2 ^ (w + 1))).symm
  rw [cut, Int.bmod_def, residue]
  split <;> split <;> omega

/-- The sign is the first of the bits that remain. -/
theorem cut_neg_iff (w n : Nat) : cut w n < 0 ↔ 2 ^ w ≤ n % 2 ^ (w + 1) := by
  have below : n % 2 ^ (w + 1) < 2 ^ (w + 1) := Nat.mod_lt _ (Nat.two_pow_pos _)
  rw [cut_eq]
  split <;> omega

/-- A number of the type is the number of its last bits. -/
theorem residue_eq (small : n < 2 ^ w) : n % 2 ^ (w + 1) = n := by
  have double : 2 ^ (w + 1) = 2 * 2 ^ w := Nat.pow_succ'
  exact Nat.mod_eq_of_lt (by omega)

/-- A number is kept when it is one of the type. -/
theorem cut_eq_iff : cut w n = n ↔ n < 2 ^ w := by
  have below : n % 2 ^ (w + 1) < 2 ^ (w + 1) := Nat.mod_lt _ (Nat.two_pow_pos _)
  constructor
  · intro kept
    rw [cut_eq] at kept
    split at kept <;> omega
  · intro small
    rw [cut_eq, residue_eq small, if_pos small]

/-! ## Extended to an unsigned type -/

/-- Without a sign the last bits of the number come back. -/
theorem extended_nonneg (narrower : w ≤ v) (sign : n % 2 ^ (w + 1) < 2 ^ w) :
    extended v (cut w n) = n % 2 ^ (w + 1) := by
  have wider : 2 ^ w ≤ 2 ^ v := Nat.pow_le_pow_right (by omega) narrower
  have doubleWider : 2 ^ (v + 1) = 2 * 2 ^ v := Nat.pow_succ'
  have inside : (n % 2 ^ (w + 1)) % 2 ^ (v + 1) = n % 2 ^ (w + 1) := Nat.mod_eq_of_lt (by omega)
  rw [extended, cut_eq, if_pos sign, ← Int.natCast_emod, inside, Int.toNat_natCast]

/-- With a sign the last bits come back below ones. -/
theorem extended_neg (narrower : w ≤ v) (sign : 2 ^ w ≤ n % 2 ^ (w + 1)) :
    extended v (cut w n) = 2 ^ (v + 1) - 2 ^ (w + 1) + n % 2 ^ (w + 1) := by
  have wider : 2 ^ (w + 1) ≤ 2 ^ (v + 1) := Nat.pow_le_pow_right (by omega) (by omega)
  have below : n % 2 ^ (w + 1) < 2 ^ (w + 1) := Nat.mod_lt _ (Nat.two_pow_pos _)
  have around : ((n % 2 ^ (w + 1) : Nat) - (2 ^ (w + 1) : Nat) : Int) % (2 ^ (v + 1) : Nat) =
      (2 ^ (v + 1) - 2 ^ (w + 1) + n % 2 ^ (w + 1) : Nat) := by
    rw [← Int.add_emod_right, Int.emod_eq_of_lt (by omega) (by omega)]
    omega
  rw [extended, cut_eq, if_neg (by omega), around, Int.toNat_natCast]

/-- That is a number of the upper half. -/
theorem upper_half (narrower : w ≤ v) (sign : 2 ^ w ≤ n % 2 ^ (w + 1)) :
    2 ^ v ≤ extended v (cut w n) := by
  have wider : 2 ^ w ≤ 2 ^ v := Nat.pow_le_pow_right (by omega) narrower
  have double : 2 ^ (w + 1) = 2 * 2 ^ w := Nat.pow_succ'
  have doubleWider : 2 ^ (v + 1) = 2 * 2 ^ v := Nat.pow_succ'
  rw [extended_neg narrower sign]
  omega

/-- A number of the lower half comes back as it was when the signed type has it. -/
theorem extended_cut_eq_iff (narrower : w ≤ v) (lower : n < 2 ^ v) :
    extended v (cut w n) = n ↔ n < 2 ^ w := by
  by_cases sign : n % 2 ^ (w + 1) < 2 ^ w
  · rw [extended_nonneg narrower sign]
    constructor
    · intro whole
      rwa [whole] at sign
    · exact residue_eq
  · have upper := upper_half narrower (Nat.not_lt.mp sign)
    constructor
    · intro same
      omega
    · intro small
      rw [residue_eq small] at sign
      exact absurd small sign

/-- It comes back smaller when bits in front of the last ones are lost and no sign is left. -/
theorem extended_cut_lt_iff (narrower : w ≤ v) (lower : n < 2 ^ v) :
    extended v (cut w n) < n ↔ 2 ^ w ≤ n ∧ n % 2 ^ (w + 1) < 2 ^ w := by
  have kept := extended_cut_eq_iff narrower lower
  by_cases sign : n % 2 ^ (w + 1) < 2 ^ w
  · have least : n % 2 ^ (w + 1) ≤ n := Nat.mod_le _ _
    rw [extended_nonneg narrower sign] at kept ⊢
    omega
  · have upper := upper_half narrower (Nat.not_lt.mp sign)
    omega

/-- It comes back larger when the first of the last bits is set. -/
theorem lt_extended_cut_iff (narrower : w ≤ v) (lower : n < 2 ^ v) :
    n < extended v (cut w n) ↔ 2 ^ w ≤ n % 2 ^ (w + 1) := by
  by_cases sign : n % 2 ^ (w + 1) < 2 ^ w
  · have least : n % 2 ^ (w + 1) ≤ n := Nat.mod_le _ _
    rw [extended_nonneg narrower sign]
    omega
  · have upper := upper_half narrower (Nat.not_lt.mp sign)
    omega

/-! ## 32 and 64 bits -/

theorem int32_ofNat (n : Nat) : (Int32.ofNat n).toInt = cut 31 n := Int32.toInt_ofNat'

theorem int32_neg_iff (n : Nat) : Int32.ofNat n < 0 ↔ 2 ^ 31 ≤ n % 2 ^ 32 := by
  rw [← cut_neg_iff, ← int32_ofNat]
  exact Int32.lt_iff_toInt_lt

/-- A signed number of 32 bits as an unsigned one of 64. -/
theorem int32_toUInt64 (x : Int32) : x.toInt64.toUInt64.toNat = extended 63 x.toInt := by
  have bits : x.toInt64.toUInt64.toBitVec = BitVec.ofInt 64 x.toInt := rfl
  rw [← UInt64.toNat_toBitVec, bits, BitVec.toNat_ofInt]
  rfl

end Narrowing
