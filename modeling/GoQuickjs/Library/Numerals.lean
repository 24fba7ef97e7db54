import Mathlib.Algebra.Group.Nat.Defs
import Mathlib.Data.List.Basic
import Mathlib.Data.List.Induction

/-!
# Decimal numerals

A string of ASCII digits has a value, and every number has one numeral: a string of digits that
does not begin with a zero, unless it is the zero alone. Other strings of digits with the same
value have zeros in front.
-/

namespace Numerals

/-- One of the characters from zero to nine. -/
def isDigit (c : UInt8) : Bool := 48 ≤ c && c ≤ 57

/-- The value of a string of digits. -/
def value (s : List UInt8) : Nat := s.foldl (fun n c => 10 * n + (c.toNat - 48)) 0

/-- The digits of a number without zeros in front. -/
def numeral (n : Nat) : List UInt8 :=
  if n < 10 then [UInt8.ofNat (48 + n)] else numeral (n / 10) ++ [UInt8.ofNat (48 + n % 10)]

/-- A string of digits without a zero in front of others. -/
def Canonical (s : List UInt8) : Prop :=
  s ≠ [] ∧ (∀ c ∈ s, isDigit c = true) ∧ (s.head? = some 48 → s = [48])

/-- A digit is one of the bytes from 48 to 57. -/
theorem isDigit_iff {c : UInt8} : isDigit c = true ↔ 48 ≤ c.toNat ∧ c.toNat ≤ 57 := by
  simp [isDigit, UInt8.le_iff_toNat_le]

/-- The byte of a digit is 48 more than the digit. -/
theorem digit_toNat {d : Nat} (small : d < 10) : (UInt8.ofNat (48 + d)).toNat = 48 + d := by
  rw [UInt8.toNat_ofNat']
  omega

/-- Zero is written as one digit. -/
theorem numeral_zero : numeral 0 = [48] := by
  rw [numeral]
  rfl

/-- A further digit counts ones, and tens what stood before it. -/
theorem value_append (s : List UInt8) (c : UInt8) :
    value (s ++ [c]) = 10 * value s + (c.toNat - 48) := by
  simp [value]

/-- The value of a number's numeral is the number. -/
theorem value_numeral (n : Nat) : value (numeral n) = n := by
  induction n using Nat.strongRecOn with
  | ind n inductionHypothesis =>
    rw [numeral]
    split
    · rename_i small
      change 10 * 0 + ((UInt8.ofNat (48 + n)).toNat - 48) = n
      rw [digit_toNat small]
      omega
    · rename_i large
      rw [value_append, inductionHypothesis (n / 10) (by omega), digit_toNat (Nat.mod_lt n (by omega))]
      omega

/-- A numeral has at least one digit. -/
theorem numeral_ne_nil (n : Nat) : numeral n ≠ [] := by
  rw [numeral]
  split <;> simp

/-- A numeral has digits only. -/
theorem numeral_digits {n : Nat} {c : UInt8} (inside : c ∈ numeral n) : isDigit c = true := by
  induction n using Nat.strongRecOn with
  | ind n inductionHypothesis =>
    have last : ∀ {d}, d < 10 → c = UInt8.ofNat (48 + d) → isDigit c = true := by
      rintro d small rfl
      rw [isDigit_iff, digit_toNat small]
      omega
    rw [numeral] at inside
    split at inside
    · rename_i small
      exact last small (List.mem_singleton.mp inside)
    · rename_i large
      rcases List.mem_append.mp inside with earlier | final
      · exact inductionHypothesis (n / 10) (by omega) earlier
      · exact last (Nat.mod_lt n (by omega)) (List.mem_singleton.mp final)

/-- A number below a power of ten has no more digits than its exponent. -/
theorem numeral_length_le {k n : Nat} (few : n < 10 ^ (k + 1)) : (numeral n).length ≤ k + 1 := by
  induction k generalizing n with
  | zero =>
    rw [numeral, if_pos (by simpa using few)]
    exact Nat.le_refl 1
  | succ k inductionHypothesis =>
    rw [numeral]
    split
    · simp
    · have quotient : n / 10 < 10 ^ (k + 1) := by
        rw [Nat.pow_succ] at few
        omega
      simpa using inductionHypothesis quotient

/-- Only the numeral of zero begins with a zero. -/
theorem numeral_head {n : Nat} (zero : (numeral n).head? = some 48) : n = 0 := by
  induction n using Nat.strongRecOn with
  | ind n inductionHypothesis =>
    rw [numeral] at zero
    split at zero
    · rename_i small
      have byte := congrArg UInt8.toNat (Option.some.inj zero)
      rw [digit_toNat small] at byte
      change 48 + n = 48 at byte
      omega
    · rename_i large
      rw [List.head?_append_of_ne_nil _ (numeral_ne_nil _)] at zero
      have none := inductionHypothesis (n / 10) (by omega) zero
      omega

/-- A canonical string is the numeral of its value.

Proof: induction on the string from its end. Without its last digit it is still canonical, and
its value is not zero, as it does not begin with one. -/
theorem numeral_value {s : List UInt8} (canonical : Canonical s) : numeral (value s) = s := by
  obtain ⟨some, digits, zero⟩ := canonical
  induction s using List.reverseRecOn with
  | nil => exact absurd rfl some
  | append_singleton front c inductionHypothesis =>
    have byte := isDigit_iff.mp (digits c (by simp))
    have last : UInt8.ofNat (48 + (c.toNat - 48)) = c := by
      rw [Nat.add_sub_cancel' byte.1, UInt8.ofNat_toNat]
    rw [value_append]
    by_cases alone : front = []
    · subst alone
      have small : 10 * value [] + (c.toNat - 48) = c.toNat - 48 := Nat.zero_add _
      rw [small, numeral, if_pos (by omega), last]
      rfl
    · have frontDigits : ∀ c ∈ front, isDigit c = true := fun c inside =>
        digits c (List.mem_append_left _ inside)
      have noZero : front.head? ≠ Option.some 48 := by
        intro leading
        rw [List.head?_append_of_ne_nil _ alone] at zero
        exact alone (by simpa using congrArg List.length (zero leading))
      have same := inductionHypothesis alone frontDigits fun leading => absurd leading noZero
      have positive : value front ≠ 0 := by
        intro nothing
        rw [nothing] at same
        exact noZero (by rw [← same, numeral_zero]; rfl)
      have tens : (10 * value front + (c.toNat - 48)) / 10 = value front := by omega
      have ones : (10 * value front + (c.toNat - 48)) % 10 = c.toNat - 48 := by omega
      rw [numeral, if_neg (by omega), tens, ones, same, last]

/-- The canonical strings are the numerals. -/
theorem canonical_iff {s : List UInt8} : Canonical s ↔ ∃ n, s = numeral n := by
  constructor
  · intro canonical
    exact ⟨value s, (numeral_value canonical).symm⟩
  · rintro ⟨n, rfl⟩
    refine ⟨numeral_ne_nil n, fun c => numeral_digits, ?_⟩
    intro zero
    rw [numeral_head zero, numeral_zero]

end Numerals
