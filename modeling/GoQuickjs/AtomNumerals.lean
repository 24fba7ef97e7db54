import GoQuickjs.AtomTable

/-!
# Numerals as atoms

`is_num_string` recognises exactly the numerals of the numbers below `2 ^ 32`. A tagged
atom is such a number below `2 ^ 31`, with one more bit.
-/

namespace GoQuickjs.Atoms

open Numerals

/-- The units of a numeral. -/
def digits (n : Nat) : List UInt16 := (numeral n).map UInt8.toUInt16

/-- `is_num` tests for the units of the decimal digits. -/
theorem isNum_iff {c : UInt16} : isNum c = true ↔ 48 ≤ c.toNat ∧ c.toNat ≤ 57 := by
  simp [isNum, UInt16.le_iff_toNat_le]

/-- A digit as a unit is the digit as a byte. -/
theorem isNum_byte {c : UInt16} (digit : isNum c = true) :
    c.toUInt8.toUInt16 = c ∧ isDigit c.toUInt8 = true ∧ c.toUInt8.toNat = c.toNat := by
  have bounds := isNum_iff.mp digit
  have same : c.toUInt8.toNat = c.toNat := by
    rw [UInt16.toNat_toUInt8]
    omega
  refine ⟨?_, isDigit_iff.mpr (by omega), same⟩
  rw [← UInt16.toNat_inj, UInt8.toNat_toUInt16, same]

/-- On bytes, `is_num` is the test for a digit. -/
theorem isNum_unit {c : UInt8} : isNum c.toUInt16 = isDigit c := by
  rw [Bool.eq_iff_iff, isNum_iff, isDigit_iff, UInt8.toNat_toUInt16]

/-- The number that digits continue. -/
def numberFrom (n : Nat) (units : List UInt16) : Nat :=
  units.foldl (fun n c => n * 10 + (c.toNat - 48)) n

/-- A number only grows by the digits that follow. -/
theorem le_numberFrom (n : Nat) (units : List UInt16) : n ≤ numberFrom n units := by
  induction units generalizing n with
  | nil => exact Nat.le_refl n
  | cons c rest inductionHypothesis =>
    have next := inductionHypothesis (n * 10 + (c.toNat - 48))
    exact Nat.le_trans (by omega) next

/-- The test on the upper half of 64 bits. -/
theorem shiftRight_ne_zero_iff {n : Nat} : n >>> 32 ≠ 0 ↔ 2 ^ 32 ≤ n := by
  rw [Nat.shiftRight_eq_div_pow, ne_eq, Nat.div_eq_zero_iff]
  omega

/-- The loop reads digits only, as long as the number is below `2 ^ 32`.

Proof: induction on the digits. -/
theorem numLoop_iff {n m : Nat} {units : List UInt16} (small : n < 2 ^ 32) :
    numLoop n units = some m ↔
      (∀ c ∈ units, isNum c = true) ∧ numberFrom n units = m ∧ m < 2 ^ 32 := by
  induction units generalizing n with
  | nil =>
    rw [numLoop, Option.some.injEq]
    constructor
    · rintro rfl
      exact ⟨by simp, rfl, small⟩
    · rintro ⟨_, same, _⟩
      exact same
  | cons c rest inductionHypothesis =>
    rw [numLoop]
    by_cases digit : isNum c = true
    · rw [if_neg (by simp [digit])]
      by_cases large : (n * 10 + (c.toNat - 48)) >>> 32 ≠ 0
      · rw [if_pos large]
        constructor
        · intro absurd
          cases absurd
        · rintro ⟨_, same, below⟩
          have grown := le_numberFrom (n * 10 + (c.toNat - 48)) rest
          have whole : numberFrom (n * 10 + (c.toNat - 48)) rest = m := same
          have large := shiftRight_ne_zero_iff.mp large
          omega
      · rw [if_neg large, inductionHypothesis
          (Nat.lt_of_not_le fun many => large (shiftRight_ne_zero_iff.mpr many))]
        simp [digit, numberFrom]
    · rw [if_pos (by simpa using digit)]
      constructor
      · intro absurd
        cases absurd
      · rintro ⟨all, _⟩
        exact absurd (all c (List.mem_cons_self ..)) digit

/-- The number of a text of digits, unit by unit and byte by byte. -/
theorem numberFrom_bytes (bytes : List UInt8) (n : Nat) :
    numberFrom n (bytes.map UInt8.toUInt16) =
      bytes.foldl (fun n c => 10 * n + (c.toNat - 48)) n := by
  induction bytes generalizing n with
  | nil => rfl
  | cons c rest inductionHypothesis =>
    have next := inductionHypothesis (n * 10 + (c.toNat - 48))
    rw [List.map_cons, List.foldl_cons, numberFrom, List.foldl_cons, UInt8.toNat_toUInt16,
      Nat.mul_comm 10 n]
    exact next

/-- The digits of a number are read back as the number. -/
theorem numberFrom_digits (n : Nat) : numberFrom 0 (digits n) = n := by
  rw [digits, numberFrom_bytes]
  exact value_numeral n

/-- What `is_num_string` recognises is a numeral. -/
theorem digits_of_isNumString {n : Nat} {units : List UInt16}
    (number : isNumString units = some n) : n < 2 ^ 32 ∧ units = digits n := by
  cases units with
  | nil => simp [isNumString] at number
  | cons c rest =>
    rw [isNumString] at number
    split at number
    · cases number
    · split at number
      · rename_i digit
        split at number
        · rename_i zero
          split at number
          · cases number
          · rename_i alone
            obtain rfl := Option.some.inj number
            have ended : rest = [] := List.length_eq_zero_iff.mp (not_not.mp alone)
            refine ⟨by omega, ?_⟩
            rw [ended, zero, digits, numeral_zero]
            rfl
        · rename_i leading
          have bounds := isNum_iff.mp digit
          obtain ⟨all, value_eq, below⟩ := (numLoop_iff (by omega)).mp number
          refine ⟨below, ?_⟩
          have bytes : ∀ d ∈ c :: rest, isNum d = true := by
            intro d member
            rcases List.mem_cons.mp member with rfl | later
            · exact digit
            · exact all d later
          have back : ((c :: rest).map UInt16.toUInt8).map UInt8.toUInt16 = c :: rest := by
            rw [List.map_map]
            refine (List.map_congr_left fun d member => ?_).trans (List.map_id _)
            exact (isNum_byte (bytes d member)).1
          have canonical : Canonical ((c :: rest).map UInt16.toUInt8) := by
            refine ⟨by simp, fun d member => ?_, fun zero => ?_⟩
            · obtain ⟨u, inside, rfl⟩ := List.mem_map.mp member
              exact (isNum_byte (bytes u inside)).2.1
            · have first : c.toUInt8 = 48 := Option.some.inj zero
              refine absurd ?_ leading
              rw [← (isNum_byte digit).1, first]
              rfl
          have value_n : value ((c :: rest).map UInt16.toUInt8) = n := by
            rw [value, ← numberFrom_bytes, back, ← value_eq, numberFrom, List.foldl_cons,
              Nat.zero_mul, Nat.zero_add]
            rfl
          rw [digits, ← value_n, numeral_value canonical, back]
      · cases number

/-- `is_num_string` recognises every numeral below `2 ^ 32`. -/
theorem isNumString_digits {n : Nat} (below : n < 2 ^ 32) : isNumString (digits n) = some n := by
  have short : (numeral n).length ≤ 10 := numeral_length_le (k := 9) (by omega)
  have value_eq := numberFrom_digits n
  have all : ∀ c ∈ digits n, isNum c = true := by
    intro c member
    obtain ⟨b, inside, rfl⟩ := List.mem_map.mp member
    rw [isNum_unit]
    exact numeral_digits inside
  have long : (digits n).length = (numeral n).length := List.length_map ..
  cases split : digits n with
  | nil =>
    rw [digits, List.map_eq_nil_iff] at split
    exact absurd split (numeral_ne_nil n)
  | cons c rest =>
    rw [split] at value_eq all long
    have digit := all c (List.mem_cons_self ..)
    have bounds := isNum_iff.mp digit
    rw [isNumString, if_neg (by simp at long ⊢; omega), if_pos digit]
    by_cases zero : c = 48
    · have first : (numeral n).head? = some 48 := by
        obtain ⟨b, tail, here, unit, _⟩ := List.map_eq_cons_iff.mp split
        have byte : b = 48 := by
          rw [← UInt8.toNat_inj, ← UInt8.toNat_toUInt16, unit, zero]
          rfl
        rw [here, byte]
        rfl
      have none_else : n = 0 := numeral_head first
      subst none_else
      rw [digits, numeral_zero] at split
      obtain ⟨_, rfl⟩ := List.cons.inj split
      rw [if_pos zero]
      rfl
    · rw [if_neg zero, numLoop_iff (by omega)]
      refine ⟨fun d member => all d (List.mem_cons_of_mem _ member), ?_, below⟩
      rw [← value_eq, numberFrom, numberFrom, List.foldl_cons, Nat.zero_mul, Nat.zero_add]

/-- `is_num_string` recognises the numerals below `2 ^ 32`. -/
theorem isNumString_iff {n : Nat} {units : List UInt16} :
    isNumString units = some n ↔ n < 2 ^ 32 ∧ units = digits n := by
  constructor
  · exact digits_of_isNumString
  · rintro ⟨below, rfl⟩
    exact isNumString_digits below

/-- Different numbers have different digits. -/
theorem digits_injective {n m : Nat} (same : digits n = digits m) : n = m := by
  rw [← numberFrom_digits n, same, numberFrom_digits]

/-! ## Tagged atoms -/

/-- Setting the tag bit of a small number adds `2 ^ 31`. -/
theorem atomFromUInt32_eq {n : Nat} (small : n ≤ jsAtomMaxInt) :
    atomFromUInt32 n = n + 2 ^ 31 := by
  simp only [jsAtomMaxInt, jsAtomTagInt] at small
  have split := Nat.two_pow_add_eq_or_of_lt (b := n) (i := 31) (by omega) 1
  rw [Nat.mul_one] at split
  rw [atomFromUInt32, jsAtomTagInt, Nat.lor_comm, ← split, Nat.add_comm]

/-- Clearing the tag bit takes the remainder. -/
theorem atomToUInt32_eq (atom : Nat) : atomToUInt32 atom = atom % 2 ^ 31 :=
  Nat.and_two_pow_sub_one_eq_mod atom 31

/-- A number without the highest of its 32 bits is not tagged. -/
theorem isTaggedInt_small {atom : Nat} (small : atom < 2 ^ 31) : isTaggedInt atom = false := by
  rw [isTaggedInt, jsAtomTagInt, Nat.and_two_pow, Nat.testBit_lt_two_pow small]
  rfl

/-- A small number survives as a tagged atom, which is never counted. -/
theorem isTaggedInt_fromUInt32 {n : Nat} (small : n ≤ jsAtomMaxInt) :
    isTaggedInt (atomFromUInt32 n) = true ∧ atomToUInt32 (atomFromUInt32 n) = n ∧
      isConst (atomFromUInt32 n) = true := by
  rw [atomToUInt32_eq, atomFromUInt32_eq small]
  simp only [jsAtomMaxInt, jsAtomTagInt] at small
  refine ⟨?_, by omega, ?_⟩
  · rw [isTaggedInt, jsAtomTagInt, Nat.and_two_pow]
    have bit : (n + 2 ^ 31).testBit 31 = true := by
      rw [Nat.testBit_eq_decide_div_mod_eq]
      simp only [decide_eq_true_eq]
      omega
    rw [bit]
    rfl
  · simp [isConst, jsAtomTagInt]

end GoQuickjs.Atoms
