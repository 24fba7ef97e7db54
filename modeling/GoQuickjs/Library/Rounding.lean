import Mathlib.Algebra.Order.Field.Rat
import Mathlib.Algebra.Order.Ring.Abs
import Mathlib.Data.Sign.Basic
import Mathlib.Tactic.Linarith
import Mathlib.Tactic.Positivity
import Mathlib.Tactic.FieldSimp
import GoQuickjs.Library.Binary64

/-!
# The double nearest to an integer

The value of a finite word is an integer multiple of the smallest positive double. In a
range where doubles are `2 ^ lost` apart, no double lies strictly between two multiples
of that distance, so the multiple chosen by `ofNat` is nearest to the integer, and the
even one of two that are equally near.
-/

namespace Binary64

/-- The smallest positive double is `2 ^ -1074`. -/
@[irreducible] def precision : Nat := 1074

/-- The magnitude of a word in units of the smallest positive double. -/
def magnitude (word : UInt64) : Nat :=
  if exponent word = 0 then (fraction word).toNat
  else (2 ^ 52 + (fraction word).toNat) * 2 ^ (exponent word - 1)

/-- The number that a finite word stands for. -/
def value (word : UInt64) : ℚ :=
  (if negative word then -1 else 1) * (magnitude word / 2 ^ precision)

/-- Neither an infinity nor a NaN. -/
def IsFinite (word : UInt64) : Prop := exponent word ≠ 0x7ff

/-- The word is the double nearest to the number, and among two that are equally near
the one with an even fraction. -/
structure IsNearest (x : ℚ) (word : UInt64) : Prop where
  finite : IsFinite word
  nearest : ∀ other, IsFinite other → |value word - x| ≤ |value other - x|
  even : ∀ other, IsFinite other → |value word - x| = |value other - x| →
    value other = value word ∨ (fraction word).toNat % 2 = 0

/-! ## Distances between doubles -/

/-- The magnitude is a significand of 53 bits times a power of two. -/
theorem magnitude_eq (word : UInt64) :
    ∃ m e, m < 2 ^ 53 ∧ magnitude word = m * 2 ^ e := by
  have small : (fraction word).toNat < 2 ^ 52 := by
    rw [fraction_toNat]
    exact Nat.mod_lt _ (Nat.two_pow_pos 52)
  unfold magnitude
  split
  · exact ⟨(fraction word).toNat, 0, by omega, by simp⟩
  · exact ⟨2 ^ 52 + (fraction word).toNat, exponent word - 1, by omega, rfl⟩

/-- No double lies strictly between two neighbouring multiples of `2 ^ t` that have 53
bits. -/
theorem magnitude_gap (word : UInt64) {k t : Nat} (lower : 2 ^ 52 ≤ k) :
    magnitude word ≤ k * 2 ^ t ∨ (k + 1) * 2 ^ t ≤ magnitude word := by
  obtain ⟨m, e, small, same⟩ := magnitude_eq word
  rw [same]
  by_cases fine : e < t
  · left
    calc m * 2 ^ e ≤ 2 ^ 53 * 2 ^ e := Nat.mul_le_mul_right _ (by omega)
      _ = 2 ^ 52 * 2 ^ (e + 1) := by rw [Nat.pow_succ 2 e]; ring
      _ ≤ 2 ^ 52 * 2 ^ t := Nat.mul_le_mul_left _ (Nat.pow_le_pow_right (by decide) (by omega))
      _ ≤ k * 2 ^ t := Nat.mul_le_mul_right _ lower
  · have multiple : m * 2 ^ e = (m * 2 ^ (e - t)) * 2 ^ t := by
      rw [Nat.mul_assoc, ← Nat.pow_add]
      congr 2
      omega
    rw [multiple]
    rcases Nat.lt_or_ge k (m * 2 ^ (e - t)) with above | below
    · exact Or.inr (Nat.mul_le_mul_right _ above)
    · exact Or.inl (Nat.mul_le_mul_right _ below)

/-- The same for the values. -/
theorem value_gap (word : UInt64) {k lost : Nat} (lower : 2 ^ 52 ≤ k) :
    value word ≤ k * 2 ^ lost ∨ (k + 1) * 2 ^ lost ≤ value word := by
  have unit : (0 : ℚ) < 2 ^ precision := by positivity
  have scaled : ∀ j : ℚ, j * 2 ^ lost = j * 2 ^ (lost + precision) / 2 ^ precision := by
    intro j
    rw [pow_add, ← mul_assoc, mul_div_assoc, div_self unit.ne', mul_one]
  by_cases sign : negative word = true
  · left
    have below : value word ≤ 0 := by
      rw [value, if_pos sign]
      have magnitude : (0 : ℚ) ≤ magnitude word / 2 ^ precision := by positivity
      linarith
    exact below.trans (by positivity)
  · rw [value, if_neg sign, one_mul, scaled, scaled]
    rcases magnitude_gap word (t := lost + precision) lower with below | above
    · left
      apply div_le_div_of_nonneg_right _ unit.le
      exact_mod_cast below
    · right
      apply div_le_div_of_nonneg_right _ unit.le
      exact_mod_cast above

/-! ## Words of natural numbers -/

/-- The significand of a positive integer has 53 bits, or is the next power of two. -/
theorem significand_bounds {n : Nat} (positive : n ≠ 0) :
    2 ^ 52 ≤ significand n (Nat.log2 n) ∧ significand n (Nat.log2 n) ≤ 2 ^ 53 := by
  have lower : 2 ^ Nat.log2 n ≤ n := Nat.log2_self_le positive
  have upper : n < 2 ^ (Nat.log2 n + 1) := Nat.lt_log2_self
  unfold significand
  split
  · rename_i small
    have power : 2 ^ Nat.log2 n * 2 ^ (52 - Nat.log2 n) = 2 ^ 52 := by
      rw [← Nat.pow_add]
      congr 1
      omega
    have double : 2 ^ (Nat.log2 n + 1) * 2 ^ (52 - Nat.log2 n) = 2 ^ 53 := by
      rw [← Nat.pow_add]
      congr 1
      omega
    exact ⟨power ▸ Nat.mul_le_mul_right _ lower, double ▸ Nat.mul_le_mul_right _ upper.le⟩
  · rename_i large
    have power : 2 ^ Nat.log2 n = 2 ^ 52 * 2 ^ (Nat.log2 n - 52) := by
      rw [← Nat.pow_add]
      congr 1
      omega
    have double : 2 ^ (Nat.log2 n + 1) = 2 ^ 53 * 2 ^ (Nat.log2 n - 52) := by
      rw [← Nat.pow_add]
      congr 1
      omega
    have kept : 2 ^ 52 ≤ n / 2 ^ (Nat.log2 n - 52) :=
      (Nat.le_div_iff_mul_le (Nat.two_pow_pos _)).mpr (power ▸ lower)
    have below : n / 2 ^ (Nat.log2 n - 52) < 2 ^ 53 :=
      (Nat.div_lt_iff_lt_mul (Nat.two_pow_pos _)).mpr (double ▸ upper)
    simp only
    split <;> omega

/-- The word of a positive integer, as a number. -/
theorem ofNat_toNat_eq {n : Nat} (positive : n ≠ 0) (small : Nat.log2 n ≤ 1022) :
    (ofNat n).toNat = (Nat.log2 n + 1022) * 2 ^ 52 + significand n (Nat.log2 n) := by
  have bounds := significand_bounds positive
  rw [ofNat, if_neg positive, UInt64.toNat_ofNat_of_lt']
  change _ < 2 ^ 64
  omega

/-- The fields of that word. A significand of `2 ^ 53` has moved the exponent up. -/
theorem ofNat_magnitude {n : Nat} (positive : n ≠ 0) (small : Nat.log2 n ≤ 1022) :
    magnitude (ofNat n) = significand n (Nat.log2 n) * 2 ^ (Nat.log2 n + 1022) := by
  have word := ofNat_toNat_eq positive small
  have bounds := significand_bounds positive
  generalize significand n (Nat.log2 n) = s at word bounds
  rw [magnitude, exponent_eq, fraction_toNat, word]
  by_cases carried : s = 2 ^ 53
  · have exponent : ((Nat.log2 n + 1022) * 2 ^ 52 + s) / 2 ^ 52 % 2 ^ 11 = Nat.log2 n + 1024 := by
      omega
    have fraction : ((Nat.log2 n + 1022) * 2 ^ 52 + s) % 2 ^ 52 = 0 := by omega
    rw [exponent, fraction, if_neg (by omega), carried,
      show Nat.log2 n + 1024 - 1 = (Nat.log2 n + 1022) + 1 by omega, Nat.add_zero,
      Nat.pow_succ 2 (Nat.log2 n + 1022), Nat.mul_comm (2 ^ (Nat.log2 n + 1022)) 2,
      ← Nat.mul_assoc, ← Nat.pow_succ 2 52]
  · have exponent : ((Nat.log2 n + 1022) * 2 ^ 52 + s) / 2 ^ 52 % 2 ^ 11 = Nat.log2 n + 1023 := by
      omega
    have fraction : ((Nat.log2 n + 1022) * 2 ^ 52 + s) % 2 ^ 52 = s - 2 ^ 52 := by omega
    rw [exponent, fraction, if_neg (by omega),
      show Nat.log2 n + 1023 - 1 = Nat.log2 n + 1022 by omega,
      show 2 ^ 52 + (s - 2 ^ 52) = s by omega]

/-- The integer that `ofNat` rounds to. -/
def rounded (n : Nat) : Nat :=
  if Nat.log2 n ≤ 52 then n else significand n (Nat.log2 n) * 2 ^ (Nat.log2 n - 52)

/-- A rounded natural number of moderate size is finite. -/
theorem exponent_ofNat_lt {n : Nat} (small : Nat.log2 n ≤ 1022) : exponent (ofNat n) < 0x7ff := by
  by_cases positive : n = 0
  · subst positive
    decide
  · have bounds := significand_bounds positive
    rw [exponent_eq, ofNat_toNat_eq positive small]
    omega

/-- A rounded natural number is not negative. -/
theorem negative_ofNat {n : Nat} (small : Nat.log2 n ≤ 1022) : negative (ofNat n) = false := by
  by_cases positive : n = 0
  · subst positive
    decide
  · have bounds := significand_bounds positive
    apply negative_eq_false
    rw [ofNat_toNat_eq positive small]
    omega

/-- The value of the word of a natural number. -/
theorem value_ofNat {n : Nat} (small : Nat.log2 n ≤ 1022) : value (ofNat n) = rounded n := by
  rw [value, negative_ofNat small, if_neg (by decide), one_mul]
  by_cases positive : n = 0
  · subst positive
    simp [rounded, ofNat, magnitude, exponent, fraction]
  · have unit : (2 : ℚ) ^ precision ≠ 0 := by positivity
    rw [ofNat_magnitude positive small, div_eq_iff unit, rounded]
    have moved : significand n (Nat.log2 n) * 2 ^ (Nat.log2 n + 1022) =
        (if Nat.log2 n ≤ 52 then n else significand n (Nat.log2 n) * 2 ^ (Nat.log2 n - 52)) *
          2 ^ precision := by
      split
      · rename_i exact
        rw [significand, if_pos exact, Nat.mul_assoc, ← Nat.pow_add,
          show 52 - Nat.log2 n + (Nat.log2 n + 1022) = precision by unfold precision; omega]
      · rw [Nat.mul_assoc, ← Nat.pow_add,
          show Nat.log2 n - 52 + precision = Nat.log2 n + 1022 by unfold precision; omega]
    exact_mod_cast moved

/-! ## The nearest double -/

/-- The distance to a number that is not above. -/
theorem distance_below {x y : ℚ} (below : y ≤ x) : |y - x| = x - y := by
  rw [abs_sub_comm, abs_of_nonneg (by linarith)]

/-- The distance to a number that is not below. -/
theorem distance_above {x y : ℚ} (above : x ≤ y) : |y - x| = y - x :=
  abs_of_nonneg (by linarith)

/-- Outside a gap everything is as far away as one of its ends. -/
theorem distance_outside {x low high y : ℚ} (between : low ≤ x ∧ x ≤ high)
    (outside : y ≤ low ∨ high ≤ y) : x - low ≤ |y - x| ∨ high - x ≤ |y - x| := by
  rcases outside with below | above
  · rw [distance_below (below.trans between.1)]
    exact .inl (by linarith)
  · rw [distance_above (between.2.trans above)]
    exact .inr (by linarith)

/-- A multiple that is as near as both neighbours of the number is nearest. -/
theorem nearest_of_gap {x low high near : ℚ} (between : low ≤ x ∧ x ≤ high)
    (chosen : near = low ∧ x - low ≤ high - x ∨ near = high ∧ high - x ≤ x - low)
    {y : ℚ} (outside : y ≤ low ∨ high ≤ y) : |near - x| ≤ |y - x| := by
  have closest : |near - x| ≤ x - low ∧ |near - x| ≤ high - x := by
    rcases chosen with ⟨rfl, closer⟩ | ⟨rfl, closer⟩
    · rw [distance_below between.1]
      exact ⟨le_rfl, closer⟩
    · rw [distance_above between.2]
      exact ⟨closer, le_rfl⟩
  rcases distance_outside between outside with below | above
  · exact closest.1.trans below
  · exact closest.2.trans above

/-- A strictly nearer multiple is the only one at its distance. -/
theorem unique_of_gap {x low high near : ℚ} (between : low ≤ x ∧ x ≤ high)
    (chosen : near = low ∧ x - low < high - x ∨ near = high ∧ high - x < x - low)
    {y : ℚ} (outside : y ≤ low ∨ high ≤ y) (same : |near - x| = |y - x|) : y = near := by
  rcases outside with below | above
  · rw [distance_below (below.trans between.1)] at same
    rcases chosen with ⟨rfl, closer⟩ | ⟨rfl, closer⟩
    · rw [distance_below between.1] at same
      linarith
    · rw [distance_above between.2] at same
      linarith
  · rw [distance_above (between.2.trans above)] at same
    rcases chosen with ⟨rfl, closer⟩ | ⟨rfl, closer⟩
    · rw [distance_below between.1] at same
      linarith
    · rw [distance_above between.2] at same
      linarith

/-- A number that is a double is nearest to itself. -/
theorem nearest_of_exact {x : ℚ} {word : UInt64} (finite : IsFinite word)
    (exact : value word = x) : IsNearest x word where
  finite := finite
  nearest other _ := by
    rw [exact, sub_self, abs_zero]
    exact abs_nonneg _
  even other _ same := by
    rw [exact, sub_self, abs_zero] at same
    left
    rw [exact]
    exact sub_eq_zero.mp (abs_eq_zero.mp same.symm)

/-- A large integer is rounded down below the middle, up above it, and in the middle to
an even significand. -/
theorem significand_large {n : Nat} (large : ¬ Nat.log2 n ≤ 52) :
    (significand n (Nat.log2 n) = n / 2 ^ (Nat.log2 n - 52) ∧
        2 * (n % 2 ^ (Nat.log2 n - 52)) < 2 ^ (Nat.log2 n - 52)) ∨
      (significand n (Nat.log2 n) = n / 2 ^ (Nat.log2 n - 52) + 1 ∧
        2 ^ (Nat.log2 n - 52) < 2 * (n % 2 ^ (Nat.log2 n - 52))) ∨
      (2 * (n % 2 ^ (Nat.log2 n - 52)) = 2 ^ (Nat.log2 n - 52) ∧
        significand n (Nat.log2 n) % 2 = 0 ∧
        (significand n (Nat.log2 n) = n / 2 ^ (Nat.log2 n - 52) ∨
          significand n (Nat.log2 n) = n / 2 ^ (Nat.log2 n - 52) + 1)) := by
  have halved : 2 ^ (Nat.log2 n - 52) = 2 * 2 ^ (Nat.log2 n - 52 - 1) := by
    rw [← Nat.pow_succ']
    congr 1
    omega
  rw [significand, if_neg large]
  simp only [halved]
  generalize 2 ^ (Nat.log2 n - 52 - 1) = half
  split
  · rename_i up
    rcases up with above | ⟨middle, odd⟩
    · exact Or.inr (Or.inl ⟨rfl, by omega⟩)
    · exact Or.inr (Or.inr ⟨by omega, by omega, Or.inr rfl⟩)
  · rename_i down
    by_cases middle : n % (2 * half) = half
    · exact Or.inr (Or.inr ⟨by omega, by omega, Or.inl rfl⟩)
    · exact Or.inl ⟨rfl, by omega⟩

/-- The fraction of a word is even when its significand is. -/
theorem fraction_even {n : Nat} (positive : n ≠ 0) (small : Nat.log2 n ≤ 1022)
    (even : significand n (Nat.log2 n) % 2 = 0) : (fraction (ofNat n)).toNat % 2 = 0 := by
  rw [fraction_toNat, ofNat_toNat_eq positive small]
  omega

/-- A word whose value is chosen among the two multiples around a number, with no double
between them, is nearest to it. -/
theorem nearest_of_parts {word : UInt64} {x : ℚ} {s k q rest : Nat} (finite : IsFinite word)
    (parts : x = k * q + rest) (below : rest < q) (near : value word = s * q)
    (outside : ∀ other, value other ≤ k * q ∨ (k + 1) * q ≤ value other)
    (chosen : (s = k ∧ 2 * rest < q) ∨ (s = k + 1 ∧ q < 2 * rest) ∨
      (2 * rest = q ∧ s % 2 = 0 ∧ (s = k ∨ s = k + 1)))
    (even : s % 2 = 0 → (fraction word).toNat % 2 = 0) : IsNearest x word := by
  have between : (k * q : ℚ) ≤ x ∧ x ≤ (k + 1) * q := by
    have bound : (rest : ℚ) < q := by exact_mod_cast below
    have start : (0 : ℚ) ≤ rest := by positivity
    constructor <;> linarith
  rcases chosen with ⟨rfl, low⟩ | ⟨rfl, high⟩ | ⟨middle, isEven, either⟩
  · have closer : x - s * q < (s + 1) * q - x := by
      have strict : (2 * rest : ℚ) < q := by exact_mod_cast low
      linarith
    refine ⟨finite, fun other _ => ?_, fun other _ same => Or.inl ?_⟩
    · exact nearest_of_gap between (Or.inl ⟨near, closer.le⟩) (outside other)
    · exact unique_of_gap between (Or.inl ⟨near, closer⟩) (outside other) same
  · have closer : (k + 1) * q - x < x - k * q := by
      have strict : (q : ℚ) < 2 * rest := by exact_mod_cast high
      linarith
    push_cast at near
    refine ⟨finite, fun other _ => ?_, fun other _ same => Or.inl ?_⟩
    · exact nearest_of_gap between (Or.inr ⟨near, closer.le⟩) (outside other)
    · exact unique_of_gap between (Or.inr ⟨near, closer⟩) (outside other) same
  · have tie : x - k * q = (k + 1) * q - x := by
      have exactly : (2 * rest : ℚ) = q := by exact_mod_cast middle
      linarith
    refine ⟨finite, fun other _ => ?_, fun other _ same => Or.inr (even isEven)⟩
    rcases either with rfl | rfl
    · exact nearest_of_gap between (Or.inl ⟨near, tie.le⟩) (outside other)
    · push_cast at near
      exact nearest_of_gap between (Or.inr ⟨near, tie.ge⟩) (outside other)

/-- The word of a natural number is the double nearest to it. -/
theorem ofNat_nearest {n : Nat} (small : Nat.log2 n ≤ 1022) : IsNearest n (ofNat n) := by
  have finite : IsFinite (ofNat n) := (exponent_ofNat_lt small).ne
  by_cases exact : Nat.log2 n ≤ 52
  · apply nearest_of_exact finite
    rw [value_ofNat small, rounded, if_pos exact]
  · have positive : n ≠ 0 := by
      rintro rfl
      simp at exact
    have kept : 2 ^ 52 ≤ n / 2 ^ (Nat.log2 n - 52) := by
      rw [Nat.le_div_iff_mul_le (Nat.two_pow_pos _), ← Nat.pow_add,
        show 52 + (Nat.log2 n - 52) = Nat.log2 n by omega]
      exact Nat.log2_self_le positive
    have outside := fun other => @value_gap other _ (Nat.log2 n - 52) kept
    have near := value_ofNat small
    rw [rounded, if_neg exact] at near
    have even := fraction_even positive small
    have chosen := significand_large exact
    have parts : (n : ℚ) = (n / 2 ^ (Nat.log2 n - 52) : Nat) * (2 ^ (Nat.log2 n - 52) : Nat) +
        (n % 2 ^ (Nat.log2 n - 52) : Nat) := by
      exact_mod_cast (Nat.div_add_mod' n _).symm
    have below : n % 2 ^ (Nat.log2 n - 52) < 2 ^ (Nat.log2 n - 52) :=
      Nat.mod_lt n (Nat.two_pow_pos _)
    have power : ((2 ^ (Nat.log2 n - 52) : Nat) : ℚ) = 2 ^ (Nat.log2 n - 52) := by push_cast; rfl
    simp only [← power] at outside
    push_cast at near
    rw [← power] at near
    exact nearest_of_parts finite parts below near outside chosen even

/-- Integers up to `2 ^ 53` are doubles. -/
theorem rounded_exact {n : Nat} (small : n ≤ 2 ^ 53) : rounded n = n := by
  by_cases exact : Nat.log2 n ≤ 52
  · rw [rounded, if_pos exact]
  · have large : 2 ^ 53 ≤ n := by
      have positive : n ≠ 0 := by
        rintro rfl
        simp at exact
      exact (Nat.pow_le_pow_right (by decide) (by omega)).trans (Nat.log2_self_le positive)
    obtain rfl : n = 2 ^ 53 := Nat.le_antisymm small large
    decide

/-- A positive number does not round to zero. -/
theorem rounded_pos {n : Nat} (positive : 0 < n) : 0 < rounded n := by
  unfold rounded
  split
  · exact positive
  · have bounds := significand_bounds positive.ne'
    exact Nat.mul_pos (by omega) (Nat.two_pow_pos _)

/-! ## Negative numbers -/

/-- The word with its sign bit turned over. -/
def flipped (word : UInt64) : UInt64 := word + 0x8000000000000000

/-- Flipping the sign adds the top bit. -/
theorem flipped_toNat (word : UInt64) : (flipped word).toNat = (word.toNat + 2 ^ 63) % 2 ^ 64 := by
  rw [flipped, UInt64.toNat_add]
  rfl

/-- The sign is the top bit. -/
theorem negative_iff (word : UInt64) : negative word = true ↔ 2 ^ 63 ≤ word.toNat := by
  by_cases small : word.toNat < 2 ^ 63
  · rw [negative_eq_false small]
    simp
    omega
  · have shifted : word >>> 63 ≠ 0 := by
      intro zero
      have number := congrArg UInt64.toNat zero
      rw [UInt64.toNat_shiftRight, Nat.shiftRight_eq_div_pow] at number
      change word.toNat / 2 ^ 63 = 0 at number
      omega
    simp only [negative, bne_iff_ne, ne_eq, shifted, not_false_eq_true, true_iff]
    omega

/-- Flipping the sign leaves the exponent. -/
theorem exponent_flipped (word : UInt64) : exponent (flipped word) = exponent word := by
  rw [exponent_eq, exponent_eq, flipped_toNat]
  omega

/-- Flipping the sign leaves the fraction. -/
theorem fraction_flipped (word : UInt64) :
    (fraction (flipped word)).toNat = (fraction word).toNat := by
  rw [fraction_toNat, fraction_toNat, flipped_toNat]
  omega

/-- Flipping the sign negates the value. -/
theorem value_flipped (word : UInt64) : value (flipped word) = -value word := by
  have magnitudes : magnitude (flipped word) = magnitude word := by
    rw [magnitude, magnitude, exponent_flipped, fraction_flipped]
  have bound := word.toNat_lt
  rw [value, value, magnitudes]
  by_cases sign : 2 ^ 63 ≤ word.toNat
  · have turned : ¬ negative (flipped word) = true := by
      rw [negative_iff, flipped_toNat]
      omega
    rw [if_neg turned, if_pos ((negative_iff word).mpr sign)]
    ring
  · have turned : negative (flipped word) = true := by
      rw [negative_iff, flipped_toNat]
      omega
    rw [if_pos turned, if_neg (fun negated => sign ((negative_iff word).mp negated))]
    ring

/-- Rounding commutes with the sign. -/
theorem IsNearest.neg {x : ℚ} {word : UInt64} (near : IsNearest x word) :
    IsNearest (-x) (flipped word) := by
  have distance : ∀ other, |value (flipped other) - -x| = |value other - x| := by
    intro other
    rw [value_flipped, ← abs_neg]
    congr 1
    ring
  have turned : ∀ other, |value other - -x| = |value (flipped other) - x| := by
    intro other
    rw [value_flipped, ← abs_neg]
    congr 1
    ring
  have finite : ∀ other, IsFinite other → IsFinite (flipped other) := by
    intro other isFinite
    rwa [IsFinite, exponent_flipped]
  refine ⟨finite word near.finite, fun other isFinite => ?_, fun other isFinite same => ?_⟩
  · rw [distance, turned]
    exact near.nearest _ (finite other isFinite)
  · rw [distance, turned] at same
    rcases near.even _ (finite other isFinite) same with equal | even
    · left
      rw [value_flipped] at equal ⊢
      linarith
    · right
      rwa [fraction_flipped]

/-- A negative number is rounded as its opposite. -/
theorem ofInt_neg {n : Nat} (positive : 0 < n) (small : Nat.log2 n ≤ 1022) :
    ofInt (-n) = flipped (ofNat n) := by
  have below : (ofNat n).toNat < 2 ^ 63 := by
    have bounds := significand_bounds positive.ne'
    rw [ofNat_toNat_eq positive.ne' small]
    omega
  rw [ofInt, if_pos (by omega), Int.natAbs_neg, Int.natAbs_natCast]
  apply UInt64.toNat_inj.mp
  rw [UInt64.toNat_or, flipped_toNat]
  change (ofNat n).toNat ||| 2 ^ 63 = _
  have joined := Nat.two_pow_add_eq_or_of_lt below 1
  rw [Nat.mul_one] at joined
  rw [Nat.or_comm, ← joined]
  omega

/-- A natural number is rounded as such. -/
theorem ofInt_natCast (n : Nat) : ofInt n = ofNat n := by
  rw [ofInt, if_neg (by omega), Int.natAbs_natCast]

/-- The word of an integer is the double nearest to it. -/
theorem ofInt_nearest {n : Int} (small : Nat.log2 n.natAbs ≤ 1022) : IsNearest n (ofInt n) := by
  rcases Int.eq_nat_or_neg n with ⟨m, rfl | rfl⟩
  · rw [ofInt_natCast]
    exact_mod_cast ofNat_nearest (by simpa using small)
  · rcases Nat.eq_zero_or_pos m with rfl | positive
    · exact_mod_cast ofNat_nearest (n := 0) (by decide)
    · rw [ofInt_neg positive (by simpa using small)]
      push_cast
      exact (ofNat_nearest (by simpa using small)).neg

/-- The value of the word of an integer: the rounded magnitude with the sign. -/
theorem value_ofInt {n : Int} (small : Nat.log2 n.natAbs ≤ 1022) :
    value (ofInt n) = n.sign * rounded n.natAbs := by
  have zero : rounded 0 = 0 := rounded_exact (by decide)
  rcases Int.eq_nat_or_neg n with ⟨m, rfl | rfl⟩
  · rw [ofInt_natCast, value_ofNat (by simpa using small), Int.natAbs_natCast]
    rcases Nat.eq_zero_or_pos m with rfl | positive
    · simp [zero]
    · rw [Int.sign_eq_one_of_pos (by omega)]
      simp
  · rcases Nat.eq_zero_or_pos m with rfl | positive
    · have exact := value_ofNat (n := 0) (by decide)
      rw [← ofInt_natCast, zero] at exact
      simpa using exact
    · rw [ofInt_neg positive (by simpa using small), value_flipped,
        value_ofNat (by simpa using small), Int.natAbs_neg, Int.natAbs_natCast,
        Int.sign_eq_neg_one_of_neg (by omega)]
      simp

end Binary64
