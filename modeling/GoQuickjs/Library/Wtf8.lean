import Mathlib.Data.List.Basic
import Mathlib.Data.List.Chain
import Mathlib.Data.Nat.Bitwise

/-!
# Texts of 16-bit units as bytes

A text is a list of 16-bit units. A high surrogate followed by a low one stands for
one code point above `0xffff`; every other unit, an unmatched surrogate included,
stands for itself. Code points are written as bytes in UTF-8. The bytes determine the
text, and a zero byte stands only for a zero unit, so that cutting the bytes at the
first zero is cutting the text there.
-/

namespace Wtf8

/-- A unit from `0xd800` to `0xdbff`. -/
def isHi (c : Nat) : Bool := c >>> 10 == 0xd800 >>> 10

/-- A unit from `0xdc00` to `0xdfff`. -/
def isLo (c : Nat) : Bool := c >>> 10 == 0xdc00 >>> 10

/-- The code point of a surrogate pair. -/
def fromPair (hi lo : Nat) : Nat := 0x10000 + 0x400 * (hi - 0xd800) + (lo - 0xdc00)

/-- The code points of a text. -/
def codePoints : List UInt16 → List Nat
  | [] => []
  | [c] => [c.toNat]
  | c :: c1 :: rest =>
    if isHi c.toNat && isLo c1.toNat then fromPair c.toNat c1.toNat :: codePoints rest
    else c.toNat :: codePoints (c1 :: rest)

/-- The bytes of one code point. -/
def utf8 (c : Nat) : List UInt8 :=
  if c < 0x80 then [UInt8.ofNat c]
  else if c < 0x800 then [UInt8.ofNat (c >>> 6 ||| 0xc0), UInt8.ofNat (c &&& 0x3f ||| 0x80)]
  else if c < 0x10000 then
    [UInt8.ofNat (c >>> 12 ||| 0xe0), UInt8.ofNat (c >>> 6 &&& 0x3f ||| 0x80),
      UInt8.ofNat (c &&& 0x3f ||| 0x80)]
  else
    [UInt8.ofNat (c >>> 18 ||| 0xf0), UInt8.ofNat (c >>> 12 &&& 0x3f ||| 0x80),
      UInt8.ofNat (c >>> 6 &&& 0x3f ||| 0x80), UInt8.ofNat (c &&& 0x3f ||| 0x80)]

/-- The bytes of a text. -/
def encode (text : List UInt16) : List UInt8 := (codePoints text).flatMap utf8

/-! ## Code points -/

/-- The leading surrogates are the units from D800 to DBFF. -/
theorem isHi_iff {c : Nat} : isHi c = true ↔ 0xd800 ≤ c ∧ c < 0xdc00 := by
  simp only [isHi, Nat.shiftRight_eq_div_pow, beq_iff_eq]
  omega

/-- The trailing surrogates are the units from DC00 to DFFF. -/
theorem isLo_iff {c : Nat} : isLo c = true ↔ 0xdc00 ≤ c ∧ c < 0xe000 := by
  simp only [isLo, Nat.shiftRight_eq_div_pow, beq_iff_eq]
  omega

/-- The units of a code point. -/
def units (c : Nat) : List Nat :=
  if c < 0x10000 then [c] else [0xd800 + (c - 0x10000) / 0x400, 0xdc00 + (c - 0x10000) % 0x400]

/-- The code point of a pair is written as that pair. -/
theorem units_fromPair {hi lo : Nat} (isPair : (isHi hi && isLo lo) = true) :
    units (fromPair hi lo) = [hi, lo] := by
  rw [Bool.and_eq_true, isHi_iff, isLo_iff] at isPair
  have above : ¬ fromPair hi lo < 0x10000 := by
    unfold fromPair
    omega
  have high : 0xd800 + (fromPair hi lo - 0x10000) / 0x400 = hi := by
    unfold fromPair
    omega
  have low : 0xdc00 + (fromPair hi lo - 0x10000) % 0x400 = lo := by
    unfold fromPair
    omega
  rw [units, if_neg above, high, low]

/-- A code point of one unit is written as the unit. -/
theorem units_self (c : UInt16) : units c.toNat = [c.toNat] := by
  rw [units, if_pos (UInt16.toNat_lt c)]

/-- The units of the code points are the text. -/
theorem units_codePoints (text : List UInt16) :
    (codePoints text).flatMap units = text.map UInt16.toNat := by
  fun_induction codePoints text with
  | case1 => rfl
  | case2 c => simp [units_self]
  | case3 c c1 rest isPair inductionHypothesis =>
    simp [units_fromPair isPair, inductionHypothesis]
  | case4 c c1 rest _ inductionHypothesis =>
    rw [List.flatMap_cons, units_self, inductionHypothesis]
    rfl

/-- Different texts have different code points. -/
theorem codePoints_injective : Function.Injective codePoints := by
  intro text other same
  have units := congrArg (List.flatMap units) same
  rw [units_codePoints, units_codePoints] at units
  exact List.map_injective_iff.mpr (fun _ _ => UInt16.toNat_inj.mp) units

/-- Code points stay below `0x110000`. -/
theorem codePoints_lt (text : List UInt16) : ∀ c ∈ codePoints text, c < 0x110000 := by
  fun_induction codePoints text with
  | case1 => simp
  | case2 c =>
    intro d found
    have small := UInt16.toNat_lt c
    rw [List.mem_singleton] at found
    omega
  | case3 c c1 rest isPair inductionHypothesis =>
    rw [Bool.and_eq_true, isHi_iff, isLo_iff] at isPair
    intro d found
    rcases List.mem_cons.mp found with same | later
    · unfold fromPair at same
      omega
    · exact inductionHypothesis d later
  | case4 c c1 rest _ inductionHypothesis =>
    intro d found
    have small := UInt16.toNat_lt c
    rcases List.mem_cons.mp found with same | later
    · omega
    · exact inductionHypothesis d later

/-- A pair of surrogates is read as one code point. -/
theorem codePoints_pair {c c1 : UInt16} (isPair : (isHi c.toNat && isLo c1.toNat) = true)
    (rest : List UInt16) :
    codePoints (c :: c1 :: rest) = fromPair c.toNat c1.toNat :: codePoints rest := by
  rw [codePoints, if_pos isPair]

/-- A unit that starts no pair stands for itself. -/
theorem codePoints_single {c : UInt16} {rest : List UInt16}
    (single : ∀ c1 ∈ rest.head?, ¬ (isHi c.toNat && isLo c1.toNat) = true) :
    codePoints (c :: rest) = c.toNat :: codePoints rest := by
  cases rest with
  | nil => rfl
  | cons c1 rest => rw [codePoints, if_neg (single c1 rfl)]

/-- A unit is zero exactly as a number. -/
theorem toNat_bne_zero (c : UInt16) : (c.toNat != 0) = (c != 0) := by
  by_cases zero : c = 0
  · subst zero
    rfl
  · have positive : c.toNat ≠ 0 := fun same => zero (UInt16.toNat_inj.mp same)
    rw [bne_iff_ne.mpr positive, bne_iff_ne.mpr zero]

/-- Cutting a text at its first zero unit cuts its code points at the first zero. -/
theorem codePoints_takeWhile (text : List UInt16) :
    codePoints (text.takeWhile (· != 0)) = (codePoints text).takeWhile (· != 0) := by
  fun_induction codePoints text with
  | case1 => rfl
  | case2 c =>
    rw [List.takeWhile_cons, List.takeWhile_cons, toNat_bne_zero]
    split <;> rfl
  | case3 c c1 rest isPair inductionHypothesis =>
    have bounds := isPair
    rw [Bool.and_eq_true, isHi_iff, isLo_iff] at bounds
    have first : (c != 0) = true := by
      rw [← toNat_bne_zero, bne_iff_ne]
      omega
    have second : (c1 != 0) = true := by
      rw [← toNat_bne_zero, bne_iff_ne]
      omega
    have positive : fromPair c.toNat c1.toNat ≠ 0 := by
      unfold fromPair
      omega
    rw [List.takeWhile_cons, if_pos first, List.takeWhile_cons, if_pos second,
      codePoints_pair isPair, inductionHypothesis]
    generalize fromPair c.toNat c1.toNat = joint at positive
    rw [List.takeWhile_cons, if_pos (bne_iff_ne.mpr positive)]
  | case4 c c1 rest isSingle inductionHypothesis =>
    have single : ∀ d ∈ ((c1 :: rest).takeWhile (· != 0)).head?,
        ¬ (isHi c.toNat && isLo d.toNat) = true := by
      intro d first
      rw [List.takeWhile_cons] at first
      split at first
      · obtain rfl : c1 = d := by simpa using first
        exact isSingle
      · simp at first
    rw [List.takeWhile_cons (a := c), List.takeWhile_cons (a := c.toNat), toNat_bne_zero]
    split
    · rw [codePoints_single single, inductionHypothesis]
    · rfl

/-! ## Bytes -/

/-- The marker of a byte stands above the bits it carries. -/
theorem or_marker {x k : Nat} (a : Nat) (small : x < 2 ^ k) : x ||| 2 ^ k * a = 2 ^ k * a + x := by
  rw [Nat.or_comm, Nat.two_pow_add_eq_or_of_lt small]

/-- The marker of a byte that continues a code point. -/
theorem or_tail (x : Nat) : x &&& 0x3f ||| 0x80 = 0x80 + x % 64 := by
  change x &&& (2 ^ 6 - 1) ||| 2 ^ 6 * 2 = 2 ^ 6 * 2 + x % 2 ^ 6
  rw [Nat.and_two_pow_sub_one_eq_mod, or_marker 2 (Nat.mod_lt _ (Nat.two_pow_pos 6))]

/-- The bytes of a code point in arithmetic. -/
theorem utf8_eq {c : Nat} (valid : c < 0x110000) : (utf8 c).map UInt8.toNat =
    if c < 0x80 then [c]
    else if c < 0x800 then [0xc0 + c / 64, 0x80 + c % 64]
    else if c < 0x10000 then [0xe0 + c / 4096, 0x80 + c / 64 % 64, 0x80 + c % 64]
    else [0xf0 + c / 262144, 0x80 + c / 4096 % 64, 0x80 + c / 64 % 64, 0x80 + c % 64] := by
  have two : c < 0x800 → c / 2 ^ 6 ||| 0xc0 = 0xc0 + c / 64 :=
    fun below => or_marker (k := 6) 3 (by omega)
  have three : c < 0x10000 → c / 2 ^ 12 ||| 0xe0 = 0xe0 + c / 4096 :=
    fun below => or_marker (k := 5) 7 (by omega)
  have four : c / 2 ^ 18 ||| 0xf0 = 0xf0 + c / 262144 := or_marker (k := 4) 15 (by omega)
  simp only [utf8, Nat.shiftRight_eq_div_pow, or_tail]
  split
  · simp (disch := omega) only [List.map_cons, List.map_nil, UInt8.toNat_ofNat', Nat.mod_eq_of_lt]
  · split
    · rename_i below
      simp (disch := omega) only [two below, List.map_cons, List.map_nil, UInt8.toNat_ofNat',
        Nat.mod_eq_of_lt]
    · split
      · rename_i below
        simp (disch := omega) only [three below, List.map_cons, List.map_nil, UInt8.toNat_ofNat',
          Nat.mod_eq_of_lt]
      · simp (disch := omega) only [four, List.map_cons, List.map_nil, UInt8.toNat_ofNat',
          Nat.mod_eq_of_lt]

/-- A code point has at most three bytes for a unit. -/
theorem utf8_length (c : Nat) : (utf8 c).length ≤ if c < 0x10000 then 3 else 4 := by
  unfold utf8
  split
  · split <;> simp
  · split
    · split <;> simp
    · split <;> simp

/-- No unit takes more than three bytes. -/
theorem encode_length (text : List UInt16) : (encode text).length ≤ 3 * text.length := by
  unfold encode
  fun_induction codePoints text with
  | case1 => simp
  | case2 c =>
    have one := utf8_length c.toNat
    rw [if_pos (UInt16.toNat_lt c)] at one
    simpa using one
  | case3 c c1 rest isPair inductionHypothesis =>
    have two : (utf8 (fromPair c.toNat c1.toNat)).length ≤ 4 :=
      (utf8_length _).trans (by split <;> decide)
    simp only [List.flatMap_cons, List.length_append, List.length_cons]
    omega
  | case4 c c1 rest isSingle inductionHypothesis =>
    have one := utf8_length c.toNat
    rw [if_pos (UInt16.toNat_lt c)] at one
    simp only [List.flatMap_cons, List.length_append, List.length_cons] at inductionHypothesis ⊢
    omega

/-- A code point has at least one byte for a unit. -/
theorem utf8_length_ge (c : Nat) : (if c < 0x10000 then 1 else 2) ≤ (utf8 c).length := by
  unfold utf8
  split
  · split
    · simp
    · split <;> simp
  · split
    · omega
    · split
      · omega
      · simp

/-- Every unit takes at least one byte. -/
theorem length_le_encode (text : List UInt16) : text.length ≤ (encode text).length := by
  unfold encode
  fun_induction codePoints text with
  | case1 => simp
  | case2 c =>
    have one := utf8_length_ge c.toNat
    rw [if_pos (UInt16.toNat_lt c)] at one
    simpa using one
  | case3 c c1 rest isPair inductionHypothesis =>
    have large : ¬ fromPair c.toNat c1.toNat < 0x10000 := by
      unfold fromPair
      omega
    have two := utf8_length_ge (fromPair c.toNat c1.toNat)
    rw [if_neg large] at two
    simp only [List.flatMap_cons, List.length_append, List.length_cons]
    omega
  | case4 c c1 rest isSingle inductionHypothesis =>
    have one := utf8_length_ge c.toNat
    rw [if_pos (UInt16.toNat_lt c)] at one
    simp only [List.flatMap_cons, List.length_append, List.length_cons] at inductionHypothesis ⊢
    omega

/-- Take one code point off a list of bytes. -/
def takeFirst : List Nat → Option (Nat × List Nat)
  | [] => none
  | b :: rest =>
    if b < 0x80 then some (b, rest)
    else if b < 0xe0 then
      match rest with
      | b1 :: rest => some ((b - 0xc0) * 64 + (b1 - 0x80), rest)
      | _ => none
    else if b < 0xf0 then
      match rest with
      | b1 :: b2 :: rest => some ((b - 0xe0) * 4096 + (b1 - 0x80) * 64 + (b2 - 0x80), rest)
      | _ => none
    else
      match rest with
      | b1 :: b2 :: b3 :: rest =>
        some ((b - 0xf0) * 262144 + (b1 - 0x80) * 4096 + (b2 - 0x80) * 64 + (b3 - 0x80), rest)
      | _ => none

/-- The first byte tells how many bytes a code point has, and these give it back. -/
theorem takeFirst_utf8 {c : Nat} (valid : c < 0x110000) (rest : List Nat) :
    takeFirst ((utf8 c).map UInt8.toNat ++ rest) = some (c, rest) := by
  rw [utf8_eq valid]
  split
  · rename_i one
    simp only [List.cons_append, List.nil_append, takeFirst, if_pos one]
  · split
    · simp only [List.cons_append, List.nil_append, takeFirst]
      rw [if_neg (by omega), if_pos (by omega),
        show (0xc0 + c / 64 - 0xc0) * 64 + (0x80 + c % 64 - 0x80) = c by omega]
    · split
      · simp only [List.cons_append, List.nil_append, takeFirst]
        rw [if_neg (by omega), if_neg (by omega), if_pos (by omega),
          show (0xe0 + c / 4096 - 0xe0) * 4096 + (0x80 + c / 64 % 64 - 0x80) * 64 +
            (0x80 + c % 64 - 0x80) = c by omega]
      · simp only [List.cons_append, List.nil_append, takeFirst]
        rw [if_neg (by omega), if_neg (by omega), if_neg (by omega),
          show (0xf0 + c / 262144 - 0xf0) * 262144 + (0x80 + c / 4096 % 64 - 0x80) * 4096 +
            (0x80 + c / 64 % 64 - 0x80) * 64 + (0x80 + c % 64 - 0x80) = c by omega]

/-- The bytes of a list of code points determine it.

Proof: induction on the list; the first code point is taken off both sides. -/
theorem flatMap_utf8_injective {cs ds : List Nat} (valid : ∀ c ∈ cs, c < 0x110000)
    (valid' : ∀ d ∈ ds, d < 0x110000) (same : cs.flatMap utf8 = ds.flatMap utf8) : cs = ds := by
  have numbers : ∀ (c : Nat) (rest : List Nat), ((c :: rest).flatMap utf8).map UInt8.toNat =
      (utf8 c).map UInt8.toNat ++ (rest.flatMap utf8).map UInt8.toNat := by
    intro c rest
    simp
  induction cs generalizing ds with
  | nil =>
    cases ds with
    | nil => rfl
    | cons d ds =>
      have taken := takeFirst_utf8 (valid' d (by simp)) ((ds.flatMap utf8).map UInt8.toNat)
      rw [← numbers, ← same] at taken
      simp [takeFirst] at taken
  | cons c cs inductionHypothesis =>
    have taken := takeFirst_utf8 (valid c (by simp)) ((cs.flatMap utf8).map UInt8.toNat)
    rw [← numbers, same] at taken
    cases ds with
    | nil => simp [takeFirst] at taken
    | cons d ds =>
      rw [numbers, takeFirst_utf8 (valid' d (by simp))] at taken
      obtain ⟨rfl, rest⟩ := Prod.mk.inj (Option.some.inj taken)
      have tails : cs.flatMap utf8 = ds.flatMap utf8 :=
        (List.map_injective_iff.mpr fun _ _ => UInt8.toNat_inj.mp) rest.symm
      rw [inductionHypothesis (fun c found => valid c (by simp [found]))
        (fun d found => valid' d (by simp [found])) tails]

/-- The bytes of a text determine it. -/
theorem encode_injective : Function.Injective encode := by
  intro text other same
  apply codePoints_injective
  exact flatMap_utf8_injective (codePoints_lt text) (codePoints_lt other) same

/-- No byte of a code point other than zero is zero. -/
theorem zero_notMem_utf8 {c : Nat} (valid : c < 0x110000) (positive : c ≠ 0) : 0 ∉ utf8 c := by
  intro found
  have zero : 0 ∈ (utf8 c).map UInt8.toNat := List.mem_map.mpr ⟨0, found, rfl⟩
  rw [utf8_eq valid] at zero
  split at zero
  · simp only [List.mem_cons, List.not_mem_nil, or_false] at zero
    omega
  · split at zero
    · simp only [List.mem_cons, List.not_mem_nil, or_false] at zero
      omega
    · split at zero
      · simp only [List.mem_cons, List.not_mem_nil, or_false] at zero
        omega
      · simp only [List.mem_cons, List.not_mem_nil, or_false] at zero
        omega

/-- The text before the first zero byte is that before the first zero code point. -/
theorem flatMap_utf8_takeWhile {cs : List Nat} (valid : ∀ c ∈ cs, c < 0x110000) :
    (cs.flatMap utf8).takeWhile (· != 0) = (cs.takeWhile (· != 0)).flatMap utf8 := by
  induction cs with
  | nil => rfl
  | cons c cs inductionHypothesis =>
    have later := inductionHypothesis fun c found => valid c (by simp [found])
    by_cases zero : c = 0
    · subst zero
      rfl
    · have bytes : ∀ b ∈ utf8 c, (b != 0) = true := by
        intro b found
        rw [bne_iff_ne]
        rintro rfl
        exact zero_notMem_utf8 (valid c (by simp)) zero found
      rw [List.flatMap_cons, List.takeWhile_append_of_pos bytes, later,
        List.takeWhile_cons, if_pos (by simpa using zero), List.flatMap_cons]

/-- Cutting the bytes at the first zero is cutting the text there. -/
theorem encode_takeWhile (text : List UInt16) :
    (encode text).takeWhile (· != 0) = encode (text.takeWhile (· != 0)) := by
  rw [encode, encode, flatMap_utf8_takeWhile (codePoints_lt text), codePoints_takeWhile]

/-! ## The bytes of texts -/

end Wtf8
