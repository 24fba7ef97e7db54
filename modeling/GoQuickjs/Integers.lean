import GoQuickjs.Results
import GoQuickjs.Library.Rounding

/-!
# Integers on their way to a script and back

The integer kinds of Go take five routes to an engine number: a cut to 32 bits,
`JS_NewInt64` on a signed or on a reinterpreted unsigned value, and a double for a
`uint64` with its top bit set. On all of them but one the result is the engine's number
for the integer: the integer tag where 32 signed bits are enough, and else the nearest
double. A `uint` with its top bit set becomes a negative number.
-/

namespace GoQuickjs

open Tracing Traced

/-! ## Integers of Go -/

/-- The integer kinds that `makeJsValue` accepts. -/
inductive IntegerKind where
  | signed : IntKind → IntegerKind
  | unsigned : UintKind → IntegerKind
deriving DecidableEq

/-- The width of a signed kind on a 64-bit platform. -/
def IntKind.bits : IntKind → Nat
  | .int8 => 8
  | .int16 => 16
  | .int32 => 32
  | .int | .int64 => 64

/-- The width of an unsigned kind on a 64-bit platform. -/
def UintKind.bits : UintKind → Nat
  | .uint8 => 8
  | .uint16 => 16
  | .uint32 => 32
  | .uint | .uint64 => 64

/-- The integers of a kind. -/
def IntegerKind.Contains : IntegerKind → Int → Prop
  | .signed kind, n => -2 ^ (kind.bits - 1) ≤ n ∧ n < 2 ^ (kind.bits - 1)
  | .unsigned kind, n => 0 ≤ n ∧ n < 2 ^ kind.bits

/-- An integer of Go. -/
structure GoInteger where
  kind : IntegerKind
  value : Int
  inRange : kind.Contains value

/-- The integer behind an empty interface. -/
def GoInteger.goVal (g : GoInteger) : GoVal :=
  match g.kind with
  | .signed kind => .int kind g.value
  | .unsigned kind => .uint kind g.value.toNat

/-! ## Numbers of the engine -/

/-- The number that an engine value denotes. -/
def JSValue.number : JSValue → Option ℚ
  | .int i => some i.toInt
  | .float64 word => some (Binary64.value word)
  | _ => none

/-- What `fromJsValue` finds out about a number. -/
def JSValue.answer : JSValue → Answer
  | .int i => .int i
  | .float64 word => .float64 word
  | v => .other v

/-- The integer fits in 32 signed bits. -/
def FitsInt32 (n : Int) : Prop := -2 ^ 31 ≤ n ∧ n < 2 ^ 31

instance (n : Int) : Decidable (FitsInt32 n) := inferInstanceAs (Decidable (_ ∧ _))

/-- The engine's number for an integer, whatever kind it comes from. -/
def engineNumber (n : Int) : JSValue :=
  if FitsInt32 n then .int (Int32.ofInt n) else .float64 (Binary64.ofInt n)

/-- The engine value stands for the integer and is read back as such: it denotes the
nearest double, the integer itself up to `2 ^ 53`, a number of the same sign always; it is
converted back to an `int64` when the integer fits in 32 bits and to a `float64` otherwise;
and it is the number that every kind gives. -/
structure IntegerKept (n : Int) (js : JSValue) : Prop where
  nearest : ∃ word, Binary64.IsNearest n word ∧ js.number = some (Binary64.value word)
  exact : |n| ≤ 2 ^ 53 → js.number = some (n : ℚ)
  sign : ∀ q, js.number = some q → SignType.sign q = SignType.sign n
  small : FitsInt32 n → Gives (fun _ => js.answer) [] (.ok (.int64 n))
  large : ¬ FitsInt32 n → ∃ word, js.number = some (Binary64.value word) ∧
    Gives (fun _ => js.answer) [] (.ok (.float64 word))
  common : js = engineNumber n

/-- A number comes back from 32 bits exactly if it fits. -/
theorem int32_ofInt_toInt {n : Int} : (Int32.ofInt n).toInt = n ↔ FitsInt32 n := by
  constructor
  · intro same
    have lower := (Int32.ofInt n).le_toInt
    have upper := (Int32.ofInt n).toInt_lt
    rw [same] at lower upper
    exact ⟨lower, upper⟩
  · exact fun fits => Int32.toInt_ofInt_of_le fits.1 fits.2

/-- `JS_NewInt64` makes the number the engine would. -/
theorem jsNewInt64_eq (n : Int) : jsNewInt64 n = engineNumber n := by
  unfold jsNewInt64 engineNumber jsNewInt32
  simp only [int32_ofInt_toInt]

/-- A finite word is not a NaN. -/
theorem isNaN_of_finite {word : UInt64} (finite : Binary64.IsFinite word) : isNaN word = false := by
  have cut : (word &&& 0x7fffffffffffffff).toNat = word.toNat % 2 ^ 63 := by
    rw [UInt64.toNat_and]
    exact Nat.and_two_pow_sub_one_eq_mod _ 63
  rw [Binary64.IsFinite, Binary64.exponent_eq] at finite
  rw [isNaN, decide_eq_false_iff_not, UInt64.lt_iff_toNat_lt, cut]
  change ¬ 0x7ff * 2 ^ 52 < _
  omega

/-- A number below 2^64 has a small exponent. -/
theorem log2_natAbs {n : Int} (small : n.natAbs < 2 ^ 64) : Nat.log2 n.natAbs ≤ 1022 := by
  by_cases zero : n.natAbs = 0
  · simp [zero]
  · have below := (Nat.log2_lt zero).mpr small
    omega

/-- A number is its sign times its size. -/
theorem sign_mul_natAbs_cast (n : Int) : (n.sign : ℚ) * (n.natAbs : ℚ) = n := by
  rw [← Int.cast_natCast n.natAbs, ← Int.cast_mul, Int.sign_mul_natAbs]

/-- The engine's number for an integer denotes the nearest double. -/
theorem engineNumber_number {n : Int} (small : n.natAbs < 2 ^ 64) :
    (engineNumber n).number = some (Binary64.value (Binary64.ofInt n)) := by
  unfold engineNumber
  split
  · rename_i fits
    have exact : Binary64.rounded n.natAbs = n.natAbs :=
      Binary64.rounded_exact (by unfold FitsInt32 at fits; omega)
    rw [JSValue.number, int32_ofInt_toInt.mpr fits, Binary64.value_ofInt (log2_natAbs small), exact,
      sign_mul_natAbs_cast]
  · rfl

/-- The engine's number for an integer keeps it. -/
theorem engineNumber_kept {n : Int} (small : n.natAbs < 2 ^ 64) :
    IntegerKept n (engineNumber n) where
  nearest := ⟨_, Binary64.ofInt_nearest (log2_natAbs small), engineNumber_number small⟩
  exact bounded := by
    rw [Int.abs_eq_natAbs] at bounded
    have exact : Binary64.rounded n.natAbs = n.natAbs := Binary64.rounded_exact (by omega)
    rw [engineNumber_number small, Binary64.value_ofInt (log2_natAbs small), exact,
      sign_mul_natAbs_cast]
  sign := by
    intro q denoted
    rw [engineNumber_number small, Option.some.injEq, Binary64.value_ofInt (log2_natAbs small)]
      at denoted
    rcases lt_trichotomy n 0 with negative | rfl | positive
    · have magnitude := Binary64.rounded_pos (n := n.natAbs) (by omega)
      rw [Int.sign_eq_neg_one_of_neg negative] at denoted
      rw [← denoted, sign_neg negative]
      apply sign_neg
      have above : (0 : ℚ) < Binary64.rounded n.natAbs := by exact_mod_cast magnitude
      push_cast
      linarith
    · simp [← denoted]
    · have magnitude := Binary64.rounded_pos (n := n.natAbs) (by omega)
      rw [Int.sign_eq_one_of_pos positive] at denoted
      rw [← denoted, sign_pos positive]
      apply sign_pos
      have above : (0 : ℚ) < Binary64.rounded n.natAbs := by exact_mod_cast magnitude
      push_cast
      linarith
  small fits := by
    have made : engineNumber n = .int (Int32.ofInt n) := if_pos fits
    rw [made]
    refine (gives_of_flat (m := pure (.ok (.int64 (Int32.ofInt n).toInt))) fun depth => rfl).mpr ?_
    rw [int32_ofInt_toInt.mpr fits, pure_ending]
  large wide := by
    have made : engineNumber n = .float64 (Binary64.ofInt n) := if_neg wide
    refine ⟨Binary64.ofInt n, by rw [made]; rfl, ?_⟩
    have finite := (Binary64.ofInt_nearest (log2_natAbs small)).finite
    have decoded : ∀ depth, fromJsValue (fun _ => (engineNumber n).answer) (depth + 1) [] =
        pure (.ok (.float64 (Binary64.ofInt n))) := by
      intro depth
      simp only [fromJsValue, made, JSValue.answer, isNaN_of_finite finite, Bool.false_eq_true,
        if_false]
    exact (gives_of_flat decoded).mpr rfl
  common := rfl

/-! ## The routes -/

/-- A double from `2 ^ 63` on does not get the integer tag. -/
theorem jsNewFloat64_large {n : Nat} (large : 2 ^ 63 ≤ n) (small : n < 2 ^ 64) :
    jsNewFloat64 (Binary64.ofNat n) = .float64 (Binary64.ofNat n) := by
  have leading : Nat.log2 n = 63 := (Nat.log2_eq_iff (by omega)).mpr ⟨large, small⟩
  have bounds := Binary64.significand_bounds (n := n) (by omega)
  have word := Binary64.ofNat_toNat_eq (n := n) (by omega) (by omega)
  have exponent : 1086 ≤ Binary64.exponent (Binary64.ofNat n) ∧
      Binary64.exponent (Binary64.ofNat n) < 0x7ff := by
    rw [Binary64.exponent_eq, word, leading]
    rw [leading] at bounds
    omega
  have high : 2 ^ 63 ≤ Binary64.truncate (Binary64.ofNat n) := by
    simp only [Binary64.truncate, Binary64.negative_ofNat (n := n) (by omega), Bool.false_eq_true,
      if_false]
    rw [if_neg (by omega), if_neg (by omega)]
    have power : 2 ^ 11 ≤ 2 ^ (Binary64.exponent (Binary64.ofNat n) - 1075) :=
      Nat.pow_le_pow_right (by decide) (by omega)
    have product := Nat.mul_le_mul
      (Nat.le_add_right (2 ^ 52) (Binary64.fraction (Binary64.ofNat n)).toNat) power
    exact_mod_cast product
  rw [jsNewFloat64, if_neg]
  rintro ⟨-, low, -⟩
  have top : Int32.maxValue.toInt = 2 ^ 31 - 1 := rfl
  omega

/-- What `makeJsValue` makes of an integer. -/
def GoInteger.made (g : GoInteger) : JSValue :=
  match g.kind with
  | .signed kind => World.makeJsInt kind g.value
  | .unsigned kind => World.makeJsUint kind g.value.toNat

/-- An integer is converted without touching the world. -/
theorem makeJsValue_integer (ctx : Ptr) (memory : GoMemory) (fresh : Fresh) (depth : Nat)
    (g : GoInteger) (w : World) :
    World.makeJsValue ctx memory fresh (depth + 1) g.goVal w = some (.value g.made, w) := by
  obtain ⟨kind, value, inRange⟩ := g
  cases kind <;> rfl

/-- `JS_NewInt32` makes the number the engine would. -/
theorem jsNewInt32_eq {n : Int} (fits : FitsInt32 n) : jsNewInt32 (Int32.ofInt n) = engineNumber n :=
  (if_pos fits).symm

/-- Every route but that of a `uint` with its top bit set gives the engine's number. -/
theorem GoInteger.made_eq (g : GoInteger)
    (other : ¬ (g.kind = .unsigned .uint ∧ 2 ^ 63 ≤ g.value)) : g.made = engineNumber g.value := by
  obtain ⟨kind, value, inRange⟩ := g
  cases kind with
  | signed kind =>
    cases kind <;> simp only [IntegerKind.Contains, IntKind.bits] at inRange
    case int | int64 => exact jsNewInt64_eq value
    all_goals exact jsNewInt32_eq (n := value) ⟨by omega, by omega⟩
  | unsigned kind =>
    have whole : ((value.toNat : Nat) : Int) = value := Int.toNat_of_nonneg inRange.1
    cases kind <;> simp only [IntegerKind.Contains, UintKind.bits] at inRange
    case uint8 | uint16 =>
      simp only [GoInteger.made, World.makeJsUint, whole]
      exact jsNewInt32_eq ⟨by omega, by omega⟩
    case uint | uint32 =>
      have signed : (Int64.ofInt value).toInt = value :=
        Int64.toInt_ofInt_of_le (by omega) (by simp at other; omega)
      simp only [GoInteger.made, World.makeJsUint, whole, signed]
      exact jsNewInt64_eq value
    case uint64 =>
      simp only [GoInteger.made, World.makeJsUint]
      split
      · rw [whole]
        exact jsNewInt64_eq value
      · rename_i large
        have wide : ¬ FitsInt32 value := by
          unfold FitsInt32
          omega
        rw [jsNewFloat64_large (by omega) (by omega), engineNumber, if_neg wide,
          ← Binary64.ofInt_natCast, whole]

/-- A `uint` with its top bit set becomes the number that is `2 ^ 64` below it. -/
theorem GoInteger.made_top {g : GoInteger} (kind : g.kind = .unsigned .uint)
    (top : 2 ^ 63 ≤ g.value) : g.made = engineNumber (g.value - 2 ^ 64) := by
  obtain ⟨_, value, inRange⟩ := g
  subst kind
  simp only [IntegerKind.Contains, UintKind.bits] at inRange
  have whole : ((value.toNat : Nat) : Int) = value := Int.toNat_of_nonneg inRange.1
  have signed : (Int64.ofInt value).toInt = value - 2 ^ 64 := by
    rw [Int64.toInt_ofInt]
    change value.bmod (2 ^ 64) = _
    rw [Int.bmod]
    split <;> simp only at top <;> omega
  simp only [GoInteger.made, World.makeJsUint, whole, signed]
  exact jsNewInt64_eq _

/-- A `uint` with its highest bit set is not kept. -/
theorem GoInteger.top_not_kept {g : GoInteger} (kind : g.kind = .unsigned .uint)
    (top : 2 ^ 63 ≤ g.value) : ¬ IntegerKept g.value g.made := by
  intro kept
  have range := g.inRange
  rw [kind] at range
  have upper : g.value < 2 ^ 64 := range.2
  have below : (g.value - 2 ^ 64).natAbs < 2 ^ 64 := by omega
  have denoted := engineNumber_number below
  have negative := (engineNumber_kept below).sign _ denoted
  have positive := kept.sign _ (by rw [GoInteger.made_top kind top]; exact denoted)
  rw [negative, sign_neg (by omega), sign_pos (by omega)] at positive
  exact absurd positive (by decide)

/-- The values of all integer kinds have at most 64 bits. -/
theorem GoInteger.natAbs_lt (g : GoInteger) : g.value.natAbs < 2 ^ 64 := by
  obtain ⟨kind, value, inRange⟩ := g
  cases kind with
  | signed kind =>
    cases kind <;> simp only [IntegerKind.Contains, IntKind.bits] at inRange ⊢ <;> omega
  | unsigned kind =>
    cases kind <;> simp only [IntegerKind.Contains, UintKind.bits] at inRange ⊢ <;> omega

/-- An integer of any kind keeps its value on the way to a script and back exactly when it
is not a `uint` from `2 ^ 63` on. -/
theorem integerKept_iff (ctx : Ptr) (memory : GoMemory) (fresh : Fresh) (depth : Nat)
    (g : GoInteger) (w : World) :
    ∃ js, World.makeJsValue ctx memory fresh (depth + 1) g.goVal w = some (.value js, w) ∧
      (IntegerKept g.value js ↔ ¬ (g.kind = .unsigned .uint ∧ 2 ^ 63 ≤ g.value)) := by
  refine ⟨g.made, makeJsValue_integer ctx memory fresh depth g w, ?_⟩
  constructor
  · rintro kept ⟨kind, top⟩
    exact GoInteger.top_not_kept kind top kept
  · intro other
    rw [g.made_eq other]
    exact engineNumber_kept g.natAbs_lt

/-- The value `uint(1 << 63)`. -/
def topUint : GoInteger := ⟨.unsigned .uint, 2 ^ 63, by constructor <;> decide⟩

/-- It becomes the number `-2 ^ 63`. -/
theorem topUint_negated :
    World.makeJsValue 0 (fun _ => .nil) ⟨0, 0⟩ 1 topUint.goVal World.initial =
        some (.value (.float64 0xc3e0000000000000), World.initial) ∧
      ¬ IntegerKept (2 ^ 63) (.float64 0xc3e0000000000000) := by
  have made : topUint.made = .float64 0xc3e0000000000000 := by decide
  rw [makeJsValue_integer, ← made]
  exact ⟨rfl, GoInteger.top_not_kept (g := topUint) rfl (le_refl _)⟩

end GoQuickjs
