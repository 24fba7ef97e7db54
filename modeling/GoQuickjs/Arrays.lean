import GoQuickjs.Results

/-!
# Arrays of every length

A script can make an array of any length below `2 ^ 32`, most of it holes. Its length
is an engine number; `fromJsArray` reads it as a signed 32-bit integer and sizes a
slice with it. From `2 ^ 31` on that integer is negative and `make` panics, whatever
the elements are. Below, the slice has one image for each element, in order, and an
element that cannot be converted decides the result by how it fails.
-/

namespace GoQuickjs

open Tracing Traced Filter

variable {r : Reading} {p : Path}

/-! ## The length -/

/-- The length of an array comes out of its engine number as the same 32 bits, read
with a sign. -/
theorem elementCount_jsNewUint32 (n : UInt32) :
    elementCount (.ok (jsNewUint32 n)) = n.toInt32.toInt := by
  have number : (jsNewUint32 n).isNumber = true := by
    unfold jsNewUint32 jsNewInt32
    split <;> rfl
  have read : jsToInt32 (jsNewUint32 n) = some n.toInt32 := by
    obtain ⟨i, found, same⟩ := Option.map_eq_some_iff.mp (jsToUint32_jsNewUint32 n)
    rw [found, ← same]
    rfl
  simp [elementCount, number, read]

/-- The sign bit is set from `2 ^ 31` on. -/
theorem toInt32_toInt (n : UInt32) :
    n.toInt32.toInt = if n.toNat < 2 ^ 31 then (n.toNat : Int) else (n.toNat : Int) - 2 ^ 32 := by
  have signed := BitVec.toInt_eq_toNat_cond n.toBitVec
  change n.toInt32.toInt = _ at signed
  rw [signed, UInt32.toNat_toBitVec]
  by_cases short : n.toNat < 2 ^ 31
  · rw [if_pos short, if_pos (by omega)]
  · rw [if_neg short, if_neg (by omega)]
    rfl

/-- A length below 2^31 is read as it is. -/
theorem elementCount_short {n : UInt32} (short : n.toNat < 2 ^ 31) :
    elementCount (.ok (jsNewUint32 n)) = n.toNat := by
  rw [elementCount_jsNewUint32, toInt32_toInt, if_pos short]

/-- A longer one is read as a negative number. -/
theorem elementCount_long {n : UInt32} (long : 2 ^ 31 ≤ n.toNat) :
    elementCount (.ok (jsNewUint32 n)) < 0 := by
  have bound := n.toNat_lt
  rw [elementCount_jsNewUint32, toInt32_toInt, if_neg (by omega)]
  omega

/-! ## Elements -/

/-- The element is read without an exception and its value converts. -/
def ElementConverts (r : Reading) (p : Path) (i : Nat) : Prop :=
  ¬ (r (i :: p)).IsThrown ∧ Converts r (i :: p)

/-- The conversion of the element gets to an answer that makes it fail. -/
def ElementFails (r : Reading) (p : Path) (i : Nat) : Prop :=
  ∃ q, Reaches r (i :: p) q ∧ (r q).Reported

/-- An element converts exactly if it gives some Go value. -/
theorem elementConverts_iff {i : Nat} : ElementConverts r p i ↔ ∃ v, ElementGives r p i v := by
  simp only [ElementConverts, ElementGives, exists_and_left, gives_ok_iff]

/-- The elements that stop the walk with an error are those that fail. -/
theorem elementFails_iff {i : Nat} :
    ElementFails r p i ↔ ∃ e, ElementStops r p i (.error e) := by
  rw [ElementFails, ← gives_error_iff]
  apply exists_congr
  intro e
  cases shape : r (i :: p) with
  | thrown x =>
    rw [gives_thrown shape]
    simp [ElementStops, shape, Answer.IsThrown]
  | _ => simp [ElementStops, shape, Answer.IsThrown]

/-- An element that fails gives none. -/
theorem ElementFails.not_converts {i : Nat} (fails : ElementFails r p i) :
    ¬ ElementConverts r p i := by
  rintro ⟨-, converts⟩
  obtain ⟨e, failed⟩ := gives_error_iff.mpr fails
  obtain ⟨v, given⟩ := gives_ok_iff.mpr converts
  have impossible := failed.unique given
  simp at impossible

/-! ## The walk over an array -/

/-- What is expected of an array of length `n`: where all elements convert, a slice of
exactly their images in order, and otherwise an error. -/
def ArrayDecodes (r : Reading) (p : Path) (n : UInt32) : Prop :=
  ((∀ i < n.toNat, ElementConverts r p i) →
    ∃ vs : List Decoded, vs.length = n.toNat ∧
      (∀ i v, vs[i]? = some v → Gives r (i :: p) (.ok v)) ∧
      ∃ depth, (fromJsArray r p (fromJsValue r depth) (.ok (jsNewUint32 n))).ending =
        .returns (.ok (.slice vs))) ∧
  ((∃ i < n.toNat, ¬ ElementConverts r p i) →
    ∃ e depth, (fromJsArray r p (fromJsValue r depth) (.ok (jsNewUint32 n))).ending =
      .returns (.error e))

/-- An array from `2 ^ 31` on is never walked. -/
theorem fromJsArray_long {n : UInt32} (long : 2 ^ 31 ≤ n.toNat) (convert : Path → Owning GoResult) :
    (fromJsArray r p convert (.ok (jsNewUint32 n))).ending = .panics := by
  simp only [fromJsArray, uses_bind, holdingDeferred_ending, if_pos (elementCount_long long)]
  rfl

/-- No array of 2^31 elements or more decodes. -/
theorem not_arrayDecodes_long {n : UInt32} (long : 2 ^ 31 ≤ n.toNat) : ¬ ArrayDecodes r p n := by
  rintro ⟨whole, partly⟩
  by_cases all : ∀ i < n.toNat, ElementConverts r p i
  · obtain ⟨vs, -, -, depth, returned⟩ := whole all
    simp [fromJsArray_long long] at returned
  · push Not at all
    obtain ⟨e, depth, returned⟩ := partly all
    simp [fromJsArray_long long] at returned

/-- A short array whose elements all convert becomes the slice of their images. -/
theorem fromJsArray_whole {n : UInt32} (short : n.toNat < 2 ^ 31)
    (all : ∀ i < n.toNat, ElementConverts r p i) :
    ∃ vs : List Decoded, vs.length = n.toNat ∧
      (∀ i v, vs[i]? = some v → Gives r (i :: p) (.ok v)) ∧
      ∃ depth, (fromJsArray r p (fromJsValue r depth) (.ok (jsNewUint32 n))).ending =
        .returns (.ok (.slice vs)) := by
  have given : ∀ i : Fin n.toNat, ∃ v, ElementGives r p i v :=
    fun i => elementConverts_iff.mp (all i i.isLt)
  choose image gives using given
  have each_gives : ∀ i v, (List.ofFn image)[i]? = some v → ElementGives r p i v := by
    intro i v found
    obtain ⟨below, rfl⟩ := List.getElem?_eq_some_iff.mp found
    rw [List.getElem_ofFn]
    exact gives ⟨i, by simpa using below⟩
  refine ⟨List.ofFn image, List.length_ofFn, fun i v found => (each_gives i v found).2, ?_⟩
  apply fromJsArray_gives.mpr
  rw [elementCount_short short, Int.toNat_natCast]
  exact ⟨Int.natCast_nonneg _, Or.inr ⟨_, ⟨List.length_ofFn, each_gives⟩, rfl⟩⟩

/-- A short array is refused with an error exactly when its first element that does
not convert fails. -/
theorem fromJsArray_refused {n : UInt32} (short : n.toNat < 2 ^ 31) :
    (∃ e depth, (fromJsArray r p (fromJsValue r depth) (.ok (jsNewUint32 n))).ending =
        .returns (.error e)) ↔
      ∃ i < n.toNat, (∀ j < i, ElementConverts r p j) ∧ ElementFails r p i := by
  simp only [fromJsArray_gives, elementCount_short short, Int.toNat_natCast, elementConverts_iff,
    elementFails_iff]
  constructor
  · rintro ⟨e, -, ⟨i, below, earlier, stopped⟩ | ⟨vs, -, impossible⟩⟩
    · exact ⟨i, below, earlier, e, stopped⟩
    · simp at impossible
  · rintro ⟨i, below, earlier, e, stopped⟩
    exact ⟨e, Int.natCast_nonneg _, Or.inl ⟨i, below, earlier, stopped⟩⟩

/-- An array decodes as expected exactly when it is shorter than `2 ^ 31` and its first
element that does not convert, if there is one, fails: its read does not throw a value
other than an `Error` object, and its own conversion neither panics nor goes on for
ever. -/
theorem arrayDecodes_iff (r : Reading) (p : Path) (n : UInt32) :
    ArrayDecodes r p n ↔ n.toNat < 2 ^ 31 ∧
      ∀ i < n.toNat, (∀ j < i, ElementConverts r p j) →
        ElementConverts r p i ∨ ElementFails r p i := by
  constructor
  · intro decodes
    have short : n.toNat < 2 ^ 31 := by
      by_contra long
      exact not_arrayDecodes_long (Nat.le_of_not_lt long) decodes
    refine ⟨short, fun i below earlier => ?_⟩
    by_contra stuck
    push Not at stuck
    obtain ⟨k, within, before, fails⟩ :=
      (fromJsArray_refused short).mp (decodes.2 ⟨i, below, stuck.1⟩)
    have same : i = k := by
      apply Nat.le_antisymm
      · exact Nat.le_of_not_lt fun later => fails.not_converts (earlier k later)
      · exact Nat.le_of_not_lt fun sooner => stuck.1 (before i sooner)
    exact stuck.2 (same ▸ fails)
  · rintro ⟨short, decided⟩
    refine ⟨fromJsArray_whole short, fun broken => ?_⟩
    classical
    obtain ⟨below, refused⟩ := Nat.find_spec broken
    have earlier : ∀ j < Nat.find broken, ElementConverts r p j := by
      intro j before
      by_contra sooner
      exact Nat.find_min broken before ⟨Nat.lt_trans before below, sooner⟩
    refine (fromJsArray_refused short).mpr ⟨Nat.find broken, below, earlier, ?_⟩
    exact (decided _ below earlier).resolve_left refused

/-- An array of `2 ^ 31` holes. -/
def sparse : Reading
  | [] => .array (.ok (jsNewUint32 0x80000000))
  | _ => .undefined

/-- Every element of it converts, and the walk panics at every depth. -/
theorem sparse_panics :
    (∀ i < (0x80000000 : UInt32).toNat, ElementConverts sparse [] i) ∧
      ¬ ArrayDecodes sparse [] 0x80000000 := by
  constructor
  · intro i _
    exact ⟨fun thrown => thrown, .plain trivial⟩
  · exact not_arrayDecodes_long (by decide)

end GoQuickjs
