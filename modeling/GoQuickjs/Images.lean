import GoQuickjs.Termination
import GoQuickjs.GivenBack

/-!
# What a value is converted to

The image of a script's value is the Go value that stands for it: nil for `null` and
`undefined`, an `int64` for a number with the integer tag, a `float64` for every other
number, the text of a string, a slice of the images of all elements, a map with one
entry for each enumerable own property, a bind closure for a function. Finite data
without cycles is converted to its image exactly when no string and no key in it is too
long for a C string; such a string becomes the empty one, without an error.
-/

namespace GoQuickjs

open Tracing Traced Relation

variable {A : Type} {heap : Heap A} {root : ScriptValue A} {p : Path} {a : A}

/-! ## Images -/

/-- The image of a value without parts. -/
def ScriptValue.image : ScriptValue A → Option Decoded
  | .null | .undefined => some .nil
  | .bool b => some (.bool b)
  | .int i => some (.int64 i.toInt)
  | .float64 word => some (.float64 (if isNaN word then goNaN else word))
  | .string s => some (.string s.text)
  | .symbol _ | .bigInt _ | .object _ => none

/-- The image of an object from the images of its parts. A map has one entry for each
property, and is nil when there is none. -/
def Node.image : Node A → List Decoded → Decoded
  | .array _ _, vs => .slice vs
  | .plain own _, vs =>
    .map (if own.keys.length = 0 then none
      else some ((own.keys.map fun key => key.atomToString.text).zip vs))
  | .function f, _ => .bindGoFunc f

/-- The Go value stands for the script's value. -/
inductive IsImage (heap : Heap A) : ScriptValue A → Decoded → Prop
  | value {v : ScriptValue A} {d : Decoded} : v.image = some d → IsImage heap v d
  | node {a : A} {vs : List Decoded} : vs.length = (heap a).count →
      (∀ i v, vs[i]? = some v → IsImage heap ((heap a).child i) v) →
      IsImage heap (.object a) ((heap a).image vs)

/-! ## Data -/

/-- The first value contains the second one, or is it. -/
inductive Below (heap : Heap A) : ScriptValue A → ScriptValue A → Prop
  | here (v : ScriptValue A) : Below heap v v
  | part {a : A} {i : Nat} {w : ScriptValue A} : i < (heap a).count →
      Below heap ((heap a).child i) w → Below heap (.object a) w

/-- The first object has the second one among its elements or properties. -/
def Holds (heap : Heap A) (a b : A) : Prop :=
  ∃ i < (heap a).count, (heap a).child i = .object b

/-- A string key without NUL characters. -/
def PropertyKey.IsPlain (key : PropertyKey) : Prop :=
  match key.name with
  | .string s => 0 ∉ s.units
  | .symbol _ _ => False

/-- An array below `2 ^ 31`, an object with plain keys, or a function. -/
def Node.Supported : Node A → Prop
  | .array n _ => n.toNat < 2 ^ 31
  | .plain own _ => ∀ key ∈ own.keys, key.IsPlain
  | .function _ => True

/-- No symbol and no big integer, and no object that is not supported. -/
def ScriptValue.Supported (heap : Heap A) : ScriptValue A → Prop
  | .symbol _ | .bigInt _ => False
  | .object a => (heap a).Supported
  | _ => True

/-- Data that can be converted: without cycles, and supported throughout. -/
structure IsData (heap : Heap A) (v : ScriptValue A) : Prop where
  acyclic : ∀ a, Below heap v (.object a) → ¬ TransGen (Holds heap) a a
  supported : ∀ w, Below heap v w → w.Supported heap

/-- Some key of the object is too long for a C string. -/
def Node.Overlong : Node A → Prop
  | .plain own _ => ∃ key ∈ own.keys, key.atomToString.TooLong
  | _ => False

/-- The string, or some key of the object, is too long for a C string. -/
def ScriptValue.Overlong (heap : Heap A) : ScriptValue A → Prop
  | .string s => s.TooLong
  | .object a => (heap a).Overlong
  | _ => False

/-- The conversion succeeds with the image of the value, and has given back every
reference that it took. -/
def Preserved (heap : Heap A) (v : ScriptValue A) : Prop :=
  ∃ image depth, IsImage heap v image ∧
    (fromJsValue (reading heap v) depth []).ending = .returns (.ok image) ∧
    (fromJsValue (reading heap v) depth []).Settles []

/-- What an object of data holds is data. -/
theorem IsData.part {i : Nat} (data : IsData heap (.object a)) (below : i < (heap a).count) :
    IsData heap ((heap a).child i) where
  acyclic b inside := data.acyclic b (.part below inside)
  supported w inside := data.supported w (.part below inside)

/-- An object of data is short. -/
theorem IsData.short (data : IsData heap (.object a)) : (heap a).Short := by
  have supported : (heap a).Supported := data.supported _ (.here _)
  cases node : heap a with
  | array n element =>
    rw [node] at supported
    exact supported
  | plain own value => trivial
  | function f => trivial

/-- What is reached from an object lies below it. -/
theorem below_of_reached {b : A} (reached : ReflTransGen (Holds heap) a b) :
    Below heap (.object a) (.object b) := by
  induction reached using ReflTransGen.head_induction_on with
  | refl => exact .here _
  | head step _ inductionHypothesis =>
    obtain ⟨i, below, child⟩ := step
    exact .part below (child ▸ inductionHypothesis)

/-- The objects inside data are finitely nested. -/
theorem IsData.finite [Finite A] (data : IsData heap (.object a)) : Acc (flip (Holds heap)) a :=
  Cycles.acc_iff_no_cycle.mpr fun b reached => data.acyclic b (below_of_reached reached)

/-! ## Keys -/

/-- A plain key is a string without a zero. -/
theorem PropertyKey.IsPlain.isString {key : PropertyKey} (plain : key.IsPlain) :
    key.identity = .inl key.atomToString.units ∧ 0 ∉ key.atomToString.units := by
  obtain ⟨isConst, name⟩ := key
  cases name with
  | string s => exact ⟨rfl, plain⟩
  | symbol address description => exact plain.elim

/-- What is kept of a plain key: all of it, or nothing. -/
theorem PropertyKey.IsPlain.keptName {key : PropertyKey} (plain : key.IsPlain) :
    key.keptName = if key.atomToString.TooLong then [] else key.atomToString.units := by
  have free := plain.isString.2
  rw [PropertyKey.keptName]
  congr 1
  rw [List.takeWhile_eq_self_iff]
  intro c found
  rw [bne_iff_ne]
  rintro rfl
  exact free found

/-- The Go strings of plain keys are their texts exactly when none is too long. -/
theorem names_eq_texts_iff {keys : List PropertyKey} (plain : ∀ key ∈ keys, key.IsPlain) :
    (keys.map PropertyKey.keptName).map Wtf8.encode =
        keys.map (fun key => key.atomToString.text) ↔
      ∀ key ∈ keys, ¬ key.atomToString.TooLong := by
  rw [List.map_map, List.map_inj_left]
  apply forall₂_congr
  intro key found
  rw [Function.comp_apply, (plain key found).keptName]
  by_cases long : key.atomToString.TooLong
  · rw [if_pos long]
    exact ⟨fun same => absurd same.symm long.text_ne_nil, fun short => absurd long short⟩
  · rw [if_neg long]
    exact ⟨fun _ => long, fun _ => rfl⟩

/-- Distinct plain keys have distinct texts. -/
theorem texts_nodup {own : OwnKeys} (plain : ∀ key ∈ own.keys, key.IsPlain) :
    (own.keys.map fun key => key.atomToString.text).Nodup := by
  have identities : own.keys.map PropertyKey.identity =
      (own.keys.map fun key => key.atomToString.units).map Sum.inl := by
    rw [List.map_map]
    apply List.map_congr_left
    intro key found
    exact (plain key found).isString.1
  have units := own.distinct
  rw [identities, List.nodup_map_iff Sum.inl_injective] at units
  have texts := units.map Wtf8.encode_injective
  rwa [List.map_map] at texts

/-- Entries that were set in order are the entries that are wanted exactly when keys and
values are. -/
theorem setAll_zip_eq_iff {names texts : List (List UInt8)} {vs ws : List Decoded}
    (named : names.length = vs.length) (texted : texts.length = ws.length)
    (count : vs.length = ws.length) (distinct : texts.Nodup) :
    setAll [] (names.zip vs) = texts.zip ws ↔ vs = ws ∧ names = texts := by
  have fst : (names.zip vs).map Prod.fst = names := List.map_fst_zip (by omega)
  constructor
  · intro same
    have fresh : ((names.zip vs).map Prod.fst).Nodup := by
      rw [← setAll_length_iff, same]
      simp [named, texted, count]
    have zipped : names.zip vs = texts.zip ws := by
      rw [← same, setAll_new (by simpa using fresh), List.nil_append]
    constructor
    · have values := congrArg (List.map Prod.snd) zipped
      rwa [List.map_snd_zip (by omega), List.map_snd_zip (by omega)] at values
    · have keys := congrArg (List.map Prod.fst) zipped
      rwa [List.map_fst_zip (by omega), List.map_fst_zip (by omega)] at keys
  · rintro ⟨rfl, rfl⟩
    rw [setAll_new (by rwa [List.nil_append, fst]), List.nil_append]

/-- What is built from the images of the parts is the image of the object exactly when
no key is too long. -/
theorem build_eq_image_iff {node : Node A} (supported : node.Supported) {vs ws : List Decoded}
    (length : vs.length = node.count) (length' : ws.length = node.count) :
    node.build vs = node.image ws ↔ vs = ws ∧ ¬ node.Overlong := by
  cases node with
  | array n element => simp [Node.build, Node.image, Node.Overlong]
  | function f =>
    obtain rfl : vs = [] := List.length_eq_zero_iff.mp length
    obtain rfl : ws = [] := List.length_eq_zero_iff.mp length'
    simp [Node.build, Node.image, Node.Overlong]
  | plain own value =>
    change vs.length = own.keys.length at length
    change ws.length = own.keys.length at length'
    have overlong : ¬ (Node.plain own value).Overlong ↔
        ∀ key ∈ own.keys, ¬ key.atomToString.TooLong := by simp [Node.Overlong]
    have zipped : setAll [] (((own.keys.map PropertyKey.keptName).map Wtf8.encode).zip vs) =
        (own.keys.map fun key => key.atomToString.text).zip ws ↔
        vs = ws ∧ (own.keys.map PropertyKey.keptName).map Wtf8.encode =
          own.keys.map fun key => key.atomToString.text :=
      setAll_zip_eq_iff (by simp [length]) (by simp [length']) (length.trans length'.symm)
        (texts_nodup supported)
    rw [overlong, ← names_eq_texts_iff supported, ← zipped, ← own.atoms_names,
      ← entries_eq (by simpa [OwnKeys.atoms] using length)]
    simp only [Node.build, Node.image, Decoded.map.injEq]
    by_cases none_left : own.keys.length = 0
    · rw [if_pos none_left, if_pos none_left]
      obtain rfl : vs = [] := List.length_eq_zero_iff.mp (length.trans none_left)
      obtain rfl : ws = [] := List.length_eq_zero_iff.mp (length'.trans none_left)
      simp [entries, gathered]
    · rw [if_neg none_left, if_neg none_left, Option.some.injEq]

/-! ## Conversion and image -/

/-- A value without parts that is not too long is converted to its image. -/
theorem flatResult_image {v : ScriptValue A} (supported : v.Supported heap)
    (flat : ∀ a, v ≠ .object a) : ∃ d, v.image = some d ∧
      (v.flatResult = some (.ok d) ↔ ¬ v.Overlong heap) := by
  cases v with
  | object a => exact absurd rfl (flat a)
  | symbol p => exact supported.elim
  | bigInt p => exact supported.elim
  | string s =>
    refine ⟨_, rfl, ?_⟩
    simp only [ScriptValue.flatResult, ScriptValue.Overlong, s.toCStringLen_eq]
    by_cases long : s.TooLong
    · simp [long, long.text_ne_nil.symm]
    · simp [long]
  | _ => exact ⟨_, rfl, by simp [ScriptValue.flatResult, ScriptValue.Overlong]⟩

/-- Data without a string or key that is too long is converted to its image.

Proof: induction on the nesting of the objects. The images of the parts are what the
image of the whole is built from. -/
theorem gives_image [Finite A] {v : ScriptValue A} (data : IsData heap v)
    (fits : ∀ w, Below heap v w → ¬ w.Overlong heap) :
    ∃ image, IsImage heap v image ∧
      ∀ p, valueAt heap root p = v → Gives (reading heap root) p (.ok image) := by
  have flat : ∀ v : ScriptValue A, IsData heap v → (∀ w, Below heap v w → ¬ w.Overlong heap) →
      (∀ a, v ≠ .object a) → ∃ image, IsImage heap v image ∧
        ∀ p, valueAt heap root p = v → Gives (reading heap root) p (.ok image) := by
    intro v data fits flat
    obtain ⟨d, image, converted⟩ := flatResult_image (data.supported v (.here v)) flat
    refine ⟨d, .value image, fun p there => (gives_flat ?_).mpr rfl⟩
    rw [there]
    exact converted.mpr (fits v (.here v))
  cases v with
  | object a =>
    have finite := data.finite
    induction finite with
    | intro a _ inductionHypothesis =>
      have parts : ∀ i : Fin (heap a).count, ∃ image, IsImage heap ((heap a).child i) image ∧
          ∀ p, valueAt heap root p = (heap a).child i →
            Gives (reading heap root) p (.ok image) := by
        intro i
        have inside := data.part i.isLt
        have fitting : ∀ w, Below heap ((heap a).child i) w → ¬ w.Overlong heap :=
          fun w below => fits w (.part i.isLt below)
        cases child : (heap a).child i with
        | object b =>
          exact inductionHypothesis b ⟨i, i.isLt, child⟩ (child ▸ inside) (child ▸ fitting)
        | _ => exact flat _ (child ▸ inside) (child ▸ fitting) (by simp)
      choose image isImage gives using parts
      have length : (List.ofFn image).length = (heap a).count := List.length_ofFn
      have same : (heap a).build (List.ofFn image) = (heap a).image (List.ofFn image) :=
        (build_eq_image_iff (data.supported _ (.here _)) length length).mpr
          ⟨rfl, fits _ (.here _)⟩
      refine ⟨(heap a).image (List.ofFn image), .node length ?_, fun p there => ?_⟩
      · intro i v found
        obtain ⟨below, rfl⟩ := List.getElem?_eq_some_iff.mp found
        rw [List.getElem_ofFn]
        exact isImage ⟨i, by simpa using below⟩
      · refine (gives_node there data.short).mpr (Or.inr ⟨_, length, ?_, by rw [same]⟩)
        intro i v found
        obtain ⟨below, rfl⟩ := List.getElem?_eq_some_iff.mp found
        rw [List.getElem_ofFn]
        exact gives ⟨i, by simpa using below⟩ _ (valueAt_child there i)
  | _ => exact flat _ data fits (by simp)

/-- Data that is converted to its image has no string or key that is too long.

Proof: induction on the image. What was built for an object is its image, so its keys
fit and its parts were converted to their images. -/
theorem IsImage.fits {v : ScriptValue A} {image : Decoded} (isImage : IsImage heap v image)
    (data : IsData heap v) (there : valueAt heap root p = v)
    (given : Gives (reading heap root) p (.ok image)) :
    ∀ w, Below heap v w → ¬ w.Overlong heap := by
  induction isImage generalizing p with
  | @value v d image =>
    have flat : ∀ a, v ≠ .object a := by
      rintro a rfl
      simp [ScriptValue.image] at image
    obtain ⟨d', image', converted⟩ := flatResult_image (data.supported v (.here v)) flat
    obtain rfl : d' = d := Option.some.inj (image'.symm.trans image)
    have fits : ¬ v.Overlong heap := by
      rw [← converted]
      cases result : v.flatResult with
      | none =>
        cases v with
        | object a => exact absurd rfl (flat a)
        | _ => simp [ScriptValue.flatResult] at result
      | some expected =>
        obtain rfl := (gives_flat (there ▸ result)).mp given
        rfl
    intro w below
    cases below with
    | here => exact fits
    | part => exact absurd rfl (flat _)
  | @node a vs length _ inductionHypothesis =>
    obtain ⟨i, -, -, e, -, impossible⟩ | ⟨ws, length', parts, built⟩ :=
      (gives_node there data.short).mp given
    · simp at impossible
    · have same : (heap a).build ws = (heap a).image vs := (Except.ok.inj built).symm
      obtain ⟨rfl, fits⟩ :=
        (build_eq_image_iff (data.supported _ (.here _)) length' length).mp same
      intro w below
      cases below with
      | here => exact fits
      | @part _ i _ inside below =>
        have found : ws[i]? = some ws[i] := List.getElem?_eq_getElem (length ▸ inside)
        exact inductionHypothesis i _ found (data.part inside) (valueAt_child there i)
          (parts i _ found) w below

/-- Where nothing throws, a conversion that succeeds gives back all that it took. -/
theorem settles_of_returns {r : Reading} (unthrown : ∀ q, ¬ (r q).IsThrown) {depth : Nat}
    {image : Decoded} (returned : (fromJsValue r depth p).ending = .returns (.ok image)) :
    (fromJsValue r depth p).Settles [] := by
  refine fromJsValue_settles returned fun q reached leak => ?_
  rcases leak with counted | ⟨atoms, i, read, below, earlier, q', deeper, reported⟩
  · apply unthrown q
    cases answer : r q with
    | thrown x => trivial
    | _ => simp [answer, Answer.CountedOther] at counted
  · have failing := reached.trans (.property read below earlier deeper)
    obtain ⟨e, failed⟩ := gives_error_iff.mpr ⟨q', failing, reported⟩
    have impossible := failed.unique ⟨depth, returned⟩
    simp at impossible

/-- Finite data without cycles is converted to its image, and nothing is kept of it,
exactly when it contains no wide string and no wide key of `2 ^ 31 / 3` characters or
more. -/
theorem preserved_iff [Finite A] {v : ScriptValue A} (data : IsData heap v) :
    Preserved heap v ↔ ∀ w, Below heap v w → ¬ w.Overlong heap := by
  constructor
  · rintro ⟨image, depth, isImage, returned, -⟩
    exact isImage.fits data (p := []) rfl ⟨depth, returned⟩
  · intro fits
    obtain ⟨image, isImage, gives⟩ : ∃ image, IsImage heap v image ∧
        ∀ p, valueAt heap v p = v → Gives (reading heap v) p (.ok image) := gives_image data fits
    obtain ⟨depth, returned⟩ := gives [] rfl
    exact ⟨image, depth, isImage, returned, settles_of_returns (fun q => reading_not_thrown) returned⟩

/-- The value `[1, , null]` with a hole. -/
def holeHeap : Heap Unit :=
  fun _ => .array 3 fun i => if i = 0 then some (.int 1) else if i = 2 then some .null else none

/-- Below the object with a hole lie a one, undefined and null. -/
theorem holeHeap_child (i : Nat) : ∀ w, Below holeHeap ((holeHeap ()).child i) w →
    w = .int 1 ∨ w = .undefined ∨ w = .null := by
  intro w below
  have child : (holeHeap ()).child i = .int 1 ∨ (holeHeap ()).child i = .undefined ∨
      (holeHeap ()).child i = .null := by
    simp only [holeHeap, Node.child]
    split
    · exact Or.inl rfl
    · split
      · exact Or.inr (Or.inr rfl)
      · exact Or.inr (Or.inl rfl)
  rcases child with same | same | same
  · rw [same] at below
    cases below
    exact Or.inl rfl
  · rw [same] at below
    cases below
    exact Or.inr (Or.inl rfl)
  · rw [same] at below
    cases below
    exact Or.inr (Or.inr rfl)

/-- And the object itself. -/
theorem holeHeap_below {w : ScriptValue Unit} (below : Below holeHeap (.object ()) w) :
    w = .object () ∨ w = .int 1 ∨ w = .undefined ∨ w = .null := by
  cases below with
  | here => exact Or.inl rfl
  | part _ inside => exact Or.inr (holeHeap_child _ w inside)

/-- The object with a hole is preserved all the same. -/
theorem holeHeap_preserved : Preserved holeHeap (.object ()) := by
  have data : IsData holeHeap (.object ()) := by
    constructor
    · rintro a - cycle
      obtain ⟨b, ⟨i, -, child⟩, -⟩ := TransGen.head'_iff.mp cycle
      have inside : Below holeHeap ((holeHeap ()).child i) (.object b) := child ▸ Below.here _
      rcases holeHeap_child i _ inside with same | same | same <;> simp at same
    · intro w below
      rcases holeHeap_below below with rfl | rfl | rfl | rfl
      · exact (by decide : (3 : UInt32).toNat < 2 ^ 31)
      all_goals trivial
  refine (preserved_iff data).mpr fun w below => ?_
  rcases holeHeap_below below with rfl | rfl | rfl | rfl <;> exact id

/-- The string `"\u0100".repeat(n)`. -/
def wideString (n : Nat) (bounded : n ≤ 2 ^ 30 - 1) : JSString where
  units := List.replicate n 0x100
  isWideChar := true
  narrow wide := absurd wide (by decide)
  bounded := by rwa [List.length_replicate]

/-- A wide string is too long if three bytes for each unit are more than an `int` can count. -/
theorem wideString_tooLong {n : Nat} (bounded : n ≤ 2 ^ 30 - 1) (long : 2 ^ 31 ≤ 3 * n) :
    (wideString n bounded).TooLong := by
  refine ⟨rfl, ?_⟩
  rwa [wideString, List.length_replicate]

/-- Data without objects. -/
def emptyHeap : Heap Empty := fun a => a.elim

/-- A string that is too long is data and is not preserved. -/
theorem string_lost {s : JSString} (long : s.TooLong) :
    IsData emptyHeap (.string s) ∧ ¬ Preserved emptyHeap (.string s) := by
  have data : IsData emptyHeap (.string s) := by
    constructor
    · exact fun a => a.elim
    · intro w below
      cases below
      trivial
  refine ⟨data, ?_⟩
  rintro ⟨image, depth, isImage, returned, -⟩
  exact isImage.fits data (p := []) rfl ⟨depth, returned⟩ _ (.here _) long

/-- A wide string of 715827883 characters is data, and is not converted to its image. -/
theorem wideString_lost : IsData emptyHeap (.string (wideString 715827883 (by decide))) ∧
    ¬ Preserved emptyHeap (.string (wideString 715827883 (by decide))) :=
  string_lost (wideString_tooLong (by decide) (by decide))

end GoQuickjs
