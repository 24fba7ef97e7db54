import GoQuickjs.Results
import GoQuickjs.Texts

/-!
# Property keys as map keys

`fromJsObject` asks the engine for the string and the symbol keys of an object and
stores each property under the Go string of its key. That string is the text of the
key, or the description of the symbol, up to the first NUL character. The properties of
an object are told apart in the map exactly when these names differ.
-/

namespace GoQuickjs

open Tracing Traced

/-! ## Keys -/

/-- What an atom stands for: a string, where an array index is the string of its digits,
or a symbol, told apart by its address, with its description. -/
inductive KeyName where
  | string : JSString → KeyName
  | symbol : Ptr → Option JSString → KeyName

/-- An own key of an object, and whether its atom carries a reference count. -/
structure PropertyKey where
  isConst : Bool
  name : KeyName

namespace PropertyKey

/-- What makes two keys the same: the characters of a string, the symbol itself. -/
def identity (key : PropertyKey) : List UInt16 ⊕ Ptr :=
  match key.name with
  | .string s => .inl s.units
  | .symbol address _ => .inr address

/-- `JS_AtomToString`: a symbol is named by its description, and one without a
description by the empty string. -/
def atomToString (key : PropertyKey) : JSString :=
  match key.name with
  | .string s => s
  | .symbol _ description => description.getD .empty

/-- `JS_AtomToCString`, where `NULL` reads as no bytes. -/
def atomToCString (key : PropertyKey) : List UInt8 := key.atomToString.toCStringLen.getD []

/-- The key as `fromJsObject` sees it. -/
def atom (key : PropertyKey) : JSAtom := ⟨key.isConst, key.atomToCString⟩

/-- The part of a key that its Go string keeps: the characters before the first NUL, and
none where the string is too long for a C string. -/
def keptName (key : PropertyKey) : List UInt16 :=
  if key.atomToString.TooLong then [] else key.atomToString.units.takeWhile (· != 0)

/-- The Go string of a key is what is kept of it, in UTF-8. -/
theorem goString_atom (key : PropertyKey) :
    goString key.atom.text = Wtf8.encode key.keptName := by
  rw [atom, atomToCString, JSString.toCStringLen_eq, keptName]
  split
  · rfl
  · exact Wtf8.encode_takeWhile _

end PropertyKey

/-- The enumerable own keys of an object. -/
structure OwnKeys where
  keys : List PropertyKey
  distinct : (keys.map PropertyKey.identity).Nodup

/-- What `JS_GetOwnPropertyNames` gives for them. -/
def OwnKeys.atoms (own : OwnKeys) : List JSAtom := own.keys.map PropertyKey.atom

/-! ## Setting keys -/

/-- Set a list of entries, in order. -/
def setAll (res : List (List UInt8 × Decoded)) (es : List (List UInt8 × Decoded)) :
    List (List UInt8 × Decoded) := es.foldl (fun res e => setKey e.1 e.2 res) res

theorem setKey_new {key : List UInt8} {v : Decoded} {res : List (List UInt8 × Decoded)}
    (new : key ∉ res.map Prod.fst) : setKey key v res = res ++ [(key, v)] := by
  induction res with
  | nil => rfl
  | cons entry rest inductionHypothesis =>
    simp only [List.map_cons, List.mem_cons, not_or] at new
    rw [setKey, if_neg (fun same => new.1 same.symm), inductionHypothesis new.2, List.cons_append]

theorem setKey_old {key : List UInt8} {v : Decoded} {res : List (List UInt8 × Decoded)}
    (old : key ∈ res.map Prod.fst) : (setKey key v res).map Prod.fst = res.map Prod.fst := by
  induction res with
  | nil => simp at old
  | cons entry rest inductionHypothesis =>
    rw [setKey]
    split
    · rename_i same
      simp [same]
    · rename_i other
      have later : key ∈ rest.map Prod.fst := by
        rcases List.mem_cons.mp old with here | later
        · exact absurd here.symm other
        · exact later
      rw [List.map_cons, List.map_cons, inductionHypothesis later]

/-- Entries with new and different keys are appended as they are. -/
theorem setAll_new {res es : List (List UInt8 × Decoded)}
    (distinct : ((res ++ es).map Prod.fst).Nodup) : setAll res es = res ++ es := by
  induction es generalizing res with
  | nil => simp [setAll]
  | cons e es inductionHypothesis =>
    have new : e.1 ∉ res.map Prod.fst := by
      rw [List.map_append, List.nodup_append] at distinct
      intro old
      exact distinct.2.2 e.1 old e.1 (by simp) rfl
    have step : setAll res (e :: es) = setAll (setKey e.1 e.2 res) es := rfl
    rw [step, setKey_new new, inductionHypothesis (by simpa using distinct)]
    simp

/-- The keys of a map stay different from each other. -/
theorem setAll_nodup {res es : List (List UInt8 × Decoded)} (distinct : (res.map Prod.fst).Nodup) :
    ((setAll res es).map Prod.fst).Nodup := by
  induction es generalizing res with
  | nil => exact distinct
  | cons e es inductionHypothesis =>
    refine @inductionHypothesis (setKey e.1 e.2 res) ?_
    by_cases old : e.1 ∈ res.map Prod.fst
    · rw [setKey_old old]
      exact distinct
    · rw [setKey_new old, List.map_append, List.nodup_append]
      refine ⟨distinct, by simp, ?_⟩
      intro k before k' last same
      simp only [List.map_cons, List.map_nil, List.mem_singleton] at last
      exact old (last ▸ same ▸ before)

/-- No key appears that was not set. -/
theorem setAll_subset {res es : List (List UInt8 × Decoded)} {key : List UInt8}
    (found : key ∈ (setAll res es).map Prod.fst) : key ∈ (res ++ es).map Prod.fst := by
  induction es generalizing res with
  | nil => simpa [setAll] using found
  | cons e es inductionHypothesis =>
    have later := @inductionHypothesis (setKey e.1 e.2 res) found
    by_cases old : e.1 ∈ res.map Prod.fst
    · rw [List.map_append, setKey_old old, ← List.map_append] at later
      simp only [List.map_append, List.mem_append, List.map_cons, List.mem_cons] at later ⊢
      tauto
    · rw [setKey_new old] at later
      simpa using later

/-- As many entries as were set remain exactly when no key was set twice. -/
theorem setAll_length_iff {es : List (List UInt8 × Decoded)} :
    (setAll [] es).length = es.length ↔ (es.map Prod.fst).Nodup := by
  constructor
  · intro same
    have fresh : ((setAll [] es).map Prod.fst).Nodup := setAll_nodup List.nodup_nil
    have within : (setAll [] es).map Prod.fst ⊆ es.map Prod.fst := fun key => setAll_subset
    have all := (List.subperm_of_subset fresh within).perm_of_length_le (by simp [same])
    exact all.nodup_iff.mp fresh
  · intro distinct
    rw [setAll_new (by simpa using distinct), List.nil_append]

/-- The loop sets the keys of the atoms to the images of the properties. -/
theorem gathered_setKey (atoms : List JSAtom) (vs : List Decoded) (start : Nat)
    (res : List (List UInt8 × Decoded)) (within : start + vs.length ≤ atoms.length) :
    gathered (fun i v res => setKey (keyText atoms i) v res) start res vs =
      setAll res (((atoms.drop start).map fun a => goString a.text).zip vs) := by
  induction vs generalizing start res with
  | nil => simp [gathered, setAll]
  | cons v vs inductionHypothesis =>
    rw [List.length_cons] at within
    have here : start < atoms.length := by omega
    have key : keyText atoms start = goString atoms[start].text := by simp [keyText, here]
    rw [gathered, inductionHypothesis (start + 1) _ (by omega), List.drop_eq_getElem_cons here,
      List.map_cons, List.zip_cons_cons, key]
    rfl

theorem entries_eq {atoms : List JSAtom} {vs : List Decoded} (length : vs.length = atoms.length) :
    entries atoms vs = setAll [] ((atoms.map fun a => goString a.text).zip vs) :=
  gathered_setKey atoms vs 0 [] (by omega)

/-! ## The properties of an object -/

variable {r : Reading} {p : Path}

/-- The properties of an object with `n` own keys are all in the map: as many entries as
properties, and each property bound under a key of its own. -/
structure KeepsProperties (r : Reading) (p : Path) (n : Nat)
    (m : Option (List (List UInt8 × Decoded))) : Prop where
  count : (m.getD []).length = n
  bound : ∃ slot : Nat → List UInt8, (∀ i < n, ∀ j < n, slot i = slot j → i = j) ∧
    ∀ i < n, ∀ v, Gives r (i :: p) (.ok v) → (slot i, v) ∈ m.getD []

/-- The Go names of the own keys. -/
theorem OwnKeys.atoms_names (own : OwnKeys) : (own.atoms.map fun a => goString a.text) =
    (own.keys.map PropertyKey.keptName).map Wtf8.encode := by
  simp only [OwnKeys.atoms, List.map_map]
  apply List.map_congr_left
  intro key _
  exact key.goString_atom

/-- The map that `fromJsObject` returns: the images of the properties set under what is
kept of their keys, in order. -/
theorem fromJsObject_map {own : OwnKeys} {depth : Nat}
    {m : Option (List (List UInt8 × Decoded))}
    (returned : (fromJsObject r p (fromJsValue r depth) (.ok own.atoms)).ending =
      .returns (.ok (.map m))) :
    ∃ vs : List Decoded, vs.length = own.keys.length ∧
      (∀ i v, vs[i]? = some v → Gives r (i :: p) (.ok v)) ∧
      m.getD [] = setAll [] (((own.keys.map PropertyKey.keptName).map Wtf8.encode).zip vs) := by
  obtain ⟨e, -, impossible⟩ | ⟨vs, length, gives, same⟩ :=
    fromJsObject_gives.mp ⟨depth, returned⟩
  · simp at impossible
  · refine ⟨vs, by simpa [OwnKeys.atoms] using length, gives, ?_⟩
    rw [← own.atoms_names, ← entries_eq length]
    obtain rfl : m = if own.atoms.length = 0 then none else some (entries own.atoms vs) := by
      simpa using same
    split
    · rename_i none_left
      obtain rfl : vs = [] := List.length_eq_zero_iff.mp (length.trans none_left)
      rfl
    · rfl

/-- A conversion that succeeds keeps all properties of the object exactly when no two of
its keys agree in what their Go strings keep: for strings the characters before the first
NUL, for symbols those of the description, and nothing of a wide string that is too long
for a C string. -/
theorem keepsProperties_iff (own : OwnKeys) {depth : Nat}
    {m : Option (List (List UInt8 × Decoded))}
    (returned : (fromJsObject r p (fromJsValue r depth) (.ok own.atoms)).ending =
      .returns (.ok (.map m))) :
    KeepsProperties r p own.keys.length m ↔ (own.keys.map PropertyKey.keptName).Nodup := by
  obtain ⟨vs, length, gives, stored⟩ := fromJsObject_map returned
  generalize names : own.keys.map PropertyKey.keptName = kept at stored
  have as_many : kept.length = own.keys.length := by simp [← names]
  have keys : ((kept.map Wtf8.encode).zip vs).map Prod.fst = kept.map Wtf8.encode :=
    List.map_fst_zip (by simp [as_many, length])
  have counted : (m.getD []).length = own.keys.length ↔ kept.Nodup := by
    have paired : ((kept.map Wtf8.encode).zip vs).length = own.keys.length := by
      simp [as_many, length]
    rw [stored, ← paired, setAll_length_iff, keys,
      List.nodup_map_iff Wtf8.encode_injective]
  constructor
  · exact fun keeps => counted.mp keeps.count
  · intro distinct
    have fresh : (kept.map Wtf8.encode).Nodup := distinct.map Wtf8.encode_injective
    have names_count : (kept.map Wtf8.encode).length = own.keys.length := by simp [as_many]
    have whole : m.getD [] = (kept.map Wtf8.encode).zip vs := by
      rw [stored, setAll_new (by rwa [List.nil_append, keys]), List.nil_append]
    generalize kept.map Wtf8.encode = texts at fresh names_count whole
    refine ⟨counted.mpr distinct, fun i => texts.getD i [], ?_, ?_⟩
    · intro i below j below' same
      simp only [List.getD_eq_getElem _ _ (names_count ▸ below),
        List.getD_eq_getElem _ _ (names_count ▸ below')] at same
      exact fresh.getElem_inj_iff.mp same
    · intro i below v given
      have image := gives i vs[i] (List.getElem?_eq_getElem (length ▸ below))
      obtain rfl : v = vs[i] := by simpa using given.unique image
      simp only [whole, List.getD_eq_getElem _ _ (names_count ▸ below)]
      have within : i < (texts.zip vs).length := by simp [names_count, length, below]
      exact List.mem_of_getElem (h := within) List.getElem_zip

/-- An object with two properties, whose values are 1 and 2. -/
def twoProperties (own : OwnKeys) : Reading
  | [] => .object (.ok own.atoms)
  | 0 :: _ => .int 1
  | _ :: _ => .int 2

/-- The own keys of `{"a": 1, "b": 2}`. -/
def plainKeys : OwnKeys where
  keys := [⟨true, .string ⟨[0x61], false, by simp, by simp⟩⟩,
    ⟨false, .string ⟨[0x62], false, by simp, by simp⟩⟩]
  distinct := by decide

theorem plainKeys_kept :
    KeepsProperties (twoProperties plainKeys) [] plainKeys.keys.length
      (some [([0x61], .int64 1), ([0x62], .int64 2)]) := by
  have returned : (fromJsObject (twoProperties plainKeys) []
      (fromJsValue (twoProperties plainKeys) 1) (.ok plainKeys.atoms)).ending =
        .returns (.ok (.map (some [([0x61], .int64 1), ([0x62], .int64 2)]))) := rfl
  exact (keepsProperties_iff plainKeys returned).mpr (by decide)

/-- The own keys of `{"a\0b": 1, "a\0c": 2}`. -/
def keysWithNul : OwnKeys where
  keys := [⟨false, .string ⟨[0x61, 0, 0x62], false, by simp, by simp⟩⟩,
    ⟨false, .string ⟨[0x61, 0, 0x63], false, by simp, by simp⟩⟩]
  distinct := by decide

/-- The second property overwrites the first one: the map has one entry. -/
theorem keysWithNul_lost :
    (fromJsObject (twoProperties keysWithNul) [] (fromJsValue (twoProperties keysWithNul) 1)
          (.ok keysWithNul.atoms)).ending =
        .returns (.ok (.map (some [([0x61], .int64 2)]))) ∧
      ¬ KeepsProperties (twoProperties keysWithNul) [] keysWithNul.keys.length
        (some [([0x61], .int64 2)]) := by
  constructor
  · rfl
  · intro keeps
    have count := keeps.count
    simp [keysWithNul] at count

end GoQuickjs
