import GoQuickjs.Proxies
import GoQuickjs.Library.Wtf8

/-!
# Members by name

A Go selector names a method of the method set, or else the field that is found by the name. A
struct proxy should take an exported name, and also the name with its first letter in lower case,
for that member. What it does is to put the first byte into upper case and to look for a field
before a method. The first is right for the letters of ASCII only: half a letter is not a letter.
The second is right as long as no promoted field hides behind a method of the same name.
-/

namespace GoQuickjs.Proxies

open Wtf8

/-- The letter tables of package `unicode`, with what they say about ASCII. -/
structure LetterTables where
  isUpper : Nat → Bool
  toUpper : Nat → Nat
  toLower : Nat → Nat
  isUpper_ascii : ∀ c < 0x80, isUpper c = (65 ≤ c && c ≤ 90)
  toLower_ascii : ∀ c, 65 ≤ c → c ≤ 90 → toLower c = c + 32

/-- An exported Go identifier: its first letter is in upper case. -/
structure ExportedName (tables : LetterTables) where
  letter : Nat
  rest : Name
  valid : letter < 0x110000
  upper : tables.isUpper letter = true

variable {tables : LetterTables}

/-- The identifier in UTF-8. -/
def ExportedName.name (F : ExportedName tables) : Name := utf8 F.letter ++ F.rest

/-- The keys that stand for an exported name: the name, and the name with its first letter in lower
case if that can be undone. -/
def ExportedName.IsKey (F : ExportedName tables) (key : Name) : Prop :=
  key = F.name ∨
    (tables.toUpper (tables.toLower F.letter) = F.letter ∧
      key = utf8 (tables.toLower F.letter) ++ F.rest)

/-- The struct type has an exported field or a method of that name. -/
def HasMember (types : GoTypes) (t : Nat) (name : Name) : Prop :=
  (∃ path, types.fieldByName t name = some path ∧ path.exported = true) ∨
    types.methods t name ≠ none ∨ types.pointerMethods t name ≠ none

/-- What a Go selector with an exported name selects. -/
def selector (types : GoTypes) (heap : GoHeap) (s : StructValue) (name : Name) : Selection :=
  match methodByName types s name with
  | some code => .method name code
  | none =>
    match s.fieldByName types heap name with
    | .panics => .panics
    | .valid c _ exported => if exported then .component c else .absent
    | .invalid => .absent

/-- The keys of the exported name read what the selector selects, write the field of that name, and
select no member of another exported name. -/
structure ReachableByName (types : GoTypes) (t : Nat) (F : ExportedName tables) : Prop where
  reads : ∀ key, F.IsKey key → ∀ heap v s, structE heap v = some s → s.type = t →
    goStructGet types heap v key = selector types heap s F.name
  writes : ∀ key, F.IsKey key → ∀ coerce depth v x heap,
    goStructSet types coerce depth v key x heap =
      converted depth x heap (setField types coerce v F.name)
  apart : ∀ G : ExportedName tables, G.name ≠ F.name → ∀ key, F.IsKey key →
    ∀ heap v s, structE heap v = some s → s.type = t →
    goStructGet types heap v key = selector types heap s G.name →
      goStructGet types heap v key = .absent ∨ goStructGet types heap v key = .panics

/-! ## The first byte -/

/-- A code point beyond ASCII begins with a byte that is no character. -/
theorem utf8_head {c : Nat} (valid : c < 0x110000) (beyond : ¬ c < 0x80) :
    ∃ b rest, utf8 c = b :: rest ∧ ¬ b < 0x80 := by
  have bytes := utf8_eq valid
  rw [if_neg beyond] at bytes
  cases shape : utf8 c with
  | nil =>
    rw [shape] at bytes
    split at bytes
    · cases bytes
    · split at bytes <;> cases bytes
  | cons b rest =>
    refine ⟨b, rest, rfl, ?_⟩
    rw [shape] at bytes
    have large : 0x80 ≤ b.toNat := by
      split at bytes
      · have head := (List.cons.inj bytes).1
        omega
      · split at bytes
        · have head := (List.cons.inj bytes).1
          omega
        · have head := (List.cons.inj bytes).1
          omega
    rw [UInt8.lt_iff_toNat_lt]
    exact Nat.not_lt.mpr large

/-- A letter of ASCII that is put into upper case as a byte is put into upper case. -/
theorem upperFirst_ascii {c : Nat} (rest : Name) (ascii : c < 0x80) :
    upperFirst (utf8 c ++ rest) =
      UInt8.ofNat (if 97 ≤ c ∧ c ≤ 122 then c - 32 else c) :: rest := by
  have value : (UInt8.ofNat c).toNat = c := by
    rw [UInt8.toNat_ofNat']
    omega
  have low : UInt8.ofNat c < 0x80 := by
    rw [UInt8.lt_iff_toNat_lt, value]
    exact ascii
  rw [utf8, if_pos ascii, List.singleton_append, upperFirst, if_pos low]
  congr 1
  by_cases letter : 97 ≤ c ∧ c ≤ 122
  · have inside : (97 ≤ UInt8.ofNat c && UInt8.ofNat c ≤ 122) = true := by
      simp only [Bool.and_eq_true, decide_eq_true_eq, UInt8.le_iff_toNat_le, value]
      exact letter
    rw [if_pos inside, if_pos letter]
    apply UInt8.toNat_inj.mp
    rw [UInt8.toNat_sub, value, UInt8.toNat_ofNat']
    change (2 ^ 8 - 32 + c) % 2 ^ 8 = (c - 32) % 2 ^ 8
    omega
  · have outside : ¬ (97 ≤ UInt8.ofNat c && UInt8.ofNat c ≤ 122) = true := by
      simp only [Bool.and_eq_true, decide_eq_true_eq, UInt8.le_iff_toNat_le, value]
      exact letter
    rw [if_neg outside, if_neg letter]

/-- The first letter is in upper case, if it is one of ASCII. -/
theorem ExportedName.letter_ascii (F : ExportedName tables) (ascii : F.letter < 0x80) :
    65 ≤ F.letter ∧ F.letter ≤ 90 := by
  have upper := F.upper
  rw [tables.isUpper_ascii F.letter ascii] at upper
  simpa using upper

/-- The keys of a name with a first letter of ASCII are taken for the name. -/
theorem upperFirst_key {F : ExportedName tables} {key : Name} (ascii : F.letter < 0x80)
    (isKey : F.IsKey key) : upperFirst key = F.name := by
  have letter := F.letter_ascii ascii
  have name : F.name = UInt8.ofNat F.letter :: F.rest := by
    rw [ExportedName.name, utf8, if_pos ascii, List.singleton_append]
  rcases isKey with rfl | ⟨_, rfl⟩
  · rw [ExportedName.name, upperFirst_ascii _ ascii, if_neg (by omega), ← name]
    rfl
  · rw [tables.toLower_ascii F.letter letter.1 letter.2, upperFirst_ascii _ (by omega),
      if_pos (by omega), Nat.add_sub_cancel, name]

/-- A name is only taken for itself if its first letter is one of ASCII. -/
theorem letter_of_upperFirst {F : ExportedName tables} (same : upperFirst F.name = F.name) :
    F.letter < 0x80 := by
  by_contra beyond
  obtain ⟨b, rest, shape, large⟩ := utf8_head F.valid beyond
  rw [ExportedName.name, shape, List.cons_append, upperFirst, if_neg large] at same
  have length := congrArg List.length same
  simp at length
  omega

/-! ## What is selected has the name -/

variable {types : GoTypes} {heap : GoHeap} {v : GoVal} {s : StructValue} {name key : Name}
  {selection : Selection} {t : Nat}

/-- The selection is a method or a field of that name. -/
inductive Denotes (types : GoTypes) (name : Name) : Selection → Prop
  | method (code : Nat) : Denotes types name (.method name code)
  | field (path : FieldPath) (inner : GoAddr) : path.Names types name →
      Denotes types name (.component (.field path.type inner path.index))

/-- A selection is denoted by one name only. -/
theorem Denotes.unique {other : Name} (denotes : Denotes types name selection)
    (otherDenotes : Denotes types other selection) : name = other := by
  cases denotes with
  | method code =>
    cases otherDenotes
    rfl
  | field path inner named =>
    generalize same : Selection.component (.field path.type inner path.index) = selected
      at otherDenotes
    cases otherDenotes with
    | method code => cases same
    | field otherPath otherInner otherNamed =>
      obtain ⟨sameType, _, sameIndex⟩ := Component.field.inj (Selection.component.inj same)
      exact named.unique otherNamed sameType sameIndex

/-- A field that is found has the name. -/
theorem fieldByName_denotes {c : Component} {addressable exported : Bool}
    (found : s.fieldByName types heap name = .valid c addressable exported) :
    Denotes types name (.component c) := by
  rw [StructValue.fieldByName] at found
  split at found
  · cases found
  · rename_i path way
    split at found
    · cases found
    · rename_i place resolved
      obtain ⟨rfl, _, _⟩ := FieldValue.valid.inj found
      obtain ⟨inner, here⟩ := fieldByIndex_component resolved
      rw [here]
      exact .field path inner (fieldByName_spec way).1

/-- `go_struct_get` selects a member of the name it makes of the key, or none. -/
theorem goStructGet_denotes (selected : goStructGet types heap v key = selection) :
    selection = .absent ∨ selection = .panics ∨ Denotes types (upperFirst key) selection := by
  subst selected
  rw [goStructGet]
  split
  · exact .inl rfl
  · split
    · exact .inr (.inl rfl)
    · rename_i c _ exported found
      cases exported with
      | true => exact .inr (.inr (fieldByName_denotes found))
      | false => exact .inl rfl
    · rename_i s _ _ _
      cases methodByName types s (upperFirst key) with
      | none => exact .inl rfl
      | some code => exact .inr (.inr (.method code))

/-- A Go selector selects a member of its name, or none. -/
theorem selector_denotes (selected : selector types heap s name = selection) :
    selection = .absent ∨ selection = .panics ∨ Denotes types name selection := by
  subst selected
  rw [selector]
  split
  · rename_i code _
    exact .inr (.inr (.method code))
  · split
    · exact .inr (.inl rfl)
    · rename_i c _ exported found
      cases exported with
      | true => exact .inr (.inr (fieldByName_denotes found))
      | false => exact .inl rfl
    · exact .inl rfl

/-! ## A member that is there -/

/-- Memory in which every part holds a struct, and every pointer leads to one of the type. -/
def inhabited (t : Nat) : GoHeap := ⟨fun _ => .struct t 0, fun _ => some (.struct t 0)⟩

/-- A pointer to a struct of the type. -/
def pointer : GoVal := .ptr false (some 0)

/-- A pointer to a struct leads to the struct, which can be set. -/
theorem structE_pointer (t : Nat) : structE (inhabited t) pointer = some ⟨t, 0, true⟩ := rfl

/-- In this memory every field is there. -/
theorem fieldByIndex_inhabited {type index : Nat} (addressable : Bool) (steps : List (Nat × Nat)) :
    (inhabited t).fieldByIndex type index 0 addressable steps =
      some (.field type 0 index, addressable) := by
  induction steps generalizing addressable with
  | nil => rfl
  | cons step rest inductionHypothesis =>
    change (inhabited t).fieldByIndex type index 0 (addressable || false) rest = _
    rw [Bool.or_false]
    exact inductionHypothesis addressable

/-- A struct with all its pointers set has every field its type has. -/
theorem fieldByName_inhabited {path : FieldPath} (way : types.fieldByName t name = some path) :
    StructValue.fieldByName types (inhabited t) ⟨t, 0, true⟩ name =
      .valid (.field path.type 0 path.index) true path.exported := by
  simp only [StructValue.fieldByName, way, fieldByIndex_inhabited]

/-- A struct that can be addressed has the methods of its pointer too. -/
theorem methodByName_pointer (base : GoAddr)
    (method : types.methods t name ≠ none ∨ types.pointerMethods t name ≠ none) :
    ∃ code, methodByName types ⟨t, base, true⟩ name = some code := by
  simp only [methodByName]
  split
  · rename_i code _
    exact ⟨code, rfl⟩
  · rename_i absent
    rcases method with own | pointers
    · exact absurd absent own
    · exact Option.ne_none_iff_exists'.mp pointers

/-- There the selector selects the member. -/
theorem selector_member (member : HasMember types t name) :
    selector types (inhabited t) ⟨t, 0, true⟩ name ≠ .absent ∧
      selector types (inhabited t) ⟨t, 0, true⟩ name ≠ .panics := by
  rw [selector]
  rcases member with ⟨path, way, exported⟩ | method
  · split
    · simp
    · rw [fieldByName_inhabited way, exported]
      simp
  · obtain ⟨code, found⟩ := methodByName_pointer 0 method
    rw [found]
    simp

/-! ## Which members are reachable -/

/-- The first letter is one of ASCII, and no field hides behind a method of the name. -/
def PlainName (types : GoTypes) (t : Nat) (F : ExportedName tables) : Prop :=
  F.letter < 0x80 ∧
    (types.methods t F.name ≠ none ∨ types.pointerMethods t F.name ≠ none →
      types.fieldByName t F.name = none)

variable {F : ExportedName tables}

/-- A member that is reachable by its name has a plain one. -/
theorem ReachableByName.plain (reachable : ReachableByName types t F)
    (member : HasMember types t F.name) : PlainName types t F := by
  have read := reachable.reads F.name (.inl rfl) (inhabited t) pointer _ (structE_pointer t) rfl
  obtain ⟨present, regular⟩ := selector_member member
  have ascii : F.letter < 0x80 := by
    apply letter_of_upperFirst
    rcases goStructGet_denotes read with absent | panics | taken
    · exact absurd absent present
    · exact absurd panics regular
    · rcases selector_denotes rfl with absent | panics | meant
      · exact absurd absent present
      · exact absurd panics regular
      · exact taken.unique meant
  refine ⟨ascii, fun method => ?_⟩
  by_contra shadowed
  obtain ⟨path, way⟩ := Option.ne_none_iff_exists'.mp shadowed
  obtain ⟨code, found⟩ := methodByName_pointer 0 method
  simp only [goStructGet, structE_pointer, upperFirst_key ascii (.inl rfl),
    fieldByName_inhabited way, selector, found] at read
  split at read <;> cases read

/-- A plain name selects its own member. -/
theorem goStructGet_plain (plain : PlainName types t F) (isKey : F.IsKey key)
    (target : structE heap v = some s) (typed : s.type = t) :
    goStructGet types heap v key = selector types heap s F.name := by
  simp only [goStructGet, target, upperFirst_key plain.1 isKey, selector]
  cases method : methodByName types s F.name with
  | none =>
    cases s.fieldByName types heap F.name with
    | invalid | panics | valid => rfl
  | some code =>
    have noField : types.fieldByName t F.name = none := by
      apply plain.2
      rw [methodByName, typed] at method
      split at method
      · rename_i own
        exact .inl (by rw [own]; simp)
      · split at method
        · exact .inr (by rw [method]; simp)
        · cases method
    have invalid : s.fieldByName types heap F.name = .invalid := by
      simp only [StructValue.fieldByName, typed, noField]
    rw [invalid]
    rfl

/-- A member with a plain name is reachable by it. -/
theorem PlainName.reachable (plain : PlainName types t F) : ReachableByName types t F := by
  constructor
  case reads =>
    intro key isKey heap v s target typed
    exact goStructGet_plain plain isKey target typed
  case writes =>
    intro key isKey coerce depth v x heap
    rw [goStructSet, upperFirst_key plain.1 isKey]
  case apart =>
    intro G different key isKey heap v s target typed confused
    rcases goStructGet_denotes rfl with absent | panics | taken
    · exact .inl absent
    · exact .inr panics
    · rcases selector_denotes confused.symm with absent | panics | meant
      · exact .inl absent
      · exact .inr panics
      · rw [upperFirst_key plain.1 isKey] at taken
        exact absurd (meant.unique taken) different

/-- A member is reachable by its exported name exactly when the name begins with a letter of ASCII
and, if the member is a method, no promoted field has the same name. -/
theorem reachableByName_iff (types : GoTypes) (t : Nat) (F : ExportedName tables)
    (member : HasMember types t F.name) : ReachableByName types t F ↔ PlainName types t F :=
  ⟨fun reachable => reachable.plain member, PlainName.reachable⟩

/-- The letters of Latin-1. -/
def latin1 : LetterTables where
  isUpper c := (65 ≤ c && c ≤ 90) || (0xc0 ≤ c && c ≤ 0xde && c != 0xd7)
  toUpper c := if (97 ≤ c && c ≤ 122) || (0xe0 ≤ c && c ≤ 0xfe && c != 0xf7) then c - 32 else c
  toLower c := if (65 ≤ c && c ≤ 90) || (0xc0 ≤ c && c ≤ 0xde && c != 0xd7) then c + 32 else c
  isUpper_ascii := by decide
  toLower_ascii := by
    intro c lower upper
    rw [if_pos (by simp [lower, upper])]

/-- A type with the field `A`, an embedded struct and the method `B`; the embedded struct has the
fields `B` and `É`. -/
def accented : GoTypes where
  structs := [
    ⟨[⟨[65], true, none⟩, ⟨[69], true, some 1⟩], fun name => if name = [66] then some 7 else none,
      fun name => if name = [66] then some 7 else none⟩,
    ⟨[⟨[66], true, none⟩, ⟨[0xc3, 0x89], true, none⟩], fun _ => none, fun _ => none⟩]
  keyType _ := .string

/-- The field `A` is reachable. -/
theorem plainField_reachable :
    HasMember accented 0 [65] ∧ ReachableByName accented 0 (⟨65, [], by decide, by decide⟩ :
      ExportedName latin1) := by
  have member : HasMember accented 0 [65] := .inl ⟨⟨[], 0, 0, true⟩, by decide, rfl⟩
  exact ⟨member, (reachableByName_iff accented 0 ⟨65, [], by decide, by decide⟩ member).mpr
    ⟨by decide, by decide⟩⟩

/-- The promoted field `É` is not: neither `É` nor `é` selects anything. Nor is the method `B`, for
which the promoted field is taken. -/
theorem members_not_reachable :
    (HasMember accented 0 [0xc3, 0x89] ∧
      ¬ ReachableByName accented 0 (⟨0xc9, [], by decide, by decide⟩ : ExportedName latin1) ∧
      goStructGet accented (inhabited 0) (.struct 0 0) [0xc3, 0x89] = .absent ∧
      goStructGet accented (inhabited 0) (.struct 0 0) [0xc3, 0xa9] = .absent) ∧
    HasMember accented 0 [66] ∧
      ¬ ReachableByName accented 0 (⟨66, [], by decide, by decide⟩ : ExportedName latin1) ∧
      selector accented (inhabited 0) ⟨0, 0, false⟩ [66] = .method [66] 7 ∧
      goStructGet accented (inhabited 0) (.struct 0 0) [66] = .component (.field 1 0 0) := by
  have letter : HasMember accented 0 [0xc3, 0x89] :=
    .inl ⟨⟨[(0, 1)], 1, 1, true⟩, by decide, rfl⟩
  have method : HasMember accented 0 [66] := .inr (.inl (by decide))
  refine ⟨⟨letter, ?_, by decide, by decide⟩, method, ?_, by decide, by decide⟩
  · intro reachable
    exact absurd (reachable.plain letter).1 (by decide)
  · intro reachable
    exact absurd ((reachable.plain method).2 (.inl (by decide))) (by decide)

end GoQuickjs.Proxies
