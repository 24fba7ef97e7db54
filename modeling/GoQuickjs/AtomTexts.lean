import GoQuickjs.AtomMaking

/-!
# Atoms for texts

The functions that make atoms from bytes and from numbers make a string first and pass it
on. `JS_NewAtomLen` looks for a text of ASCII characters before it makes a string. Going
back, an atom that has an entry gives a reference to the string it is.
-/

namespace GoQuickjs.Atoms.Runtime

variable {rt after : Runtime} {p q : Ptr} {s r : JSAtomStruct} {i j : Nat} {t : AtomType}
  {units : List UInt16} {room : Room} {held rest : Multiset Reference}

/-- Memory for a string: it is not used, nor what the allocator answers while the atom is made. -/
structure Spare (rt : Runtime) (room : Room) (p : Ptr) : Prop where
  free : rt.memory p = none
  nullEntry : room.nullEntry ≠ some p
  copy : room.copy ≠ some p

theorem Fresh.alloc (fresh : rt.Fresh room) (spare : rt.Spare room p) (str : Characters) :
    (rt.jsAllocString p str).Fresh room := by
  have unused : ∀ q, q ≠ p → rt.memory q = none →
      (rt.jsAllocString p str).memory q = none := by
    intro q other free
    rw [jsAllocString_memory, Function.update_of_ne other, free]
  refine ⟨fun q same => unused q ?_ (fresh.nullEntry q same),
    fun q same => unused q ?_ (fresh.copy q same), fresh.apart⟩
  · rintro rfl
    exact spare.nullEntry same
  · rintro rfl
    exact spare.copy same

theorem Fresh.congr (fresh : rt.Fresh room) (memory : after.memory = rt.memory) :
    after.Fresh room :=
  ⟨fun p same => memory ▸ fresh.nullEntry p same, fun p same => memory ▸ fresh.copy p same,
    fresh.apart⟩

/-- A small number is an atom without an entry. -/
theorem Sound.textAtom_number (sound : rt.Sound held) {n : Nat} (small : n ≤ jsAtomMaxInt) :
    TextAtom held rt rt (digits n) (atomFromUInt32 n) := by
  obtain ⟨_, _, const⟩ := isTaggedInt_fromUInt32 small
  refine ⟨?_, .refl, .inr (key_fromUInt32 small), fromUInt32_word small⟩
  rw [owned, if_pos const, zero_add]
  exact sound

/-- Without room for a string there is no atom, and nothing changes. -/
theorem Sound.made_null (sound : rt.Sound held) (t : AtomType) (units : List UInt16) :
    Made held rt rt t units 0 :=
  ⟨by rw [owned_zero, zero_add]; exact sound, .refl, .inl rfl⟩

section

variable (sound : rt.Sound held) (string : Option Ptr)
  (spare : ∀ p, string = some p → rt.Spare room p) (fits : rt.atomSize * 3 < 2 ^ 31)
  (fresh : rt.Fresh room)
include sound spare fits fresh

/-- `__JS_NewAtomInit` makes a string and the atom of its text. -/
theorem Sound.newAtomInit_makes (str : List UInt8)
    (large : t = .string → ∀ n, isNumString (str.map UInt8.toUInt16) = some n → jsAtomMaxInt < n)
    (ready : t = .globalSymbol → rt.Predefined) : ∃ i after,
      rt.newAtomInit str t string room = some (i, after) ∧
        Made held rt after (stored t) (str.map UInt8.toUInt16) i ∧
        (t = .string → string.isSome → rt.Only (str.map UInt8.toUInt16) i) := by
  cases string with
  | none => exact ⟨0, rt, rfl, sound.made_null _ _, fun _ room => by cases room⟩
  | some p =>
    have spare := spare p rfl
    obtain ⟨more, kept, entry⟩ := sound.jsAllocString_sound spare.free (.ofBytes str)
    obtain ⟨i, after, returned, made, only, _⟩ := more.newAtom_makes (Function.update_self ..)
      large (fun key => kept.predefined (ready key)) fits (fresh.alloc spare _)
    refine ⟨i, after, returned, made.later kept, ?_⟩
    rintro rfl _
    exact (only_of_entries (large rfl) (only (.inl rfl))).congr entry

/-- `JS_NewAtomUInt32` makes the atom of the numeral. -/
theorem Sound.jsNewAtomUInt32_makes {n : Nat} (below : n < 2 ^ 32) : ∃ i after,
    rt.jsNewAtomUInt32 n string room = some (i, after) ∧
      TextAtom held rt after (digits n) i ∧
      (string.isSome ∨ n ≤ jsAtomMaxInt → rt.Only (digits n) i) := by
  rw [jsNewAtomUInt32]
  by_cases small : n ≤ jsAtomMaxInt
  · rw [if_pos small]
    exact ⟨_, rt, rfl, sound.textAtom_number small,
      fun _ => sound.table.only_fromUInt32 small⟩
  · have large : ∀ m, isNumString (digits n) = some m → jsAtomMaxInt < m := by
      intro m numeral
      rw [isNumString_digits below] at numeral
      obtain rfl := Option.some.inj numeral
      exact Nat.lt_of_not_le small
    obtain ⟨i, after, returned, made, only⟩ := sound.newAtomInit_makes (t := .string) string
      spare fits fresh (Numerals.numeral n) (fun _ => large) fun key => by cases key
    rw [if_neg small]
    exact ⟨i, after, returned, made.textAtom, fun room =>
      only rfl (room.resolve_right small)⟩

/-- `JS_NewAtomInt64` makes the atom of the decimal text. -/
theorem Sound.jsNewAtomInt64_makes (n : Int) : ∃ i after,
    rt.jsNewAtomInt64 n string room = some (i, after) ∧
      TextAtom held rt after ((i64toa n).map UInt8.toUInt16) i ∧
      (string.isSome ∨ (0 ≤ n ∧ n ≤ jsAtomMaxInt) →
        rt.Only ((i64toa n).map UInt8.toUInt16) i) := by
  rw [jsNewAtomInt64]
  by_cases small : 0 ≤ n ∧ n ≤ jsAtomMaxInt
  · have bound : n.toNat ≤ jsAtomMaxInt := by omega
    have text : (i64toa n).map UInt8.toUInt16 = digits n.toNat := by
      rw [i64toa, if_neg (by omega), digits, show n.natAbs = n.toNat by omega]
    rw [if_pos small, text]
    exact ⟨_, rt, rfl, sound.textAtom_number bound,
      fun _ => sound.table.only_fromUInt32 bound⟩
  · have large : ∀ m, isNumString ((i64toa n).map UInt8.toUInt16) = some m →
        jsAtomMaxInt < m := by
      intro m numeral
      obtain ⟨_, same⟩ := isNumString_iff.mp numeral
      rw [i64toa] at same
      split at same
      · -- The text begins with a minus, which is no digit.
        have head : (45 : UInt16) ∈ digits m := by
          rw [← same]
          exact List.mem_cons_self ..
        obtain ⟨b, inside, minus⟩ := List.mem_map.mp head
        have digit := isNum_unit.trans (Numerals.numeral_digits inside)
        rw [minus] at digit
        cases digit
      · have value := digits_injective same
        omega
    obtain ⟨i, after, returned, made, only⟩ := sound.newAtomInit_makes (t := .string) string
      spare fits fresh (i64toa n) (fun _ => large) fun key => by cases key
    rw [if_neg small]
    exact ⟨i, after, returned, made.textAtom, fun room =>
      only rfl (room.resolve_right small)⟩

end

/-! ## Back from atoms to strings -/

theorem atomToValue_tagged (tagged : isTaggedInt i = true) (forceString : Bool) :
    rt.atomToValue i forceString (some p) =
      some (some p, rt.jsAllocString p (.ofBytes (Numerals.numeral (atomToUInt32 i)))) := by
  rw [atomToValue, if_pos tagged]

/-- `__JS_AtomToValue` on an atom that has an entry gives a reference to its string. Only the
text of a symbol without description is another one. -/
theorem Sound.atomToValue_returns (sound : rt.Sound held) (found : rt.entry i = some (p, s))
    (forceString : Bool) (ready : forceString = true → s.atomType = some .string ∨ rt.Predefined)
    (string : Option Ptr) : ∃ q after, rt.atomToValue i forceString string = some (some q, after) ∧
      after.Sound (.value q ::ₘ held) ∧ after.memory = rt.memory ∧
      (∀ j, after.entry j = rt.entry j) ∧ after.atomSize = rt.atomSize ∧
      (forceString = false ∨ s.atomType = some .string ∨ s.units ≠ [] → q = p) := by
  have untagged := sound.table.untagged_index found
  simp only [atomToValue, untagged, found, Option.bind_some, Bool.false_eq_true, if_false]
  by_cases bare : s.atomType ≠ some .string ∧ forceString ∧ s.units.length = 0 ∧ s.isWideChar
  · obtain ⟨⟨q, r⟩, empty⟩ :=
      (ready bare.2.1).resolve_left bare.1 jsAtomEmptyString (by decide)
    obtain ⟨after, returned, more, memory, entry, size⟩ :=
      sound.jsDupString_returns (entry_iff.mp empty).2.2 (sound.counted.counted_entry empty)
    rw [if_pos bare, empty, Option.bind_some, returned]
    refine ⟨q, after, rfl, more, memory, entry, size, ?_⟩
    rintro (other | string | text)
    · rw [other] at bare
      cases bare.2.1
    · exact absurd string bare.1
    · exact absurd (List.eq_nil_of_length_eq_zero bare.2.2.1) text
  · obtain ⟨after, returned, more, memory, entry, size⟩ :=
      sound.jsDupString_returns (entry_iff.mp found).2.2 (sound.counted.counted_entry found)
    rw [if_neg bare, Option.bind_some, returned]
    exact ⟨p, after, rfl, more, memory, entry, size, fun _ => rfl⟩

/-- `JS_ValueToAtom` on a symbol, or on any other string that is an atom. -/
theorem Sound.jsValueToAtom_returns (sound : rt.Sound held) (here : rt.memory p = some s)
    (alive : 0 < rt.refCount p) (type : s.atomType ≠ none) : ∃ i after, rt.entry i = some (p, s) ∧
      rt.jsValueToAtom p = some (i, after) ∧ after.Sound (owned i + held) ∧
      after.memory = rt.memory ∧ ∀ j, after.entry j = rt.entry j := by
  obtain ⟨i, found⟩ := sound.counted.registered here alive type
  obtain ⟨after, returned, more, memory, entry, _⟩ := sound.jsDupAtom_returns found
  refine ⟨i, after, found, ?_, more, memory, entry⟩
  rw [jsValueToAtom, sound.table.jsGetAtomIndex_eq found, Option.bind_some, returned]
  rfl

/-- `JS_NewAtomStr` on a string that is an atom gives that atom, without room for another. -/
theorem Sound.jsNewAtomStr_own (sound : rt.Sound held) (found : rt.entry i = some (p, s))
    (type : s.atomType = some .string) (room : Room) :
    ∃ after, rt.jsNewAtomStr p room = some (i, after) := by
  have live := (entry_iff.mp found).2.2
  have named : (isNumString s.units).filter (· ≤ jsAtomMaxInt) = none := by
    rw [Option.filter_eq_none_iff]
    intro n number
    have large := sound.table.entries.untagged found type number
    simpa using large
  rw [jsNewAtomStr, live, Option.bind_some, named]
  rw [newAtom, Option.bind_some, internAtom, live, Option.bind_some, if_pos type,
    sound.table.jsGetAtomIndex_eq found]
  exact ⟨_, rfl⟩

/-! ## Symbols -/

/-- The references that come with a value. -/
def valueRefs : Option Ptr → Multiset Reference
  | none => 0
  | some p => {.value p}

/-- `JS_NewSymbol` gives the reference to the atom that was made as a value. -/
theorem Made.jsNewSymbol {str : Option Ptr} {u : AtomType} (made : Made rest rt after u units i)
    (returned : rt.newAtom str t room = some (i, after)) (counted : i = 0 ∨ isConst i = false) :
    ∃ value, rt.jsNewSymbol str t room = some (value, after) ∧
      after.Sound (valueRefs value + rest) ∧
      ∀ q, value = some q → ∃ r, after.memory q = some r ∧ r.atomType = some u ∧
        r.units = units := by
  rw [Runtime.jsNewSymbol, returned, Option.bind_some]
  by_cases nothing : i = 0
  · subst nothing
    exact ⟨none, if_pos rfl, made.sound, fun q same => by cases same⟩
  · obtain ⟨q, r, found, type, text⟩ := made.key.resolve_left nothing
    have owner := made.sound
    rw [owned, if_neg (Bool.eq_false_iff.mp (counted.resolve_left nothing)),
      Multiset.singleton_add] at owner
    refine ⟨some q, by rw [if_neg nothing, found]; rfl, owner.exchange_back found, ?_⟩
    rintro q' same
    obtain rfl := Option.some.inj same
    exact ⟨r, (entry_iff.mp found).2.2, type, text⟩

/-- `JS_NewSymbol` makes a symbol with the description, or gives the one that is registered for
it. -/
theorem Sound.jsNewSymbol_makes (sound : rt.Sound (.value p ::ₘ rest))
    (here : rt.memory p = some s) (symbol : t ≠ .string) (predefined : rt.Predefined)
    (fits : rt.atomSize * 3 < 2 ^ 31) (fresh : rt.Fresh room) : ∃ value after,
      rt.jsNewSymbol (some p) t room = some (value, after) ∧
        after.Sound (valueRefs value + rest) ∧ Kept rest rt after ∧
        ∀ q, value = some q → ∃ r, after.memory q = some r ∧ r.atomType = some (stored t) ∧
          r.units = s.units := by
  obtain ⟨i, after, returned, made, _, beyond⟩ := sound.newAtom_makes here
    (fun key => absurd key symbol) (fun _ => predefined) fits fresh
  have counted : i = 0 ∨ isConst i = false := by
    by_cases interned : t.IsInterned
    · refine made.key.imp_right ?_
      rintro ⟨q, r, found, type, _⟩
      refine made.sound.keyed found (type.trans (congrArg some ?_))
      rw [interned.resolve_left symbol]
      rfl
    · exact beyond interned predefined
  obtain ⟨value, answered, left, text⟩ := made.jsNewSymbol returned counted
  exact ⟨value, after, answered, left, made.kept, text⟩

/-- `JS_NewSymbol` without a description. -/
theorem Sound.jsNewSymbol_bare (sound : rt.Sound held) (predefined : rt.Predefined)
    (fits : rt.atomSize * 3 < 2 ^ 31) (fresh : rt.Fresh room) : ∃ value after,
      rt.jsNewSymbol none .symbol room = some (value, after) ∧
        after.Sound (valueRefs value + held) ∧ Kept held rt after := by
  obtain ⟨i, after, returned, made, beyond⟩ :=
    sound.createAtom_bare (.inl rfl) fits fresh
  obtain ⟨value, answered, left, _⟩ :=
    made.jsNewSymbol (show rt.newAtom none .symbol room = _ from returned) (beyond predefined)
  exact ⟨value, after, answered, left, made.kept⟩

/-- `JS_NewSymbolFromAtom` takes the text of an atom for the description. -/
theorem Sound.jsNewSymbolFromAtom_makes (sound : rt.Sound held)
    (found : rt.entry i = some (p, s)) (symbol : t ≠ .string) (predefined : rt.Predefined)
    (fits : rt.atomSize * 3 < 2 ^ 31) (fresh : rt.Fresh room) : ∃ value after,
      rt.jsNewSymbolFromAtom i t room = some (value, after) ∧
        after.Sound (valueRefs value + held) ∧ Kept held rt after ∧
        ∀ q, value = some q → ∃ r, after.memory q = some r ∧ r.atomType = some (stored t) ∧
          r.units = s.units := by
  have live := (entry_iff.mp found).2.2
  obtain ⟨middle, duplicated, more, memory, entry, size⟩ :=
    sound.jsDupString_returns live (sound.counted.counted_entry found)
  obtain ⟨value, after, returned, made, kept, text⟩ := more.jsNewSymbol_makes
    (memory ▸ live) symbol (fun j inside => (entry j).symm ▸ predefined j inside) (size ▸ fits)
    (fresh.congr memory)
  refine ⟨value, after, ?_, made, (Kept.of_same memory entry).trans kept, text⟩
  rw [jsNewSymbolFromAtom, sound.table.untagged_index found, if_neg Bool.false_ne_true, found,
    Option.bind_some, duplicated, Option.bind_some, returned]

/-! ## Atoms of UTF-8 texts -/

/-- A text of ASCII bytes is decoded byte by byte. -/
theorem unitsOf_ascii {str : List UInt8} (ascii : ∀ c ∈ str, c < 0x80) :
    unitsOf str = str.map UInt8.toNat := by
  induction str with
  | nil => rw [unitsOf, List.map_nil]
  | cons c rest inductionHypothesis =>
    rw [unitsOf, if_pos (ascii c (List.mem_cons_self ..)), List.map_cons,
      inductionHypothesis fun d later => ascii d (List.mem_cons_of_mem c later)]

theorem decoded_units (str : List UInt8) :
    (decoded str).units = (unitsOf str).map UInt16.ofNat := rfl

theorem decoded_ascii {str : List UInt8} (all : countAscii str = str.length) :
    (decoded str).units = str.map UInt8.toUInt16 := by
  have ascii : ∀ c ∈ str, c < 0x80 := by
    rw [countAscii] at all
    have whole := (List.takeWhile_prefix _).eq_of_length all
    intro c member
    simpa using List.takeWhile_eq_self_iff.mp whole c member
  rw [decoded_units, unitsOf_ascii ascii, List.map_map]
  refine List.map_congr_left fun c _ => ?_
  rw [Function.comp_apply, ← UInt16.toNat_inj, UInt8.toNat_toUInt16, UInt16.toNat_ofNat']
  have bound : c.toNat < 256 := c.toNat_lt
  omega

/-- `__JS_FindAtom` gives the atom of the text, or nothing. -/
theorem Sound.findAtom_returns (sound : rt.Sound held) (str : List UInt8) : ∃ i after,
    rt.findAtom str = some (i, after) ∧ i < 2 ^ 32 ∧ after.Sound (owned i + held) ∧
      after.memory = rt.memory ∧ (∀ j, after.entry j = rt.entry j) ∧
      after.atomSize = rt.atomSize ∧
      (i = 0 ∨ rt.key i = some (.string, str.map UInt8.toUInt16)) := by
  obtain ⟨i, followed, ends⟩ := sound.table.follow_bucket
    (isAsciiAtom (hashString (str.map UInt8.toUInt16) AtomType.string.code &&& jsAtomHashMask) str)
    (hashString (str.map UInt8.toUInt16) AtomType.string.code &&& jsAtomHashMask)
  simp only [findAtom, followed, Option.bind_some]
  rcases ends with ⟨rfl, _⟩ | ⟨nonzero, q, r, found, _, stops⟩
  · refine ⟨0, rt, if_pos rfl, by decide, ?_, rfl, fun _ => rfl, rfl, .inl rfl⟩
    rw [owned_zero, zero_add]
    exact sound
  · obtain ⟨after, duplicated, more, memory, entry, size⟩ := sound.jsDupAtom_returns found
    simp only [isAsciiAtom, Bool.and_eq_true, decide_eq_true_eq] at stops
    refine ⟨i, after, by rw [if_neg nonzero, duplicated]; rfl, sound.table.entry_word found, more,
      memory, entry, size, .inr ?_⟩
    rw [sound.table.key_entry found stops.1.1.2, stops.2]

section

variable (sound : rt.Sound held) (str : List UInt8) (string : Option Ptr)
  (spare : ∀ p, string = some p → rt.Spare room p)
  (empty : str = [] → rt.key jsAtomEmptyString = some (.string, []))
  (fits : rt.atomSize * 3 < 2 ^ 31) (fresh : rt.Fresh room)
include sound spare empty fits fresh

/-- `JS_NewAtomLen` makes a string and the atom of its text. Without room for the string there is
no atom. -/
theorem Sound.newAtomDecoded_makes : ∃ i after,
    rt.newAtomDecoded str string room = some (i, after) ∧
      TextAtom held rt after (decoded str).units i ∧
      (string.isSome ∨ str = [] → rt.Only (decoded str).units i) := by
  simp only [newAtomDecoded, jsNewStringLen]
  by_cases nothing : str = []
  · have text : (decoded str).units = [] := by
      rw [decoded_units, nothing, unitsOf, List.map_nil]
    have small : isTaggedInt jsAtomEmptyString = false := isTaggedInt_small (by decide)
    rcases key_cases (empty nothing) with ⟨tagged, _⟩ | ⟨p, s, found, type, units⟩
    · rw [small] at tagged
      cases tagged
    · obtain ⟨q, middle, returned, more, memory, entry, size, own⟩ :=
        sound.atomToValue_returns found true (fun _ => .inl type) none
      obtain rfl := own (.inr (.inl type))
      obtain ⟨i, after, made, atom, only⟩ := more.jsNewAtomStr_makes
        (memory ▸ (entry_iff.mp found).2.2) (size ▸ fits) (fresh.congr memory)
      rw [units] at atom only
      rw [if_pos nothing, returned, Option.bind_some, text]
      exact ⟨i, after, made, atom.later (.of_same memory entry), fun _ => only.congr entry⟩
  · rw [if_neg nothing, Option.bind_some]
    cases string with
    | none =>
      refine ⟨0, rt, rfl, ⟨?_, .refl, .inl rfl, by decide⟩, ?_⟩
      · rw [owned_zero, zero_add]
        exact sound
      · rintro (room | none_there)
        · cases room
        · exact absurd none_there nothing
    | some p =>
      have spare := spare p rfl
      obtain ⟨more, kept, entry⟩ := sound.jsAllocString_sound spare.free (decoded str)
      obtain ⟨i, after, made, atom, only⟩ := more.jsNewAtomStr_makes
        (Function.update_self ..) fits (fresh.alloc spare (decoded str))
      exact ⟨i, after, made, atom.later kept, fun _ => only.congr entry⟩

/-- `JS_NewAtomLen` gives the atom of the text, whether the first look finds it or not. -/
theorem Sound.jsNewAtomLen_makes : ∃ i after,
    rt.jsNewAtomLen str string room = some (i, after) ∧
      TextAtom held rt after (decoded str).units i ∧
      (string.isSome ∨ str = [] → rt.Only (decoded str).units i) := by
  rw [jsNewAtomLen]
  split
  · rename_i looks
    obtain ⟨i, middle, returned, word, more, memory, entry, size, text⟩ :=
      sound.findAtom_returns str
    rw [returned, Option.bind_some]
    by_cases found : i = 0
    · subst found
      rw [owned_zero, zero_add] at more
      obtain ⟨i, after, made, atom, only⟩ := more.newAtomDecoded_makes str string
        (fun p same => ⟨memory ▸ (spare p same).free, (spare p same).nullEntry,
          (spare p same).copy⟩) (fun nothing => (key_congr entry _).trans (empty nothing))
        (size ▸ fits) (fresh.congr memory)
      rw [if_neg (not_not.mpr rfl)]
      exact ⟨i, after, made, atom.later (.of_same memory entry),
        fun condition => (only condition).congr entry⟩
    · have ascii : countAscii str = str.length := by
        rcases looks with rfl | looks
        · rfl
        · exact looks.2
      have known := text.resolve_left found
      rw [← decoded_ascii ascii] at known
      rw [if_pos found]
      refine ⟨i, middle, rfl, ⟨more, .of_same memory entry, .inr ?_, word⟩,
        fun _ j other there => ?_⟩
      · rw [key_congr entry, known]
      · exact sound.table.key_injective word other (.inl rfl) known there
  · exact sound.newAtomDecoded_makes str string spare empty fits fresh

end

end GoQuickjs.Atoms.Runtime
