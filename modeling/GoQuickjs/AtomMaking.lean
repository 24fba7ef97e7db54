import GoQuickjs.AtomStrings

/-!
# Atoms for strings

`__JS_NewAtom` takes a string over and gives an atom of its text back: the atom the string
is already, the one that is in the table, or a new one. While the allocator finds room, a
new atom is always made; without room the answer is `JS_ATOM_NULL`. Either way the other
references lead to what they led to.
-/

namespace GoQuickjs.Atoms.Runtime

variable {rt after : Runtime} {p q : Ptr} {s r : JSAtomStruct} {i j : Nat} {t : AtomType}
  {h : UInt32} {units : List UInt16} {room : Room} {held rest : Multiset Reference}

/-- Every predefined atom is in the table. -/
def Predefined (rt : Runtime) : Prop := ∀ i < jsAtomEnd, ∃ e, rt.entry i = some e

/-- The allocator answers with memory that is not used, and not twice with the same. -/
structure Fresh (rt : Runtime) (room : Room) : Prop where
  nullEntry : ∀ p, room.nullEntry = some p → rt.memory p = none
  copy : ∀ p, room.copy = some p → rt.memory p = none
  apart : ∀ p, room.nullEntry = some p → room.copy ≠ some p

/-- An atom of a type and text was made, or nothing, and what other references lead to stays. -/
structure Made (rest : Multiset Reference) (before after : Runtime) (t : AtomType)
    (units : List UInt16) (i : Nat) : Prop where
  sound : after.Sound (owned i + rest)
  kept : Kept rest before after
  key : i = 0 ∨ ∃ p s, after.entry i = some (p, s) ∧ s.atomType = some t ∧ s.units = units

theorem owned_zero : owned 0 = 0 := rfl

/-- The predefined atoms stay. -/
theorem Kept.predefined (kept : Kept rest rt after) (predefined : rt.Predefined) :
    after.Predefined := by
  intro i inside
  obtain ⟨⟨p, s⟩, found⟩ := predefined i inside
  exact ⟨_, kept.entry found (.inl (isConst_iff.mpr (.inl inside)))⟩

/-- Where neither the strings nor the entries change, everything is kept. -/
theorem Kept.of_same (memory : after.memory = rt.memory)
    (entry : ∀ j, after.entry j = rt.entry j) : Kept rest rt after :=
  ⟨fun found _ => (entry _).trans found, fun live _ => ⟨_, memory ▸ live, rfl⟩,
    fun _ => by rw [memory]⟩

/-- An atom that was made later was made. -/
theorem Made.later {middle : Runtime} (kept : Kept rest rt middle)
    (made : Made rest middle after t units i) : Made rest rt after t units i :=
  ⟨made.sound, kept.trans made.kept, made.key⟩

/-- What may be entered in a table may be entered where no atom was added. -/
theorem Admits.mono (admits : rt.Admits t h units)
    (fewer : ∀ {j e}, after.entry j = some e → rt.entry j = some e) : after.Admits t h units := by
  rcases admits with symbol | ⟨interned, hash, unknown, large⟩
  · exact .inl symbol
  · exact .inr ⟨interned, hash, fun j q r there => unknown j q r (fewer there), large⟩

/-- A symbol is made without weak references. -/
theorem Admits.not_weak (admits : rt.Admits t h units) (made : s.atomType = some t)
    (hash : s.hash = h) : ¬ s.Weak := by
  rintro ⟨symbol, notPrivate, some_weak⟩
  rw [made] at symbol
  rcases admits with ⟨_, zero | mask⟩ | ⟨interned, _⟩
  · exact some_weak (hash.trans zero)
  · exact notPrivate (hash.trans mask)
  · obtain rfl := Option.some.inj symbol
    rcases interned with same | same <;> cases same

/-! ## The steps of `__JS_NewAtom` -/

/-- A string that is no atom becomes one. -/
theorem Sound.enterAtom_makes (sound : rt.Sound (.value p ::ₘ rest))
    (here : rt.memory p = some s) (plain : s.atomType = none) (some_free : rt.atomFreeIndex ≠ 0)
    (admits : rt.Admits t h s.units) (ready : t = .globalSymbol → rt.Predefined) (room : Room) :
    ∃ i after, rt.enterAtom p h t room = some (i, after) ∧ Made rest rt after t s.units i ∧
      (rt.Predefined → isConst i = false) := by
  obtain ⟨inside, free, _⟩ := sound.table.nextFree_eq some_free
  have unused : rt.entry rt.atomFreeIndex = none := by
    rw [Runtime.entry, if_pos inside, free]
  obtain ⟨after, returned, entered, table⟩ :=
    sound.table.enterAtom_returns here plain some_free admits room
  have new : after.entry rt.atomFreeIndex =
      some (p, { s with hash := h, atomType := some t }) := by
    rw [entered.entry, if_pos rfl]
  have old : ∀ {j e}, rt.entry j = some e → after.entry j = some e := by
    intro j e there
    rw [entered.entry, if_neg, there]
    rintro rfl
    rw [unused] at there
    cases there
  have beyond : rt.Predefined → isConst rt.atomFreeIndex = false := by
    intro predefined
    by_contra const
    obtain ⟨e, found⟩ := predefined _
      ((table.const_iff new).mp (Bool.not_eq_false _ ▸ const))
    rw [unused] at found
    cases found
  refine ⟨rt.atomFreeIndex, after, returned, ⟨⟨table, ?_, ?_⟩, ⟨fun found _ => old found, ?_,
    fun {q r} weak => ?_⟩, .inr ⟨p, _, new, rfl, rfl⟩⟩, beyond⟩
  · exact sound.counted.enter sound.table here plain entered unused table
  · intro j q r there key
    rw [entered.entry] at there
    split at there
    · rename_i same
      subst same
      obtain ⟨rfl, rfl⟩ := Prod.mk.inj (Option.some.inj there)
      exact beyond (ready (Option.some.inj key))
    · exact sound.keyed there key
  · intro q r there _
    rw [entered.memory]
    by_cases same : q = p
    · subst same
      rw [here] at there
      obtain rfl := Option.some.inj there
      exact ⟨_, Function.update_self .., rfl⟩
    · exact ⟨r, (Function.update_of_ne same ..).trans there, rfl⟩
  · rw [entered.memory]
    by_cases same : q = p
    · rw [same, Function.update_self, here]
      constructor
      · intro equal
        obtain rfl := Option.some.inj equal
        exact absurd weak (admits.not_weak rfl rfl)
      · intro equal
        obtain rfl := Option.some.inj equal
        exact absurd plain weak.typed
    · rw [Function.update_of_ne same]

/-- `__JS_NewAtom` gives the string back and returns an atom that is owned already. -/
theorem Sound.finish_makes (sound : rt.Sound (.value p ::ₘ (owned i + rest))) :
    ∃ after, rt.finish (some p) i = some (i, after) ∧ after.Sound (owned i + rest) ∧
      Kept (owned i + rest) rt after ∧ Shrunk rt after p := by
  obtain ⟨after, returned, sound, kept, shrunk⟩ := sound.jsFreeString_returns
  exact ⟨after, by rw [finish, returned]; rfl, sound, kept, shrunk⟩

/-- Without room there is no atom. -/
theorem Sound.finish_null (sound : rt.Sound (.value p ::ₘ rest)) (t : AtomType)
    (units : List UInt16) :
    ∃ after, rt.finish (some p) 0 = some (0, after) ∧ Made rest rt after t units 0 := by
  have bare : rt.Sound (.value p ::ₘ (owned 0 + rest)) := by
    rw [owned_zero, zero_add]
    exact sound
  obtain ⟨after, returned, sound, kept, _⟩ := bare.finish_makes
  rw [owned_zero, zero_add] at kept
  exact ⟨after, returned, sound, kept, .inl rfl⟩

/-- A string, or a copy of it, gets a free entry. -/
theorem Sound.addAtom_makes (sound : rt.Sound (.value p ::ₘ rest)) (here : rt.memory p = some s)
    (some_free : rt.atomFreeIndex ≠ 0) (admits : rt.Admits t h s.units)
    (ready : t = .globalSymbol → rt.Predefined)
    (copy : ∀ p, room.copy = some p → rt.memory p = none) :
    ∃ i after, rt.addAtom (some p) h t room = some (i, after) ∧
      Made rest rt after t s.units i ∧ (rt.Predefined → i = 0 ∨ isConst i = false) := by
  simp only [addAtom, here, Option.bind_some]
  by_cases plain : s.atomType = none
  · rw [if_pos plain]
    obtain ⟨i, after, entered, made, beyond⟩ :=
      sound.enterAtom_makes here plain some_free admits ready room
    exact ⟨i, after, entered, made, fun predefined => .inr (beyond predefined)⟩
  · rw [if_neg plain]
    cases room_copy : room.copy with
    | none =>
      obtain ⟨after, returned, made⟩ := sound.finish_null t s.units
      exact ⟨0, after, returned, made, fun _ => .inl rfl⟩
    | some q =>
      have free := copy q room_copy
      have other : q ≠ p := by
        rintro rfl
        rw [here] at free
        cases free
      obtain ⟨copied, kept, entry⟩ := sound.jsAllocString_sound free s.toCharacters
      rw [Multiset.cons_swap] at copied
      obtain ⟨middle, returned, left, still, shrunk⟩ := copied.jsFreeString_returns
      have there : middle.memory q =
          some { s.toCharacters with hash := 0, atomType := none } := by
        rw [shrunk.memory q other, jsAllocString_memory, Function.update_self]
      have known : ∀ {j e}, middle.entry j = some e → rt.entry j = some e := fun found =>
        (entry _).symm.trans (shrunk.entry found)
      have all : Kept rest rt middle :=
        (kept.mono (Multiset.le_cons_self ..)).trans (still.mono (Multiset.le_cons_self ..))
      obtain ⟨i, after, entered, made, beyond⟩ := left.enterAtom_makes there rfl
        (shrunk.some_free some_free) (admits.mono known) (fun key => all.predefined (ready key))
        room
      refine ⟨i, after, ?_, made.later all, fun predefined =>
        .inr (beyond (all.predefined predefined))⟩
      simp only [returned, Option.bind_some]
      exact entered

/-- A larger array keeps the entries. -/
theorem Grown.kept (grown : Grown rt after) : Kept rest rt after where
  entry found _ := grown.entry _ _ found
  text live _ := ⟨_, (grown.memory _ (by simp [live])).trans live, rfl⟩
  weak {p s} weak := by
    cases live : rt.memory p with
    | some r => rw [grown.memory p (by simp [live]), live]
    | none =>
      constructor
      · intro new
        exact absurd (grown.new p s live new).2.2 weak.2.2
      · intro nothing
        cases nothing

/-- An atom of the longer array that is no symbol was there before. -/
theorem Grown.entry_before (grown : Grown rt after) (larger : after.Table)
    (there : after.entry j = some (q, r)) (interned : r.atomType ≠ some .symbol) :
    rt.entry j = some (q, r) := by
  have live := (entry_iff.mp there).2.2
  cases old : rt.memory q with
  | none =>
    obtain ⟨first, _⟩ := grown.new q r old live
    exact absurd (larger.null_symbol first) interned
  | some r' => exact grown.old j q r there (by simp [old])

/-- A longer array has no further atom that can be found. -/
theorem Grown.admits (grown : Grown rt after) (larger : after.Table)
    (admits : rt.Admits t h units) : after.Admits t h units := by
  rcases admits with symbol | ⟨interned, hash, unknown, large⟩
  · exact .inl symbol
  · refine .inr ⟨interned, hash, fun j q r there type => ?_, large⟩
    have other : r.atomType ≠ some .symbol := by
      rw [type]
      rcases interned with rfl | rfl <;> simp
    exact unknown j q r (grown.entry_before larger there other) type

/-- A longer array. -/
theorem Sound.grow (sound : rt.Sound held) (grown : Grown rt after) (larger : after.Table) :
    after.Sound held where
  table := larger
  counted := sound.counted.grow grown
  keyed there key := sound.keyed (grown.entry_before larger there (by rw [key]; simp)) key

/-- A new atom for a string, after the array has grown if that was necessary. -/
theorem Sound.createAtom_makes (sound : rt.Sound (.value p ::ₘ rest))
    (here : rt.memory p = some s) (admits : rt.Admits t h s.units)
    (ready : t = .globalSymbol → rt.Predefined) (fits : rt.atomSize * 3 < 2 ^ 31)
    (fresh : rt.Fresh room) : ∃ i after,
      rt.createAtom (some p) h t room = some (i, after) ∧ Made rest rt after t s.units i ∧
        (rt.Predefined → i = 0 ∨ isConst i = false) := by
  rw [createAtom]
  by_cases empty : rt.atomFreeIndex = 0
  · rw [if_pos empty, if_neg (Nat.not_le.mpr fits)]
    rcases sound.table.growAtomArray_returns empty fits fresh.nullEntry with
      refused | ⟨larger, returned, grown, table, some_free, _, unused⟩
    · rw [refused]
      obtain ⟨after, returned, made⟩ := sound.finish_null t s.units
      exact ⟨0, after, returned, made, fun _ => .inl rfl⟩
    · rw [returned]
      have live : larger.memory p = some s := by
        rw [grown.memory p (by simp [here]), here]
      have copy : ∀ q, room.copy = some q → larger.memory q = none := by
        intro q same
        rw [unused q fun null => fresh.apart q null same]
        exact fresh.copy q same
      have kept : Kept rest rt larger := grown.kept
      obtain ⟨i, after, returned, made, beyond⟩ := (sound.grow grown table).addAtom_makes live
        some_free (grown.admits table admits)
        (fun key => kept.predefined (ready key)) copy
      exact ⟨i, after, returned, made.later kept, fun predefined =>
        beyond (kept.predefined predefined)⟩
  · rw [if_neg empty]
    exact sound.addAtom_makes here empty admits ready fresh.copy

/-- A symbol without a string. -/
theorem Sound.createAtom_bare (sound : rt.Sound rest) (hash : h = 0 ∨ h = jsAtomHashMask)
    (fits : rt.atomSize * 3 < 2 ^ 31) (fresh : rt.Fresh room) : ∃ i after,
      rt.createAtom none h .symbol room = some (i, after) ∧
        Made rest rt after .symbol [] i ∧ (rt.Predefined → i = 0 ∨ isConst i = false) := by
  have nothing : Made rest rt rt .symbol [] 0 :=
    ⟨by rw [owned_zero, zero_add]; exact sound, .refl, .inl rfl⟩
  have enters : ∀ {larger : Runtime}, larger.Sound rest → larger.atomFreeIndex ≠ 0 →
      (∀ q, room.copy = some q → larger.memory q = none) → Kept rest rt larger → ∃ i after,
        larger.addAtom none h .symbol room = some (i, after) ∧
          Made rest rt after .symbol [] i ∧ (rt.Predefined → i = 0 ∨ isConst i = false) := by
    intro larger sound some_free copy kept
    simp only [addAtom]
    cases room_copy : room.copy with
    | none =>
      exact ⟨0, larger, rfl, ⟨by rw [owned_zero, zero_add]; exact sound, kept, .inl rfl⟩,
        fun _ => .inl rfl⟩
    | some q =>
      obtain ⟨copied, still, _⟩ := sound.jsAllocString_sound (copy q room_copy)
        ⟨[], true, narrow_nil⟩
      have all := kept.trans still
      obtain ⟨i, after, entered, made, beyond⟩ := copied.enterAtom_makes
        (Function.update_self ..) rfl some_free (.inl ⟨rfl, hash⟩) (fun key => by cases key) room
      exact ⟨i, after, entered, made.later all,
        fun predefined => .inr (beyond (all.predefined predefined))⟩
  rw [createAtom]
  by_cases empty : rt.atomFreeIndex = 0
  · rw [if_pos empty, if_neg (Nat.not_le.mpr fits)]
    rcases sound.table.growAtomArray_returns empty fits fresh.nullEntry with
      refused | ⟨larger, returned, grown, table, some_free, _, unused⟩
    · rw [refused]
      exact ⟨0, rt, rfl, nothing, fun _ => .inl rfl⟩
    · rw [returned]
      refine enters (sound.grow grown table) some_free (fun q same => ?_) grown.kept
      rw [unused q fun null => fresh.apart q null same]
      exact fresh.copy q same
  · rw [if_neg empty]
    exact enters sound empty fresh.copy .refl

/-! ## `__JS_NewAtom` -/

/-- A value that points to an atom is exchanged for a reference to the atom. -/
theorem Sound.exchange (sound : rt.Sound (.value p ::ₘ rest)) (found : rt.entry i = some (p, s))
    (counted : isConst i = false) : rt.Sound (.atom i ::ₘ rest) := by
  have leads := target_entry found
  refine ⟨sound.table, ⟨fun {q r} live => ?_, sound.counted.dead, sound.counted.registered,
    fun {x} member => ?_, fun {j} member => ?_⟩, sound.keyed⟩
  · have before := sound.counted.counts live
    rw [Multiset.countP_cons] at before ⊢
    rw [leads]
    exact before
  · rcases Multiset.mem_cons.mp member with rfl | member
    · exact ⟨p, s, leads, (entry_iff.mp found).2.2⟩
    · exact sound.counted.valid (Multiset.mem_cons_of_mem member)
  · rcases Multiset.mem_cons.mp member with same | member
    · obtain rfl := Reference.atom.inj same
      exact counted
    · exact sound.counted.countable (Multiset.mem_cons_of_mem member)

/-- A counted reference to an atom is exchanged for a value that points to it. -/
theorem Sound.exchange_back (sound : rt.Sound (.atom i ::ₘ rest))
    (found : rt.entry i = some (p, s)) : rt.Sound (.value p ::ₘ rest) := by
  have leads := target_entry found
  refine ⟨sound.table, ⟨fun {q r} live => ?_, sound.counted.dead, sound.counted.registered,
    fun {x} member => ?_, fun {j} member => ?_⟩, sound.keyed⟩
  · have before := sound.counted.counts live
    rw [Multiset.countP_cons, leads] at before
    rw [Multiset.countP_cons]
    exact before
  · rcases Multiset.mem_cons.mp member with rfl | member
    · exact ⟨p, s, rfl, (entry_iff.mp found).2.2⟩
    · exact sound.counted.valid (Multiset.mem_cons_of_mem member)
  · rcases Multiset.mem_cons.mp member with same | member
    · cases same
    · exact sound.counted.countable (Multiset.mem_cons_of_mem member)

/-- `__JS_NewAtom` for an atom that can be found again: it is the one of its type and text, if
there is one, and else a new one. -/
theorem Sound.internAtom_makes (sound : rt.Sound (.value p ::ₘ rest))
    (here : rt.memory p = some s) (interned : t.IsInterned)
    (large : t = .string → ∀ n, isNumString s.units = some n → jsAtomMaxInt < n)
    (ready : t = .globalSymbol → rt.Predefined) (fits : rt.atomSize * 3 < 2 ^ 31)
    (fresh : rt.Fresh room) : ∃ i after,
      rt.internAtom p t room = some (i, after) ∧ Made rest rt after t s.units i ∧
        ∀ j q r, rt.entry j = some (q, r) → r.atomType = some t → r.units = s.units → i = j := by
  have not_symbol : t ≠ .symbol := by
    rcases interned with rfl | rfl <;> simp
  rw [internAtom, here, Option.bind_some]
  by_cases own : s.atomType = some t
  · obtain ⟨i, found⟩ := sound.counted.registered here
      (sound.counted.counted_target (Multiset.mem_cons_self ..) rfl) (by rw [own]; simp)
    have only : ∀ j q r, rt.entry j = some (q, r) → r.atomType = some t → r.units = s.units →
        i = j := by
      intro j q r there type text
      exact sound.table.entries.distinct found there
        (by rw [own]; exact fun same => not_symbol (Option.some.inj same))
        (own.trans type.symm) text.symm
    rw [if_pos own, sound.table.jsGetAtomIndex_eq found, Option.map_some]
    by_cases const : isConst i = true
    · have pinned : rt.pinned p = true :=
        pinned_iff.mpr ⟨i, (sound.table.const_iff found).mp const, s, found⟩
      have count := sound.counted.counts here
      have two : 1 < rt.refCount p := by
        rw [Multiset.countP_cons, pinned, target, if_pos rfl, if_pos rfl] at count
        push_cast at count
        omega
      rw [if_pos const]
      refine ⟨i, _, rfl, ⟨?_, .of_setRefCount .., .inr ⟨p, s, found, own, rfl⟩⟩, only⟩
      rw [owned, if_pos const, zero_add]
      exact sound.lower rfl two
    · rw [if_neg const]
      refine ⟨i, rt, rfl, ⟨?_, .refl, .inr ⟨p, s, found, own, rfl⟩⟩, only⟩
      rw [owned, if_neg const, Multiset.singleton_add]
      exact sound.exchange found (Bool.eq_false_iff.mpr const)
  · rw [if_neg own]
    obtain ⟨i, followed, ends⟩ := sound.table.search t interned s.units
    rw [hashOf] at followed
    simp only [followed, Option.bind_some]
    rcases ends with ⟨rfl, unknown⟩ | ⟨nonzero, q, r, found, type, text⟩
    · rw [if_pos rfl]
      have admits : rt.Admits t (hashOf t s.units) s.units := .inr ⟨interned, rfl, unknown, large⟩
      obtain ⟨i, after, returned, made, _⟩ :=
        sound.createAtom_makes here admits ready fits fresh
      exact ⟨i, after, returned, made, fun j q r there type text =>
        absurd text (unknown j q r there type)⟩
    · rw [if_neg nonzero]
      obtain ⟨middle, duplicated, more, memory, entry, _⟩ := sound.jsDupAtom_returns found
      have ready : middle.Sound (.value p ::ₘ (owned i + rest)) := by
        rw [← Multiset.add_cons]
        exact more
      obtain ⟨after, returned, left, kept, _⟩ := ready.finish_makes
      have now : middle.entry i = some (q, r) := (entry i).trans found
      have before : Kept rest rt middle := .of_same memory entry
      refine ⟨i, after, by rw [duplicated, Option.bind_some, returned], ⟨left,
        before.trans (kept.mono (Multiset.le_add_left ..)), .inr ⟨q, r, ?_, type, text⟩⟩, ?_⟩
      · refine kept.entry now ?_
        by_cases const : isConst i = true
        · exact .inl const
        · exact .inr (.inl (by simp [owned, const]))
      · intro j q' r' there type' text'
        refine sound.table.entries.distinct found there ?_ (type.trans type'.symm)
          (text.trans text'.symm)
        rw [type]
        exact fun same => not_symbol (Option.some.inj same)

/-! ## Keys -/

/-- What an atom stands for: the numeral of a tagged number, or the type and text of an entry. -/
def key (rt : Runtime) (atom : Nat) : Option (AtomType × List UInt16) :=
  if isTaggedInt atom then some (.string, digits (atomToUInt32 atom))
  else (rt.entry atom).bind fun found => found.2.atomType.map fun t => (t, found.2.units)

/-- An index is no tagged number. -/
theorem Table.untagged_index (table : rt.Table) (found : rt.entry i = some (p, s)) :
    isTaggedInt i = false := by
  have small := table.index_lt found
  simp only [jsAtomMax] at small
  exact isTaggedInt_small (by omega)

/-- The key of an entry is its type and its text. -/
theorem Table.key_entry (table : rt.Table) (found : rt.entry i = some (p, s))
    (type : s.atomType = some t) : rt.key i = some (t, s.units) := by
  rw [key, table.untagged_index found, found]
  simp [type]

/-- The key of a tagged number is its digits. -/
theorem key_fromUInt32 {n : Nat} (small : n ≤ jsAtomMaxInt) :
    rt.key (atomFromUInt32 n) = some (.string, digits n) := by
  obtain ⟨tagged, back, _⟩ := isTaggedInt_fromUInt32 small
  rw [key, if_pos tagged, back]

/-- A tagged atom is above all entries. -/
theorem tagged_large {atom : Nat} (tagged : isTaggedInt atom = true) : jsAtomTagInt ≤ atom := by
  by_contra small
  rw [isTaggedInt_small (Nat.lt_of_not_le small)] at tagged
  cases tagged

/-- A tagged atom is made from its number. -/
theorem tagged_eq {atom : Nat} (tagged : isTaggedInt atom = true) (word : atom < 2 ^ 32) :
    atom = atomFromUInt32 (atomToUInt32 atom) ∧ atomToUInt32 atom ≤ jsAtomMaxInt := by
  have large : 2 ^ 31 ≤ atom := tagged_large tagged
  have bound : atomToUInt32 atom ≤ jsAtomMaxInt := by
    rw [atomToUInt32_eq, jsAtomMaxInt, jsAtomTagInt]
    omega
  refine ⟨?_, bound⟩
  rw [atomFromUInt32_eq bound, atomToUInt32_eq]
  omega

/-- A key that is found belongs to a tagged number, or to an entry. -/
theorem key_cases {atom : Nat} (found : rt.key atom = some (t, units)) :
    (isTaggedInt atom = true ∧ t = .string ∧ units = digits (atomToUInt32 atom)) ∨
      ∃ p s, rt.entry atom = some (p, s) ∧ s.atomType = some t ∧ s.units = units := by
  rw [key] at found
  split at found
  · obtain ⟨rfl, rfl⟩ := Prod.mk.inj (Option.some.inj found)
    exact .inl ⟨‹_›, rfl, rfl⟩
  · obtain ⟨⟨p, s⟩, there, found⟩ := Option.bind_eq_some_iff.mp found
    obtain ⟨u, type, same⟩ := Option.map_eq_some_iff.mp found
    obtain ⟨rfl, rfl⟩ := Prod.mk.inj same
    exact .inr ⟨p, s, there, type, rfl⟩

/-- No two atoms that can be found have the same type and text. -/
theorem Table.key_injective (table : rt.Table) {a b : Nat} (small : a < 2 ^ 32)
    (other : b < 2 ^ 32) (interned : t.IsInterned) (here : rt.key a = some (t, units))
    (there : rt.key b = some (t, units)) : a = b := by
  have never : ∀ {i p s c}, rt.entry i = some (p, s) → s.atomType = some .string →
      c < 2 ^ 32 → isTaggedInt c = true → s.units ≠ digits (atomToUInt32 c) := by
    intro i p s c found type word tagged same
    obtain ⟨_, bound⟩ := tagged_eq tagged word
    have below : atomToUInt32 c < 2 ^ 32 := by
      simp only [jsAtomMaxInt, jsAtomTagInt] at bound
      omega
    have large := table.entries.untagged found type (isNumString_iff.mpr ⟨below, same⟩)
    omega
  rcases key_cases here with ⟨tagged, rfl, rfl⟩ | ⟨p, s, found, type, rfl⟩
  · rcases key_cases there with ⟨also, _, same⟩ | ⟨q, r, found, type, same⟩
    · rw [(tagged_eq tagged small).1, (tagged_eq also other).1, digits_injective same]
    · exact absurd same (never found type small tagged)
  · rcases key_cases there with ⟨tagged, rfl, same⟩ | ⟨q, r, again, type', same⟩
    · exact absurd same (never found type other tagged)
    · refine table.entries.distinct found again ?_ (type.trans type'.symm) same.symm
      rw [type]
      rcases interned with rfl | rfl <;> simp

/-- The keys depend on the entries only. -/
theorem key_congr (entry : ∀ j, after.entry j = rt.entry j) (j : Nat) : after.key j = rt.key j := by
  rw [key, key, entry]

/-- The atom is the one that has the text, if any has it. -/
def Only (rt : Runtime) (units : List UInt16) (i : Nat) : Prop :=
  ∀ j < 2 ^ 32, rt.key j = some (.string, units) → i = j

/-- So does what is the only atom of a text. -/
theorem Only.congr (only : after.Only units i) (entry : ∀ j, after.entry j = rt.entry j) :
    rt.Only units i :=
  fun j word there => only j word ((key_congr entry j).trans there)

/-- The number of an entry fits in 32 bits. -/
theorem Table.entry_word (table : rt.Table) (found : rt.entry i = some (p, s)) : i < 2 ^ 32 := by
  have small := table.index_lt found
  simp only [jsAtomMax] at small
  omega

/-- A tagged number fits in 32 bits. -/
theorem fromUInt32_word {n : Nat} (small : n ≤ jsAtomMaxInt) : atomFromUInt32 n < 2 ^ 32 := by
  rw [atomFromUInt32_eq small]
  simp only [jsAtomMaxInt, jsAtomTagInt] at small
  omega

/-- A tagged number is the only atom of its digits. -/
theorem Table.only_fromUInt32 (table : rt.Table) {n : Nat} (small : n ≤ jsAtomMaxInt) :
    rt.Only (digits n) (atomFromUInt32 n) := by
  intro j word there
  exact table.key_injective (fromUInt32_word small) word (.inl rfl) (key_fromUInt32 small) there

/-- A text that is no small number is only that of entries. -/
theorem only_of_entries (large : ∀ n, isNumString units = some n → jsAtomMaxInt < n)
    (only : ∀ j q r, rt.entry j = some (q, r) → r.atomType = some .string → r.units = units →
      i = j) : rt.Only units i := by
  intro j word there
  rcases key_cases there with ⟨tagged, _, text⟩ | ⟨q, r, found, type, text⟩
  · obtain ⟨_, bound⟩ := tagged_eq tagged word
    have below : atomToUInt32 j < 2 ^ 32 := by
      simp only [jsAtomMaxInt, jsAtomTagInt] at bound
      omega
    have more := large _ (isNumString_iff.mpr ⟨below, text⟩)
    omega
  · exact only j q r found type text

/-! ## The functions over `__JS_NewAtom` -/

/-- The type that `__JS_NewAtom` gives an atom. -/
def stored (t : AtomType) : AtomType := if t = .privateSymbol then .symbol else t

/-- `__JS_NewAtom` on a string. -/
theorem Sound.newAtom_makes (sound : rt.Sound (.value p ::ₘ rest)) (here : rt.memory p = some s)
    (large : t = .string → ∀ n, isNumString s.units = some n → jsAtomMaxInt < n)
    (ready : t = .globalSymbol → rt.Predefined) (fits : rt.atomSize * 3 < 2 ^ 31)
    (fresh : rt.Fresh room) : ∃ i after,
      rt.newAtom (some p) t room = some (i, after) ∧ Made rest rt after (stored t) s.units i ∧
        (t.IsInterned → ∀ j q r, rt.entry j = some (q, r) → r.atomType = some t →
          r.units = s.units → i = j) ∧
        (¬ t.IsInterned → rt.Predefined → i = 0 ∨ isConst i = false) := by
  cases t with
  | string =>
    obtain ⟨i, after, returned, made, only⟩ :=
      sound.internAtom_makes here (.inl rfl) large ready fits fresh
    exact ⟨i, after, returned, made, fun _ => only, fun other => absurd (.inl rfl) other⟩
  | globalSymbol =>
    obtain ⟨i, after, returned, made, only⟩ :=
      sound.internAtom_makes here (.inr rfl) large ready fits fresh
    exact ⟨i, after, returned, made, fun _ => only, fun other => absurd (.inr rfl) other⟩
  | symbol =>
    obtain ⟨i, after, returned, made, beyond⟩ := sound.createAtom_makes here
      (.inl ⟨rfl, .inl rfl⟩) (fun key => by cases key) fits fresh
    refine ⟨i, after, returned, made, fun interned => ?_, fun _ => beyond⟩
    rcases interned with key | key <;> cases key
  | privateSymbol =>
    obtain ⟨i, after, returned, made, beyond⟩ := sound.createAtom_makes here
      (.inl ⟨rfl, .inr rfl⟩) (fun key => by cases key) fits fresh
    refine ⟨i, after, returned, made, fun interned => ?_, fun _ => beyond⟩
    rcases interned with key | key <;> cases key

/-- The atom of a text was found or made, or nothing, and what other references lead to stays. -/
structure TextAtom (rest : Multiset Reference) (before after : Runtime) (units : List UInt16)
    (i : Nat) : Prop where
  sound : after.Sound (owned i + rest)
  kept : Kept rest before after
  key : i = 0 ∨ after.key i = some (.string, units)
  word : i < 2 ^ 32

/-- An atom made of a text is the atom of the text. -/
theorem Made.textAtom (made : Made rest rt after .string units i) :
    TextAtom rest rt after units i := by
  rcases made.key with rfl | ⟨q, s, found, type, rfl⟩
  · exact ⟨made.sound, made.kept, .inl rfl, by decide⟩
  · exact ⟨made.sound, made.kept, .inr (made.sound.table.key_entry found type),
      made.sound.table.entry_word found⟩

/-- The atom of a text that was made later is one. -/
theorem TextAtom.later {middle : Runtime} (kept : Kept rest rt middle)
    (text : TextAtom rest middle after units i) : TextAtom rest rt after units i :=
  ⟨text.sound, kept.trans text.kept, text.key, text.word⟩

/-- `JS_NewAtomStr`: the atom that has the text already, or else a new one. -/
theorem Sound.jsNewAtomStr_makes (sound : rt.Sound (.value p ::ₘ rest))
    (here : rt.memory p = some s) (fits : rt.atomSize * 3 < 2 ^ 31) (fresh : rt.Fresh room) :
    ∃ i after, rt.jsNewAtomStr p room = some (i, after) ∧ TextAtom rest rt after s.units i ∧
      rt.Only s.units i := by
  rw [jsNewAtomStr, here, Option.bind_some]
  cases number : (isNumString s.units).filter (· ≤ jsAtomMaxInt) with
  | some n =>
    obtain ⟨numeral, small⟩ := Option.filter_eq_some_iff.mp number
    have small : n ≤ jsAtomMaxInt := of_decide_eq_true small
    obtain ⟨_, text⟩ := isNumString_iff.mp numeral
    obtain ⟨_, _, const⟩ := isTaggedInt_fromUInt32 small
    have none_owned : owned (atomFromUInt32 n) = 0 := by rw [owned, if_pos const]
    have bare : rt.Sound (.value p ::ₘ (owned (atomFromUInt32 n) + rest)) := by
      rw [none_owned, zero_add]
      exact sound
    obtain ⟨after, returned, left, kept, _⟩ := bare.finish_makes
    rw [text]
    exact ⟨_, after, returned, ⟨left, kept.mono (Multiset.le_add_left ..),
      .inr (key_fromUInt32 small), fromUInt32_word small⟩, sound.table.only_fromUInt32 small⟩
  | none =>
    have large : ∀ n, isNumString s.units = some n → jsAtomMaxInt < n := by
      intro n numeral
      rw [numeral] at number
      simpa using number
    obtain ⟨i, after, returned, made, only, _⟩ :=
      sound.newAtom_makes (t := .string) here (fun _ => large) (fun key => by cases key) fits fresh
    exact ⟨i, after, returned, made.textAtom, only_of_entries large (only (.inl rfl))⟩

end GoQuickjs.Atoms.Runtime
