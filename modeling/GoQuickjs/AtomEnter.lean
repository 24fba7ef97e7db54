import GoQuickjs.AtomRelease

/-!
# Atoms that are made

`__JS_NewAtom` takes the first free entry for a string that is no atom yet, and puts the
string in front of the bucket of its hash unless the atom is a symbol. When no entry is
free, the array grows, and its new entries form the list of free entries.
-/

namespace GoQuickjs.Atoms.Runtime

open IndexChains

variable {rt after : Runtime} {p q : Ptr} {s r : JSAtomStruct} {i j : Nat}

/-- A new atom may have this type, hash and text: a symbol is unlike every other atom; else no
atom of the type has the text, and a string is no numeral that has an atom without an entry. -/
def Admits (rt : Runtime) (t : AtomType) (h : UInt32) (units : List UInt16) : Prop :=
  (t = .symbol ∧ (h = 0 ∨ h = jsAtomHashMask)) ∨
    (t.IsInterned ∧ h = hashOf t units ∧
      (∀ j q r, rt.entry j = some (q, r) → r.atomType = some t → r.units ≠ units) ∧
      (t = .string → ∀ n, isNumString units = some n → jsAtomMaxInt < n))

/-- What becomes of the table when a string gets an entry. -/
structure Entered (before after : Runtime) (p : Ptr) (s : JSAtomStruct) (i : Nat) : Prop where
  memory : after.memory = Function.update before.memory p (some s)
  refCount : after.refCount = before.refCount
  atomSize : after.atomSize = before.atomSize
  entry : ∀ j, after.entry j = if j = i then some (p, s) else before.entry j

/-- The entries of the other atoms hold what they held, and none of them is like the new one. -/
theorem Entered.entries {t : AtomType} {h : UInt32} {plain : JSAtomStruct}
    (table : rt.Table) (here : rt.memory p = some plain) (untyped : plain.atomType = none)
    (admits : rt.Admits t h plain.units)
    (entered : Entered rt after p { plain with hash := h, atomType := some t } i)
    (placed : after.atomArray i = .atom p)
    (array : ∀ j, j ≠ i → after.atomArray j = rt.atomArray j)
    (symbols : ∀ {j q r}, rt.entry j = some (q, r) → r.atomType = some .symbol →
      after.hashNext q = rt.hashNext q)
    (index : t = .symbol → after.hashNext p = i) : after.Entries := by
  have entries := table.entries
  have new : after.entry i = some (p, { plain with hash := h, atomType := some t }) := by
    rw [entered.entry, if_pos rfl]
  have cases_of : ∀ {j q r}, after.entry j = some (q, r) →
      (j = i ∧ q = p ∧ r = { plain with hash := h, atomType := some t }) ∨
        (j ≠ i ∧ q ≠ p ∧ rt.entry j = some (q, r)) := by
    intro j q r there
    rw [entered.entry] at there
    split at there
    · obtain ⟨rfl, rfl⟩ := Prod.mk.inj (Option.some.inj there)
      exact .inl ⟨‹_›, rfl, rfl⟩
    · obtain ⟨inside, used, _⟩ := entry_iff.mp there
      exact .inr ⟨‹_›, table.plain_string here untyped inside used, there⟩
  have alone : ∀ {j q r}, rt.entry j = some (q, r) → t ≠ .symbol → r.atomType = some t →
      r.units ≠ plain.units := by
    intro j q r there interned type
    rcases admits with ⟨symbol, _⟩ | ⟨_, _, unknown, _⟩
    · exact absurd symbol interned
    · exact unknown j q r there type
  refine ⟨?_, ?_, ?_, ?_, ?_⟩
  · intro j q inside used
    rw [entered.atomSize] at inside
    rw [entered.memory]
    by_cases same : j = i
    · rw [same, placed] at used
      obtain rfl := AtomEntry.atom.inj used
      exact ⟨_, Function.update_self ..⟩
    · rw [array j same] at used
      obtain ⟨r, live⟩ := entries.live inside used
      exact ⟨r, (Function.update_of_ne (table.plain_string here untyped inside used) ..).trans live⟩
  · intro j k q r r' one other
    rcases cases_of one with ⟨rfl, rfl, _⟩ | ⟨_, different, one⟩
    · rcases cases_of other with ⟨rfl, _, _⟩ | ⟨_, different, _⟩
      · rfl
      · exact absurd rfl different
    · rcases cases_of other with ⟨_, same, _⟩ | ⟨_, _, other⟩
      · exact absurd same different
      · exact entries.apart one other
  · intro j q r there
    rcases cases_of there with ⟨rfl, rfl, rfl⟩ | ⟨_, _, there⟩
    · rcases admits with ⟨rfl, _⟩ | ⟨interned, hash, _⟩
      · exact .inr ⟨rfl, index rfl⟩
      · exact .inl ⟨t, interned, rfl, hash⟩
    · rcases entries.typed there with interned | ⟨symbol, index⟩
      · exact .inl interned
      · exact .inr ⟨symbol, (symbols there symbol).trans index⟩
  · intro j k q q' r r' one other interned types texts
    rcases cases_of one with ⟨rfl, rfl, rfl⟩ | ⟨_, _, one⟩
    · rcases cases_of other with ⟨rfl, _, _⟩ | ⟨_, _, other⟩
      · rfl
      · exact absurd texts.symm
          (alone other (fun symbol => interned (congrArg some symbol)) types.symm)
    · rcases cases_of other with ⟨rfl, rfl, rfl⟩ | ⟨_, _, other⟩
      · exact absurd texts (alone one
          (fun symbol => interned (types.trans (congrArg some symbol))) types)
      · exact entries.distinct one other interned types texts
  · intro j q r n there type numeral
    rcases cases_of there with ⟨rfl, rfl, rfl⟩ | ⟨_, _, there⟩
    · rcases admits with ⟨rfl, _⟩ | ⟨_, _, _, large⟩
      · cases type
      · exact large (Option.some.inj type) n numeral
    · exact entries.untagged there type numeral

theorem Entered.atoms (entered : Entered rt after p s i) : after.atoms = insert i rt.atoms := by
  ext j
  rw [mem_atoms, Finset.mem_insert, mem_atoms]
  simp only [entered.entry]
  by_cases same : j = i
  · simp [same]
  · simp [same]

/-! ## Taking a free entry -/

/-- The first free entry. -/
theorem Table.nextFree_eq (table : rt.Table) (some_free : rt.atomFreeIndex ≠ 0) :
    rt.atomFreeIndex < rt.atomSize ∧
      rt.atomArray rt.atomFreeIndex = .free (rt.link rt.atomFreeIndex) ∧
      rt.nextFree = some (rt.link rt.atomFreeIndex) := by
  have placed : rt.chain rt.atomFreeIndex = some none :=
    table.chains.head_placed (b := none) some_free
  obtain ⟨inside, next, free⟩ := chain_free_iff.mp placed
  have linked : rt.link rt.atomFreeIndex = next := by rw [link, free]
  rw [linked]
  exact ⟨inside, free, by rw [nextFree, if_pos inside, free]⟩

section

variable (table : rt.Table) (here : rt.memory p = some s) (plain : s.atomType = none)
  (some_free : rt.atomFreeIndex ≠ 0)
include table here plain some_free

/-- The string gets the first free entry. -/
theorem Table.useEntry_enters : Entered rt (rt.useEntry p r (rt.link rt.atomFreeIndex)) p r
    rt.atomFreeIndex := by
  obtain ⟨inside, _, _⟩ := table.nextFree_eq some_free
  refine ⟨rfl, rfl, rfl, fun j => ?_⟩
  by_cases same : j = rt.atomFreeIndex
  · rw [if_pos same, same, entry_iff]
    exact ⟨inside, Function.update_self .., Function.update_self ..⟩
  · rw [if_neg same]
    exact entry_congr rfl (Function.update_of_ne same ..) fun q below used =>
      Function.update_of_ne (table.plain_string here plain below used) ..

/-- The entry leaves the list of free entries. -/
theorem Table.useEntry_chains : Chains (rt.useEntry p r (rt.link rt.atomFreeIndex)).link
    (rt.useEntry p r (rt.link rt.atomFreeIndex)).head
    fun j => if j = rt.atomFreeIndex then none else rt.chain j := by
  refine table.chains.pop (b := none) rfl some_free ?_ (fun _ => rfl) ?_
  · intro c
    cases c <;> rfl
  · intro j other placed
    obtain ⟨place, placed⟩ := Option.ne_none_iff_exists'.mp placed
    exact link_congr (Function.update_of_ne other ..) fun q used =>
      Function.update_of_ne (table.plain_string here plain (lt_of_chain placed) used) ..

end

/-- The end of `__JS_NewAtom` gives a string that is no atom the first free entry. -/
theorem Table.enterAtom_returns (table : rt.Table) {t : AtomType} {h : UInt32}
    (here : rt.memory p = some s) (plain : s.atomType = none) (some_free : rt.atomFreeIndex ≠ 0)
    (admits : rt.Admits t h s.units) (room : Room) : ∃ after,
      rt.enterAtom p h t room = some (rt.atomFreeIndex, after) ∧
        Entered rt after p { s with hash := h, atomType := some t } rt.atomFreeIndex ∧
        after.Table := by
  obtain ⟨inside, free, next⟩ := table.nextFree_eq some_free
  let used := rt.useEntry p { s with hash := h, atomType := some t } (rt.link rt.atomFreeIndex)
  have entered : Entered rt used p _ rt.atomFreeIndex :=
    table.useEntry_enters here plain some_free
  have chains := table.useEntry_chains (r := { s with hash := h, atomType := some t })
    here plain some_free
  have unused : rt.entry rt.atomFreeIndex = none := by
    rw [entry, if_pos inside, free]
  have array : ∀ j, j ≠ rt.atomFreeIndex → used.atomArray j = rt.atomArray j :=
    fun j other => Function.update_of_ne other ..
  have placed : used.atomArray rt.atomFreeIndex = .atom p := Function.update_self ..
  have others : ∀ j, j ≠ rt.atomFreeIndex → used.chain j = rt.chain j := fun j other =>
    chain_congr rfl rfl (array j other) fun q below there =>
      Function.update_of_ne (table.plain_string here plain below there) ..
  have new : used.entry rt.atomFreeIndex = some (p, { s with hash := h, atomType := some t }) := by
    rw [entered.entry, if_pos rfl]
  have symbols : ∀ {j q r}, rt.entry j = some (q, r) → q ≠ p := by
    intro j q r there
    obtain ⟨below, there, _⟩ := entry_iff.mp there
    exact table.plain_string here plain below there
  have count : used.atomCount = used.atoms.card := by
    change rt.atomCount + 1 = _
    have fresh : rt.atomFreeIndex ∉ rt.atoms := by
      rw [mem_atoms, unused]
      simp
    rw [entered.atoms, Finset.card_insert_of_notMem fresh, table.count]
    norm_cast
  rw [enterAtom, here, Option.bind_some, next, Option.bind_some]
  by_cases symbol : t = .symbol
  · refine ⟨used, if_pos symbol, entered, ?_, ?_, table.power, count, table.small⟩
    · exact entered.entries table here plain admits placed array
        (fun there _ => Function.update_of_ne (symbols there) ..)
        fun _ => Function.update_self ..
    · refine chains.congr (fun _ => rfl) (fun j => ?_) fun _ _ => rfl
      by_cases same : j = rt.atomFreeIndex
      · rw [if_pos same, same, chain_entry new, if_pos (congrArg some symbol)]
      · rw [if_neg same]
        exact others j same
  · let hashed := used.hashAtom p h rt.atomFreeIndex
    have whole : Entered rt hashed p _ rt.atomFreeIndex :=
      ⟨entered.memory, entered.refCount, entered.atomSize, entered.entry⟩
    have bucket : used.slot h < rt.atomHashSize := slot_lt table.hashSize_pos h
    have sound : hashed.Table := by
      refine ⟨?_, ?_, table.power, count, table.small⟩
      · refine whole.entries table here plain admits placed array (fun there _ => ?_)
          fun same => absurd same symbol
        exact (Function.update_of_ne (symbols there) ..).trans
          (Function.update_of_ne (symbols there) ..)
      · refine chains.push (b := some (used.slot h)) some_free (if_pos rfl) ?_ ?_ ?_ ?_
        · intro c
          cases c with
          | none => rfl
          | some b =>
            change (if b < rt.atomHashSize then
              Function.update rt.atomHash (used.slot h) rt.atomFreeIndex b else 0) = _
            rw [Function.update_apply]
            by_cases same : b = used.slot h
            · simp [same, bucket]
            · simp only [if_neg same, Option.some.injEq]
              rfl
        · rw [link_entry (whole.entry _ ▸ if_pos rfl)]
          change Function.update used.hashNext p (used.atomHash (used.slot h)) p = _
          rw [Function.update_self, head]
          exact (if_pos bucket).symm
        · intro j
          by_cases same : j = rt.atomFreeIndex
          · rw [if_pos same, same, chain_entry (whole.entry _ ▸ if_pos rfl)]
            exact if_neg fun type => symbol (Option.some.inj type)
          · rw [if_neg same, if_neg same]
            exact others j same
        · intro j there
          have other : j ≠ rt.atomFreeIndex := by
            rintro rfl
            exact there (if_pos rfl)
          rw [if_neg other] at there
          obtain ⟨place, there⟩ := Option.ne_none_iff_exists'.mp there
          refine link_congr rfl fun q used => Function.update_of_ne ?_ ..
          exact table.plain_string here plain (lt_of_chain there) (array j other ▸ used)
    rw [if_neg symbol]
    by_cases full : hashed.atomCountResize ≤ hashed.atomCount
    · obtain ⟨larger, resized, relinked, table⟩ := sound.resizeAtomHash_returns room.hash
      refine ⟨larger, ?_, ⟨?_, ?_, ?_, ?_⟩, table⟩
      · rw [if_pos full]
        exact congrArg (Option.map _) resized
      · exact relinked.memory.trans whole.memory
      · exact relinked.refCount.trans whole.refCount
      · exact relinked.atomSize.trans whole.atomSize
      · exact fun j => (relinked.entry j).trans (whole.entry j)
    · exact ⟨hashed, if_neg full, whole, sound⟩

/-! ## A longer array -/

/-- What becomes of the table when its array grows: at most the entry of `JS_ATOM_NULL` is new. -/
structure Grown (before after : Runtime) : Prop where
  memory : ∀ q, before.memory q ≠ none → after.memory q = before.memory q
  refCount : ∀ q, before.memory q ≠ none → after.refCount q = before.refCount q
  entry : ∀ j e, before.entry j = some e → after.entry j = some e
  old : ∀ j q r, after.entry j = some (q, r) → before.memory q ≠ none →
    before.entry j = some (q, r)
  new : ∀ q r, before.memory q = none → after.memory q = some r →
    after.entry 0 = some (q, r) ∧ after.refCount q = 1 ∧ r.hash = 0

/-- The new size is no size that `JS_ATOM_MAX` excludes, unless the product that it is computed
from does not fit. -/
theorem newSize_le (fits : rt.atomSize * 3 < 2 ^ 31) : rt.newSize ≤ jsAtomMax := by
  simp only [newSize, jsAtomMax]
  omega

theorem lt_newSize : rt.atomSize < rt.newSize := by
  simp only [newSize]
  omega

/-- The new entries are free, and the others stay. -/
theorem Table.freeEntries_table (table : rt.Table) (empty : rt.atomFreeIndex = 0)
    (positive : 0 < rt.atomSize) {size : Nat} (longer : rt.atomSize < size)
    (small : size ≤ jsAtomMax) : (rt.freeEntries rt.atomSize size).Table ∧
      ∀ j, (rt.freeEntries rt.atomSize size).entry j = rt.entry j := by
  have array : ∀ j, (rt.freeEntries rt.atomSize size).atomArray j =
      if rt.atomSize ≤ j ∧ j < size then .free (if j = size - 1 then 0 else j + 1)
      else rt.atomArray j := fun j => rfl
  have old : ∀ {j}, j < rt.atomSize →
      (rt.freeEntries rt.atomSize size).atomArray j = rt.atomArray j := by
    intro j inside
    rw [array, if_neg fun new => Nat.not_lt.mpr new.1 inside]
  have entry : ∀ j, (rt.freeEntries rt.atomSize size).entry j = rt.entry j := by
    intro j
    by_cases inside : j < rt.atomSize
    · rw [Runtime.entry, Runtime.entry, if_pos inside, old inside]
      exact if_pos (inside.trans longer)
    · have missing : rt.entry j = none := if_neg inside
      rw [missing, Runtime.entry]
      split
      · rename_i below
        rw [array, if_pos ⟨Nat.not_lt.mp inside, below⟩]
      · rfl
  have used : ∀ {j p}, j < size → (rt.freeEntries rt.atomSize size).atomArray j = .atom p →
      j < rt.atomSize ∧ rt.atomArray j = .atom p := by
    intro j p below there
    rw [array] at there
    split at there
    · cases there
    · exact ⟨by omega, there⟩
  have none_free : ∀ j, rt.chain j ≠ some none := by
    intro j placed
    obtain ⟨list, chain, members⟩ := table.chains none
    have nothing : list = [] := chain.eq_nil empty
    rw [nothing] at members
    cases (members j).mpr placed
  have places : ∀ j, (rt.freeEntries rt.atomSize size).chain j =
      if rt.atomSize ≤ j ∧ j < size then some none else rt.chain j := by
    intro j
    by_cases new : rt.atomSize ≤ j ∧ j < size
    · rw [if_pos new, chain_free_iff]
      exact ⟨new.2, _, (array j).trans (if_pos new)⟩
    · rw [if_neg new, chain, chain, array, if_neg new]
      by_cases inside : j < rt.atomSize
      · rw [if_pos inside]
        exact if_pos (inside.trans longer)
      · rw [if_neg inside]
        refine if_neg fun below => ?_
        change j < size at below
        omega
  refine ⟨⟨?_, ?_, table.power, ?_, small⟩, entry⟩
  · refine table.entries.congr entry ?_ fun _ _ => rfl
    intro j p below there
    obtain ⟨inside, there⟩ := used below there
    exact table.entries.live inside there
  · intro place
    cases place with
    | none =>
      refine ⟨List.range' rt.atomSize (size - rt.atomSize), ?_, fun j => ?_⟩
      · have row : Chain (rt.freeEntries rt.atomSize size).link
            (if size - rt.atomSize = 0 then 0 else rt.atomSize)
            (List.range' rt.atomSize (size - rt.atomSize)) := by
          refine Chain.consecutive positive fun j from_size below => ?_
          rw [link, array, if_pos (by omega)]
          exact if_congr (by omega) rfl rfl
        rw [if_neg (by omega)] at row
        exact row
      · rw [List.mem_range'_1, places]
        constructor
        · intro new
          rw [if_pos (by omega)]
        · intro placed
          split at placed
          · omega
          · exact absurd placed (none_free j)
    | some b =>
      obtain ⟨list, chain, members⟩ := table.chains (some b)
      refine ⟨list, ?_, fun j => ?_⟩
      · refine chain.congr fun j member => ?_
        exact link_congr (old (lt_of_chain ((members j).mp member))) fun _ _ => rfl
      · rw [members, places]
        by_cases new : rt.atomSize ≤ j ∧ j < size
        · rw [if_pos new]
          constructor
          · intro placed
            exact absurd (lt_of_chain placed) (Nat.not_lt.mpr new.1)
          · intro free
            cases free
        · rw [if_neg new]
  · change rt.atomCount = _
    have same : (rt.freeEntries rt.atomSize size).atoms = rt.atoms := by
      ext j
      simp only [mem_atoms, entry]
    rw [same, table.count]

/-- The runtime with the entry of `JS_ATOM_NULL` alone. -/
def withNull (rt : Runtime) (p : Ptr) : Runtime := { rt.nullAtom p with atomSize := 1 }

theorem withNull_array (rt : Runtime) (p : Ptr) : (rt.withNull p).atomArray 0 = .atom p := by
  change Function.update rt.atomArray 0 (.atom p) 0 = _
  rw [Function.update_self]

/-- `JS_ATOM_NULL` is an atom of its own. -/
theorem Table.withNull_table (table : rt.Table) (start : rt.atomSize = 0)
    (fresh : rt.memory p = none) : (rt.withNull p).Table ∧
      (∀ j e, (rt.withNull p).entry j = some e → j = 0) ∧
      ∃ r, (rt.withNull p).entry 0 = some (p, r) ∧ r.atomType = some .symbol ∧ r.hash = 0 := by
  have nothing : ∀ j, rt.entry j = none := by
    intro j
    rw [entry, if_neg (by omega)]
  have unplaced : ∀ j, rt.chain j = none := by
    intro j
    rw [chain, if_neg (by omega)]
  have memory : ∀ q, q ≠ p → (rt.withNull p).memory q = rt.memory q :=
    fun q other => Function.update_of_ne other ..
  obtain ⟨null, here, symbol, hash⟩ : ∃ r, (rt.withNull p).memory p = some r ∧
      r.atomType = some .symbol ∧ r.hash = 0 := ⟨_, Function.update_self .., rfl, rfl⟩
  have first : (rt.withNull p).entry 0 = some (p, null) :=
    entry_iff.mpr ⟨Nat.one_pos, withNull_array rt p, here⟩
  have only : ∀ j e, (rt.withNull p).entry j = some e → j = 0 := by
    intro j e there
    exact Nat.lt_one_iff.mp (entry_iff.mp there).1
  have same : ∀ {j q r}, (rt.withNull p).entry j = some (q, r) → j = 0 ∧ q = p ∧ r = null := by
    intro j q r there
    obtain rfl := only j _ there
    rw [first] at there
    obtain ⟨rfl, rfl⟩ := Prod.mk.inj (Option.some.inj there)
    exact ⟨rfl, rfl, rfl⟩
  have small : 1 ≤ jsAtomMax := by decide
  refine ⟨⟨⟨?_, ?_, ?_, ?_, ?_⟩, ?_, table.power, ?_, small⟩, only, null, first, symbol,
    hash⟩
  · intro j q inside used
    obtain rfl : j = 0 := Nat.lt_one_iff.mp inside
    obtain rfl : p = q := AtomEntry.atom.inj ((withNull_array rt p).symm.trans used)
    exact ⟨null, here⟩
  · intro j k q r r' one other
    rw [(same one).1, (same other).1]
  · intro j q r there
    obtain ⟨rfl, rfl, rfl⟩ := same there
    exact .inr ⟨symbol, Function.update_self ..⟩
  · intro j k q q' r r' one other interned
    obtain ⟨_, _, rfl⟩ := same one
    exact absurd symbol interned
  · intro j q r n there type
    obtain ⟨_, _, rfl⟩ := same there
    rw [symbol] at type
    cases type
  · refine table.chains.congr (fun c => ?_) (fun j => ?_) fun j placed => absurd (unplaced j) placed
    · cases c <;> rfl
    · rw [unplaced]
      by_cases zero : j = 0
      · subst zero
        rw [chain_entry first, if_pos symbol]
      · refine if_neg fun inside => zero (Nat.lt_one_iff.mp inside)
  · have atoms : (rt.withNull p).atoms = {0} := by
      ext j
      rw [mem_atoms, Finset.mem_singleton]
      constructor
      · rintro ⟨q, r, there⟩
        exact (same there).1
      · rintro rfl
        exact ⟨p, null, first⟩
    have none_yet : rt.atoms = ∅ := by
      ext j
      rw [mem_atoms]
      simp [nothing]
    change rt.atomCount + 1 = _
    rw [atoms, table.count, none_yet]
    rfl

/-- The array grows, unless the allocator refuses. -/
theorem Table.growAtomArray_returns (table : rt.Table) (empty : rt.atomFreeIndex = 0)
    (fits : rt.atomSize * 3 < 2 ^ 31) {room : Room}
    (fresh : ∀ p, room.nullEntry = some p → rt.memory p = none) :
    rt.growAtomArray room = none ∨ ∃ after, rt.growAtomArray room = some after ∧
      Grown rt after ∧ after.Table ∧ after.atomFreeIndex ≠ 0 ∧
      after.atomSize = rt.newSize ∧
      ∀ q, room.nullEntry ≠ some q → after.memory q = rt.memory q := by
  rw [growAtomArray, if_neg (Nat.not_lt.mpr (newSize_le fits))]
  cases room.array with
  | false => exact .inl rfl
  | true =>
    rw [if_neg (by simp)]
    by_cases start : rt.atomSize = 0
    · rw [if_pos start]
      cases null : room.nullEntry with
      | none => exact .inl rfl
      | some p =>
        obtain ⟨whole, only, r, first, symbol, hash⟩ := table.withNull_table start (fresh p null)
        have none_free : (rt.withNull p).atomFreeIndex = 0 := empty
        have longer : (rt.withNull p).atomSize < rt.newSize := by
          change 1 < max 211 _
          omega
        obtain ⟨grown, entry⟩ := whole.freeEntries_table none_free Nat.one_pos longer
          (newSize_le fits)
        refine .inr ⟨_, rfl, ⟨?_, ?_, ?_, ?_, ?_⟩, grown, ?_, rfl, fun q other =>
          Function.update_of_ne (fun same => other (congrArg some same.symm)) ..⟩
        · intro q live
          refine Function.update_of_ne ?_ ..
          rintro rfl
          exact live (fresh q null)
        · intro q live
          refine Function.update_of_ne ?_ ..
          rintro rfl
          exact live (fresh q null)
        · intro j e there
          rw [Runtime.entry, if_neg (by omega)] at there
          cases there
        · intro j q r' there live
          have there := (entry j).symm.trans there
          obtain rfl := only j _ there
          rw [first] at there
          obtain ⟨rfl, _⟩ := Prod.mk.inj (Option.some.inj there)
          exact absurd (fresh p null) live
        · intro q r' free live
          have same : q = p := by
            by_contra other
            have unchanged : ((rt.nullAtom p).freeEntries 1 rt.newSize).memory q = rt.memory q :=
              Function.update_of_ne other ..
            rw [unchanged, free] at live
            cases live
          subst same
          have here : (rt.withNull q).entry 0 = some (q, r') :=
            entry_iff.mpr ⟨Nat.one_pos, withNull_array rt q, live⟩
          rw [first] at here
          obtain ⟨_, rfl⟩ := Prod.mk.inj (Option.some.inj here)
          exact ⟨(entry 0).trans first, Function.update_self .., hash⟩
        · change 1 ≠ 0
          omega
    · rw [if_neg start]
      obtain ⟨grown, entry⟩ := table.freeEntries_table empty (by omega) lt_newSize
        (newSize_le fits)
      refine .inr ⟨_, rfl, ⟨fun _ _ => rfl, fun _ _ => rfl, fun j e there => ?_,
        fun j q r there _ => ?_, ?_⟩, grown, start, rfl, fun _ _ => rfl⟩
      · rw [entry, there]
      · rw [← entry, there]
      · intro q r free live
        rw [show (rt.freeEntries rt.atomSize rt.newSize).memory = rt.memory from rfl, free] at live
        cases live

end GoQuickjs.Atoms.Runtime
