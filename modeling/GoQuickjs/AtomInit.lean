import GoQuickjs.AtomRuns

/-!
# The predefined atoms

`JS_InitAtoms` enters the predefined texts one after the other, and the rest of the engine
knows the atom of each by its place. That rests on the list of free entries: as long as
nothing is given back, it runs through the array in order, and so the atoms come out in
order, also where the array grows.
-/

namespace GoQuickjs.Atoms

namespace Runtime

variable {rt after : Runtime} {p : Ptr} {s : JSAtomStruct} {i k : Nat} {t : AtomType}
  {h : UInt32} {room : Room} {held : Multiset Reference}

/-- The entries after `k` are free, and listed in order. -/
structure Filled (rt : Runtime) (k : Nat) : Prop where
  next : rt.atomFreeIndex = if k + 1 < rt.atomSize then k + 1 else 0
  rest : ∀ j, k < j → j < rt.atomSize →
    rt.atomArray j = .free (if j = rt.atomSize - 1 then 0 else j + 1)
  size : k < rt.atomSize ∨ rt.atomSize = 0 ∧ k = 0

/-- Nothing but the hash table and the links differ. -/
structure SameArray (before after : Runtime) : Prop where
  atomArray : after.atomArray = before.atomArray
  atomSize : after.atomSize = before.atomSize
  atomFreeIndex : after.atomFreeIndex = before.atomFreeIndex

/-- How far the array is filled depends on the array alone. -/
theorem Filled.congr (filled : rt.Filled k) (same : SameArray rt after) : after.Filled k := by
  obtain ⟨next, rest, size⟩ := filled
  refine ⟨?_, ?_, ?_⟩
  · rw [same.atomFreeIndex, same.atomSize, next]
  · intro j beyond inside
    rw [same.atomSize] at inside
    rw [same.atomArray, same.atomSize, rest j beyond inside]
  · rw [same.atomSize]
    exact size

/-- Moving one chain to its new buckets leaves the array as it is. -/
theorem rehashChain_sameArray {mask fuel j : Nat} {newHash : Nat → Nat}
    {moved : Runtime × (Nat → Nat)} (returned : rehashChain mask fuel j rt newHash = some moved) :
    SameArray rt moved.1 := by
  induction fuel generalizing rt j newHash with
  | zero => cases returned
  | succ fuel inductionHypothesis =>
    rw [rehashChain] at returned
    split at returned
    · obtain rfl := Option.some.inj returned
      exact ⟨rfl, rfl, rfl⟩
    · obtain ⟨found, _, onward⟩ := Option.bind_eq_some_iff.mp returned
      have later := inductionHypothesis onward
      exact ⟨later.atomArray, later.atomSize, later.atomFreeIndex⟩

/-- So does moving all of them. -/
theorem rehash_sameArray {mask : Nat} {buckets : List Nat} {newHash : Nat → Nat}
    {moved : Runtime × (Nat → Nat)} (returned : rehash mask buckets rt newHash = some moved) :
    SameArray rt moved.1 := by
  induction buckets generalizing rt newHash with
  | nil =>
    obtain rfl := Option.some.inj returned
    exact ⟨rfl, rfl, rfl⟩
  | cons b rest inductionHypothesis =>
    obtain ⟨first, chain, onward⟩ := Option.bind_eq_some_iff.mp returned
    have before := rehashChain_sameArray chain
    have later := inductionHypothesis onward
    exact ⟨later.atomArray.trans before.atomArray, later.atomSize.trans before.atomSize,
      later.atomFreeIndex.trans before.atomFreeIndex⟩

/-- Growing the table of buckets changes no entry of the array. -/
theorem resizeAtomHash_sameArray {size : Nat} {room : Bool}
    (returned : rt.resizeAtomHash size room = some after) : SameArray rt after := by
  rw [resizeAtomHash] at returned
  split at returned
  · cases returned
  · split at returned
    · obtain rfl := Option.some.inj returned
      exact ⟨rfl, rfl, rfl⟩
    · obtain ⟨moved, through, rfl⟩ := Option.map_eq_some_iff.mp returned
      have same := rehash_sameArray through
      exact ⟨same.atomArray, same.atomSize, same.atomFreeIndex⟩

/-- The first free entry is the one after `k`. -/
theorem Filled.useEntry (filled : rt.Filled k) (some_free : rt.atomFreeIndex ≠ 0) (p : Ptr)
    (s : JSAtomStruct) : ∃ next, rt.nextFree = some next ∧ rt.atomFreeIndex = k + 1 ∧
      (rt.useEntry p s next).Filled (k + 1) := by
  have inside : k + 1 < rt.atomSize := by
    by_contra outside
    exact some_free (filled.next.trans (if_neg outside))
  have index : rt.atomFreeIndex = k + 1 := filled.next.trans (if_pos inside)
  have free := filled.rest (k + 1) (Nat.lt_succ_self k) inside
  refine ⟨if k + 1 = rt.atomSize - 1 then 0 else k + 1 + 1, ?_, index, ⟨?_, ?_, .inl inside⟩⟩
  · rw [nextFree, index, if_pos inside, free]
  · change (if k + 1 = rt.atomSize - 1 then 0 else k + 1 + 1) =
      if k + 1 + 1 < rt.atomSize then k + 1 + 1 else 0
    split <;> split <;> omega
  · intro j beyond below
    change Function.update rt.atomArray rt.atomFreeIndex _ j = _
    rw [index, Function.update_of_ne (by omega)]
    exact filled.rest j (by omega) below

/-- A new atom takes the next entry while the array is filled in order. -/
theorem Filled.enterAtom (filled : rt.Filled k) (some_free : rt.atomFreeIndex ≠ 0)
    (returned : rt.enterAtom p h t room = some (i, after)) : i = k + 1 ∧ after.Filled (k + 1) := by
  rw [Runtime.enterAtom] at returned
  obtain ⟨s, _, returned⟩ := Option.bind_eq_some_iff.mp returned
  obtain ⟨next, first, index, used⟩ :=
    filled.useEntry some_free p { s with hash := h, atomType := some t }
  rw [first, Option.bind_some] at returned
  dsimp only at returned
  split at returned
  · obtain ⟨rfl, rfl⟩ := Prod.mk.inj (Option.some.inj returned)
    exact ⟨index, used⟩
  · have hashed : ((rt.useEntry p { s with hash := h, atomType := some t } next).hashAtom p h
        rt.atomFreeIndex).Filled (k + 1) := used.congr ⟨rfl, rfl, rfl⟩
    split at returned
    · obtain ⟨resized, through, same⟩ := Option.map_eq_some_iff.mp returned
      obtain ⟨rfl, rfl⟩ := Prod.mk.inj same
      exact ⟨index, hashed.congr (resizeAtomHash_sameArray through)⟩
    · obtain ⟨rfl, rfl⟩ := Prod.mk.inj (Option.some.inj returned)
      exact ⟨index, hashed⟩

/-- The longer array goes on where the shorter one ended. -/
theorem Filled.growAtomArray (filled : rt.Filled k) (empty : rt.atomFreeIndex = 0)
    (returned : rt.growAtomArray room = some after) :
    after.Filled k ∧ after.atomFreeIndex ≠ 0 := by
  have ends : rt.atomSize = k + 1 ∨ rt.atomSize = 0 ∧ k = 0 := by
    have next := filled.next
    rw [empty] at next
    rcases filled.size with inside | nothing
    · split at next
      · cases next
      · omega
    · exact .inr nothing
  have longer : k + 1 < rt.newSize := by
    simp only [newSize]
    omega
  have continued : ∀ start : Runtime, (start.freeEntries (k + 1) rt.newSize).Filled k := by
    intro start
    refine ⟨(if_pos longer).symm, ?_, .inl (Nat.lt_of_succ_lt longer)⟩
    intro j beyond inside
    exact if_pos ⟨beyond, inside⟩
  rw [Runtime.growAtomArray] at returned
  split at returned
  · cases returned
  · split at returned
    · cases returned
    · split at returned
      · rename_i start
        obtain rfl : k = 0 := by omega
        obtain ⟨q, _, rfl⟩ := Option.map_eq_some_iff.mp returned
        exact ⟨continued _, Nat.one_ne_zero⟩
      · rename_i start
        have size : rt.atomSize = k + 1 := ends.resolve_right fun nothing => start nothing.1
        obtain rfl := Option.some.inj returned
        rw [size]
        exact ⟨continued rt, Nat.succ_ne_zero k⟩

/-- A string that is no atom yet is entered after `k`, if it is entered. -/
theorem Filled.createAtom (filled : rt.Filled k) (table : rt.Table) (here : rt.memory p = some s)
    (plain : s.atomType = none) (fits : rt.atomSize * 3 < 2 ^ 31) (fresh : rt.Fresh room)
    (returned : rt.createAtom (some p) h t room = some (i, after)) (made : i ≠ 0) :
    i = k + 1 ∧ after.Filled (k + 1) := by
  have adds : ∀ {larger : Runtime}, larger.Filled k → larger.atomFreeIndex ≠ 0 →
      larger.memory p = some s → larger.addAtom (some p) h t room = some (i, after) →
      i = k + 1 ∧ after.Filled (k + 1) := by
    intro larger filled some_free there added
    simp only [addAtom, there, Option.bind_some, if_pos plain] at added
    exact filled.enterAtom some_free added
  rw [Runtime.createAtom] at returned
  by_cases empty : rt.atomFreeIndex = 0
  · rw [if_pos empty, if_neg (Nat.not_le.mpr fits)] at returned
    rcases table.growAtomArray_returns empty fits fresh.nullEntry with
      refused | ⟨larger, through, grown, _⟩
    · rw [refused] at returned
      obtain ⟨_, _, same⟩ := Option.map_eq_some_iff.mp returned
      exact absurd (Prod.mk.inj same).1.symm made
    · rw [through] at returned
      obtain ⟨onward, some_free⟩ := filled.growAtomArray empty through
      exact adds onward some_free ((grown.memory p (by simp [here])).trans here) returned
  · rw [if_neg empty] at returned
    exact adds filled empty here returned

/-- A predefined text that no atom has yet is entered after `k`. -/
theorem Filled.newAtomInit (filled : rt.Filled k) (sound : rt.Sound held)
    (spare : rt.Spare room p) (fits : rt.atomSize * 3 < 2 ^ 31) (fresh : rt.Fresh room)
    {str : List UInt8} (registered : t ≠ .globalSymbol)
    (unknown : t = .string → ∀ j q r, rt.entry j = some (q, r) → r.atomType = some .string →
      r.units ≠ str.map UInt8.toUInt16)
    (returned : rt.newAtomInit str t (some p) room = some (i, after)) (made : i ≠ 0) :
    i = k + 1 ∧ after.Filled (k + 1) := by
  obtain ⟨more, _, entry⟩ := sound.jsAllocString_sound spare.free (.ofBytes str)
  have ready : (rt.jsAllocString p (.ofBytes str)).Filled k := filled.congr ⟨rfl, rfl, rfl⟩
  have here : (rt.jsAllocString p (.ofBytes str)).memory p =
      some { Characters.ofBytes str with hash := 0, atomType := none } := Function.update_self ..
  have creates : ∀ h t, (rt.jsAllocString p (.ofBytes str)).createAtom (some p) h t room =
      some (i, after) → i = k + 1 ∧ after.Filled (k + 1) := fun h t returned =>
    ready.createAtom more.table here rfl fits (fresh.alloc spare _) returned made
  rw [Runtime.newAtomInit] at returned
  cases t with
  | string =>
    change (rt.jsAllocString p (.ofBytes str)).internAtom p .string room = _ at returned
    rw [internAtom, here, Option.bind_some, if_neg (by simp)] at returned
    obtain ⟨j, followed, ends⟩ := more.table.search .string (.inl rfl) (str.map UInt8.toUInt16)
    rw [hashOf] at followed
    obtain ⟨_, again, returned⟩ := Option.bind_eq_some_iff.mp returned
    obtain rfl := Option.some.inj (followed.symm.trans again)
    rcases ends with ⟨rfl, _⟩ | ⟨_, q, r, found, type, text⟩
    · rw [if_pos rfl] at returned
      exact creates _ _ returned
    · rw [entry] at found
      exact absurd text (unknown rfl j q r found type)
  | globalSymbol => exact absurd rfl registered
  | symbol => exact creates 0 .symbol returned
  | privateSymbol => exact creates jsAtomHashMask .symbol returned

end Runtime

namespace Engine

open Runs
open GoQuickjs.Atoms.Runtime

variable {e next : Engine} {actions : List Action} {i k : Nat}

/-- A predefined text with the type of its atom, and what the allocator answers for it. -/
structure Predefinition where
  text : List UInt8
  atomType : AtomType
  string : Ptr
  room : Room

/-- `JS_InitAtoms` enters a predefined text. -/
def Predefinition.action (x : Predefinition) : Action :=
  .newAtomInit x.text x.atomType (some x.string) x.room

/-- What the atom of a predefined text stands for. -/
def Predefinition.key (x : Predefinition) : AtomType × List UInt16 :=
  (stored x.atomType, x.text.map UInt8.toUInt16)

/-- `JS_InitAtoms` goes on after the action: it gives no `JS_ATOM_NULL`. -/
def Makes (e : Engine) : Action → Bool
  | .newAtomInit str atomType string room =>
    (e.rt.newAtomInit str atomType string room).all (·.1 ≠ 0)
  | _ => true

/-- The predefined strings differ. -/
def Distinct (texts : List Predefinition) : Prop :=
  texts.Pairwise fun x y => x.atomType = .string → y.atomType = .string → x.text ≠ y.text

/-- The atoms up to the number of texts are those of the texts, in order. -/
structure Numbered (e : Engine) (texts : List Predefinition) : Prop where
  filled : e.rt.Filled texts.length
  keys : ∀ k x, texts[k]? = some x → e.rt.key (k + 1) = some x.key

/-- Different bytes make different code units. -/
theorem units_injective : Function.Injective (List.map UInt8.toUInt16) := by
  refine List.map_injective_iff.mpr fun b c same => ?_
  rw [← UInt8.toNat_inj, ← UInt8.toNat_toUInt16, same, UInt8.toNat_toUInt16]

/-- No entry has a text that is not among the numbered ones. -/
theorem Numbered.unknown {texts : List Predefinition} {x : Predefinition}
    (numbered : e.Numbered texts) (sound : e.rt.Sound e.held)
    (distinct : Distinct (texts ++ [x])) (string : x.atomType = .string) (j : Nat) (q : Ptr)
    (r : JSAtomStruct) (found : e.rt.entry j = some (q, r)) (type : r.atomType = some .string) :
    r.units ≠ x.text.map UInt8.toUInt16 := by
  intro same
  obtain ⟨inside, used, _⟩ := entry_iff.mp found
  cases j with
  | zero =>
    have symbol := sound.table.null_symbol found
    rw [type] at symbol
    cases symbol
  | succ k =>
    by_cases known : k < texts.length
    · have key := numbered.keys k texts[k] (List.getElem?_eq_getElem known)
      rw [sound.table.key_entry found type] at key
      obtain ⟨kind, text⟩ := Prod.mk.inj (Option.some.inj key)
      have stringly : texts[k].atomType = .string := by
        cases other : texts[k].atomType <;> simp [stored, other] at kind ⊢
      have apart := (List.pairwise_append.mp distinct).2.2 texts[k] (List.getElem_mem known) x
        (List.mem_singleton_self x) stringly string
      exact apart (units_injective (text.symm.trans same))
    · have free := numbered.filled.rest (k + 1) (by omega) inside
      rw [used] at free
      cases free

/-- Another text gets the next number. -/
theorem Numbered.enter {texts : List Predefinition} {x : Predefinition}
    (numbered : e.Numbered texts) (sound : e.Sound)
    (distinct : Distinct (texts ++ [x])) (few : (texts ++ [x]).length < jsAtomEnd)
    (permitted : e.Permitted x.action) (makes : e.Makes x.action)
    (taken : step e x.action = some next) : next.Numbered (texts ++ [x]) := by
  rw [List.length_append, List.length_singleton] at few
  obtain ⟨i, after, returned, made, _⟩ := newAtomInit_made sound permitted
  have nonzero : i ≠ 0 := by
    rw [Predefinition.action, Makes, returned, Option.all_some] at makes
    exact of_decide_eq_true makes
  have allowed : Allowed step Permitted e [x.action] := .cons permitted taken .nil
  obtain ⟨⟨fits, fresh⟩, spare, registered, _⟩ := permitted
  obtain ⟨rfl, filled⟩ := numbered.filled.newAtomInit sound.strong (spare x.string rfl) fits
    fresh registered (numbered.unknown sound.strong distinct) returned nonzero
  have reached : run step e [x.action] = some next := by
    rw [run, taken]
    rfl
  have keeps : ∀ k y, texts[k]? = some y → next.rt.key (k + 1) = some y.key := by
    intro k y there
    have inside := (List.getElem?_eq_some_iff.mp there).1
    exact key_stays sound allowed reached
      (.inl (isConst_iff.mpr (.inl (by omega)))) (numbered.keys k y there)
  rw [Predefinition.action, step, returned] at taken
  obtain rfl := Option.some.inj taken
  refine ⟨by rw [List.length_append]; exact filled, fun k y there => ?_⟩
  by_cases old : k < texts.length
  · rw [List.getElem?_append_left old] at there
    exact keeps k y there
  · have last : k = texts.length := by
      have inside := (List.getElem?_eq_some_iff.mp there).1
      rw [List.length_append, List.length_singleton] at inside
      omega
    subst last
    rw [List.getElem?_concat_length] at there
    obtain rfl := Option.some.inj there
    obtain ⟨q, r, found, type, text⟩ := made.key.resolve_left nonzero
    rw [made.sound.table.key_entry found type, text]
    rfl

/-- The texts get the numbers of their places.

Proof: induction on the texts from the last one; the list of free entries stays in order. -/
theorem numbered_of_run {texts : List Predefinition} (few : texts.length < jsAtomEnd)
    (distinct : Distinct texts)
    (allowed : Allowed step (fun e action => e.Permitted action ∧ e.Makes action) initial
      (texts.map Predefinition.action))
    (reached : run step initial (texts.map Predefinition.action) = some e) :
    e.Numbered texts := by
  induction texts using List.reverseRecOn generalizing e with
  | nil =>
    obtain rfl : initial = e := Option.some.inj reached
    refine ⟨⟨rfl, fun j _ inside => ?_, .inr ⟨rfl, rfl⟩⟩, fun k x there => ?_⟩
    · cases inside
    · cases there
  | append_singleton texts x inductionHypothesis =>
    rw [List.map_append, List.map_singleton] at allowed reached
    obtain ⟨before, earlier, taken⟩ := run_snoc.mp reached
    have fewer : texts.length < jsAtomEnd := by
      rw [List.length_append] at few
      omega
    have numbered := inductionHypothesis fewer (List.pairwise_append.mp distinct).1
      allowed.earlier earlier
    have sound := sound_of_run initial_sound
      (allowed.earlier.mono fun _ _ condition => condition.1) earlier
    obtain ⟨permitted, makes⟩ := allowed.last earlier
    exact numbered.enter sound distinct few permitted makes taken

/-- With a text for every predefined atom the table has them all. -/
theorem Numbered.predefined {texts : List Predefinition} (numbered : e.Numbered texts)
    (sound : e.rt.Sound e.held) (all : texts.length + 1 = jsAtomEnd) : e.rt.Predefined := by
  intro i inside
  cases i with
  | zero =>
    refine sound.table.null_entry ?_
    rcases numbered.filled.size with below | ⟨_, none_there⟩
    · omega
    · rw [none_there] at all
      cases all
  | succ k =>
    have known : k < texts.length := by omega
    have key := numbered.keys k texts[k] (List.getElem?_eq_getElem known)
    rcases key_cases key with ⟨tagged, _⟩ | ⟨p, s, found, _⟩
    · have large := tagged_large tagged
      simp only [jsAtomTagInt, jsAtomEnd] at large inside
      omega
    · exact ⟨_, found⟩

/-- `JS_InitAtoms` gives the predefined texts the numbers of their places, from 1 on, and leaves no
predefined atom out if there is a text for each. -/
theorem initAtoms_numbers {texts : List Predefinition} (few : texts.length < jsAtomEnd)
    (distinct : Distinct texts)
    (allowed : Allowed step (fun e action => e.Permitted action ∧ e.Makes action) initial
      (texts.map Predefinition.action))
    (reached : run step initial (texts.map Predefinition.action) = some e) :
    (∀ k x, texts[k]? = some x → e.rt.key (k + 1) = some x.key) ∧
      (texts.length + 1 = jsAtomEnd → e.rt.Predefined) := by
  have numbered := numbered_of_run few distinct allowed reached
  have sound := sound_of_run initial_sound
    (allowed.mono fun _ _ condition => condition.1) reached
  exact ⟨numbered.keys, numbered.predefined sound.strong⟩

/-- The texts of a small engine: as many as there are predefined atoms, the empty one at its place,
and symbols at the end. The array grows at the first text, and again on the way. -/
def smallTexts : List Predefinition :=
  (List.range 222).map fun k =>
    { text := if k + 1 = jsAtomEmptyString then [] else [97, UInt8.ofNat k]
      atomType := if k < 209 then .string else .symbol
      string := 1000 + k
      room :=
        { array := true
          nullEntry := if k = 0 then some 999 else none
          copy := none
          hash := true } }

/-- The engine with the small texts. -/
def smallStart : List Action := smallTexts.map Predefinition.action

/-- The shortened list has as many names as the source's list of predefined atoms. -/
theorem smallTexts_length : smallTexts.length = 222 := by
  rw [smallTexts, List.length_map, List.length_range]

/-- No two of its names are equal. -/
theorem smallTexts_distinct : Distinct smallTexts := by
  rw [Distinct, smallTexts, List.pairwise_map]
  refine List.Pairwise.imp_of_mem ?_ List.pairwise_lt_range
  intro k l first second less _ _ same
  have inside := List.mem_range.mp second
  by_cases empty : k + 1 = jsAtomEmptyString
  · have other : l + 1 ≠ jsAtomEmptyString := by
      rw [← empty]
      omega
    rw [if_pos empty, if_neg other] at same
    cases same
  by_cases other : l + 1 = jsAtomEmptyString
  · rw [if_neg empty, if_pos other] at same
    cases same
  · rw [if_neg empty, if_neg other] at same
    have letter := congrArg UInt8.toNat (List.cons.inj (List.cons.inj same).2).1
    rw [UInt8.toNat_ofNat', UInt8.toNat_ofNat'] at letter
    omega

/-- The start with these names meets every condition of a run. -/
theorem smallStart_allowed : Allowed step (fun e action => e.Permitted action ∧ e.Makes action)
    initial smallStart := by
  decide +kernel

/-- With these names `JS_InitAtoms` numbers the atoms from 1 on. -/
theorem initAtoms_numbers_small : ∃ e, run step initial smallStart = some e ∧
    (∀ k x, smallTexts[k]? = some x → e.rt.key (k + 1) = some x.key) ∧ e.rt.Predefined := by
  obtain ⟨e, reached, _⟩ := run_sound initial_sound
    (smallStart_allowed.mono fun _ _ condition => condition.1)
  have few : smallTexts.length < jsAtomEnd := by
    rw [smallTexts_length]
    decide
  obtain ⟨keys, all⟩ := initAtoms_numbers few smallTexts_distinct smallStart_allowed reached
  exact ⟨e, reached, keys, all (by rw [smallTexts_length]; rfl)⟩

end Engine

end GoQuickjs.Atoms
