import GoQuickjs.AtomCounts
import GoQuickjs.AtomNumerals

/-!
# Strings and atoms that come and go

What the functions on single references do to the table: a reference more, a reference
fewer, a string or an atom freed with its last reference, a new string. What the other
references lead to stays as it is.
-/

namespace GoQuickjs.Atoms.Runtime

open IndexChains

variable {rt after : Runtime} {p q : Ptr} {s r : JSAtomStruct} {i j : Nat}
  {x y : Reference} {held rest : Multiset Reference}

/-- The table does not depend on the counts. -/
theorem Table.setRefCount (table : rt.Table) (p : Ptr) (count : Int) :
    (rt.setRefCount p count).Table :=
  ⟨⟨table.entries.live, table.entries.apart, table.entries.typed, table.entries.distinct,
    table.entries.untagged⟩, table.chains, table.power, table.count, table.small⟩

/-- Memory that is not used is no string of an entry. -/
theorem Table.free_string (table : rt.Table) (free : rt.memory p = none)
    (inside : j < rt.atomSize) (used : rt.atomArray j = .atom q) : q ≠ p := by
  rintro rfl
  obtain ⟨s, live⟩ := table.entries.live inside used
  rw [free] at live
  cases live

/-- Strings that no entry points to may come, change and go. -/
theorem Table.plain_change (table : rt.Table) (after : Runtime) (p : Ptr)
    (new : Option JSAtomStruct)
    (absent : ∀ {j q}, j < rt.atomSize → rt.atomArray j = .atom q → q ≠ p)
    (memory : after.memory = Function.update rt.memory p new)
    (array : after.atomArray = rt.atomArray) (size : after.atomSize = rt.atomSize)
    (free : after.atomFreeIndex = rt.atomFreeIndex) (hash : after.atomHash = rt.atomHash)
    (buckets : after.atomHashSize = rt.atomHashSize) (count : after.atomCount = rt.atomCount)
    (next : ∀ q, q ≠ p → after.hashNext q = rt.hashNext q) :
    after.Table ∧ ∀ j, after.entry j = rt.entry j := by
  have strings : ∀ {j q}, j < rt.atomSize → rt.atomArray j = .atom q →
      after.memory q = rt.memory q := by
    intro j q inside used
    rw [memory, Function.update_of_ne (absent inside used)]
  have entry : ∀ j, after.entry j = rt.entry j := fun j =>
    entry_congr size (by rw [array]) fun q inside used => strings inside used
  have was : ∀ {j q r}, after.entry j = some (q, r) → rt.entry j = some (q, r) := by
    intro j q r there
    rw [← entry j, there]
  have entries := table.entries
  refine ⟨⟨⟨?_, fun here there => entries.apart (was here) (was there), ?_,
    fun here there => entries.distinct (was here) (was there),
    fun here => entries.untagged (was here)⟩, ?_, buckets ▸ table.power, ?_,
    size ▸ table.small⟩, entry⟩
  · intro j q inside used
    rw [size] at inside
    rw [array] at used
    obtain ⟨r, live⟩ := entries.live inside used
    exact ⟨r, (strings inside used).trans live⟩
  · intro j q r there
    obtain ⟨inside, used, _⟩ := entry_iff.mp (was there)
    rw [next q (absent inside used)]
    exact entries.typed (was there)
  · refine table.chains.congr (fun c => ?_) (fun j => ?_) fun j placed => ?_
    · cases c with
      | none => exact free
      | some b => rw [head, head, hash, buckets]
    · exact chain_congr size buckets (by rw [array]) fun q inside used => strings inside used
    · obtain ⟨place, placed⟩ := Option.ne_none_iff_exists'.mp placed
      exact link_congr (by rw [array]) fun q used => next q (absent (lt_of_chain placed) used)
  · have same : after.atoms = rt.atoms := by
      ext j
      simp only [mem_atoms, entry]
    rw [count, same, table.count]

/-! ## A reference more -/

/-- What one reference more or fewer leaves alone. -/
structure Shrunk (before after : Runtime) (p : Ptr) : Prop where
  memory : ∀ q, q ≠ p → after.memory q = before.memory q
  own : after.memory p = before.memory p ∨ after.memory p = none
  entry : ∀ {j e}, after.entry j = some e → before.entry j = some e
  some_free : before.atomFreeIndex ≠ 0 → after.atomFreeIndex ≠ 0
  atomSize : after.atomSize = before.atomSize

theorem Sound.setRefCount_bump (sound : rt.Sound held) (leads : rt.target x = some p)
    (live : rt.memory p = some s) (alive : 0 < rt.refCount p)
    (countable : ∀ i, x = .atom i → isConst i = false) :
    (rt.setRefCount p (rt.refCount p + 1)).Sound (x ::ₘ held) :=
  ⟨sound.table.setRefCount p _, sound.counted.bump leads live alive countable, sound.keyed⟩

/-- `JS_DupValue` on a string or a symbol. -/
theorem Sound.jsDupString_returns (sound : rt.Sound held) (live : rt.memory p = some s)
    (alive : 0 < rt.refCount p) : ∃ after, rt.jsDupString p = some after ∧
      after.Sound (.value p ::ₘ held) ∧ after.memory = rt.memory ∧
      (∀ j, after.entry j = rt.entry j) ∧ after.atomSize = rt.atomSize := by
  refine ⟨rt.setRefCount p (rt.refCount p + 1), by rw [jsDupString, live]; rfl, ?_, rfl,
    fun _ => rfl, rfl⟩
  refine sound.setRefCount_bump rfl live alive ?_
  intro i same
  cases same

/-- `JS_DupAtom` on an atom that has an entry. -/
theorem Sound.jsDupAtom_returns (sound : rt.Sound held) (found : rt.entry i = some (p, s)) :
    ∃ after, rt.jsDupAtom i = some after ∧ after.Sound (owned i + held) ∧
      after.memory = rt.memory ∧ (∀ j, after.entry j = rt.entry j) ∧
      after.atomSize = rt.atomSize := by
  rw [jsDupAtom, owned]
  by_cases const : isConst i = true
  · rw [if_pos const, if_pos const, zero_add]
    exact ⟨rt, rfl, sound, rfl, fun _ => rfl, rfl⟩
  · rw [if_neg const, if_neg const, found, Multiset.singleton_add]
    refine ⟨_, rfl, ?_, rfl, fun _ => rfl, rfl⟩
    refine sound.setRefCount_bump (target_entry found) (entry_iff.mp found).2.2
      (sound.counted.counted_entry found) ?_
    intro j same
    obtain rfl := Reference.atom.inj same
    exact Bool.eq_false_iff.mpr const

/-! ## A reference fewer -/

/-- Other references remain. -/
theorem Sound.lower (sound : rt.Sound (x ::ₘ rest)) (leads : rt.target x = some p)
    (more : 1 < rt.refCount p) : (rt.setRefCount p (rt.refCount p - 1)).Sound rest :=
  ⟨sound.table.setRefCount p _, sound.counted.lower leads more, sound.keyed⟩

section

variable (sound : rt.Sound (x ::ₘ rest)) (leads : rt.target x = some p)
  (live : rt.memory p = some s)
include sound leads live

/-- The last reference to a string that is no atom. -/
theorem Sound.free_plain (few : ¬ 1 < rt.refCount p) (plain : s.atomType = none) :
    ((rt.setRefCount p (rt.refCount p - 1)).store p none).Sound rest ∧
      Kept rest rt ((rt.setRefCount p (rt.refCount p - 1)).store p none) ∧
      Shrunk rt ((rt.setRefCount p (rt.refCount p - 1)).store p none) p := by
  obtain ⟨_, others⟩ := sound.counted.last leads live few
  obtain ⟨table, entry⟩ := (sound.table.setRefCount p (rt.refCount p - 1)).plain_change
    ((rt.setRefCount p (rt.refCount p - 1)).store p none) p none
    (fun inside used => sound.table.plain_string live plain inside used)
    rfl rfl rfl rfl rfl rfl rfl fun _ _ => rfl
  have same : ∀ j, ((rt.setRefCount p (rt.refCount p - 1)).store p none).entry j =
      rt.entry j := entry
  refine ⟨⟨table, ?_, fun found => sound.keyed (same _ ▸ found)⟩, ⟨fun found _ => ?_, ?_,
    fun {q r} weak => ?_⟩, ?_⟩
  · refine sound.counted.remove others leads rfl (fun r none_left => by cases none_left) ?_
      fun j => .inl (same j)
    exact fun q other => Function.update_of_ne other ..
  · exact (same _).trans found
  · intro q r there member
    have other : q ≠ p := by
      rintro rfl
      exact others _ member rfl
    exact ⟨r, (Function.update_of_ne other ..).trans there, rfl⟩
  · change Function.update rt.memory p none q = some r ↔ _
    by_cases same : q = p
    · rw [same, Function.update_self, live]
      constructor
      · intro nothing
        cases nothing
      · intro equal
        obtain rfl := Option.some.inj equal
        exact absurd plain weak.typed
    · rw [Function.update_of_ne same]
  · exact ⟨fun q other => Function.update_of_ne other .., .inr (Function.update_self ..),
      fun there => (same _).symm.trans there, id, rfl⟩

/-- The last reference to an atom. -/
theorem Sound.free_atom (few : ¬ 1 < rt.refCount p) (found : rt.entry i = some (p, s)) :
    ∃ after, (rt.setRefCount p (rt.refCount p - 1)).jsFreeAtomStruct p = some after ∧
      after.Sound rest ∧ Kept rest rt after ∧ Shrunk rt after p := by
  obtain ⟨unpinned, others⟩ := sound.counted.last leads live few
  have counted : isConst i = false := by
    by_contra const
    have inside := (sound.table.const_iff found).mp (Bool.not_eq_false _ ▸ const)
    have pinned := pinned_iff.mpr ⟨i, inside, s, found⟩
    rw [unpinned] at pinned
    cases pinned
  have nonzero : i ≠ 0 := by
    rintro rfl
    cases counted
  obtain ⟨after, returned, freed, table, index⟩ :=
    (sound.table.setRefCount p (rt.refCount p - 1)).jsFreeAtomStruct_returns found nonzero
  have entry : ∀ j, after.entry j = if j = i then none else rt.entry j := freed.entry
  have zero : after.refCount p = 0 := by
    have least := sound.counted.counted_entry found
    rw [freed.refCount]
    change Function.update rt.refCount p _ p = 0
    rw [Function.update_self]
    omega
  have elsewhere : ∀ j r, after.entry j ≠ some (p, r) := by
    intro j r there
    rw [entry] at there
    split at there
    · cases there
    · rename_i other
      exact other (sound.table.entries.apart there found)
  refine ⟨after, returned, ⟨table, ?_, fun {j q r} there => ?_⟩, ⟨?_, ?_, fun {q r} weak => ?_⟩,
    ?_⟩
  · refine sound.counted.remove others leads freed.memory (fun r left => ?_)
      (fun q other => ?_) fun j => ?_
    · split at left
      · rename_i weak
        exact ⟨Option.some.inj left ▸ weak, zero, elsewhere⟩
      · cases left
    · rw [freed.refCount]
      exact Function.update_of_ne other ..
    · by_cases same : j = i
      · exact .inr ⟨by rw [entry, if_pos same], s, same ▸ found⟩
      · exact .inl (by rw [entry, if_neg same])
  · rw [entry] at there
    split at there
    · cases there
    · exact sound.keyed there
  · intro j q r there kept
    rw [entry, if_neg, there]
    rintro rfl
    rw [found] at there
    obtain ⟨rfl, rfl⟩ := Prod.mk.inj (Option.some.inj there)
    rcases kept with const | member | member
    · rw [counted] at const
      cases const
    · exact others _ member (target_entry found)
    · exact others _ member rfl
  · intro q r there member
    have other : q ≠ p := by
      rintro rfl
      exact others _ member rfl
    exact ⟨r, by rw [freed.memory, Function.update_of_ne other]; exact there, rfl⟩
  · rw [freed.memory]
    change Function.update rt.memory p _ q = some r ↔ _
    by_cases same : q = p
    · rw [same, Function.update_self, live]
      constructor
      · intro left
        split at left
        · exact left
        · cases left
      · intro equal
        rw [if_pos (Option.some.inj equal ▸ weak), equal]
    · rw [Function.update_of_ne same]
  · refine ⟨fun q other => ?_, ?_, fun {j e} there => ?_, fun _ => index ▸ nonzero,
      freed.atomSize⟩
    · rw [freed.memory, Function.update_of_ne other]
      rfl
    · rw [freed.memory, Function.update_self, live]
      split
      · exact .inl rfl
      · exact .inr rfl
    · rw [entry] at there
      split at there
      · cases there
      · exact there

end

theorem Kept.of_setRefCount (p : Ptr) (count : Int) : Kept rest rt (rt.setRefCount p count) :=
  ⟨fun found _ => found, fun live _ => ⟨_, live, rfl⟩, fun _ => Iff.rfl⟩

theorem Shrunk.of_setRefCount (p : Ptr) (count : Int) : Shrunk rt (rt.setRefCount p count) p :=
  ⟨fun _ _ => rfl, .inl rfl, id, id, rfl⟩

/-- `js_free_string` gives a value back. -/
theorem Sound.jsFreeString_returns (sound : rt.Sound (.value p ::ₘ rest)) : ∃ after,
    rt.jsFreeString p = some after ∧ after.Sound rest ∧ Kept rest rt after ∧
      Shrunk rt after p := by
  obtain ⟨s, live⟩ := sound.counted.target_live (Multiset.mem_cons_self ..) rfl
  have count : (rt.setRefCount p (rt.refCount p - 1)).refCount p = rt.refCount p - 1 :=
    Function.update_self ..
  rw [jsFreeString, live, Option.bind_some]
  by_cases more : 1 < rt.refCount p
  · rw [if_pos (by rw [count]; omega)]
    exact ⟨_, rfl, sound.lower rfl more, .of_setRefCount .., .of_setRefCount ..⟩
  · rw [if_neg (by rw [count]; omega)]
    by_cases plain : s.atomType = none
    · rw [if_neg (by simp [plain])]
      exact ⟨_, rfl, sound.free_plain rfl live more plain⟩
    · obtain ⟨i, found⟩ := sound.counted.registered live
        (sound.counted.counted_target (Multiset.mem_cons_self ..) rfl) plain
      rw [if_pos (Option.isSome_iff_ne_none.mpr plain)]
      exact sound.free_atom rfl live more found

/-- `JS_FreeAtom` gives an atom back. -/
theorem Sound.jsFreeAtom_returns (sound : rt.Sound (owned i + rest))
    (found : rt.entry i = some (p, s)) : ∃ after,
    rt.jsFreeAtom i = some after ∧ after.Sound rest ∧ Kept rest rt after ∧ Shrunk rt after p := by
  rw [owned] at sound
  rw [jsFreeAtom]
  by_cases const : isConst i = true
  · rw [if_pos const, zero_add] at sound
    rw [if_pos const]
    exact ⟨rt, rfl, sound, .refl, fun _ _ => rfl, .inl rfl, id, id, rfl⟩
  · rw [if_neg const, Multiset.singleton_add] at sound
    have leads := target_entry found
    have live := (entry_iff.mp found).2.2
    have count : (rt.setRefCount p (rt.refCount p - 1)).refCount p = rt.refCount p - 1 :=
      Function.update_self ..
    rw [if_neg const, freeAtomEntry, found, Option.bind_some]
    by_cases more : 1 < rt.refCount p
    · rw [if_pos (by rw [count]; omega)]
      exact ⟨_, rfl, sound.lower leads more, .of_setRefCount .., .of_setRefCount ..⟩
    · rw [if_neg (by rw [count]; omega)]
      exact sound.free_atom leads live more found

/-! ## A new string -/

/-- `js_alloc_string` in memory that is not used. -/
theorem Sound.jsAllocString_sound (sound : rt.Sound held) (free : rt.memory p = none)
    (str : Characters) : (rt.jsAllocString p str).Sound (.value p ::ₘ held) ∧
      Kept held rt (rt.jsAllocString p str) ∧
      (∀ j, (rt.jsAllocString p str).entry j = rt.entry j) := by
  obtain ⟨table, entry⟩ := sound.table.plain_change (rt.jsAllocString p str) p
    (some { str with hash := 0, atomType := none }) (sound.table.free_string free)
    rfl rfl rfl rfl rfl rfl rfl fun q other => Function.update_of_ne other ..
  refine ⟨⟨table, sound.counted.alloc free rfl rfl rfl entry,
    fun found => sound.keyed (entry _ ▸ found)⟩, ⟨fun found _ => (entry _).trans found, ?_,
    fun {q s} weak => ?_⟩, entry⟩
  · intro q s there member
    have other : q ≠ p := by
      rintro rfl
      rw [free] at there
      cases there
    exact ⟨s, (Function.update_of_ne other ..).trans there, rfl⟩
  · change Function.update rt.memory p _ q = some s ↔ _
    by_cases same : q = p
    · rw [same, Function.update_self, free]
      constructor
      · intro new
        obtain rfl := Option.some.inj new
        exact absurd rfl weak.typed
      · intro nothing
        cases nothing
    · rw [Function.update_of_ne same]

theorem jsAllocString_memory (str : Characters) : (rt.jsAllocString p str).memory =
    Function.update rt.memory p (some { str with hash := 0, atomType := none }) := rfl

end GoQuickjs.Atoms.Runtime
