import GoQuickjs.AtomTable
import GoQuickjs.Library.IndexChains
import Mathlib.Data.Finset.Card

/-!
# The invariant of the table of atoms

Every used entry of `atom_array` points to a structure of its own. An atom that can be
found again is the only one of its type and text, and its hash is that of its text; the
hash of a symbol counts its weak references. The chains of the hash table and the
list of free entries are chains over one array, since an entry is linked either through
its string or, when it is free, through itself.
-/

namespace GoQuickjs.Atoms

open IndexChains

/-- The hash of an atom that can be found again. -/
def hashOf (atomType : AtomType) (units : List UInt16) : UInt32 :=
  hashString units atomType.code &&& jsAtomHashMask

/-- The types of atoms that can be found again. -/
def AtomType.IsInterned (t : AtomType) : Prop := t = .string ∨ t = .globalSymbol

/-- What the header of an atom with some index holds. -/
def JSAtomStruct.Typed (s : JSAtomStruct) (next i : Nat) : Prop :=
  (∃ t : AtomType, t.IsInterned ∧ s.atomType = some t ∧ s.hash = hashOf t s.units) ∨
    (s.atomType = some .symbol ∧ next = i)

/-- A symbol with weak references. -/
def JSAtomStruct.Weak (s : JSAtomStruct) : Prop :=
  s.atomType = some .symbol ∧ s.hash ≠ jsAtomHashMask ∧ s.hash ≠ 0

instance (s : JSAtomStruct) : Decidable s.Weak := instDecidableAnd

/-- A string that is a target is an atom. -/
theorem JSAtomStruct.Weak.typed {s : JSAtomStruct} (weak : s.Weak) : s.atomType ≠ none := by
  rw [weak.1]
  exact Option.some_ne_none _

/-- Who has a type and is no symbol can be found again. -/
theorem JSAtomStruct.Typed.some_type {s : JSAtomStruct} {next i : Nat} (typed : s.Typed next i) :
    s.atomType ≠ none := by
  rcases typed with ⟨t, _, type, _⟩ | ⟨type, _⟩ <;> simp [type]

namespace Runtime

variable {rt : Runtime} {p q : Ptr} {s r : JSAtomStruct} {i j : Nat}

/-- An entry is a place inside the array that holds a string in memory. -/
theorem entry_iff : rt.entry i = some (p, s) ↔
    i < rt.atomSize ∧ rt.atomArray i = .atom p ∧ rt.memory p = some s := by
  rw [entry]
  by_cases inside : i < rt.atomSize
  · rw [if_pos inside]
    cases rt.atomArray i with
    | free next => simp
    | atom q =>
      simp only [Option.map_eq_some_iff, Prod.mk.injEq, AtomEntry.atom.injEq, inside, true_and]
      constructor
      · rintro ⟨r, found, rfl, rfl⟩
        exact ⟨rfl, found⟩
      · rintro ⟨rfl, found⟩
        exact ⟨s, found, rfl, rfl⟩
  · simp [inside]

/-- The link of an entry, through its string or through itself. -/
def link (rt : Runtime) (i : Nat) : Nat :=
  match rt.atomArray i with
  | .free next => next
  | .atom p => rt.hashNext p

/-- The chain that an index is on: the list of free entries, or a bucket. -/
def chain (rt : Runtime) (i : Nat) : Option (Option Nat) :=
  if i < rt.atomSize then
    match rt.atomArray i with
    | .free _ => some none
    | .atom p => (rt.memory p).bind fun s =>
        if s.atomType = some .symbol then none else some (some (rt.slot s.hash))
  else none

/-- Where a chain begins. -/
def head (rt : Runtime) : Option Nat → Nat
  | none => rt.atomFreeIndex
  | some b => if b < rt.atomHashSize then rt.atomHash b else 0

/-- The used entries. -/
def atoms (rt : Runtime) : Finset Nat :=
  (Finset.range rt.atomSize).filter fun i => (rt.entry i).isSome

/-- What the entries hold. -/
structure Entries (rt : Runtime) : Prop where
  live : ∀ {i p}, i < rt.atomSize → rt.atomArray i = .atom p → ∃ s, rt.memory p = some s
  apart : ∀ {i j p s r}, rt.entry i = some (p, s) → rt.entry j = some (p, r) → i = j
  typed : ∀ {i p s}, rt.entry i = some (p, s) → s.Typed (rt.hashNext p) i
  distinct : ∀ {i j p q s r}, rt.entry i = some (p, s) → rt.entry j = some (q, r) →
    s.atomType ≠ some .symbol → s.atomType = r.atomType → s.units = r.units → i = j
  untagged : ∀ {i p s n}, rt.entry i = some (p, s) → s.atomType = some .string →
    isNumString s.units = some n → jsAtomMaxInt < n

/-- The invariant of the table. -/
structure Table (rt : Runtime) : Prop where
  entries : rt.Entries
  chains : Chains rt.link rt.head rt.chain
  power : ∃ k, rt.atomHashSize = 2 ^ k
  count : rt.atomCount = rt.atoms.card
  small : rt.atomSize ≤ jsAtomMax

/-- The atoms are the places with an entry. -/
theorem mem_atoms : i ∈ rt.atoms ↔ ∃ p s, rt.entry i = some (p, s) := by
  rw [atoms, Finset.mem_filter, Finset.mem_range, Option.isSome_iff_exists]
  constructor
  · rintro ⟨_, ⟨p, s⟩, found⟩
    exact ⟨p, s, found⟩
  · rintro ⟨p, s, found⟩
    exact ⟨(entry_iff.mp found).1, (p, s), found⟩

/-- An entry links to the next one through its string. -/
theorem link_entry (found : rt.entry i = some (p, s)) : rt.link i = rt.hashNext p := by
  rw [link, (entry_iff.mp found).2.1]

/-- A link depends on the place in the array and on the link of the string there. -/
theorem link_congr {after : Runtime} (array : after.atomArray i = rt.atomArray i)
    (linked : ∀ p, rt.atomArray i = .atom p → after.hashNext p = rt.hashNext p) :
    after.link i = rt.link i := by
  rw [link, link, array]
  cases used : rt.atomArray i with
  | free next => rfl
  | atom p => exact linked p used

/-- An entry belongs to the chain of its hash, unless it is an unregistered symbol. -/
theorem chain_entry (found : rt.entry i = some (p, s)) : rt.chain i =
    if s.atomType = some .symbol then none else some (some (rt.slot s.hash)) := by
  obtain ⟨inside, used, here⟩ := entry_iff.mp found
  rw [chain, if_pos inside, used]
  simp only [here, Option.bind_some]

/-- What is on the list of free entries. -/
theorem chain_free_iff : rt.chain i = some none ↔
    i < rt.atomSize ∧ ∃ next, rt.atomArray i = .free next := by
  rw [chain]
  by_cases inside : i < rt.atomSize
  · rw [if_pos inside]
    cases rt.atomArray i with
    | free next => simp [inside]
    | atom p =>
      constructor
      · intro placed
        obtain ⟨s, _, placed⟩ := Option.bind_eq_some_iff.mp placed
        split at placed <;> cases placed
      · rintro ⟨_, next, used⟩
        cases used
  · simp [inside]

/-- What is in a bucket. -/
theorem chain_bucket_iff {b : Nat} : rt.chain i = some (some b) ↔
    ∃ p s, rt.entry i = some (p, s) ∧ s.atomType ≠ some .symbol ∧ rt.slot s.hash = b := by
  constructor
  · intro placed
    rw [chain] at placed
    split at placed
    · rename_i inside
      cases used : rt.atomArray i with
      | free next =>
        rw [used] at placed
        cases placed
      | atom p =>
        rw [used] at placed
        obtain ⟨s, here, placed⟩ := Option.bind_eq_some_iff.mp placed
        split at placed
        · cases placed
        · rename_i interned
          exact ⟨p, s, entry_iff.mpr ⟨inside, used, here⟩, interned,
            Option.some.inj (Option.some.inj placed)⟩
    · cases placed
  · rintro ⟨p, s, found, interned, rfl⟩
    rw [chain_entry found, if_neg interned]

/-- What the entries hold does not depend on the chains. -/
theorem Entries.congr {after : Runtime} (entries : rt.Entries)
    (entry : ∀ i, after.entry i = rt.entry i)
    (live : ∀ {i p}, i < after.atomSize → after.atomArray i = .atom p →
      ∃ s, after.memory p = some s)
    (symbols : ∀ {i p s}, rt.entry i = some (p, s) → s.atomType = some .symbol →
      after.hashNext p = rt.hashNext p) : after.Entries where
  live := live
  apart here there := entries.apart (entry _ ▸ here) (entry _ ▸ there)
  typed := by
    intro i p s found
    rw [entry] at found
    rcases entries.typed found with interned | ⟨symbol, index⟩
    · exact .inl interned
    · exact .inr ⟨symbol, (symbols found symbol).trans index⟩
  distinct here there := entries.distinct (entry _ ▸ here) (entry _ ▸ there)
  untagged found := entries.untagged (entry _ ▸ found)

/-- An entry depends on its place in the array and on the string there. -/
theorem entry_congr {after : Runtime} (size : after.atomSize = rt.atomSize)
    (array : after.atomArray i = rt.atomArray i)
    (memory : ∀ p, i < rt.atomSize → rt.atomArray i = .atom p → after.memory p = rt.memory p) :
    after.entry i = rt.entry i := by
  rw [entry, entry, size, array]
  split
  · rename_i inside
    cases used : rt.atomArray i with
    | free next => rfl
    | atom p => simp only [memory p inside used]
  · rfl

/-- The chain of an index depends on the same, and on the size of the hash table. -/
theorem chain_congr {after : Runtime} (size : after.atomSize = rt.atomSize)
    (buckets : after.atomHashSize = rt.atomHashSize)
    (array : after.atomArray i = rt.atomArray i)
    (memory : ∀ p, i < rt.atomSize → rt.atomArray i = .atom p → after.memory p = rt.memory p) :
    after.chain i = rt.chain i := by
  have slots : ∀ h, after.slot h = rt.slot h := fun h => by rw [slot, slot, buckets]
  rw [chain, chain, size, array]
  split
  · rename_i inside
    cases used : rt.atomArray i with
    | free next => rfl
    | atom p => simp only [memory p inside used, slots]
  · rfl

/-- A hash falls into one of the buckets. -/
theorem slot_lt (positive : 0 < rt.atomHashSize) (h : UInt32) : rt.slot h < rt.atomHashSize := by
  have below : rt.slot h ≤ rt.atomHashSize - 1 := Nat.and_le_right
  omega

namespace Table

variable (table : rt.Table)
include table

/-- There is a bucket. -/
theorem hashSize_pos : 0 < rt.atomHashSize := by
  obtain ⟨k, power⟩ := table.power
  rw [power]
  exact Nat.two_pow_pos k

/-- No other entry points to the string of an atom. -/
theorem other_string (found : rt.entry i = some (p, s)) (other : j ≠ i) (inside : j < rt.atomSize)
    (used : rt.atomArray j = .atom q) : q ≠ p := by
  rintro rfl
  obtain ⟨r, here⟩ := table.entries.live inside used
  exact other (table.entries.apart (entry_iff.mpr ⟨inside, used, here⟩) found)

/-- A string that is no atom has no entry. -/
theorem plain_string (here : rt.memory p = some s) (plain : s.atomType = none)
    (inside : j < rt.atomSize) (used : rt.atomArray j = .atom q) : q ≠ p := by
  rintro rfl
  exact (table.entries.typed (entry_iff.mpr ⟨inside, used, here⟩)).some_type plain

/-- Entry 0 is a symbol. -/
theorem null_symbol (found : rt.entry 0 = some (p, s)) : s.atomType = some .symbol := by
  by_contra interned
  have placed := chain_bucket_iff.mpr ⟨p, s, found, interned, rfl⟩
  exact table.chains.place_ne_zero placed rfl

/-- A table that is not empty has an entry 0. -/
theorem null_entry (some_there : 0 < rt.atomSize) : ∃ found, rt.entry 0 = some found := by
  cases array : rt.atomArray 0 with
  | free next =>
    have placed := chain_free_iff.mpr ⟨some_there, next, array⟩
    exact absurd rfl (table.chains.place_ne_zero placed)
  | atom q =>
    obtain ⟨s, here⟩ := table.entries.live some_there array
    exact ⟨(q, s), entry_iff.mpr ⟨some_there, array, here⟩⟩

end Table

/-! ## Following a chain -/

/-- Following a chain ends at the first string that is looked for, or at the end. -/
theorem follow_returns (stop : Ptr → JSAtomStruct → Bool) {start fuel : Nat} {list : List Nat}
    (chain : Chain rt.link start list) (used : ∀ i ∈ list, ∃ p s, rt.entry i = some (p, s))
    (enough : list.length < fuel) : ∃ i, rt.follow stop fuel start = some i ∧
      ((i = 0 ∧ ∀ j ∈ list, ∀ p s, rt.entry j = some (p, s) → stop p s = false) ∨
        (i ∈ list ∧ ∃ p s, rt.entry i = some (p, s) ∧ stop p s = true)) := by
  induction chain generalizing fuel with
  | nil =>
    obtain ⟨fuel, rfl⟩ := Nat.exists_eq_succ_of_ne_zero (Nat.ne_of_gt enough)
    exact ⟨0, by rw [follow, if_pos rfl], .inl ⟨rfl, fun j member => by cases member⟩⟩
  | @cons first rest nonzero tail inductionHypothesis =>
    obtain ⟨fuel, rfl⟩ := Nat.exists_eq_succ_of_ne_zero (Nat.ne_of_gt (Nat.zero_lt_of_lt enough))
    obtain ⟨p, s, found⟩ := used first (List.mem_cons_self ..)
    rw [follow, if_neg nonzero, found, Option.bind_some]
    by_cases stops : stop p s = true
    · rw [if_pos stops]
      exact ⟨first, rfl, .inr ⟨List.mem_cons_self .., p, s, found, stops⟩⟩
    · rw [if_neg stops, ← link_entry found]
      obtain ⟨i, followed, ends⟩ := inductionHypothesis
        (fun i member => used i (List.mem_cons_of_mem _ member))
        (Nat.lt_of_succ_lt_succ enough)
      refine ⟨i, followed, ?_⟩
      rcases ends with ⟨rfl, passed⟩ | ⟨member, here⟩
      · refine .inl ⟨rfl, fun j member q r there => ?_⟩
        rcases List.mem_cons.mp member with rfl | later
        · rw [found] at there
          obtain ⟨rfl, rfl⟩ := Prod.mk.inj (Option.some.inj there)
          exact Bool.eq_false_iff.mpr stops
        · exact passed j later q r there
      · exact .inr ⟨List.mem_cons_of_mem _ member, here⟩

/-- The string before another one of its chain is found. -/
theorem predecessor_returns (entries : rt.Entries) {start fuel : Nat} {list : List Nat}
    (chain : Chain rt.link start list) (used : ∀ i ∈ list, ∃ p s, rt.entry i = some (p, s))
    (enough : list.length < fuel) (member : i ∈ list) (later : start ≠ i)
    (found : rt.entry i = some (p, s)) : ∃ j q r, rt.predecessor p fuel start = some (q, i) ∧
      rt.entry j = some (q, r) ∧ j ∈ list ∧ rt.link j = i := by
  induction chain generalizing fuel with
  | nil => cases member
  | @cons first rest nonzero tail inductionHypothesis =>
    obtain ⟨fuel, rfl⟩ := Nat.exists_eq_succ_of_ne_zero (Nat.ne_of_gt (Nat.zero_lt_of_lt enough))
    have behind : i ∈ rest := (List.mem_cons.mp member).resolve_left (Ne.symm later)
    obtain ⟨q, r, before⟩ := used first (List.mem_cons_self ..)
    have second : rt.link first ∈ rest := by
      refine tail.start_mem fun zero => ?_
      rw [tail.eq_nil zero] at behind
      cases behind
    obtain ⟨p', s', next⟩ := used (rt.link first) (List.mem_cons_of_mem _ second)
    rw [predecessor, if_neg nonzero, before, Option.bind_some, ← link_entry before, next,
      Option.bind_some]
    by_cases same : rt.link first = i
    · rw [same, found] at next
      obtain ⟨rfl, rfl⟩ := Prod.mk.inj (Option.some.inj next)
      rw [if_pos rfl, same]
      exact ⟨first, q, r, rfl, before, List.mem_cons_self .., same⟩
    · have other : p' ≠ p := by
        rintro rfl
        exact same (entries.apart next found)
      rw [if_neg other]
      obtain ⟨j, q, r, returned, there, inside, linked⟩ := inductionHypothesis
        (fun i member => used i (List.mem_cons_of_mem _ member))
        (Nat.lt_of_succ_lt_succ enough) behind same
      exact ⟨j, q, r, returned, there, List.mem_cons_of_mem _ inside, linked⟩

namespace Table

variable (table : rt.Table)
include table

/-- The chain of a bucket, all of whose entries are used. -/
theorem bucket {b : Nat} (inside : b < rt.atomHashSize) : ∃ list,
    Chain rt.link (rt.atomHash b) list ∧ (∀ i, i ∈ list ↔ rt.chain i = some (some b)) ∧
      (∀ i ∈ list, ∃ p s, rt.entry i = some (p, s)) ∧ list.length < rt.atomSize + 1 := by
  obtain ⟨list, chain, members⟩ := table.chains (some b)
  rw [head, if_pos inside] at chain
  have used : ∀ i ∈ list, ∃ p s, rt.entry i = some (p, s) := by
    intro i member
    obtain ⟨p, s, found, _⟩ := chain_bucket_iff.mp ((members i).mp member)
    exact ⟨p, s, found⟩
  refine ⟨list, chain, members, used, chain.length_lt (fun i member => ?_) (Nat.succ_pos _)⟩
  obtain ⟨p, s, found⟩ := used i member
  exact Nat.lt_succ_of_lt (entry_iff.mp found).1

/-- The search along the bucket of a hash. -/
theorem follow_bucket (stop : Ptr → JSAtomStruct → Bool) (h : UInt32) : ∃ i,
    rt.follow stop (rt.atomSize + 1) (rt.atomHash (rt.slot h)) = some i ∧
      ((i = 0 ∧ ∀ j p s, rt.entry j = some (p, s) → s.atomType ≠ some .symbol →
          rt.slot s.hash = rt.slot h → stop p s = false) ∨
        (i ≠ 0 ∧ ∃ p s, rt.entry i = some (p, s) ∧ s.atomType ≠ some .symbol ∧
          stop p s = true)) := by
  obtain ⟨list, chain, members, used, enough⟩ := table.bucket (slot_lt table.hashSize_pos h)
  obtain ⟨i, followed, ends⟩ := follow_returns stop chain used enough
  refine ⟨i, followed, ?_⟩
  rcases ends with ⟨rfl, passed⟩ | ⟨member, p, s, found, stops⟩
  · refine .inl ⟨rfl, fun j p s found interned same => passed j ?_ p s found⟩
    rw [members, chain_entry found, if_neg interned, same]
  · have placed := (members i).mp member
    refine .inr ⟨table.chains.place_ne_zero placed, p, s, found, ?_, stops⟩
    intro symbol
    rw [chain_entry found, if_pos symbol] at placed
    cases placed

/-- `js_get_atom_index` of an atom is its index. -/
theorem jsGetAtomIndex_eq (found : rt.entry i = some (p, s)) : rt.jsGetAtomIndex p = some i := by
  rw [jsGetAtomIndex, (entry_iff.mp found).2.2, Option.bind_some]
  rcases table.entries.typed found with ⟨t, interned, type, _⟩ | ⟨type, index⟩
  · have other : s.atomType ≠ some .symbol := by
      rw [type]
      rcases interned with rfl | rfl <;> simp
    rw [if_neg other]
    obtain ⟨j, followed, ends⟩ := table.follow_bucket (fun p1 _ => p1 = p) s.hash
    rw [followed, Option.bind_some]
    rcases ends with ⟨rfl, passed⟩ | ⟨nonzero, q, r, there, _, same⟩
    · have stops := passed i p s found other rfl
      simp at stops
    · obtain rfl := of_decide_eq_true same
      rw [if_neg nonzero, table.entries.apart there found]
  · rw [if_pos type, index]

/-- The search of `__JS_NewAtom` finds the atom of a type and text if there is one. -/
theorem search (t : AtomType) (interned : t.IsInterned) (units : List UInt16) : ∃ i,
    rt.follow (isAtom (hashOf t units) t units) (rt.atomSize + 1)
        (rt.atomHash (rt.slot (hashOf t units))) = some i ∧
      ((i = 0 ∧ ∀ j p s, rt.entry j = some (p, s) → s.atomType = some t → s.units ≠ units) ∨
        (i ≠ 0 ∧ ∃ p s, rt.entry i = some (p, s) ∧ s.atomType = some t ∧ s.units = units)) := by
  obtain ⟨i, followed, ends⟩ := table.follow_bucket (isAtom (hashOf t units) t units)
    (hashOf t units)
  refine ⟨i, followed, ?_⟩
  rcases ends with ⟨rfl, passed⟩ | ⟨nonzero, p, s, found, _, stops⟩
  · refine .inl ⟨rfl, ?_⟩
    rintro j p s found type rfl
    have other : s.atomType ≠ some .symbol := by
      rw [type]
      rcases interned with rfl | rfl <;> simp
    rcases table.entries.typed found with ⟨u, _, same, hash⟩ | ⟨symbol, _⟩
    · obtain rfl : u = t := Option.some.inj (same.symm.trans type)
      have missed := passed j p s found other (by rw [hash])
      simp [isAtom, hash, type] at missed
    · exact other symbol
  · simp only [isAtom, Bool.and_eq_true, decide_eq_true_eq] at stops
    exact .inr ⟨nonzero, p, s, found, stops.1.2, stops.2⟩

end Table

end Runtime

end GoQuickjs.Atoms
