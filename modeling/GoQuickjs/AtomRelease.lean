import GoQuickjs.AtomRehash

/-!
# Atoms that are given back

`JS_FreeAtomStruct` takes a string out of its bucket, puts its index on the list of free
entries, and frees the string unless it is a symbol with weak references. Every other
atom keeps its index and its string.
-/

namespace GoQuickjs.Atoms.Runtime

open IndexChains

variable {rt : Runtime} {p q : Ptr} {s r : JSAtomStruct} {i j : Nat}

/-- A string is taken out of its chain: the first of a bucket at the head, every other one
behind the one before it. A symbol is on no chain. -/
theorem Table.unlink_returns (table : rt.Table) (found : rt.entry i = some (p, s)) : ∃ after,
    rt.unlink p s = some (after, i) ∧ Relinked rt after ∧
      after.atomHashSize = rt.atomHashSize ∧
      Chains after.link after.head fun j => if j = i then none else rt.chain j := by
  by_cases symbol : s.atomType = some .symbol
  · have index : rt.hashNext p = i := by
      rcases table.entries.typed found with ⟨t, interned, type, _⟩ | ⟨_, index⟩
      · rw [type] at symbol
        rcases interned with rfl | rfl <;> cases symbol
      · exact index
    refine ⟨rt, by rw [unlink, if_pos symbol, index], .refl, rfl, ?_⟩
    refine table.chains.congr (fun _ => rfl) (fun j => ?_) fun _ _ => rfl
    by_cases same : j = i
    · rw [if_pos same, same, chain_entry found, if_pos symbol]
    · rw [if_neg same]
  · have placed : rt.chain i = some (some (rt.slot s.hash)) := by
      rw [chain_entry found, if_neg symbol]
    have used := table.chains.place_ne_zero placed
    have inside := slot_lt table.hashSize_pos s.hash
    obtain ⟨list, chain, members, entries, enough⟩ := table.bucket inside
    have member := (members i).mpr placed
    have start : rt.atomHash (rt.slot s.hash) ≠ 0 := by
      intro zero
      rw [chain.eq_nil zero] at member
      cases member
    obtain ⟨q, r, first⟩ := entries _ (chain.start_mem start)
    rw [unlink, if_neg symbol]
    simp only [first, Option.bind_some]
    by_cases same : rt.atomHash (rt.slot s.hash) = i
    · rw [same, found] at first
      obtain ⟨rfl, rfl⟩ := Prod.mk.inj (Option.some.inj first)
      rw [if_pos rfl, same]
      refine ⟨_, rfl, ⟨rfl, rfl, rfl, rfl, rfl, rfl, fun _ _ => rfl⟩, rfl, ?_⟩
      refine table.chains.pop (b := some (rt.slot s.hash)) ?_ used ?_ (fun _ => rfl)
        fun _ _ _ => rfl
      · rw [head, if_pos inside]
        exact same
      · intro c
        cases c with
        | none => rfl
        | some b =>
          change (if b < rt.atomHashSize then
            Function.update rt.atomHash (rt.slot s.hash) (rt.hashNext p) b else 0) = _
          rw [link_entry found, Function.update_apply, head]
          by_cases equal : b = rt.slot s.hash
          · simp [equal, inside]
          · simp [equal]
    · have other : q ≠ p := by
        rintro rfl
        exact same (table.entries.apart first found)
      rw [if_neg other]
      obtain ⟨j, q, r, returned, before, there, behind⟩ :=
        predecessor_returns table.entries chain entries enough member same found
      rw [returned]
      have here := (members j).mp there
      have interned : r.atomType ≠ some .symbol := by
        intro type
        rw [chain_entry before, if_pos type] at here
        cases here
      refine ⟨_, rfl, relinked_setNext table.entries before interned _, rfl, ?_⟩
      have links : ∀ k < rt.atomSize, (rt.setNext q (rt.hashNext p)).link k =
          if k = j then rt.hashNext p else rt.link k := fun k inside =>
        link_setNext table.entries before _ inside
      refine table.chains.cut here behind used (fun _ => rfl) ?_ (fun _ => rfl) ?_
      · rw [links j (lt_of_chain here), if_pos rfl, link_entry found]
      · intro k _ different placed
        obtain ⟨place, there⟩ := Option.ne_none_iff_exists'.mp placed
        rw [links k (lt_of_chain there), if_neg different]

/-- What is left of the table when an atom is freed. -/
structure Freed (before after : Runtime) (p : Ptr) (s : JSAtomStruct) (i : Nat) : Prop where
  memory : after.memory = Function.update before.memory p (if s.Weak then some s else none)
  refCount : after.refCount = before.refCount
  atomSize : after.atomSize = before.atomSize
  entry : ∀ j, after.entry j = if j = i then none else before.entry j

/-- The entries of the other atoms hold what they held. -/
theorem Freed.entries {after : Runtime} (freed : Freed rt after p s i) (entries : rt.Entries)
    (found : rt.entry i = some (p, s))
    (array : ∀ j, j ≠ i → after.atomArray j = rt.atomArray j)
    (free : ∀ q, after.atomArray i ≠ .atom q)
    (symbols : ∀ {j q r}, rt.entry j = some (q, r) → r.atomType = some .symbol →
      after.hashNext q = rt.hashNext q) : after.Entries := by
  have was : ∀ {j q r}, after.entry j = some (q, r) → rt.entry j = some (q, r) := by
    intro j q r there
    rw [freed.entry] at there
    split at there
    · cases there
    · exact there
  refine ⟨?_, fun here there => entries.apart (was here) (was there), ?_,
    fun here there => entries.distinct (was here) (was there),
    fun here => entries.untagged (was here)⟩
  · intro j q inside used
    rw [freed.atomSize] at inside
    have other : j ≠ i := by
      rintro rfl
      exact free q used
    rw [array j other] at used
    obtain ⟨r, here⟩ := entries.live inside used
    refine ⟨r, ?_⟩
    rw [freed.memory, Function.update_of_ne, here]
    rintro rfl
    exact other (entries.apart (entry_iff.mpr ⟨inside, used, here⟩) found)
  · intro j q r there
    rcases entries.typed (was there) with interned | ⟨symbol, index⟩
    · exact .inl interned
    · exact .inr ⟨symbol, (symbols (was there) symbol).trans index⟩

/-- `JS_FreeAtomStruct` frees an atom, and leaves the others alone. -/
theorem Table.jsFreeAtomStruct_returns (table : rt.Table) (found : rt.entry i = some (p, s))
    (nonzero : i ≠ 0) : ∃ after, rt.jsFreeAtomStruct p = some after ∧ Freed rt after p s i ∧
      after.Table ∧ after.atomFreeIndex = i := by
  obtain ⟨inside, used, here⟩ := entry_iff.mp found
  obtain ⟨middle, unlinked, relinked, size, chains⟩ := table.unlink_returns found
  have member : i ∈ rt.atoms := mem_atoms.mpr ⟨p, s, found⟩
  have left : 0 ≤ middle.atomCount - 1 := by
    have some_atom := Finset.card_pos.mpr ⟨i, member⟩
    rw [relinked.atomCount, table.count]
    omega
  let string := if s.Weak then some s else none
  let after : Runtime := { (middle.setFree i).store p string with
    atomCount := middle.atomCount - 1 }
  have kept : (if s.atomType = some .symbol ∧ s.hash ≠ jsAtomHashMask ∧ s.hash ≠ 0 then
      middle.setFree i else (middle.setFree i).store p none) =
      (middle.setFree i).store p string := by
    split
    · rename_i weak
      refine congrArg (fun memory => { middle.setFree i with memory }) ?_
      rw [show string = some s from if_pos (c := s.Weak) weak]
      exact (Function.update_eq_self_iff.mpr ((congrFun relinked.memory p).trans here).symm).symm
    · rename_i strong
      rw [show string = none from if_neg (c := s.Weak) strong]
  have returned : rt.jsFreeAtomStruct p = some after := by
    rw [jsFreeAtomStruct, here, Option.bind_some, unlinked, Option.bind_some,
      if_pos (relinked.atomSize.symm ▸ inside)]
    simp only [kept]
    exact if_pos left
  have array : ∀ j, j ≠ i → after.atomArray j = rt.atomArray j := by
    intro j other
    change Function.update middle.atomArray i _ j = _
    rw [Function.update_of_ne other, relinked.atomArray]
  have free : after.atomArray i = .free rt.atomFreeIndex := by
    change Function.update middle.atomArray i _ i = _
    rw [Function.update_self, relinked.atomFreeIndex]
  have memory : after.memory = Function.update rt.memory p string := by
    change Function.update middle.memory p string = _
    rw [relinked.memory]
  have strings : ∀ j, j ≠ i → ∀ q, j < rt.atomSize → rt.atomArray j = .atom q →
      after.memory q = rt.memory q := by
    intro j other q below there
    rw [memory, Function.update_of_ne (table.other_string found other below there)]
  have atomSize : after.atomSize = rt.atomSize := relinked.atomSize
  have entry : ∀ j, after.entry j = if j = i then none else rt.entry j := by
    intro j
    by_cases same : j = i
    · rw [if_pos same, same, Runtime.entry, atomSize, if_pos inside, free]
    · rw [if_neg same]
      exact entry_congr atomSize (array j same) (strings j same)
  have freed : Freed rt after p s i := ⟨memory, relinked.refCount, relinked.atomSize, entry⟩
  have places : ∀ j, after.chain j = if j = i then some none else
      if j = i then none else rt.chain j := by
    intro j
    by_cases same : j = i
    · rw [if_pos same, same, chain_free_iff, atomSize]
      exact ⟨inside, _, free⟩
    · rw [if_neg same, if_neg same]
      exact chain_congr atomSize size (array j same) (strings j same)
  refine ⟨after, returned, freed, ⟨?_, ?_, ?_, ?_, atomSize ▸ table.small⟩, rfl⟩
  · refine freed.entries table.entries found array (fun q there => ?_) relinked.symbols
    rw [free] at there
    cases there
  · refine chains.push (b := none) nonzero (if_pos rfl) ?_ ?_ places ?_
    · intro c
      cases c <;> rfl
    · rw [link, free, head, relinked.atomFreeIndex]
    · intro j placed
      have other : j ≠ i := by
        rintro rfl
        exact placed (if_pos rfl)
      rw [link, link, array j other, relinked.atomArray]
      rfl
  · obtain ⟨k, power⟩ := table.power
    exact ⟨k, size.trans power⟩
  · have fewer : after.atoms = rt.atoms.erase i := by
      ext j
      rw [mem_atoms, Finset.mem_erase, mem_atoms]
      simp only [entry]
      by_cases same : j = i <;> simp [same]
    have count : after.atomCount = rt.atomCount - 1 := by
      change middle.atomCount - 1 = _
      rw [relinked.atomCount]
    have some_atom := Finset.card_pos.mpr ⟨i, member⟩
    rw [count, fewer, Finset.card_erase_of_mem member, table.count]
    omega

end GoQuickjs.Atoms.Runtime
