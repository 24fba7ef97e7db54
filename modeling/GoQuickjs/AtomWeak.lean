import GoQuickjs.AtomTexts

/-!
# Weak references to symbols, and strings that grow

A weak reference to a symbol is counted in its hash. When the last other reference is
gone the symbol leaves the table, but its memory stays until the last weak reference is
given back. A string that one reference alone leads to may grow in place; as long as it
is no atom, the table does not depend on its characters.
-/

namespace GoQuickjs.Atoms.Runtime

variable {rt after : Runtime} {p q : Ptr} {s r : JSAtomStruct} {i j : Nat} {h : UInt32}
  {fits : Bool} {held rest : Multiset Reference} {weak : Multiset Ptr}

/-- The weak references to each symbol are counted in its hash, and lead to symbols. -/
structure Weakly (rt : Runtime) (weak : Multiset Ptr) : Prop where
  counts : ∀ {p s}, rt.memory p = some s → jsWeakrefIsTarget s = true →
    s.hash.toNat = weak.count p ∧ s.hash < jsAtomHashMask
  target : ∀ {p}, p ∈ weak → ∃ s, rt.memory p = some s ∧ jsWeakrefIsTarget s = true

/-- Of the atoms only symbols that are not registered may be targets of weak references. -/
theorem jsWeakrefIsTarget_iff :
    jsWeakrefIsTarget s = true ↔ s.atomType = some .symbol ∧ s.hash ≠ jsAtomHashMask := by
  rw [jsWeakrefIsTarget, Bool.and_eq_true, decide_eq_true_eq, decide_eq_true_eq]

/-- A target with weak references is a symbol that they keep in memory. -/
theorem weak_iff : s.Weak ↔ jsWeakrefIsTarget s = true ∧ s.hash ≠ 0 := by
  rw [jsWeakrefIsTarget_iff, JSAtomStruct.Weak, and_assoc]

namespace Weakly

/-- Who is weakly referred to is a symbol with weak references. -/
theorem weak_of_mem (weakly : rt.Weakly weak) (member : p ∈ weak) :
    ∃ s, rt.memory p = some s ∧ s.Weak := by
  obtain ⟨s, live, target⟩ := weakly.target member
  refine ⟨s, live, weak_iff.mpr ⟨target, fun zero => ?_⟩⟩
  have count := (weakly.counts live target).1
  have some_left := Multiset.count_pos.mpr member
  rw [zero] at count
  exact absurd count.symm some_left.ne'

/-- A string marked as a target is in the list of targets. -/
theorem mem_of_weak (weakly : rt.Weakly weak) (live : rt.memory p = some s) (is_weak : s.Weak) :
    p ∈ weak := by
  obtain ⟨target, nonzero⟩ := weak_iff.mp is_weak
  rw [← Multiset.count_pos, ← (weakly.counts live target).1, Nat.pos_iff_ne_zero]
  exact fun zero => nonzero (UInt32.toNat_inj.mp zero)

/-- Only the symbols with weak references matter. -/
theorem congr (weakly : rt.Weakly weak)
    (same : ∀ {p s}, s.Weak → (after.memory p = some s ↔ rt.memory p = some s)) :
    after.Weakly weak := by
  have kept : ∀ {p}, p ∈ weak → ∃ s, after.memory p = some s ∧ s.Weak := by
    intro p member
    obtain ⟨s, live, is_weak⟩ := weakly.weak_of_mem member
    exact ⟨s, (same is_weak).mpr live, is_weak⟩
  refine ⟨fun {p s} live target => ?_, fun member => ?_⟩
  · by_cases zero : s.hash = 0
    · have absent : p ∉ weak := by
        intro member
        obtain ⟨r, there, is_weak⟩ := kept member
        obtain rfl := Option.some.inj (live.symm.trans there)
        exact is_weak.2.2 zero
      rw [zero, Multiset.count_eq_zero.mpr absent]
      exact ⟨rfl, by decide⟩
    · exact weakly.counts ((same (weak_iff.mpr ⟨target, zero⟩)).mp live) target
  · obtain ⟨s, live, is_weak⟩ := kept member
    exact ⟨s, live, (weak_iff.mp is_weak).1⟩

/-- What keeps the symbols with weak references keeps their counts. -/
theorem kept (weakly : rt.Weakly weak) (kept : Kept rest rt after) : after.Weakly weak :=
  weakly.congr kept.weak

end Weakly

/-! ## A symbol with another hash -/

/-- The strings are the same up to their hashes. -/
structure Alike (s r : JSAtomStruct) : Prop where
  characters : r.toCharacters = s.toCharacters
  atomType : r.atomType = s.atomType

/-- A string is like itself. -/
theorem Alike.refl (s : JSAtomStruct) : Alike s s := ⟨rfl, rfl⟩

/-- And like whatever a string like it is like. -/
theorem Alike.trans {s r u : JSAtomStruct} (first : Alike s r) (second : Alike r u) : Alike s u :=
  ⟨second.characters.trans first.characters, second.atomType.trans first.atomType⟩

section

variable (live : rt.memory p = some s)
include live

/-- The entries of the table with another hash of a symbol, seen from before. -/
theorem entry_rehashed (found : rt.entry j = some (q, r)) : ∃ r',
    (rt.store p (some { s with hash := h })).entry j = some (q, r') ∧ Alike r r' ∧
      (q ≠ p → r' = r) ∧ (q = p → r' = { s with hash := h }) := by
  obtain ⟨inside, used, here⟩ := entry_iff.mp found
  by_cases same : q = p
  · subst same
    obtain rfl := Option.some.inj (live.symm.trans here)
    exact ⟨_, entry_iff.mpr ⟨inside, used, Function.update_self ..⟩, ⟨rfl, rfl⟩,
      fun other => absurd rfl other, fun _ => rfl⟩
  · exact ⟨r, entry_iff.mpr ⟨inside, used, (Function.update_of_ne same ..).trans here⟩, .refl r,
      fun _ => rfl, fun equal => absurd equal same⟩

/-- The same entries, seen from afterwards. -/
theorem entry_of_rehashed
    (found : (rt.store p (some { s with hash := h })).entry j = some (q, r)) :
    ∃ r', rt.entry j = some (q, r') ∧ Alike r' r ∧ (r.atomType ≠ s.atomType → r = r') := by
  obtain ⟨inside, used, here⟩ := entry_iff.mp found
  by_cases same : q = p
  · subst same
    have now : (rt.store q (some { s with hash := h })).memory q = some { s with hash := h } :=
      Function.update_self ..
    obtain rfl := Option.some.inj (now.symm.trans here)
    exact ⟨s, entry_iff.mpr ⟨inside, used, live⟩, ⟨rfl, rfl⟩, fun other => absurd rfl other⟩
  · have before : rt.memory q = some r := (Function.update_of_ne same ..).symm.trans here
    exact ⟨r, entry_iff.mpr ⟨inside, used, before⟩, .refl r, fun _ => rfl⟩

/-- The same entries are on the same chains. -/
theorem chain_rehashed (table : rt.Table) (symbol : s.atomType = some .symbol) (j : Nat) :
    (rt.store p (some { s with hash := h })).chain j = rt.chain j := by
  by_cases inside : j < rt.atomSize
  · cases used : rt.atomArray j with
    | free next =>
      rw [chain_free_iff.mpr ⟨inside, next, used⟩]
      exact chain_free_iff.mpr ⟨inside, next, used⟩
    | atom q =>
      obtain ⟨r, here⟩ := table.entries.live inside used
      have before := entry_iff.mpr ⟨inside, used, here⟩
      obtain ⟨r', now, alike, same, _⟩ := entry_rehashed (h := h) live before
      rw [chain_entry now, chain_entry before, alike.atomType]
      by_cases symbolic : r.atomType = some .symbol
      · rw [if_pos symbolic, if_pos symbolic]
      · have different : q ≠ p := by
          rintro rfl
          obtain rfl := Option.some.inj (live.symm.trans here)
          exact symbolic symbol
        rw [same different]
        rfl
  · rw [chain, chain, if_neg inside]
    exact if_neg inside

/-- The same atoms are in use. -/
theorem atoms_rehashed : (rt.store p (some { s with hash := h })).atoms = rt.atoms := by
  ext j
  rw [mem_atoms, mem_atoms]
  constructor
  · rintro ⟨q, r, found⟩
    obtain ⟨r', before, _⟩ := entry_of_rehashed live found
    exact ⟨q, r', before⟩
  · rintro ⟨q, r, found⟩
    obtain ⟨r', now, _⟩ := entry_rehashed (h := h) live found
    exact ⟨q, r', now⟩

/-- The table does not depend on the hash of a symbol. -/
theorem Table.rehash_symbol (table : rt.Table) (symbol : s.atomType = some .symbol) :
    (rt.store p (some { s with hash := h })).Table := by
  have other : ∀ {j q r}, (rt.store p (some { s with hash := h })).entry j = some (q, r) →
      r.atomType ≠ some .symbol → rt.entry j = some (q, r) := by
    intro j q r found interned
    obtain ⟨r', before, _, same⟩ := entry_of_rehashed live found
    rw [same (symbol ▸ interned)]
    exact before
  refine ⟨⟨fun {j q} inside used => ?_, fun here there => ?_, fun {j q r} found => ?_,
    fun here there interned types => ?_, fun found type => ?_⟩, ?_, table.power, ?_,
    table.small⟩
  · obtain ⟨r, here⟩ := table.entries.live inside used
    obtain ⟨r', found, _⟩ := entry_rehashed (h := h) live (entry_iff.mpr ⟨inside, used, here⟩)
    exact ⟨r', (entry_iff.mp found).2.2⟩
  · obtain ⟨_, one, _⟩ := entry_of_rehashed live here
    obtain ⟨_, two, _⟩ := entry_of_rehashed live there
    exact table.entries.apart one two
  · by_cases type : r.atomType = some .symbol
    · obtain ⟨r', before, alike, _⟩ := entry_of_rehashed live found
      rcases table.entries.typed before with ⟨t, interned, same, _⟩ | ⟨_, index⟩
      · rw [← alike.atomType, type] at same
        obtain rfl := Option.some.inj same
        rcases interned with equal | equal <;> cases equal
      · exact .inr ⟨type, index⟩
    · exact table.entries.typed (other found type)
  · exact table.entries.distinct (other here interned) (other there (types ▸ interned)) interned
      types
  · exact table.entries.untagged (other found (by rw [type]; simp)) type
  · exact table.chains.congr (fun c => by cases c <;> rfl) (chain_rehashed live table symbol)
      fun _ _ => rfl
  · rw [atoms_rehashed live]
    exact table.count

/-- References lead where they led. -/
theorem target_rehashed (x : Reference) :
    (rt.store p (some { s with hash := h })).target x = rt.target x := by
  cases x with
  | value q => rfl
  | atom j =>
    rw [target, target]
    cases found : rt.entry j with
    | some found =>
      obtain ⟨r', now, _⟩ := entry_rehashed (h := h) live found
      rw [now]
      rfl
    | none =>
      rw [Option.map_none, Option.map_eq_none_iff, Option.eq_none_iff_forall_not_mem]
      rintro ⟨q, r⟩ now
      obtain ⟨r', before, _⟩ := entry_of_rehashed live now
      rw [found] at before
      cases before

/-- The same strings are pinned. -/
theorem pinned_rehashed (q : Ptr) :
    (rt.store p (some { s with hash := h })).pinned q = rt.pinned q := by
  rw [Bool.eq_iff_iff, pinned_iff, pinned_iff]
  constructor
  · rintro ⟨j, inside, r, found⟩
    obtain ⟨r', before, _⟩ := entry_of_rehashed live found
    exact ⟨j, inside, r', before⟩
  · rintro ⟨j, inside, r, found⟩
    obtain ⟨r', now, _⟩ := entry_rehashed (h := h) live found
    exact ⟨j, inside, r', now⟩

/-- Neither do the counts, as long as a symbol without references has weak ones left. -/
theorem Sound.rehash_symbol (sound : rt.Sound held) (symbol : s.atomType = some .symbol)
    (left : rt.refCount p = 0 → h ≠ jsAtomHashMask ∧ h ≠ 0) :
    (rt.store p (some { s with hash := h })).Sound held := by
  have targets := target_rehashed (h := h) live
  have pins := pinned_rehashed (h := h) live
  have here : ∀ {q r}, (rt.store p (some { s with hash := h })).memory q = some r →
      q = p ∧ r = { s with hash := h } ∨ q ≠ p ∧ rt.memory q = some r := by
    intro q r there
    change Function.update rt.memory p _ q = some r at there
    rw [Function.update_apply] at there
    split at there
    · exact .inl ⟨‹_›, (Option.some.inj there).symm⟩
    · exact .inr ⟨‹_›, there⟩
  refine ⟨sound.table.rehash_symbol live symbol, ⟨fun {q r} there => ?_,
    fun {q r} there zero => ?_, fun {q r} there positive type => ?_, fun {x} member => ?_,
    sound.counted.countable⟩, fun {j q r} found key => ?_⟩
  · simp only [targets, pins]
    rcases here there with ⟨rfl, _⟩ | ⟨_, there⟩
    · exact sound.counted.counts live
    · exact sound.counted.counts there
  · rcases here there with ⟨rfl, rfl⟩ | ⟨_, there⟩
    · refine ⟨⟨symbol, left zero⟩, fun j r found => ?_⟩
      obtain ⟨r', before, _⟩ := entry_of_rehashed live found
      exact (sound.counted.dead live zero).2 j r' before
    · obtain ⟨is_weak, gone⟩ := sound.counted.dead there zero
      refine ⟨is_weak, fun j r found => ?_⟩
      obtain ⟨r', before, _⟩ := entry_of_rehashed live found
      exact gone j r' before
  · rcases here there with ⟨rfl, rfl⟩ | ⟨other, there⟩
    · obtain ⟨j, found⟩ := sound.counted.registered live positive type
      obtain ⟨r', now, _, _, equal⟩ := entry_rehashed (h := h) live found
      exact ⟨j, equal rfl ▸ now⟩
    · obtain ⟨j, found⟩ := sound.counted.registered there positive type
      obtain ⟨r', now, _, equal, _⟩ := entry_rehashed (h := h) live found
      exact ⟨j, equal other ▸ now⟩
  · obtain ⟨q, r, leads, there⟩ := sound.counted.valid member
    by_cases same : q = p
    · subst same
      exact ⟨q, _, (targets x).trans leads, Function.update_self ..⟩
    · exact ⟨q, r, (targets x).trans leads, (Function.update_of_ne same ..).trans there⟩
  · obtain ⟨r', before, alike, _⟩ := entry_of_rehashed live found
    exact sound.keyed before (alike.atomType ▸ key)

end

/-! ## Weak references -/

/-- What taking or giving back a weak reference leaves of the table. -/
structure Weakened (before after : Runtime) : Prop where
  entry : ∀ {i p s}, before.entry i = some (p, s) → ∃ r, after.entry i = some (p, r) ∧ Alike s r
  text : ∀ {p s}, before.memory p = some s → before.refCount p ≠ 0 →
    ∃ r, after.memory p = some r ∧ Alike s r

/-- Only the hash of one symbol differs. -/
theorem Weakened.of_rehash (live : rt.memory p = some s) :
    Weakened rt (rt.store p (some { s with hash := h })) where
  entry found := by
    obtain ⟨r, now, alike, _⟩ := entry_rehashed live found
    exact ⟨r, now, alike⟩
  text := by
    intro q r there _
    by_cases same : q = p
    · subst same
      obtain rfl := Option.some.inj (live.symm.trans there)
      exact ⟨_, Function.update_self .., rfl, rfl⟩
    · exact ⟨r, (Function.update_of_ne same ..).trans there, .refl r⟩

/-- The weak references to the other symbols are counted as before. -/
theorem Weakly.rehash {more : Multiset Ptr} (weakly : rt.Weakly weak)
    (live : rt.memory p = some s) (target : jsWeakrefIsTarget s = true)
    (counted : h.toNat = more.count p) (small : h < jsAtomHashMask)
    (others : ∀ q, q ≠ p → more.count q = weak.count q) :
    (rt.store p (some { s with hash := h })).Weakly more := by
  have symbol := (jsWeakrefIsTarget_iff.mp target).1
  refine ⟨fun {q r} there is_target => ?_, fun {q} member => ?_⟩
  · change Function.update rt.memory p _ q = some r at there
    rw [Function.update_apply] at there
    split at there
    · rename_i same
      rw [← Option.some.inj there, same]
      exact ⟨counted, small⟩
    · rename_i other
      rw [others q other]
      exact weakly.counts there is_target
  · by_cases same : q = p
    · subst same
      exact ⟨_, Function.update_self .., jsWeakrefIsTarget_iff.mpr ⟨symbol, UInt32.ne_of_lt small⟩⟩
    · have member : q ∈ weak := by
        rw [← Multiset.count_pos, ← others q same]
        exact Multiset.count_pos.mpr member
      obtain ⟨r, there, is_target⟩ := weakly.target member
      exact ⟨r, (Function.update_of_ne same ..).trans there, is_target⟩

/-- `js_weakref_new` on a symbol. -/
theorem Sound.jsWeakrefNew_returns (sound : rt.Sound held) (weakly : rt.Weakly weak)
    (live : rt.memory p = some s) (target : jsWeakrefIsTarget s = true)
    (few : s.hash < jsAtomHashMask - 2) : ∃ after, rt.jsWeakrefNew p = some after ∧
      after.Sound held ∧ after.Weakly (p ::ₘ weak) ∧ Weakened rt after := by
  have bound : s.hash.toNat < 2 ^ 30 - 3 := UInt32.lt_iff_toNat_lt.mp few
  have one_more : (s.hash + 1).toNat = s.hash.toNat + 1 := by
    rw [UInt32.toNat_add, show (1 : UInt32).toNat = 1 from rfl]
    omega
  have small : s.hash + 1 < jsAtomHashMask := by
    rw [UInt32.lt_iff_toNat_lt, one_more, show jsAtomHashMask.toNat = 2 ^ 30 - 1 from rfl]
    omega
  have nonzero : s.hash + 1 ≠ 0 := by
    intro zero
    rw [zero] at one_more
    cases one_more
  refine ⟨_, by rw [jsWeakrefNew, live, Option.bind_some, if_pos few], ?_, ?_, .of_rehash live⟩
  · exact sound.rehash_symbol live (jsWeakrefIsTarget_iff.mp target).1 fun _ =>
      ⟨UInt32.ne_of_lt small, nonzero⟩
  · refine weakly.rehash live target ?_ small fun q other => Multiset.count_cons_of_ne other _
    rw [one_more, (weakly.counts live target).1, Multiset.count_cons_self]

/-- The memory of a symbol that no reference leads to is given back. -/
theorem Sound.forget (sound : rt.Sound held) (live : rt.memory p = some s)
    (zero : rt.refCount p = 0) : (rt.store p none).Sound held ∧
      ∀ j, (rt.store p none).entry j = rt.entry j := by
  obtain ⟨_, gone⟩ := sound.counted.dead live zero
  have absent : ∀ {j q}, j < rt.atomSize → rt.atomArray j = .atom q → q ≠ p := by
    rintro j q inside used rfl
    exact gone j s (entry_iff.mpr ⟨inside, used, live⟩)
  obtain ⟨table, entry⟩ := sound.table.plain_change (rt.store p none) p none absent
    rfl rfl rfl rfl rfl rfl rfl fun _ _ => rfl
  have targets : ∀ x, (rt.store p none).target x = rt.target x := by
    intro x
    cases x with
    | value q => rfl
    | atom j => rw [target, target, entry]
  have here : ∀ {q r}, (rt.store p none).memory q = some r → rt.memory q = some r := by
    intro q r there
    change Function.update rt.memory p none q = some r at there
    rw [Function.update_apply] at there
    split at there
    · cases there
    · exact there
  refine ⟨⟨table, ⟨fun {q r} there => ?_, fun {q r} there zero => ?_,
    fun {q r} there positive type => ?_, fun {x} member => ?_, sound.counted.countable⟩,
    fun found => sound.keyed (entry _ ▸ found)⟩, entry⟩
  · have pins : (rt.store p none).pinned q = rt.pinned q := by simp only [pinned, entry]
    simp only [targets, pins]
    exact sound.counted.counts (here there)
  · simp only [entry]
    exact sound.counted.dead (here there) zero
  · simp only [entry]
    exact sound.counted.registered (here there) positive type
  · obtain ⟨q, r, leads, there⟩ := sound.counted.valid member
    refine ⟨q, r, (targets x).trans leads, (Function.update_of_ne ?_ ..).trans there⟩
    rintro rfl
    have counted := sound.counted.counted_target member leads
    omega

/-- `js_weakref_free` on a symbol. -/
theorem Sound.jsWeakrefFree_returns (sound : rt.Sound held)
    (weakly : rt.Weakly (p ::ₘ weak)) : ∃ after, rt.jsWeakrefFree p = some after ∧
      after.Sound held ∧ after.Weakly weak ∧ Weakened rt after := by
  obtain ⟨s, live, target⟩ := weakly.target (Multiset.mem_cons_self p weak)
  obtain ⟨count, small⟩ := weakly.counts live target
  rw [Multiset.count_cons_self] at count
  have positive : 1 ≤ s.hash := by
    rw [UInt32.le_iff_toNat_le, count]
    exact Nat.le_add_left ..
  have one_fewer : (s.hash - 1).toNat = weak.count p := by
    rw [UInt32.toNat_sub_of_le _ _ positive, count]
    rfl
  have less : s.hash - 1 < jsAtomHashMask := by
    rw [UInt32.lt_iff_toNat_lt] at small ⊢
    omega
  have others : ∀ q, q ≠ p → weak.count q = (p ::ₘ weak).count q := fun q other =>
    (Multiset.count_cons_of_ne other _).symm
  rw [jsWeakrefFree, live, Option.bind_some, if_pos positive]
  by_cases last : s.hash - 1 = 0 ∧ rt.refCount p = 0
  · rw [if_pos last]
    obtain ⟨left, entry⟩ := sound.forget live last.2
    refine ⟨_, rfl, left, ⟨fun {q r} there is_target => ?_, fun {q} member => ?_⟩,
      ⟨fun {i q r} found => ⟨r, (entry i).trans found, .refl r⟩, fun {q r} there alive => ?_⟩⟩
    · change Function.update rt.memory p none q = some r at there
      rw [Function.update_apply] at there
      split at there
      · cases there
      · rename_i other
        rw [others q other]
        exact weakly.counts there is_target
    · have other : q ≠ p := by
        rintro rfl
        have some_left := Multiset.count_pos.mpr member
        rw [← one_fewer, last.1] at some_left
        cases some_left
      obtain ⟨r, there, is_target⟩ := weakly.target (Multiset.mem_cons_of_mem member)
      exact ⟨r, (Function.update_of_ne other ..).trans there, is_target⟩
    · have other : q ≠ p := by
        rintro rfl
        exact alive last.2
      exact ⟨r, (Function.update_of_ne other ..).trans there, .refl r⟩
  · rw [if_neg last]
    refine ⟨_, rfl, ?_, weakly.rehash live target one_fewer less others, .of_rehash live⟩
    exact sound.rehash_symbol live (jsWeakrefIsTarget_iff.mp target).1 fun zero =>
      ⟨UInt32.ne_of_lt less, fun nothing => last ⟨nothing, zero⟩⟩

/-- `js_weakref_deref` gives a reference to a symbol that another reference leads to. -/
theorem Sound.jsWeakrefDeref_returns (sound : rt.Sound held) (weakly : rt.Weakly weak)
    (member : p ∈ weak) : ∃ value after, rt.jsWeakrefDeref p = some (value, after) ∧
      after.Sound (valueRefs value + held) ∧ after.memory = rt.memory ∧
      (∀ j, after.entry j = rt.entry j) := by
  obtain ⟨s, live, _⟩ := weakly.target member
  rw [jsWeakrefDeref]
  by_cases alive : rt.jsWeakrefIsLive p = true
  · have nonzero : rt.refCount p ≠ 0 := of_decide_eq_true alive
    have least := sound.counted.counted_nonneg live
    obtain ⟨after, returned, more, memory, entry, _⟩ :=
      sound.jsDupString_returns live (by omega)
    rw [if_pos alive, returned]
    exact ⟨some p, after, rfl, by rw [valueRefs, Multiset.singleton_add]; exact more, memory,
      entry⟩
  · rw [if_neg alive]
    exact ⟨none, rt, rfl, by rw [valueRefs, zero_add]; exact sound, rfl, fun _ => rfl⟩

/-! ## Strings that grow -/

/-- `JS_ConcatStringInPlace` adds the characters of the second string to those of the first. -/
def growsInPlace (rt : Runtime) (p q : Ptr) (fits : Bool) : Bool :=
  (rt.memory p).any fun s => (rt.memory q).any fun r =>
    r.units.length ≠ 0 && rt.refCount p = 1 && (!r.isWideChar || s.isWideChar) && fits

/-- What growing in place leaves of the table: every string but the one that grows. -/
structure Appended (before after : Runtime) (p : Ptr) : Prop where
  memory : ∀ q, q ≠ p → after.memory q = before.memory q
  entry : ∀ j, after.entry j = before.entry j
  own : ∀ {s}, before.memory p = some s → after.memory p = some s ∨
    before.refCount p = 1 ∧ s.atomType = none ∧
      ∃ r, after.memory p = some r ∧ r.atomType = none ∧ s.units <+: r.units

/-- A string that is no atom gets other characters. -/
theorem Sound.rewrite_plain (sound : rt.Sound held) (live : rt.memory p = some s)
    (plain : s.atomType = none) (alive : 0 < rt.refCount p) (other : r.atomType = none) :
    (rt.store p (some r)).Sound held ∧ ∀ j, (rt.store p (some r)).entry j = rt.entry j := by
  obtain ⟨table, entry⟩ := sound.table.plain_change (rt.store p (some r)) p (some r)
    (fun inside used => sound.table.plain_string live plain inside used)
    rfl rfl rfl rfl rfl rfl rfl fun _ _ => rfl
  have targets : ∀ x, (rt.store p (some r)).target x = rt.target x := by
    intro x
    cases x with
    | value q => rfl
    | atom j => rw [target, target, entry]
  have here : ∀ {q u}, (rt.store p (some r)).memory q = some u →
      q = p ∧ u = r ∨ rt.memory q = some u := by
    intro q u there
    change Function.update rt.memory p (some r) q = some u at there
    rw [Function.update_apply] at there
    split at there
    · exact .inl ⟨‹_›, (Option.some.inj there).symm⟩
    · exact .inr there
  refine ⟨⟨table, ⟨fun {q u} there => ?_, fun {q u} there zero => ?_,
    fun {q u} there positive type => ?_, fun {x} member => ?_, sound.counted.countable⟩,
    fun found => sound.keyed (entry _ ▸ found)⟩, entry⟩
  · have pins : (rt.store p (some r)).pinned q = rt.pinned q := by simp only [pinned, entry]
    simp only [targets, pins]
    rcases here there with ⟨rfl, _⟩ | there
    · exact sound.counted.counts live
    · exact sound.counted.counts there
  · simp only [entry]
    rcases here there with ⟨rfl, _⟩ | there
    · change rt.refCount q = 0 at zero
      omega
    · exact sound.counted.dead there zero
  · simp only [entry]
    rcases here there with ⟨_, rfl⟩ | there
    · exact absurd other type
    · exact sound.counted.registered there positive type
  · obtain ⟨q, u, leads, there⟩ := sound.counted.valid member
    by_cases same : q = p
    · subst same
      exact ⟨q, r, (targets x).trans leads, Function.update_self ..⟩
    · exact ⟨q, u, (targets x).trans leads, (Function.update_of_ne same ..).trans there⟩

/-- `JS_ConcatStringInPlace` on a string that is no atom, or does not grow. -/
theorem Sound.jsConcatStringInPlace_returns (sound : rt.Sound held)
    (first : .value p ∈ held) (second : .value q ∈ held)
    (plain : rt.growsInPlace p q fits = true → ∀ s, rt.memory p = some s → s.atomType = none) :
    ∃ grown after, rt.jsConcatStringInPlace p q fits = some (grown, after) ∧
      after.Sound held ∧ Appended rt after p := by
  obtain ⟨s, live⟩ := sound.counted.target_live first rfl
  obtain ⟨r, there⟩ := sound.counted.target_live second rfl
  have still : Appended rt rt p := ⟨fun _ _ => rfl, fun _ => rfl, .inl⟩
  rw [jsConcatStringInPlace, live, Option.bind_some, there, Option.bind_some]
  by_cases empty : r.units.length = 0
  · exact ⟨true, rt, if_pos empty, sound, still⟩
  · rw [if_neg empty]
    by_cases shared : rt.refCount p ≠ 1
    · exact ⟨false, rt, if_pos shared, sound, still⟩
    · rw [if_neg shared]
      split
      · rename_i room
        have alone : rt.refCount p = 1 := not_not.mp shared
        have grows : rt.growsInPlace p q fits = true := by
          have wide : (!r.isWideChar || s.isWideChar) = true := by
            cases short : r.isWideChar with
            | false => rfl
            | true => rw [room.1 short, Bool.or_true]
          simp only [growsInPlace, live, there, Option.any_some, alone, wide, room.2]
          simpa using empty
        have none_yet := plain grows s live
        obtain ⟨left, entry⟩ := sound.rewrite_plain live none_yet (by omega)
          (r := { s with toCharacters := s.toCharacters.append r.toCharacters room.1 }) none_yet
        refine ⟨true, _, rfl, left, ⟨fun u other => Function.update_of_ne other .., entry,
          fun {s'} here => .inr ⟨alone, ?_, _, Function.update_self .., none_yet, ?_⟩⟩⟩
        · obtain rfl := Option.some.inj (live.symm.trans here)
          exact none_yet
        · obtain rfl := Option.some.inj (live.symm.trans here)
          exact List.prefix_append ..
      · exact ⟨false, rt, rfl, sound, still⟩

/-- An atom that grows gets another text but keeps its hash, so that it is no longer where its text
is looked for. Nothing in `JS_ConcatStringInPlace` rules that out. -/
theorem grown_atom_keeps_hash (found : rt.entry i = some (p, s)) (there : rt.memory q = some r)
    (grows : rt.growsInPlace p q fits = true) : ∃ after u,
      rt.jsConcatStringInPlace p q fits = some (true, after) ∧ after.entry i = some (p, u) ∧
        u.hash = s.hash ∧ u.atomType = s.atomType ∧ u.units = s.units ++ r.units ∧
        u.units ≠ s.units := by
  obtain ⟨inside, used, live⟩ := entry_iff.mp found
  simp only [growsInPlace, live, there, Option.any_some, Bool.and_eq_true, decide_eq_true_eq,
    Bool.or_eq_true, Bool.not_eq_true'] at grows
  obtain ⟨⟨⟨some_units, alone⟩, wide⟩, room⟩ := grows
  have fit : (r.isWideChar = true → s.isWideChar = true) ∧ fits = true :=
    ⟨fun long => wide.resolve_left (by rw [long]; exact Bool.noConfusion), room⟩
  refine ⟨rt.store p (some { s with
      toCharacters := s.toCharacters.append r.toCharacters fit.1 }), _, ?_,
    entry_iff.mpr ⟨inside, used, Function.update_self ..⟩, rfl, rfl, rfl, ?_⟩
  · rw [jsConcatStringInPlace, live, Option.bind_some, there, Option.bind_some, if_neg some_units,
      if_neg (not_not.mpr alone), dif_pos fit]
  · intro same
    have nothing : r.units = [] := List.append_right_eq_self.mp same
    rw [nothing] at some_units
    exact some_units rfl

/-- A string that grows is no symbol with weak references. -/
theorem Appended.weak_same (appended : Appended rt after p) (live : rt.memory p = some s)
    {u : JSAtomStruct} (is_weak : u.Weak) : after.memory q = some u ↔ rt.memory q = some u := by
  by_cases same : q = p
  · subst same
    rcases appended.own live with equal | ⟨_, plain, r, now, other, _⟩
    · rw [equal, live]
    · rw [now, live]
      constructor
      · intro there
        obtain rfl := Option.some.inj there
        exact absurd other is_weak.typed
      · intro there
        obtain rfl := Option.some.inj there
        exact absurd plain is_weak.typed
  · rw [appended.memory q same]

end GoQuickjs.Atoms.Runtime
