import Mathlib
import GoQuickjs.Library.CyclicProbe
import GoQuickjs.Library.PartialInverse

/-!
# The handle store of one context

`ptrStore` in `go-ptr-id.go` gives a 32-bit id to every Go pointer that crosses
into the engine and counts how often the pointer was registered. Two maps are
kept: from an id to its pointer and count, and from a pointer to its id. A cursor
`index` walks over the ids in search of a free one and wraps around at `2 ^ 32`.

Every method runs under the store's lock, so a method is one function from the
store before the call to the store after it. A call that never returns (endless
probing, or a nil dereference in Go) has no result. Pointers are an arbitrary
type with decidable equality: Go compares them as map keys and nothing else.

The registration count is an unbounded integer. Go's `int` could only differ
after `2 ^ 63` registrations of one pointer.
-/

namespace GoQuickjs

/-- The type `ref`: the registered pointer and its registration count. -/
structure Ref (P : Type) where
  ptr : P
  count : Int
deriving DecidableEq, Repr

/-- The type `ptrStore` without its lock. -/
structure PtrStore (P : Type) where
  index : UInt32
  id2ptr : Finmap fun _ : UInt32 => Ref P
  ptr2id : Finmap fun _ : P => UInt32

namespace PtrStore

open PartialInverse

variable {P : Type}

/-- The function `newPtrStore`: an empty store whose cursor stands at zero. -/
def newPtrStore : PtrStore P := ⟨0, ∅, ∅⟩

/-- The loop of `register`: advance the cursor until it names an id that is not
in `id2ptr`. A full turn visits every id, so `2 ^ 32` steps decide the search. -/
def nextFree (s : PtrStore P) : Option UInt32 :=
  CyclicProbe.probe (· + 1) (fun i => (s.id2ptr.lookup i).isSome) (2 ^ 32) s.index

/-- The method `register`. A known pointer gets its id back and one more count;
the count is reached through `id2ptr`, where a missing entry would be a nil
dereference. An unknown pointer gets the next free id with count one. -/
def register [DecidableEq P] (s : PtrStore P) (i : P) : Option (UInt32 × PtrStore P) :=
  match s.ptr2id.lookup i with
  | some index =>
    match s.id2ptr.lookup index with
    | some ref =>
      some (index, { s with id2ptr := s.id2ptr.insert index { ref with count := ref.count + 1 } })
    | none => none
  | none =>
    s.nextFree.map fun index =>
      (index, ⟨index, s.id2ptr.insert index ⟨i, 1⟩, s.ptr2id.insert i index⟩)

/-- The method `lookup`; `none` is Go's second result `false`. -/
def lookup (s : PtrStore P) (i : UInt32) : Option P := (s.id2ptr.lookup i).map Ref.ptr

/-- The method `remove`. The count is lowered first; a positive rest keeps the
id, otherwise both entries go and the cursor falls back below the freed id. -/
def remove [DecidableEq P] (s : PtrStore P) (i : UInt32) : PtrStore P :=
  match s.id2ptr.lookup i with
  | some ref =>
    if 0 < ref.count - 1 then
      { s with id2ptr := s.id2ptr.insert i { ref with count := ref.count - 1 } }
    else
      { index := if i ≤ s.index then i - 1 else s.index
        id2ptr := s.id2ptr.erase i
        ptr2id := s.ptr2id.erase ref.ptr }
  | none => s

/-- The method `clear`: both maps become nil, which reads as empty. The store is never used
again: `delPtrStore` takes it out of the map of stores in the same step. -/
def clear (s : PtrStore P) : PtrStore P := { s with id2ptr := ∅, ptr2id := ∅ }

/-- Number of ids in use. -/
def live (s : PtrStore P) : Nat := s.id2ptr.keys.card

/-- The invariant of a store: the maps invert each other and every stored count
is at least one. -/
structure Coherent [DecidableEq P] (s : PtrStore P) : Prop where
  inverse : Inverse Ref.ptr s.id2ptr s.ptr2id
  counted : ∀ k r, s.id2ptr.lookup k = some r → 1 ≤ r.count

/-! ## One method call -/

/-- The successor on ids, taken `distance` times, adds `distance`. -/
theorem iterate_succ_id (distance : Nat) (i : UInt32) :
    (· + 1)^[distance] i = i + UInt32.ofNat distance := by
  induction distance generalizing i with
  | zero => simp
  | succ distance inductionHypothesis =>
    rw [Function.iterate_succ_apply, inductionHypothesis, UInt32.ofNat_add]
    change i + 1 + UInt32.ofNat distance = i + (UInt32.ofNat distance + 1)
    rw [UInt32.add_assoc, UInt32.add_comm 1]

/-- One full turn of the cursor visits every id. -/
theorem turn_visits (cursor i : UInt32) :
    ∃ distance < 2 ^ 32, (· + 1)^[distance + 1] cursor = i := by
  refine ⟨(i - cursor - 1).toNat, UInt32.toNat_lt _, ?_⟩
  rw [iterate_succ_id, UInt32.ofNat_add, UInt32.ofNat_toNat]
  change cursor + (i - cursor - 1 + 1) = i
  rw [UInt32.sub_add_cancel, UInt32.add_comm, UInt32.sub_add_cancel]

/-- With fewer than `2 ^ 32` ids in use some id is free. -/
theorem exists_free (s : PtrStore P) (room : s.live < 2 ^ 32) :
    ∃ i, s.id2ptr.lookup i = none := by
  by_contra full
  have used : ∀ n < 2 ^ 32, UInt32.ofNat n ∈ s.id2ptr.keys := by
    intro n _
    rw [Finmap.mem_keys]
    by_contra absent
    exact full ⟨UInt32.ofNat n, Finmap.lookup_eq_none.mpr absent⟩
  have distinct : ∀ n < 2 ^ 32, ∀ m < 2 ^ 32, UInt32.ofNat n = UInt32.ofNat m → n = m := by
    intro n hn m hm same
    have values := congrArg UInt32.toNat same
    rwa [UInt32.toNat_ofNat_of_lt' hn, UInt32.toNat_ofNat_of_lt' hm] at values
  have many := Finset.le_card_of_inj_on_range UInt32.ofNat used distinct
  exact Nat.not_le_of_lt room many

/-- The probing loop of `register` ends whenever an id is free, also across the
wrap of the cursor. -/
theorem nextFree_returns (s : PtrStore P) (room : s.live < 2 ^ 32) :
    ∃ i, s.nextFree = some i := by
  obtain ⟨free, absent⟩ := s.exists_free room
  exact CyclicProbe.probe_stops _ _ _ _ free (turn_visits s.index free) (by simp [absent])

theorem nextFree_free (s : PtrStore P) (i : UInt32) (found : s.nextFree = some i) :
    s.id2ptr.lookup i = none := by
  simpa using CyclicProbe.probe_free _ _ _ _ _ found

/-- Everything a returning `register` can have done: raise the count of a known
pointer, or bind an unknown pointer to a free id. -/
theorem register_cases [DecidableEq P] {s s' : PtrStore P} {i : P} {k : UInt32}
    (returned : s.register i = some (k, s')) :
    (∃ r, s.ptr2id.lookup i = some k ∧ s.id2ptr.lookup k = some r ∧
      s' = { s with id2ptr := s.id2ptr.insert k { r with count := r.count + 1 } }) ∨
    (s.ptr2id.lookup i = none ∧ s.id2ptr.lookup k = none ∧
      s' = ⟨k, s.id2ptr.insert k ⟨i, 1⟩, s.ptr2id.insert i k⟩) := by
  cases known : s.ptr2id.lookup i with
  | some index =>
    cases stored : s.id2ptr.lookup index with
    | some r =>
      simp only [register, known, stored, Option.some.injEq, Prod.mk.injEq] at returned
      obtain ⟨rfl, rfl⟩ := returned
      exact .inl ⟨r, rfl, stored, rfl⟩
    | none => simp [register, known, stored] at returned
  | none =>
    cases found : s.nextFree with
    | none => simp [register, known, found] at returned
    | some index =>
      simp only [register, known, found, Option.map_some, Option.some.injEq,
        Prod.mk.injEq] at returned
      obtain ⟨rfl, rfl⟩ := returned
      exact .inr ⟨rfl, s.nextFree_free index found, rfl⟩

/-- Everything `remove` can have done: nothing for an id that is not live, lower
a count above one, or drop the id and its pointer. -/
theorem remove_cases [DecidableEq P] (s : PtrStore P) (i : UInt32) :
    (s.id2ptr.lookup i = none ∧ s.remove i = s) ∨
    (∃ r, s.id2ptr.lookup i = some r ∧ 1 < r.count ∧
      s.remove i = { s with id2ptr := s.id2ptr.insert i { r with count := r.count - 1 } }) ∨
    (∃ r index, s.id2ptr.lookup i = some r ∧ r.count ≤ 1 ∧
      s.remove i = ⟨index, s.id2ptr.erase i, s.ptr2id.erase r.ptr⟩) := by
  cases stored : s.id2ptr.lookup i with
  | none => exact .inl ⟨rfl, by simp [remove, stored]⟩
  | some r =>
    by_cases more : 0 < r.count - 1
    · exact .inr (.inl ⟨r, rfl, by omega, by simp only [remove, stored, if_pos more]⟩)
    · refine .inr (.inr ⟨r, if i ≤ s.index then i - 1 else s.index, rfl, by omega, ?_⟩)
      simp only [remove, stored, if_neg more]

/-- In a coherent store with a free id every registration returns. -/
theorem register_returns [DecidableEq P] {s : PtrStore P} (coherent : s.Coherent) (room : s.live < 2 ^ 32)
    (i : P) : ∃ k s', s.register i = some (k, s') := by
  cases known : s.ptr2id.lookup i with
  | some index =>
    obtain ⟨r, stored, _⟩ := (coherent.inverse i index).mp known
    exact ⟨index, _, by simp [register, known, stored]; rfl⟩
  | none =>
    obtain ⟨index, found⟩ := s.nextFree_returns room
    exact ⟨index, _, by simp [register, known, found]; rfl⟩

/-- As long as an id is free, fewer than `2 ^ 32` are in use. -/
theorem live_lt_of_free {s : PtrStore P} {i : UInt32} (free : s.id2ptr.lookup i = none) :
    s.live < 2 ^ 32 := by
  have inside : s.id2ptr.keys.image UInt32.toNat ⊆ (Finset.range (2 ^ 32)).erase i.toNat := by
    intro n found
    obtain ⟨k, stored, rfl⟩ := Finset.mem_image.mp found
    rw [Finset.mem_erase, Finset.mem_range]
    refine ⟨?_, UInt32.toNat_lt k⟩
    intro same
    rw [UInt32.toNat_inj.mp same, Finmap.mem_keys] at stored
    exact Finmap.lookup_eq_none.mp free stored
  have fewer := Finset.card_le_card inside
  rw [Finset.card_image_of_injective _ fun a b => UInt32.toNat_inj.mp,
    Finset.card_erase_of_mem (Finset.mem_range.mpr (UInt32.toNat_lt i)), Finset.card_range] at fewer
  exact Nat.lt_of_le_of_lt fewer (by decide)

/-- An unknown pointer can be registered exactly as long as an id is free. -/
theorem register_returns_iff [DecidableEq P] {s : PtrStore P} {i : P}
    (unknown : s.ptr2id.lookup i = none) : (∃ made, s.register i = some made) ↔ s.live < 2 ^ 32 := by
  simp only [register, unknown, Option.map_eq_some_iff]
  constructor
  · rintro ⟨_, index, found, _⟩
    exact live_lt_of_free (s.nextFree_free index found)
  · intro room
    obtain ⟨index, found⟩ := s.nextFree_returns room
    exact ⟨_, index, found, rfl⟩
/-- There are no more ids than words. -/
theorem live_le (s : PtrStore P) : s.live ≤ 2 ^ 32 := by
  have inside : s.id2ptr.keys.image UInt32.toNat ⊆ Finset.range (2 ^ 32) := by
    intro n found
    obtain ⟨k, _, rfl⟩ := Finset.mem_image.mp found
    exact Finset.mem_range.mpr (UInt32.toNat_lt k)
  have few := Finset.card_le_card inside
  rwa [Finset.card_image_of_injective _ fun a b => UInt32.toNat_inj.mp, Finset.card_range] at few

/-- The registration of an unknown pointer takes one id. -/
theorem register_live [DecidableEq P] {s s' : PtrStore P} {i : P} {k : UInt32}
    (unknown : s.ptr2id.lookup i = none) (registered : s.register i = some (k, s')) :
    s'.live = s.live + 1 := by
  obtain ⟨_, known, _⟩ | ⟨_, free, rfl⟩ := register_cases registered
  · rw [unknown] at known
    cases known
  · have keys : (s.id2ptr.insert k ⟨i, 1⟩).keys = insert k s.id2ptr.keys := by
      ext j
      simp [Finmap.mem_keys]
    have new : k ∉ s.id2ptr.keys := mt Finmap.mem_keys.mp (Finmap.lookup_eq_none.mp free)
    rw [live, keys, Finset.card_insert_of_notMem new, live]

/-- An entry is what `lookup` returns. -/
theorem lookup_stored {s : PtrStore P} {k : UInt32} {r : Ref P}
    (stored : s.id2ptr.lookup k = some r) : s.lookup k = some r.ptr := by
  simp [lookup, stored]

theorem newPtrStore_coherent [DecidableEq P] : (newPtrStore : PtrStore P).Coherent :=
  ⟨inverse_empty, by simp [newPtrStore]⟩

/-- `register` keeps the store coherent. -/
theorem register_coherent [DecidableEq P] {s s' : PtrStore P} {i : P} {k : UInt32}
    (coherent : s.Coherent) (returned : s.register i = some (k, s')) : s'.Coherent := by
  obtain ⟨r, known, stored, rfl⟩ | ⟨unknown, free, rfl⟩ := register_cases returned
  · refine ⟨coherent.inverse.rewrite stored rfl, ?_⟩
    intro other record found
    have positive : 1 ≤ r.count := coherent.counted k r stored
    by_cases same : other = k
    · subst same
      obtain rfl : _ = record := by simpa [Finmap.lookup_insert] using found
      change 1 ≤ r.count + 1
      omega
    · rw [Finmap.lookup_insert_of_ne _ same] at found
      exact coherent.counted other record found
  · refine ⟨coherent.inverse.bind free unknown, ?_⟩
    intro other record found
    by_cases same : other = k
    · subst same
      obtain rfl : _ = record := by simpa [Finmap.lookup_insert] using found
      exact le_refl 1
    · rw [Finmap.lookup_insert_of_ne _ same] at found
      exact coherent.counted other record found

/-- `remove` keeps the store coherent. -/
theorem remove_coherent [DecidableEq P] {s : PtrStore P} (coherent : s.Coherent) (i : UInt32) :
    (s.remove i).Coherent := by
  obtain ⟨_, same⟩ | ⟨r, stored, more, lowered⟩ | ⟨r, index, stored, _, dropped⟩ :=
    s.remove_cases i
  · rw [same]
    exact coherent
  · rw [lowered]
    refine ⟨coherent.inverse.rewrite stored rfl, ?_⟩
    intro other record found
    by_cases same : other = i
    · subst same
      obtain rfl : _ = record := by simpa [Finmap.lookup_insert] using found
      change 1 ≤ r.count - 1
      omega
    · rw [Finmap.lookup_insert_of_ne _ same] at found
      exact coherent.counted other record found
  · rw [dropped]
    refine ⟨coherent.inverse.drop stored, ?_⟩
    intro other record found
    by_cases same : other = i
    · subst same
      simp [Finmap.lookup_erase] at found
    · rw [Finmap.lookup_erase_ne same] at found
      exact coherent.counted other record found

/-! ## What one call does to a bound id -/

section Bound

variable [DecidableEq P] {s s' : PtrStore P} {i p : P} {j k : UInt32} {r : Ref P}

/-- Registering the bound pointer returns its id and adds one to the count. -/
theorem register_bound (coherent : s.Coherent) (stored : s.id2ptr.lookup k = some r)
    (returned : s.register r.ptr = some (j, s')) :
    j = k ∧ s'.id2ptr.lookup k = some { r with count := r.count + 1 } := by
  have back := coherent.inverse.known stored
  obtain ⟨found, known, entry, rfl⟩ | ⟨unknown, _, _⟩ := register_cases returned
  · obtain rfl : k = j := Option.some.inj (back.symm.trans known)
    obtain rfl : r = found := Option.some.inj (stored.symm.trans entry)
    exact ⟨rfl, Finmap.lookup_insert _⟩
  · rw [unknown] at back
    cases back

/-- Registering any other pointer returns another id and leaves the entry alone. -/
theorem register_elsewhere (coherent : s.Coherent) (stored : s.id2ptr.lookup k = some r)
    (other : i ≠ r.ptr) (returned : s.register i = some (j, s')) :
    j ≠ k ∧ s'.id2ptr.lookup k = some r := by
  obtain ⟨found, known, entry, rfl⟩ | ⟨_, free, rfl⟩ := register_cases returned
  · have apart : k ≠ j := by
      rintro rfl
      obtain ⟨record, held, owner⟩ := (coherent.inverse i k).mp known
      rw [stored] at held
      obtain rfl := Option.some.inj held
      exact other owner.symm
    exact ⟨apart.symm, (Finmap.lookup_insert_of_ne _ apart).trans stored⟩
  · have apart : k ≠ j := by
      rintro rfl
      rw [stored] at free
      cases free
    exact ⟨apart.symm, (Finmap.lookup_insert_of_ne _ apart).trans stored⟩

/-- Removing the bound id with more than one registration lowers the count. -/
theorem remove_bound (stored : s.id2ptr.lookup k = some r) (more : 1 < r.count) :
    (s.remove k).id2ptr.lookup k = some { r with count := r.count - 1 } := by
  have positive : 0 < r.count - 1 := by omega
  simp only [remove, stored, if_pos positive, Finmap.lookup_insert]

/-- Removing the bound id with its last registration forgets id and pointer. -/
theorem remove_last (stored : s.id2ptr.lookup k = some r) (last : r.count ≤ 1) :
    (s.remove k).id2ptr.lookup k = none ∧ (s.remove k).ptr2id.lookup r.ptr = none := by
  have spent : ¬ 0 < r.count - 1 := by omega
  simp only [remove, stored, if_neg spent, Finmap.lookup_erase, and_self]

/-- Removing any other id leaves the entry alone. -/
theorem remove_elsewhere (stored : s.id2ptr.lookup k = some r) (other : j ≠ k) :
    (s.remove j).id2ptr.lookup k = some r := by
  obtain ⟨_, same⟩ | ⟨_, _, _, lowered⟩ | ⟨_, _, _, _, dropped⟩ := s.remove_cases j
  · rw [same, stored]
  · rw [lowered, Finmap.lookup_insert_of_ne _ other.symm, stored]
  · rw [dropped, Finmap.lookup_erase_ne other.symm, stored]

end Bound

end PtrStore

end GoQuickjs
