import Mathlib.Data.Finmap

/-!
# Two finite maps that invert each other

One map sends a key to a record, the other sends the owner named by a record
back to its key. The relation is kept by the three updates a two-way table makes:
binding a fresh key to a fresh owner, rewriting a record without changing its
owner, and dropping a key together with its owner.
-/

namespace PartialInverse

variable {K V P : Type*} [DecidableEq K] [DecidableEq P]

/-- `backward` sends an owner to a key exactly when `forward` stores, under that
key, a record of that owner. -/
def Inverse (owner : V → P) (forward : Finmap fun _ : K => V)
    (backward : Finmap fun _ : P => K) : Prop :=
  ∀ person key, backward.lookup person = some key ↔
    ∃ stored, forward.lookup key = some stored ∧ owner stored = person

variable {owner : V → P} {forward : Finmap fun _ : K => V} {backward : Finmap fun _ : P => K}

theorem inverse_empty : Inverse owner (∅ : Finmap fun _ : K => V) (∅ : Finmap fun _ : P => K) := by
  intro person key
  simp

/-- A stored record's owner is sent back to the record's key. -/
theorem Inverse.known (inverse : Inverse owner forward backward) {key : K} {stored : V}
    (found : forward.lookup key = some stored) :
    backward.lookup (owner stored) = some key :=
  (inverse (owner stored) key).mpr ⟨stored, found, rfl⟩

/-- No two keys store records of one owner. -/
theorem Inverse.key_unique (inverse : Inverse owner forward backward) {key other : K}
    {stored found : V} (here : forward.lookup key = some stored)
    (there : forward.lookup other = some found) (same : owner stored = owner found) :
    key = other := by
  have first := inverse.known here
  have second := inverse.known there
  rw [same, second] at first
  exact (Option.some.inj first).symm

/-- Binding a free key to an unknown owner. -/
theorem Inverse.bind (inverse : Inverse owner forward backward) {key : K} {record : V}
    (free : forward.lookup key = none) (unknown : backward.lookup (owner record) = none) :
    Inverse owner (forward.insert key record) (backward.insert (owner record) key) := by
  intro person other
  by_cases samePerson : person = owner record
  · subst samePerson
    rw [Finmap.lookup_insert]
    constructor
    · intro same
      obtain rfl := Option.some.inj same
      exact ⟨record, Finmap.lookup_insert _, rfl⟩
    · rintro ⟨stored, found, owned⟩
      by_cases sameKey : other = key
      · rw [sameKey]
      · rw [Finmap.lookup_insert_of_ne _ sameKey] at found
        have known := inverse.known found
        rw [owned, unknown] at known
        cases known
  · rw [Finmap.lookup_insert_of_ne _ samePerson, inverse person other]
    by_cases sameKey : other = key
    · subst sameKey
      simp [free, Finmap.lookup_insert, Ne.symm samePerson]
    · rw [Finmap.lookup_insert_of_ne _ sameKey]

/-- Rewriting a record in place keeps the relation when its owner is unchanged. -/
theorem Inverse.rewrite (inverse : Inverse owner forward backward) {key : K} {stored record : V}
    (found : forward.lookup key = some stored) (same : owner record = owner stored) :
    Inverse owner (forward.insert key record) backward := by
  intro person other
  rw [inverse person other]
  by_cases sameKey : other = key
  · subst sameKey
    simp [found, Finmap.lookup_insert, same]
  · rw [Finmap.lookup_insert_of_ne _ sameKey]

/-- Dropping a key and its owner together. -/
theorem Inverse.drop (inverse : Inverse owner forward backward) {key : K} {stored : V}
    (found : forward.lookup key = some stored) :
    Inverse owner (forward.erase key) (backward.erase (owner stored)) := by
  intro person other
  by_cases samePerson : person = owner stored
  · subst samePerson
    rw [Finmap.lookup_erase]
    constructor
    · intro impossible
      cases impossible
    · rintro ⟨record, kept, owned⟩
      by_cases sameKey : other = key
      · subst sameKey
        rw [Finmap.lookup_erase] at kept
        cases kept
      · rw [Finmap.lookup_erase_ne sameKey] at kept
        exact absurd (inverse.key_unique kept found owned) sameKey
  · rw [Finmap.lookup_erase_ne samePerson, inverse person other]
    by_cases sameKey : other = key
    · subst sameKey
      simp [found, Finmap.lookup_erase, Ne.symm samePerson]
    · rw [Finmap.lookup_erase_ne sameKey]

end PartialInverse
