import GoQuickjs.HandleTable

/-!
# Compact ids

The cursor of a store moves forward in `register` and back in `remove`. It always marks
a prefix of the ids that is fully in use: the search for a free id begins behind the
prefix, so that it finds the least id that is free, and the removal of an id inside the
prefix cuts the prefix before it. Zero, which `getTargetIdx` answers for an object
without a Go id, is met by the search only when no other id is free.
-/

namespace GoQuickjs.HandleTable

open PtrStore Runs

variable {P : Type}

/-- Besides zero some id is free before a registration. -/
def LeavesId (s : PtrStore P) : Call P → Prop
  | .register _ => s.live ≤ 2 ^ 32 - 2
  | _ => True

/-- A cursor that does not wrap moves ahead by the distance. -/
theorem iterate_succ_toNat {distance : Nat} {i : UInt32} (inside : i.toNat + distance < 2 ^ 32) :
    ((· + 1)^[distance] i).toNat = i.toNat + distance := by
  have small : distance < 2 ^ 32 := by omega
  rw [iterate_succ_id, UInt32.toNat_add, UInt32.toNat_ofNat_of_lt' small]
  exact Nat.mod_eq_of_lt inside

theorem one_le_iff {k : UInt32} : 1 ≤ k ↔ k ≠ 0 := by
  rw [UInt32.le_iff_toNat_le, ne_eq, ← UInt32.toNat_inj]
  change 1 ≤ k.toNat ↔ ¬ k.toNat = 0
  omega

variable {s s' : PtrStore P} {p : P} {k : UInt32}

/-- With two ids to spare, one that is not zero is free. -/
theorem exists_free_id (p : P) (room : s.live ≤ 2 ^ 32 - 2) :
    ∃ k : UInt32, k ≠ 0 ∧ s.id2ptr.lookup k = none := by
  obtain ⟨k, free⟩ := exists_free { s with id2ptr := s.id2ptr.insert 0 ⟨p, 1⟩ } (by
    have more : (s.id2ptr.insert 0 ⟨p, 1⟩).keys ⊆ insert 0 s.id2ptr.keys := by
      intro j inside
      rw [Finmap.mem_keys, Finmap.mem_insert] at inside
      exact Finset.mem_insert.mpr (inside.imp_right Finmap.mem_keys.mpr)
    have few := (Finset.card_le_card more).trans (Finset.card_insert_le 0 s.id2ptr.keys)
    change (s.id2ptr.insert 0 ⟨p, 1⟩).keys.card < 2 ^ 32
    change s.id2ptr.keys.card ≤ _ at room
    omega)
  have positive : k ≠ 0 := by
    rintro rfl
    simp [Finmap.lookup_insert] at free
  exact ⟨k, positive, by simpa [Finmap.lookup_insert_of_ne _ positive] using free⟩

/-- The search ends at the least free id behind the cursor.

Proof: the ids between the cursor and the one that is found were met in use. A free id
behind the cursor is met before the cursor wraps, so that the one found is not past it. -/
theorem nextFree_least (found : s.nextFree = some k) {j : UInt32} (free : s.id2ptr.lookup j = none)
    (behind : s.index < j) : s.index < k ∧ k ≤ j ∧
      ∀ i, s.index < i → i < k → ∃ r, s.id2ptr.lookup i = some r := by
  obtain ⟨distance, _, reached, earlier⟩ := CyclicProbe.probe_first _ _ _ _ _ found
  have used : ∀ i : UInt32, s.index < i → i.toNat - s.index.toNat - 1 < distance →
      ∃ r, s.id2ptr.lookup i = some r := by
    intro i above before
    have met := earlier _ before
    have here : (· + 1)^[i.toNat - s.index.toNat - 1 + 1] s.index = i := by
      have order := UInt32.lt_iff_toNat_lt.mp above
      have inside := UInt32.toNat_lt i
      apply UInt32.toNat_inj.mp
      rw [iterate_succ_toNat (by omega)]
      omega
    rw [here] at met
    exact Option.isSome_iff_exists.mp met
  have order := UInt32.lt_iff_toNat_lt.mp behind
  have inside := UInt32.toNat_lt j
  have near : distance ≤ j.toNat - s.index.toNat - 1 := by
    by_contra far
    obtain ⟨r, stored⟩ := used j behind (by omega)
    rw [free] at stored
    cases stored
  have position : k.toNat = s.index.toNat + distance + 1 := by
    rw [← reached, iterate_succ_toNat (by omega)]
    omega
  refine ⟨?_, ?_, ?_⟩
  · rw [UInt32.lt_iff_toNat_lt]
    omega
  · rw [UInt32.le_iff_toNat_le]
    omega
  · intro i above below
    have before := UInt32.lt_iff_toNat_lt.mp below
    have after := UInt32.lt_iff_toNat_lt.mp above
    exact used i above (by omega)

variable [DecidableEq P]

/-- The invariant: the ids from one up to the cursor are in use, and zero is not. -/
structure Compact (s : PtrStore P) : Prop where
  coherent : s.Coherent
  inUse : ∀ k : UInt32, k ≠ 0 → k ≤ s.index → ∃ r, s.id2ptr.lookup k = some r
  sentinel : s.id2ptr.lookup 0 = none

/-- An id that is free and not zero lies behind the cursor. -/
theorem Compact.behind (compact : Compact s) (free : s.id2ptr.lookup k = none) (positive : k ≠ 0) :
    s.index < k := by
  by_contra before
  obtain ⟨r, stored⟩ := compact.inUse k positive (UInt32.not_lt.mp before)
  rw [free] at stored
  cases stored

theorem register_new (unknown : s.ptr2id.lookup p = none)
    (returned : s.register p = some (k, s')) : s.nextFree = some k ∧
      s' = ⟨k, s.id2ptr.insert k ⟨p, 1⟩, s.ptr2id.insert p k⟩ := by
  simp only [register, unknown, Option.map_eq_some_iff, Prod.mk.injEq] at returned
  obtain ⟨index, found, rfl, same⟩ := returned
  exact ⟨found, same.symm⟩

/-- A pointer that is not stored gets the least id that is free and not zero, and the ids
up to there are in use then. -/
theorem Compact.register_least (compact : Compact s) (room : s.live ≤ 2 ^ 32 - 2)
    (unknown : s.ptr2id.lookup p = none) (returned : s.register p = some (k, s')) :
    k ≠ 0 ∧ s.id2ptr.lookup k = none ∧ (∀ j, j ≠ 0 → s.id2ptr.lookup j = none → k ≤ j) ∧
      Compact s' := by
  obtain ⟨found, after⟩ := register_new unknown returned
  obtain ⟨free, positive, spare⟩ := exists_free_id p room
  obtain ⟨ahead, _, passed⟩ := nextFree_least found spare (compact.behind spare positive)
  have above : k ≠ 0 := by
    rintro rfl
    exact UInt32.not_lt_zero ahead
  refine ⟨above, s.nextFree_free k found, ?_, register_coherent compact.coherent returned, ?_, ?_⟩
  · intro j notZero unused
    exact (nextFree_least found unused (compact.behind unused notZero)).2.1
  · subst after
    intro i notZero below
    obtain rfl | new := eq_or_ne i k
    · exact ⟨_, Finmap.lookup_insert _⟩
    · rw [Finmap.lookup_insert_of_ne _ new]
      by_cases before : i ≤ s.index
      · exact compact.inUse i notZero before
      · exact passed i (UInt32.not_le.mp before) (UInt32.lt_of_le_of_ne below new)
  · subst after
    rw [Finmap.lookup_insert_of_ne _ above.symm]
    exact compact.sentinel

/-- A pointer that is stored keeps its id, and the cursor stays. -/
theorem Compact.register_known (compact : Compact s) (known : s.ptr2id.lookup p ≠ none)
    (returned : s.register p = some (k, s')) : k ≠ 0 ∧ Compact s' := by
  have coherent := register_coherent compact.coherent returned
  obtain ⟨r, _, stored, rfl⟩ | ⟨unknown, _, _⟩ := register_cases returned
  · have above : k ≠ 0 := by
      rintro rfl
      rw [compact.sentinel] at stored
      cases stored
    refine ⟨above, coherent, ?_, ?_⟩
    · intro i notZero below
      obtain rfl | other := eq_or_ne i k
      · exact ⟨_, Finmap.lookup_insert _⟩
      · rw [Finmap.lookup_insert_of_ne _ other]
        exact compact.inUse i notZero below
    · rw [Finmap.lookup_insert_of_ne _ above.symm]
      exact compact.sentinel
  · exact absurd unknown known

/-- The id that is decremented in `remove` is not zero, so that the decrement does not
wrap. -/
theorem Compact.decrement (compact : Compact s) {r : Ref P} (stored : s.id2ptr.lookup k = some r) :
    (k - 1).toNat + 1 = k.toNat := by
  have positive : 1 ≤ k := by
    rw [one_le_iff]
    rintro rfl
    rw [compact.sentinel] at stored
    cases stored
  have order := UInt32.le_iff_toNat_le.mp positive
  rw [UInt32.toNat_sub_of_le _ _ positive]
  change 1 ≤ _ at order
  change _ - 1 + 1 = _
  omega

/-- A removal keeps the ids up to the cursor in use: the cursor falls back before an id
that is freed. -/
theorem Compact.remove (compact : Compact s) (k : UInt32) : Compact (s.remove k) := by
  have coherent := remove_coherent compact.coherent k
  cases stored : s.id2ptr.lookup k with
  | none =>
    have same : s.remove k = s := by simp [PtrStore.remove, stored]
    rw [same]
    exact compact
  | some r =>
    have above : k ≠ 0 := by
      rintro rfl
      rw [compact.sentinel] at stored
      cases stored
    by_cases more : 0 < r.count - 1
    · refine ⟨coherent, ?_, ?_⟩
      · intro i notZero below
        simp only [PtrStore.remove, stored, if_pos more] at below ⊢
        obtain rfl | other := eq_or_ne i k
        · exact ⟨_, Finmap.lookup_insert _⟩
        · rw [Finmap.lookup_insert_of_ne _ other]
          exact compact.inUse i notZero below
      · simp only [PtrStore.remove, stored, if_pos more]
        rw [Finmap.lookup_insert_of_ne _ above.symm]
        exact compact.sentinel
    · have spared : ∀ i, i ≤ (s.remove k).index → i ≤ s.index ∧ i ≠ k := by
        intro i below
        have one := compact.decrement stored
        simp only [PtrStore.remove, stored, if_neg more] at below
        rw [UInt32.le_iff_toNat_le] at below ⊢
        split at below
        · rename_i inside
          rw [UInt32.le_iff_toNat_le] at inside
          exact ⟨by omega, fun same => by subst same; omega⟩
        · rename_i outside
          rw [UInt32.le_iff_toNat_le] at outside
          exact ⟨below, fun same => by subst same; omega⟩
      refine ⟨coherent, ?_, ?_⟩
      · intro i notZero below
        obtain ⟨inside, other⟩ := spared i below
        simp only [PtrStore.remove, stored, if_neg more]
        rw [Finmap.lookup_erase_ne other]
        exact compact.inUse i notZero inside
      · simp only [PtrStore.remove, stored, if_neg more]
        rw [Finmap.lookup_erase_ne above.symm]
        exact compact.sentinel

/-- A call that leaves an id to spare returns and keeps the ids compact. -/
theorem step_compact (compact : Compact s) (call : Call P) (room : LeavesId s call) :
    ∃ s', step s call = some s' ∧ Compact s' := by
  cases call with
  | register p =>
    obtain ⟨k, s', returned⟩ := register_returns compact.coherent (by
      change s.live ≤ _ at room
      omega) p
    refine ⟨s', by simp [step, returned], ?_⟩
    by_cases known : s.ptr2id.lookup p = none
    · exact (compact.register_least room known returned).2.2.2
    · exact (compact.register_known known returned).2
  | lookup k => exact ⟨s, rfl, compact⟩
  | remove k => exact ⟨s.remove k, rfl, compact.remove k⟩

/-- Every history that leaves two ids free before each registration runs to its end. In
the state it reaches all ids from one up to the cursor are in use; a registration of a
pointer that is not stored returns the least id above zero that is free; zero is never
returned, and the decrement in `remove` never wraps. -/
theorem ids_are_compact (calls : List (Call P)) (room : Allowed step LeavesId newPtrStore calls) :
    ∃ s, run step newPtrStore calls = some s ∧
      (∀ k : UInt32, 1 ≤ k → k ≤ s.index → ∃ r, s.id2ptr.lookup k = some r) ∧
      (∀ p, LeavesId s (.register p) → s.ptr2id.lookup p = none → ∃ k s',
        s.register p = some (k, s') ∧ 1 ≤ k ∧ s.id2ptr.lookup k = none ∧
          ∀ j, 1 ≤ j → s.id2ptr.lookup j = none → k ≤ j) ∧
      (∀ p k s', LeavesId s (.register p) → s.register p = some (k, s') → k ≠ 0) ∧
      (∀ k r, s.id2ptr.lookup k = some r → (k - 1).toNat + 1 = k.toNat) := by
  have start : Compact (newPtrStore : PtrStore P) := by
    refine ⟨newPtrStore_coherent, ?_, rfl⟩
    intro k notZero below
    exact absurd (UInt32.le_zero_iff.mp below) notZero
  obtain ⟨s, reached, compact⟩ := allowed_completes start
    (fun s call compact room => step_compact compact call room) room
  refine ⟨s, reached, ?_, ?_, ?_, ?_⟩
  · intro k positive below
    exact compact.inUse k (one_le_iff.mp positive) below
  · intro p spare unknown
    obtain ⟨k, s', returned⟩ := register_returns compact.coherent (by
      change s.live ≤ _ at spare
      omega) p
    obtain ⟨notZero, free, least, _⟩ := compact.register_least spare unknown returned
    refine ⟨k, s', returned, one_le_iff.mpr notZero, free, ?_⟩
    intro j positive unused
    exact least j (one_le_iff.mp positive) unused
  · intro p k s' spare returned
    by_cases known : s.ptr2id.lookup p = none
    · exact (compact.register_least spare known returned).1
    · exact (compact.register_known known returned).1
  · intro k r stored
    exact compact.decrement stored

/-- A history of fewer than `2 ^ 32` calls leaves an id to spare at each of them. -/
theorem leavesId_of_short {calls : List (Call P)} (short : calls.length ≤ 2 ^ 32 - 1) :
    Allowed step LeavesId newPtrStore calls := by
  intro before call after split s reached
  have bounded := live_le_length reached
  rw [split, List.length_append, List.length_cons] at short
  cases call with
  | register p =>
    change s.live ≤ _
    omega
  | lookup k => trivial
  | remove k => trivial

/-- The first of two ids is given back: it is the next one to be issued. -/
theorem first_id_reused :
    Allowed step LeavesId newPtrStore [.register 7, .register 8, .remove 1] ∧
      ∃ s : PtrStore Nat, run step newPtrStore [.register 7, .register 8, .remove 1] = some s ∧
        s.lookup 2 = some 8 ∧ ∃ s', s.register 9 = some (1, s') := by
  have room : Allowed step LeavesId (newPtrStore : PtrStore Nat)
      [.register 7, .register 8, .remove 1] := leavesId_of_short (by decide)
  obtain ⟨s, reached, _, least, _⟩ := ids_are_compact _ room
  obtain rfl := Option.some.inj reached
  obtain ⟨k, s', returned, positive, _, below⟩ := least 9 (by change _ ≤ _; decide) rfl
  obtain rfl : k = 1 := UInt32.le_antisymm (below 1 (by decide) rfl) positive
  exact ⟨room, _, rfl, rfl, s', returned⟩

end GoQuickjs.HandleTable
