import GoQuickjs.Library.Runs
import GoQuickjs.PtrStore

/-!
# The store as a reference-counted handle table

A history is a finite sequence of method calls on a store made by `newPtrStore`,
with any pointers and any ids. The purpose of the store is stated over the
history alone: an id freshly given to a pointer stays bound to it while the
registrations of the pointer since then outnumber the removals of the id, and is
free again at the removal that makes the two numbers equal.

The model of the store is related to that purpose by the effect of one call on
one bound id, followed along the history. The only condition on a history is that
some id is free whenever `register` is called.
-/

namespace GoQuickjs.HandleTable

open PtrStore Runs

variable {P : Type}

/-- A method call on the store. -/
inductive Call (P : Type) where
  | register : P → Call P
  | lookup : UInt32 → Call P
  | remove : UInt32 → Call P
deriving DecidableEq

variable [DecidableEq P]

/-- The store after one call; nothing when the call does not return. -/
def step (s : PtrStore P) : Call P → Option (PtrStore P)
  | .register p => (s.register p).map Prod.snd
  | .lookup _ => some s
  | .remove k => some (s.remove k)

/-- Fewer than `2 ^ 32` ids are live before a registration. -/
def HasRoom (s : PtrStore P) : Call P → Prop
  | .register _ => s.live < 2 ^ 32
  | _ => True

/-- After these calls, registering `p` gives it the id `k`, and `p` was unknown. -/
def Allocates (calls : List (Call P)) (p : P) (k : UInt32) : Prop :=
  ∃ s s', run step newPtrStore calls = some s ∧ s.ptr2id.lookup p = none ∧
    s.register p = some (k, s')

/-- The calls `since` follow the last registration that freshly gave `k` to `p`. -/
def LastAllocated (calls : List (Call P)) (p : P) (k : UInt32) (since : List (Call P)) : Prop :=
  ∃ before, calls = before ++ .register p :: since ∧ Allocates before p k ∧
    ∀ mid q rest, since = mid ++ .register q :: rest →
      ¬ Allocates (before ++ .register p :: mid) q k

/-- Registrations of `p` minus removals of `k`, the allocating registration
included. -/
def balance (p : P) (k : UInt32) (since : List (Call P)) : Int :=
  1 + since.count (.register p) - since.count (.remove k)

theorem balance_snoc (p : P) (k : UInt32) (since : List (Call P)) (call : Call P) :
    balance p k (since ++ [call]) = balance p k since +
      (if call = .register p then 1 else 0) - (if call = .remove k then 1 else 0) := by
  simp only [balance, List.count_append, List.count_singleton, beq_iff_eq]
  split <;> split <;> push_cast <;> ring

/-! ## One call -/

/-- Each call keeps the store coherent. -/
theorem step_coherent {s s' : PtrStore P} {call : Call P} (coherent : s.Coherent)
    (taken : step s call = some s') : s'.Coherent := by
  cases call with
  | register p =>
    obtain ⟨⟨k, after⟩, returned, rfl⟩ := Option.map_eq_some_iff.mp taken
    exact register_coherent coherent returned
  | lookup k =>
    obtain rfl : s = s' := Option.some.inj taken
    exact coherent
  | remove k =>
    obtain rfl : s.remove k = s' := Option.some.inj taken
    exact remove_coherent coherent k

/-- With room for a registration every call returns. -/
theorem step_returns {s : PtrStore P} (coherent : s.Coherent) (call : Call P)
    (room : HasRoom s call) : ∃ s', step s call = some s' ∧ s'.Coherent := by
  cases call with
  | register p =>
    obtain ⟨k, s', returned⟩ := register_returns coherent room p
    exact ⟨s', by simp [step, returned], register_coherent coherent returned⟩
  | lookup k => exact ⟨s, rfl, coherent⟩
  | remove k => exact ⟨s.remove k, rfl, remove_coherent coherent k⟩

/-- A bound id under one call: its count moves by one for a registration of its
pointer and for a removal of the id, and it is forgotten at zero. -/
theorem step_bound {s s' : PtrStore P} {call : Call P} {p : P} {k : UInt32} {n : Int}
    (coherent : s.Coherent) (stored : s.id2ptr.lookup k = some ⟨p, n⟩)
    (taken : step s call = some s') :
    let rest := n + (if call = .register p then 1 else 0) - (if call = .remove k then 1 else 0)
    (0 < rest → s'.id2ptr.lookup k = some ⟨p, rest⟩) ∧
      (rest = 0 → s'.id2ptr.lookup k = none ∧ s'.ptr2id.lookup p = none) := by
  have positive : 1 ≤ n := coherent.counted k _ stored
  cases call with
  | register q =>
    obtain ⟨⟨j, after⟩, returned, rfl⟩ := Option.map_eq_some_iff.mp taken
    by_cases same : q = p
    · subst same
      have kept := (register_bound coherent stored returned).2
      simp only [reduceCtorEq, if_true, if_false, sub_zero]
      exact ⟨fun _ => kept, fun zero => by omega⟩
    · have kept := (register_elsewhere coherent stored same returned).2
      simp only [Call.register.injEq, same, reduceCtorEq, if_false, sub_zero, add_zero]
      exact ⟨fun _ => kept, fun zero => by omega⟩
  | lookup j =>
    obtain rfl : s = s' := Option.some.inj taken
    simp only [reduceCtorEq, if_false, sub_zero, add_zero]
    exact ⟨fun _ => stored, fun zero => by omega⟩
  | remove j =>
    obtain rfl : s.remove j = s' := Option.some.inj taken
    by_cases same : j = k
    · subst same
      simp only [reduceCtorEq, if_true, if_false, add_zero]
      exact ⟨fun more => remove_bound stored (by change 1 < n; omega),
        fun zero => remove_last stored (by change n ≤ 1; omega)⟩
    · simp only [Call.remove.injEq, same, reduceCtorEq, if_false, sub_zero, add_zero]
      exact ⟨fun _ => remove_elsewhere stored same, fun zero => by omega⟩

/-- An id that is not live before a call is live after it only when the call
allocated it. -/
theorem step_allocates {s s' : PtrStore P} {call : Call P} {k : UInt32} {r : Ref P}
    (free : s.id2ptr.lookup k = none) (taken : step s call = some s')
    (stored : s'.id2ptr.lookup k = some r) :
    call = .register r.ptr ∧ r.count = 1 ∧ s.ptr2id.lookup r.ptr = none ∧
      s.register r.ptr = some (k, s') := by
  cases call with
  | register q =>
    obtain ⟨⟨j, after⟩, returned, rfl⟩ := Option.map_eq_some_iff.mp taken
    obtain ⟨found, _, entry, rfl⟩ | ⟨unknown, _, rfl⟩ := register_cases returned
    · by_cases same : k = j
      · subst same
        rw [free] at entry
        cases entry
      · rw [Finmap.lookup_insert_of_ne _ same, free] at stored
        cases stored
    · by_cases same : k = j
      · subst same
        obtain rfl : _ = r := by simpa [Finmap.lookup_insert] using stored
        exact ⟨rfl, rfl, unknown, returned⟩
      · rw [Finmap.lookup_insert_of_ne _ same, free] at stored
        cases stored
  | lookup j =>
    obtain rfl : s = s' := Option.some.inj taken
    rw [free] at stored
    cases stored
  | remove j =>
    obtain rfl : s.remove j = s' := Option.some.inj taken
    obtain ⟨_, same⟩ | ⟨found, entry, _, lowered⟩ | ⟨_, _, _, _, dropped⟩ := s.remove_cases j
    · rw [same, free] at stored
      cases stored
    · by_cases same : k = j
      · subst same
        rw [free] at entry
        cases entry
      · rw [lowered, Finmap.lookup_insert_of_ne _ same, free] at stored
        cases stored
    · by_cases same : k = j
      · subst same
        rw [dropped, Finmap.lookup_erase] at stored
        cases stored
      · rw [dropped, Finmap.lookup_erase_ne same, free] at stored
        cases stored

/-- An id that is live before and after a call stays bound to its pointer, with
the count moved as `balance` moves. -/
theorem step_keeps {s s' : PtrStore P} {call : Call P} {k : UInt32} {r found : Ref P}
    (coherent : s.Coherent) (before : s.id2ptr.lookup k = some found)
    (taken : step s call = some s') (stored : s'.id2ptr.lookup k = some r) :
    r.ptr = found.ptr ∧ r.count = found.count +
      (if call = .register found.ptr then 1 else 0) - (if call = .remove k then 1 else 0) := by
  have positive : 1 ≤ found.count := coherent.counted k found before
  obtain ⟨kept, gone⟩ := step_bound (p := found.ptr) (n := found.count) coherent before taken
  have bounded : 0 ≤ found.count + (if call = .register found.ptr then 1 else 0) -
      (if call = .remove k then 1 else 0) := by
    split <;> split <;> omega
  rcases bounded.eq_or_lt' with zero | more
  · rw [(gone zero).1] at stored
    cases stored
  · rw [kept more] at stored
    obtain rfl := Option.some.inj stored
    exact ⟨rfl, rfl⟩

/-! ## Whole histories -/

/-- Every store reached from `newPtrStore` is coherent. -/
theorem reached_coherent {calls : List (Call P)} {s : PtrStore P}
    (reached : run step newPtrStore calls = some s) : s.Coherent :=
  run_invariant newPtrStore_coherent
    (fun _ _ _ coherent taken => step_coherent coherent taken) reached

/-- While the balance stays positive along the calls, the id stays bound to its
pointer and the stored count is the balance. -/
theorem bound_while_positive {s s' : PtrStore P} {p : P} {k : UInt32} {since : List (Call P)}
    (coherent : s.Coherent) (fresh : s.id2ptr.lookup k = some ⟨p, 1⟩)
    (positive : ∀ part, part <+: since → 0 < balance p k part)
    (reached : run step s since = some s') :
    s'.Coherent ∧ s'.id2ptr.lookup k = some ⟨p, balance p k since⟩ := by
  induction since using List.reverseRecOn generalizing s' with
  | nil =>
    obtain rfl : s = s' := Option.some.inj reached
    exact ⟨coherent, by simpa [balance] using fresh⟩
  | append_singleton since call inductionHypothesis =>
    obtain ⟨middle, earlier, taken⟩ := run_snoc.mp reached
    obtain ⟨held, stored⟩ := inductionHypothesis
      (fun part isPart => positive part (isPart.trans (List.prefix_append since [call]))) earlier
    have more := positive (since ++ [call]) (List.prefix_refl _)
    rw [balance_snoc] at more ⊢
    exact ⟨step_coherent held taken, (step_bound held stored taken).1 more⟩

/-- The store right after an allocation binds the id to the pointer once. -/
theorem allocates_bound {before since : List (Call P)} {p : P} {k : UInt32} {s : PtrStore P}
    (allocated : Allocates before p k)
    (reached : run step newPtrStore (before ++ .register p :: since) = some s) :
    ∃ first : PtrStore P, first.Coherent ∧ first.id2ptr.lookup k = some ⟨p, 1⟩ ∧
      run step first since = some s := by
  obtain ⟨origin, first, there, unknown, returned⟩ := allocated
  obtain ⟨middle, here, onward⟩ := run_split.mp reached
  obtain rfl : origin = middle := Option.some.inj (there.symm.trans here)
  refine ⟨first, register_coherent (reached_coherent there) returned, ?_, ?_⟩
  · obtain ⟨_, known, _⟩ | ⟨_, _, rfl⟩ := register_cases returned
    · rw [unknown] at known
      cases known
    · exact Finmap.lookup_insert _
  · simpa [run, step, returned] using onward

/-- An allocation finds its id free. -/
theorem allocates_free {before : List (Call P)} {p : P} {k : UInt32} {s : PtrStore P}
    (allocated : Allocates before p k) (reached : run step newPtrStore before = some s) :
    s.id2ptr.lookup k = none := by
  obtain ⟨origin, first, there, unknown, returned⟩ := allocated
  obtain rfl : origin = s := Option.some.inj (there.symm.trans reached)
  obtain ⟨_, known, _⟩ | ⟨_, free, _⟩ := register_cases returned
  · rw [unknown] at known
    cases known
  · exact free

/-- A live id has a last allocation, to the pointer it is bound to, and its count
is the balance of the calls made since.

Proof: reverse induction on the history. The last call either allocated the id,
and nothing has happened since, or moved the count of an id that was already
live, which no later allocation can have been given. -/
theorem live_counted {calls : List (Call P)} {s : PtrStore P} {k : UInt32} {r : Ref P}
    (reached : run step newPtrStore calls = some s) (stored : s.id2ptr.lookup k = some r) :
    ∃ since, LastAllocated calls r.ptr k since ∧ r.count = balance r.ptr k since := by
  induction calls using List.reverseRecOn generalizing s r with
  | nil =>
    obtain rfl : newPtrStore = s := Option.some.inj reached
    simp [newPtrStore] at stored
  | append_singleton calls call inductionHypothesis =>
    obtain ⟨middle, earlier, taken⟩ := run_snoc.mp reached
    cases before : middle.id2ptr.lookup k with
    | none =>
      obtain ⟨rfl, once, unknown, returned⟩ := step_allocates before taken stored
      refine ⟨[], ⟨calls, rfl, ⟨middle, s, earlier, unknown, returned⟩, ?_⟩, ?_⟩
      · intro mid q rest split
        simp at split
      · simp [balance, once]
    | some found =>
      obtain ⟨same, moved⟩ := step_keeps (reached_coherent earlier) before taken stored
      obtain ⟨since, ⟨origin, split, allocated, final⟩, counted⟩ :=
        inductionHypothesis earlier before
      refine ⟨since ++ [call], ⟨origin, by simp [split, same], same ▸ allocated, ?_⟩, ?_⟩
      · intro mid q rest parts again
        rcases List.eq_nil_or_concat rest with rfl | ⟨front, last, rfl⟩
        · obtain ⟨rfl, _⟩ := List.append_inj' parts rfl
          have free := allocates_free again (by simpa [split, same] using earlier)
          rw [before] at free
          cases free
        · have trimmed : since = mid ++ .register q :: front := by
            have shape : since ++ [call] = (mid ++ .register q :: front) ++ [last] := by
              simpa using parts
            exact (List.append_inj' shape rfl).1
          exact final mid q front trimmed (by simpa [same] using again)
      · rw [moved, balance_snoc, same, counted]

/-- There is only one last allocation of an id to a pointer. -/
theorem lastAllocated_unique {calls since other : List (Call P)} {p : P} {k : UInt32}
    (here : LastAllocated calls p k since) (there : LastAllocated calls p k other) :
    since = other := by
  obtain ⟨before, split, allocated, final⟩ := here
  obtain ⟨before', split', allocated', final'⟩ := there
  rw [split] at split'
  rcases List.append_eq_append_iff.mp split' with ⟨mid, longer, rest⟩ | ⟨mid, longer, rest⟩
  · cases mid with
    | nil => simpa using rest
    | cons head mid =>
      obtain ⟨rfl, tail⟩ := List.cons.inj rest
      exact absurd (longer ▸ allocated') (final mid p other tail)
  · cases mid with
    | nil => simpa using rest.symm
    | cons head mid =>
      obtain ⟨rfl, tail⟩ := List.cons.inj rest
      exact absurd (longer ▸ allocated) (final' mid p since tail)

/-- Each call adds at most one live id. -/
theorem step_live {s s' : PtrStore P} {call : Call P} (taken : step s call = some s') :
    s'.live ≤ s.live + 1 := by
  by_cases fresh : ∃ k r, s.id2ptr.lookup k = none ∧ s'.id2ptr.lookup k = some r
  · obtain ⟨k, r, free, stored⟩ := fresh
    obtain ⟨rfl, _, _, returned⟩ := step_allocates free taken stored
    have grown : s'.id2ptr.keys ⊆ insert k s.id2ptr.keys := by
      intro j inside
      obtain ⟨record, held⟩ := Finmap.mem_iff.mp (Finmap.mem_keys.mp inside)
      cases before : s.id2ptr.lookup j with
      | some found =>
        exact Finset.mem_insert_of_mem (Finmap.mem_keys.mpr (Finmap.mem_of_lookup_eq_some before))
      | none =>
        obtain ⟨sameCall, _, _, again⟩ := step_allocates before taken held
        have samePtr : r.ptr = record.ptr := by simpa using sameCall
        rw [← samePtr, returned] at again
        have sameId : k = j := by simpa using again
        exact sameId ▸ Finset.mem_insert_self k _
    exact (Finset.card_le_card grown).trans (Finset.card_insert_le k _)
  · have shrunk : s'.id2ptr.keys ⊆ s.id2ptr.keys := by
      intro k inside
      obtain ⟨r, stored⟩ := Finmap.mem_iff.mp (Finmap.mem_keys.mp inside)
      by_contra absent
      exact fresh ⟨k, r, Finmap.lookup_eq_none.mpr (mt Finmap.mem_keys.mpr absent), stored⟩
    exact (Finset.card_le_card shrunk).trans (Nat.le_succ _)

/-- A history has at most as many live ids as calls. -/
theorem live_le_length {calls : List (Call P)} {s : PtrStore P}
    (reached : run step newPtrStore calls = some s) : s.live ≤ calls.length := by
  refine run_induction (motive := fun calls s => s.live ≤ calls.length) ?_ ?_ reached
  · simp [live, newPtrStore]
  · intro calls call s s' _ bounded taken
    have grown := step_live taken
    rw [List.length_append, List.length_singleton]
    omega

/-- A history of at most `2 ^ 32` calls never runs out of ids. -/
theorem hasRoom_of_short {calls : List (Call P)} (short : calls.length ≤ 2 ^ 32) :
    Allowed step HasRoom newPtrStore calls := by
  intro before call after split s reached
  have bounded := live_le_length reached
  have shorter : before.length < calls.length := by
    rw [split, List.length_append, List.length_cons]
    omega
  cases call with
  | register p => exact Nat.lt_of_le_of_lt bounded (Nat.lt_of_lt_of_le shorter short)
  | lookup k => trivial
  | remove k => trivial

/-- Every history that leaves a free id before each registration runs to its end
and the store behaves as a reference-counted handle table: the maps are mutually
inverse, stored counts are at least one, a live id's count is the balance of the
calls since its last allocation, the id keeps resolving to its pointer and is
handed to no other pointer while that balance is positive, and the removal that
brings it to zero forgets both the id and the pointer. -/
theorem behaves_as_handle_table (calls : List (Call P))
    (room : Allowed step HasRoom newPtrStore calls) :
    ∃ s, run step newPtrStore calls = some s ∧
      (∀ p k, s.ptr2id.lookup p = some k ↔ ∃ r, s.id2ptr.lookup k = some r ∧ r.ptr = p) ∧
      (∀ k r, s.id2ptr.lookup k = some r → 1 ≤ r.count) ∧
      (∀ k r, s.id2ptr.lookup k = some r →
        (∃ since, LastAllocated calls r.ptr k since) ∧
          ∀ since, LastAllocated calls r.ptr k since → r.count = balance r.ptr k since) ∧
      (∀ before p k since, calls = before ++ .register p :: since → Allocates before p k →
        (∀ part, part <+: since → 0 < balance p k part) →
          s.lookup k = some p ∧
            ∀ q j s', s.register q = some (j, s') → (j = k ↔ q = p)) ∧
      (∀ before p k since, calls = before ++ .register p :: (since ++ [.remove k]) →
        Allocates before p k → (∀ part, part <+: since → 0 < balance p k part) →
          balance p k (since ++ [.remove k]) = 0 →
            s.lookup k = none ∧ s.ptr2id.lookup p = none) := by
  obtain ⟨s, reached, coherent⟩ := allowed_completes newPtrStore_coherent
    (fun _ call held met => step_returns held call met) room
  refine ⟨s, reached, coherent.inverse, coherent.counted, ?_, ?_, ?_⟩
  · intro k r stored
    obtain ⟨since, last, counted⟩ := live_counted reached stored
    refine ⟨⟨since, last⟩, ?_⟩
    intro other again
    rw [counted, lastAllocated_unique last again]
  · rintro before p k since rfl allocated positive
    obtain ⟨first, held, fresh, onward⟩ := allocates_bound allocated reached
    obtain ⟨_, stored⟩ := bound_while_positive held fresh positive onward
    refine ⟨lookup_stored stored, ?_⟩
    intro q j s' returned
    by_cases same : q = p
    · subst same
      exact iff_of_true (register_bound coherent stored returned).1 rfl
    · exact iff_of_false (register_elsewhere coherent stored same returned).1 same
  · rintro before p k since rfl allocated positive spent
    obtain ⟨first, held, fresh, onward⟩ := allocates_bound allocated reached
    obtain ⟨middle, earlier, taken⟩ := run_snoc.mp onward
    obtain ⟨kept, stored⟩ := bound_while_positive held fresh positive earlier
    rw [balance_snoc] at spent
    obtain ⟨gone, unknown⟩ := (step_bound kept stored taken).2 spent
    exact ⟨by simp [PtrStore.lookup, gone], unknown⟩

/-- Two registrations of one pointer, a removal of an unknown id and one removal
too few leave the id bound; the theorem's conditions hold of this history. -/
theorem handle_survives_one_removal :
    Allowed step HasRoom newPtrStore
        [.register 7, .remove 5, .register 7, .remove 1] ∧
      ∃ s : PtrStore Nat, run step newPtrStore
        [.register 7, .remove 5, .register 7, .remove 1] = some s ∧ s.lookup 1 = some 7 := by
  have room : Allowed step HasRoom (newPtrStore : PtrStore Nat)
      [.register 7, .remove 5, .register 7, .remove 1] := hasRoom_of_short (by decide)
  obtain ⟨s, reached, _, _, _, kept, _⟩ := behaves_as_handle_table _ room
  refine ⟨room, s, reached, ?_⟩
  refine (kept [] 7 1 [.remove 5, .register 7, .remove 1] rfl ?_ ?_).1
  · exact ⟨newPtrStore, _, rfl, rfl, rfl⟩
  · intro part isPart
    have positive : ∀ part ∈ [Call.remove 5, .register 7, .remove 1].inits,
        0 < balance 7 1 part := by decide
    exact positive part ((List.mem_inits part _).mpr isPart)

end GoQuickjs.HandleTable
