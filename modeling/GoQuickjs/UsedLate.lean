import GoQuickjs.References

/-!
# What a conversion uses too late

`fromJsObject` gives a key back right after it has read the property, and passes it
to the engine once more when the property has been converted. Everything else that a
conversion touches it still owns: what one element or property gave back no later
one is about.
-/

namespace GoQuickjs

open Tracing Traced Filter

/-- At this path a key that carries a reference is used after it was given back: its
property was converted. -/
def MisusesAt (r : Reading) (p : Path) : Prop :=
  ∃ atoms i, r p = .object (.ok atoms) ∧ (atomRef p atoms i).isSome ∧
    ∀ j ≤ i, Converts r (j :: p)

variable {r : Reading} {p : Path} {convert : Path → Owning GoResult}

/-- An element is converted in order when what is below it is. -/
theorem arrayElement_orderly (located : Located convert) {i : Nat}
    (orderly : Orderly (convert (i :: p)).trace) (res : List Decoded) :
    Orderly (arrayElement r p convert i res).trace := by
  by_cases thrown : (r (i :: p)).IsThrown
  · cases read : r (i :: p) with
    | thrown x =>
      simp only [arrayElement, read]
      exact orderly_before (by simp) (then_orderly (exception_orderly _ x) fun _ => rfl)
    | _ => simp [read, Answer.IsThrown] at thrown
  · rw [arrayElement_read thrown]
    have held : Orderly (holding (valueRef r (i :: p)) (convert (i :: p))).trace := by
      refine holding_orderly orderly fun x owner gave => ?_
      obtain rfl := mem_owned owner
      exact (located _ _ gave).2 rfl
    refine orderly_before (by simp) (then_orderly held fun result => ?_)
    cases result <;> rfl

/-- Reading and converting a property is in order: its key is given back first. -/
theorem property_held_orderly (located : Located convert) {i : Nat}
    (orderly : Orderly (convert (i :: p)).trace) (atoms : List JSAtom) :
    Orderly (holding (valueRef r (i :: p)) (gives (atomRef p atoms i) >>= fun _ =>
      convert (i :: p))).trace := by
  refine holding_orderly (orderly_append ?_ orderly ?_) ?_
  · cases atomRef p atoms i with
    | none => exact List.Pairwise.nil
    | some x => exact List.pairwise_singleton _ _
  · intro x gave e listed same
    obtain ⟨y, owner, acted⟩ := List.mem_map.mp gave
    obtain rfl : y = x := Event.give.inj acted
    obtain rfl := mem_owned (Option.mem_toList.mp owner)
    have below := (located _ e listed).1
    rw [same] at below
    exact not_below_child below
  · intro x owner gave
    obtain rfl := mem_owned owner
    rcases List.mem_append.mp gave with key | converted
    · obtain ⟨y, keyed, acted⟩ := List.mem_map.mp key
      obtain rfl := mem_owned (Option.mem_toList.mp keyed)
      simp at acted
    · exact (located _ _ converted).2 rfl

/-- A property is converted in order when what is below it is and its atom, once freed, is not
asked for its text. -/
theorem objectProperty_orderly (located : Located convert) {i : Nat} {atoms : List JSAtom}
    (orderly : Orderly (convert (i :: p)).trace)
    (unused : atomRef p atoms i = none ∨ ∀ ev, (convert (i :: p)).ending ≠ .returns (.ok ev))
    (res : List (List UInt8 × Decoded)) :
    Orderly (objectProperty r p convert atoms i res).trace := by
  refine orderly_before (by simp) (orderly_before (by simp) ?_)
  refine bind_orderly (property_held_orderly located orderly atoms) fun result ended => ?_
  cases result with
  | error e => exact ⟨List.Pairwise.nil, fun _ _ e listed => absurd listed List.not_mem_nil⟩
  | ok ev =>
    have converted : (convert (i :: p)).ending = .returns (.ok ev) := by simpa using ended
    have uncounted : atomRef p atoms i = none :=
      unused.resolve_right fun never => never ev converted
    simp only [uncounted, uses_bind, Option.toList_none, List.map_nil, List.nil_append]
    refine ⟨then_orderly (holding_orderly List.Pairwise.nil (by simp)) fun _ => rfl, ?_⟩
    intro x gave e listed same
    have key : e.subject = ⟨.node p, .key i⟩ := by
      rcases mem_bind listed with held | ⟨-, -, nothing⟩
      · rcases mem_holding held with nothing | ⟨y, owner, acted⟩
        · simp at nothing
        · obtain rfl : _ = y := by simpa using owner
          rcases acted with rfl | rfl <;> rfl
      · simp at nothing
    obtain rfl : _ = x := key.symm.trans same
    rcases mem_holding gave with inner | ⟨y, owner, acted⟩
    · have below := (located _ _ (by simpa using inner)).1
      exact not_below_child below
    · obtain rfl := mem_owned owner
      simp at acted

/-- What one element gave back no later element touches. -/
theorem elements_apart (located : Located convert) {i j : Nat} (before : i < j)
    {res res' : List Decoded} {x : Resource} (gave : .give x ∈ (arrayElement r p convert i res).trace)
    {e : Event Resource} (listed : e ∈ (arrayElement r p convert j res').trace) : e.subject ≠ x := by
  rcases mem_arrayElement located gave with never | below
  · simp at never
  rintro rfl
  rcases mem_arrayElement located listed with rfl | later
  · exact not_below_child below
  · have same := Resource.Below.unique below later
    omega

/-- What one property gave back no later property touches. -/
theorem properties_apart (located : Located convert) {atoms : List JSAtom} {i j : Nat}
    (before : i < j) {res res' : List (List UInt8 × Decoded)} {x : Resource}
    (gave : .give x ∈ (objectProperty r p convert atoms i res).trace) {e : Event Resource}
    (listed : e ∈ (objectProperty r p convert atoms j res').trace) : e.subject ≠ x := by
  have known : x = ⟨.node p, .atom i⟩ ∨ x = ⟨.node p, .key i⟩ ∨ x.Below (i :: p) :=
    (mem_objectProperty located gave).resolve_left (by simp)
  intro same
  rcases mem_objectProperty located listed with rfl | about | about | later
  · obtain rfl : ⟨.node p, .value⟩ = x := same
    rcases known with atom | key | below
    · simp at atom
    · simp at key
    · exact not_below_child below
  · obtain rfl : _ = x := about.symm.trans same
    rcases known with atom | key | below
    · have index : j = i := by simpa using atom
      omega
    · simp at key
    · exact not_below_child below
  · obtain rfl : _ = x := about.symm.trans same
    rcases known with atom | key | below
    · simp at atom
    · have index : j = i := by simpa using key
      omega
    · exact not_below_child below
  · rw [same] at later
    rcases known with rfl | rfl | below
    · exact not_below_child later
    · exact not_below_child later
    · have index := Resource.Below.unique below later
      omega

/-- An array is converted in order when each element it comes to is. -/
theorem fromJsArray_orderly (located : Located convert) {length : Except Thrown JSValue}
    (orderly : ∀ i < (elementCount length).toNat, Passed (arrayElement r p convert) 0 i →
      Orderly (convert (i :: p)).trace) : Orderly (fromJsArray r p convert length).trace := by
  refine orderly_before (by simp) (holdingDeferred_orderly ?_ ?_)
  · split
    · exact List.Pairwise.nil
    · refine then_orderly (each_orderly ?_ ?_) ?_
      · exact fun i _ below passed res =>
          arrayElement_orderly located (orderly i (by omega) passed) res
      · exact fun i j before res res' x gave e listed => elements_apart located before gave listed
      · intro result
        cases result <;> rfl
  · intro x owner gave
    obtain rfl : x = ⟨.node p, .length⟩ := by
      cases length with
      | error thrown => simp [lengthRef] at owner
      | ok arrLen => exact mem_owned owner
    split at gave
    · simp [panicking] at gave
    · rcases mem_bind gave with looped | ⟨result, -, nothing⟩
      · obtain ⟨i, res, -, -, inside⟩ := mem_each looped
        rcases mem_arrayElement located inside with never | below
        · simp at never
        · exact not_below_child below
      · cases result <;> simp at nothing

/-- An object is converted in order when each property it comes to is. -/
theorem fromJsObject_orderly (located : Located convert) {atoms : List JSAtom}
    (orderly : ∀ i < atoms.length, Passed (objectProperty r p convert atoms) 0 i →
      Orderly (convert (i :: p)).trace ∧
        (atomRef p atoms i = none ∨ ∀ ev, (convert (i :: p)).ending ≠ .returns (.ok ev))) :
    Orderly (fromJsObject r p convert (.ok atoms)).trace := by
  refine orderly_before (by simp) (orderly_before (by simp) (orderly_before (by simp) ?_))
  refine bind_orderly (each_orderly ?_ ?_) fun result _ => ?_
  · intro i _ below passed res
    obtain ⟨inner, unused⟩ := orderly i (by omega) passed
    exact objectProperty_orderly located inner unused res
  · exact fun i j before res res' x gave e listed => properties_apart located before gave listed
  · cases result with
    | error e => exact ⟨List.Pairwise.nil, fun _ _ e listed => absurd listed List.not_mem_nil⟩
    | ok res =>
      refine ⟨List.pairwise_singleton _ _, ?_⟩
      intro x gave e listed same
      obtain rfl : e = .give ⟨.node p, .table⟩ := by simpa using listed
      obtain rfl : _ = x := same
      obtain ⟨i, res, -, -, inside⟩ := mem_each gave
      rcases mem_objectProperty located inside with never | about | about | below
      · simp at never
      · simp [Event.subject] at about
      · simp [Event.subject] at about
      · exact not_below_child below

/-- A conversion that gets to no key that is used too late is orderly.

Proof: induction on the depth. A property of an object with counted keys that was
converted would be such a key, so the conversion of the property does not return a
value and its key is not used again. -/
theorem fromJsValue_orderly {depth : Nat} (proper : ∀ q, Reaches r p q → ¬ MisusesAt r q) :
    Orderly (fromJsValue r depth p).trace := by
  induction depth generalizing p with
  | zero => exact List.Pairwise.nil
  | succ depth inductionHypothesis =>
    have located := fromJsValue_located r depth
    cases read : r p with
    | thrown x =>
      simp only [fromJsValue, read]
      exact then_orderly (exception_orderly _ x) fun _ => rfl
    | string bytes =>
      simp only [fromJsValue, read]
      have text : (goStringN bytes (Int32.ofNat bytes.length)).trace = [] := by
        simp only [goStringN]
        split <;> rfl
      refine orderly_before (by simp) (holding_orderly ?_ ?_)
      · rw [text]
        exact List.Pairwise.nil
      · rw [text]
        simp
    | array length =>
      simp only [fromJsValue, read]
      refine orderly_before (by simp) (fromJsArray_orderly located fun i below passed => ?_)
      obtain ⟨unthrown, converted⟩ := elements_passed passed fun q ev => converts_of_returns
      exact inductionHypothesis fun q reached =>
        proper q (.element read below unthrown converted reached)
    | object names =>
      cases names with
      | error x =>
        simp only [fromJsValue, read]
        exact orderly_before (by simp) (orderly_before (by simp) List.Pairwise.nil)
      | ok atoms =>
        simp only [fromJsValue, read]
        refine orderly_before (by simp) (fromJsObject_orderly located fun i below passed => ?_)
        have converted := properties_passed passed fun q ev => converts_of_returns
        refine ⟨inductionHypothesis fun q reached =>
          proper q (.property read below converted reached), ?_⟩
        by_cases uncounted : atomRef p atoms i = none
        · exact Or.inl uncounted
        · refine Or.inr fun ev ended => proper p (.here p) ⟨atoms, i, read, ?_, ?_⟩
          · exact Option.isSome_iff_ne_none.mpr uncounted
          · intro j upto
            rcases Nat.lt_or_eq_of_le upto with before | rfl
            · exact converted j before
            · exact converts_of_returns ended
    | function f =>
      simp only [fromJsValue, read]
      exact orderly_before (by simp) List.Pairwise.nil
    | other v =>
      simp only [fromJsValue, read]
      exact orderly_before (by simp) List.Pairwise.nil
    | _ =>
      simp only [fromJsValue, read]
      exact List.Pairwise.nil

/-- The trace of an element is part of that of the array. -/
theorem arrayElement_sublist {i : Nat} (unthrown : ¬ (r (i :: p)).IsThrown) (res : List Decoded) :
    (convert (i :: p)).trace.Sublist (arrayElement r p convert i res).trace := by
  rw [arrayElement_read unthrown]
  exact ((holding_sublist _ _).trans (bind_sublist _ _)).trans (List.sublist_append_right _ _)

/-- The trace of a property is part of that of the object. -/
theorem objectProperty_sublist (atoms : List JSAtom) (i : Nat)
    (res : List (List UInt8 × Decoded)) :
    (convert (i :: p)).trace.Sublist (objectProperty r p convert atoms i res).trace := by
  refine List.Sublist.trans ?_ (List.sublist_append_right _ _)
  refine List.Sublist.trans ?_ (List.sublist_append_right _ _)
  refine List.Sublist.trans ?_ (bind_sublist _ _)
  refine List.Sublist.trans ?_ (holding_sublist _ _)
  exact List.sublist_append_right _ _

/-- A key whose property was converted is used after it was given back. -/
theorem objectProperty_misuses {atoms : List JSAtom} {i : Nat} {x : Resource}
    (counted : atomRef p atoms i = some x) {ev : Decoded}
    (converted : (convert (i :: p)).ending = .returns (.ok ev))
    (res : List (List UInt8 × Decoded)) :
    [.give x, .use x].Sublist (objectProperty r p convert atoms i res).trace := by
  have ended : (holding (valueRef r (i :: p)) (gives (atomRef p atoms i) >>= fun _ =>
      convert (i :: p))).ending = .returns (.ok ev) := by simpa using converted
  have gave : [.give x].Sublist (holding (valueRef r (i :: p)) (gives (atomRef p atoms i) >>= fun _ =>
      convert (i :: p))).trace := by
    refine List.Sublist.trans ?_ (holding_sublist _ _)
    simp [counted]
  simp only [objectProperty, uses_bind, bind_returns ended]
  refine List.Sublist.trans ?_ (List.sublist_append_right _ _)
  refine List.Sublist.trans ?_ (List.sublist_append_right _ _)
  apply List.Sublist.append gave
  simp [counted]

/-- The trace of the loop over the elements is part of that of the array. -/
theorem fromJsArray_sublist {length : Except Thrown JSValue} (nonnegative : 0 ≤ elementCount length) :
    (each (arrayElement r p convert) (elementCount length).toNat 0 []).trace.Sublist
      (fromJsArray r p convert length).trace := by
  simp only [fromJsArray, if_neg (Int.not_lt.mpr nonnegative)]
  exact ((bind_sublist _ _).trans (holdingDeferred_sublist _ _)).trans
    (List.sublist_append_right _ _)

/-- The trace of the loop over the properties is part of that of the object. -/
theorem fromJsObject_sublist (atoms : List JSAtom) :
    (each (objectProperty r p convert atoms) atoms.length 0 []).trace.Sublist
      (fromJsObject r p convert (.ok atoms)).trace := by
  refine List.Sublist.trans ?_ (List.sublist_append_right _ _)
  refine List.Sublist.trans ?_ (List.sublist_append_right _ _)
  refine List.Sublist.trans ?_ (List.sublist_append_right _ _)
  exact bind_sublist _ _

/-- A key that is used too late is used so at every depth that is large enough. -/
theorem MisusesAt.used (misuse : MisusesAt r p) :
    ∃ x, ∀ᶠ depth in atTop, [.give x, .use x].Sublist (fromJsValue r depth p).trace := by
  obtain ⟨atoms, i, read, counted, converts⟩ := misuse
  obtain ⟨x, owner⟩ := Option.isSome_iff_exists.mp counted
  have inside : i < atoms.length := by
    by_contra beyond
    simp [atomRef, owned, List.getElem?_eq_none (Nat.le_of_not_lt beyond)] at owner
  refine ⟨x, ?_⟩
  have earlier := eventually_below (n := i + 1) fun j before => (converts j (by omega)).returns
  refine eventually_succ (earlier.mono fun depth converted => ?_)
  obtain ⟨ev, last⟩ := converted i (by omega)
  have looped : [.give x, .use x].Sublist
      (each (objectProperty r p (fromJsValue r depth) atoms) atoms.length 0 []).trace :=
    each_sublist (Nat.zero_le i) (by omega)
      (properties_pass r atoms fun j before => converted j (by omega))
      (objectProperty_misuses owner last)
  simp only [fromJsValue, read]
  exact (looped.trans (fromJsObject_sublist atoms)).trans (List.sublist_append_right _ _)

/-- A conversion that gets to a key that is used too late uses it at every depth that
is large enough.

Proof: induction on the way to the object. -/
theorem Reaches.misuses {q : Path} (reached : Reaches r p q) (misuse : MisusesAt r q) :
    ∃ x, ∀ᶠ depth in atTop, [.give x, .use x].Sublist (fromJsValue r depth p).trace := by
  induction reached with
  | here p => exact misuse.used
  | @element p q length i read below unthrown converts deeper inductionHypothesis =>
    obtain ⟨x, later⟩ := inductionHypothesis misuse
    have readable : ¬ (r (i :: p)).IsThrown := by
      intro thrown
      obtain rfl := deeper.eq_of_thrown thrown
      obtain ⟨atoms, k, object, -⟩ := misuse
      simp [object, Answer.IsThrown] at thrown
    refine ⟨x, ?_⟩
    have earlier := eventually_below fun j before => (converts j before).returns
    refine eventually_succ ((later.and earlier).mono ?_)
    rintro depth ⟨used, converted⟩
    have inside : i < 0 + (elementCount length).toNat := by omega
    have looped := each_sublist (a := []) (Nat.zero_le i) inside (elements_pass unthrown converted)
      fun res => used.trans (arrayElement_sublist readable res)
    simp only [fromJsValue, read]
    exact (looped.trans (fromJsArray_sublist (by omega))).trans (List.sublist_append_right _ _)
  | @property p q atoms i read below converts deeper inductionHypothesis =>
    obtain ⟨x, later⟩ := inductionHypothesis misuse
    refine ⟨x, ?_⟩
    have earlier := eventually_below fun j before => (converts j before).returns
    refine eventually_succ ((later.and earlier).mono ?_)
    rintro depth ⟨used, converted⟩
    have looped : [.give x, .use x].Sublist
        (each (objectProperty r p (fromJsValue r depth) atoms) atoms.length 0 []).trace :=
      each_sublist (Nat.zero_le i) (by omega) (properties_pass r atoms converted)
        fun res => used.trans (objectProperty_sublist atoms i res)
    simp only [fromJsValue, read]
    exact (looped.trans (fromJsObject_sublist atoms)).trans (List.sublist_append_right _ _)

end GoQuickjs
