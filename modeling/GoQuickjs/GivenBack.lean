import GoQuickjs.References

/-!
# What a conversion gives back

A conversion never gives back more than it took. When it returns, everything is
given back unless the conversion got to a leak: an exception that carries a
reference and is not an `Error` object, or an object one of whose properties fails,
which skips the end of `fromJsObject` where the table of keys is freed.
-/

namespace GoQuickjs

open Tracing Traced Filter

/-- At this path something is not given back: such an exception is fetched, or a
property of an object fails. -/
def LeaksAt (r : Reading) (p : Path) : Prop :=
  (r p).CountedOther ∨ ∃ atoms i, r p = .object (.ok atoms) ∧ i < atoms.length ∧
    (∀ j < i, Converts r (j :: p)) ∧ ∃ q, Reaches r (i :: p) q ∧ (r q).Reported

variable {r : Reading} {p : Path} {convert : Path → Owning GoResult}

/-- The references of the keys of an object, which its loop has to give back. -/
def atomRefs (p : Path) (atoms : List JSAtom) : List Resource :=
  (List.range' 0 atoms.length).flatMap fun i => (atomRef p atoms i).toList

/-- An element of an array leaves nothing to be given back if its conversion leaves nothing. -/
theorem arrayElement_owes (owes : ∀ q, (convert q).Owes []) (i : Nat) (res : List Decoded) :
    (arrayElement r p convert i res).Owes [] := by
  by_cases thrown : (r (i :: p)).IsThrown
  · cases read : r (i :: p) with
    | thrown x =>
      simp only [arrayElement, read]
      apply (used_carries _ _ _).owes
      exact bind_owes (exception_owes _ _) fun _ => (pure_settles _).owes
    | _ => simp [read, Answer.IsThrown] at thrown
  · rw [arrayElement_read thrown]
    apply (used_carries _ _ _).owes
    refine bind_owes ((holding_wraps _ _).owes (owes _)) fun result => ?_
    cases result <;> exact (pure_settles _).owes

/-- Storing a property gives back what it takes. -/
theorem key_settles {refs : List Resource} (key : Resource) {α : Type} (a : α) :
    (⟨.returns a, refs.map .use ++ (holding (some key) (pure () : Owning Unit) >>= fun _ =>
      (pure a : Owning α)).trace⟩ : Owning α).Settles [] := by
  refine (used_carries refs [] (holding (some key) (pure () : Owning Unit) >>= fun _ =>
    (pure a : Owning α))).settles ?_
  exact bind_settles (holding_ending _ _) ((holding_wraps _ _).settles rfl (pure_settles _))
    (pure_settles _)

/-- A property leaves at most its own name to be given back. -/
theorem objectProperty_owes (owes : ∀ q, (convert q).Owes []) (atoms : List JSAtom) (i : Nat)
    (res : List (List UInt8 × Decoded)) :
    (objectProperty r p convert atoms i res).Owes (atomRef p atoms i).toList := by
  apply (used_carries _ _ _).owes
  apply (used_carries _ _ _).owes
  have held : (holding (valueRef r (i :: p)) (gives (atomRef p atoms i) >>= fun _ =>
      convert (i :: p))).Owes (atomRef p atoms i).toList :=
    (holding_wraps _ _).owes (by simpa using (gave_carries _ _ _).owes (owes _))
  rw [← List.append_nil (atomRef p atoms i).toList]
  refine bind_owes held fun result => ?_
  cases result with
  | error e => exact (pure_settles _).owes
  | ok ev => exact (key_settles _ _).owes

/-- Decoding an array owes nothing if decoding the elements owes nothing. -/
theorem fromJsArray_owes (owes : ∀ q, (convert q).Owes []) (length : Except Thrown JSValue) :
    (fromJsArray r p convert length).Owes [] := by
  apply (used_carries _ _ _).owes
  apply (holdingDeferred_wraps _ _).owes
  split
  · exact owes_of_none (by simp [panicking]) []
  · refine bind_owes (each_owes_nothing (arrayElement_owes owes) _ 0 []) fun result => ?_
    cases result <;> exact (pure_settles _).owes

/-- Decoding an object owes nothing if decoding the properties owes nothing. -/
theorem fromJsObject_owes (owes : ∀ q, (convert q).Owes []) (names : Except Thrown (List JSAtom)) :
    (fromJsObject r p convert names).Owes [] := by
  apply (used_carries _ _ _).owes
  cases names with
  | error x => exact (pure_settles _).owes
  | ok atoms =>
    apply (took_carries [Resource.mk (.node p) .table] [] _).owes
    apply (took_carries (atomRefs p atoms) _ _).owes
    refine bind_owes (each_owes _ (objectProperty_owes owes atoms) _ 0 []) fun result => ?_
    cases result with
    | error e => exact owes_of_none (by simp) _
    | ok res => exact (gave_carries [Resource.mk (.node p) .table] [] (pure _)).owes (pure_settles _).owes

/-- No conversion gives back more than it took. -/
theorem fromJsValue_owes (r : Reading) (depth : Nat) (p : Path) :
    (fromJsValue r depth p).Owes [] := by
  induction depth generalizing p with
  | zero => exact owes_of_none (by simp [fromJsValue, unfinished]) []
  | succ depth inductionHypothesis =>
    cases read : r p with
    | thrown x =>
      simp only [fromJsValue, read]
      exact bind_owes (exception_owes _ _) fun _ => (pure_settles _).owes
    | string bytes =>
      simp only [fromJsValue, read]
      refine (used_carries _ _ _).owes ((holding_wraps _ _).owes (owes_of_none ?_ []))
      simp only [goStringN]
      split <;> simp [panicking]
    | array length =>
      simp only [fromJsValue, read]
      exact (used_carries _ _ _).owes (fromJsArray_owes inductionHypothesis length)
    | object names =>
      simp only [fromJsValue, read]
      exact (used_carries _ _ _).owes (fromJsObject_owes inductionHypothesis names)
    | function f =>
      simp only [fromJsValue, read]
      exact (used_carries _ _ _).owes (pure_settles _).owes
    | other v =>
      simp only [fromJsValue, read]
      exact (used_carries _ _ _).owes (pure_settles _).owes
    | _ =>
      simp only [fromJsValue, read]
      exact (pure_settles _).owes

/-- Fetching an exception settles unless it carries a reference and is no `Error`. -/
theorem exception_settles (place : Place) {x : Thrown} (known : ¬ (Answer.thrown x).CountedOther) :
    (fromJsException place (some x)).Settles [] := by
  cases x with
  | error stack name => exact error_settles place stack name
  | other v => exact other_settles place (by simpa [Answer.CountedOther] using known)

/-- An element whose conversion gives back all it takes does the same. -/
theorem arrayElement_settles {i : Nat} {res : List Decoded} {result : Except GoResult (List Decoded)}
    (known : ¬ (r (i :: p)).CountedOther)
    (settles : ∀ result, (convert (i :: p)).ending = .returns result → (convert (i :: p)).Settles [])
    (returned : (arrayElement r p convert i res).ending = .returns result) :
    (arrayElement r p convert i res).Settles [] := by
  by_cases thrown : (r (i :: p)).IsThrown
  · cases read : r (i :: p) with
    | thrown x =>
      rw [read] at known
      simp only [arrayElement, read]
      apply (used_carries _ _ _).settles
      exact bind_settles (fromJsException_ending _ x) (exception_settles _ known) (pure_settles _)
    | _ => simp [read, Answer.IsThrown] at thrown
  · rw [arrayElement_read thrown] at returned ⊢
    simp only [uses_bind] at returned
    obtain ⟨outcome, converted, -⟩ := bind_ending.mp returned
    apply (used_carries _ _ _).settles
    have inner := settles outcome (by simpa using converted)
    have held := (holding_wraps (valueRef r (i :: p)) (convert (i :: p))).settles
      (by simpa using converted) inner
    cases outcome with
    | error e => exact bind_settles converted held (pure_settles _)
    | ok ev => exact bind_settles converted held (pure_settles _)

/-- A property that converts gives back its value and its name. -/
theorem objectProperty_settles {atoms : List JSAtom} {i : Nat} {res : List (List UInt8 × Decoded)}
    {ev : Decoded} (converted : (convert (i :: p)).ending = .returns (.ok ev))
    (settles : (convert (i :: p)).Settles []) :
    (objectProperty r p convert atoms i res).Settles (atomRef p atoms i).toList := by
  apply (used_carries _ _ _).settles
  apply (used_carries _ _ _).settles
  have held : (holding (valueRef r (i :: p)) (gives (atomRef p atoms i) >>= fun _ =>
      convert (i :: p))).Settles (atomRef p atoms i).toList :=
    (holding_wraps _ _).settles converted (by simpa using (gave_carries _ _ _).settles settles)
  have ended : (holding (valueRef r (i :: p)) (gives (atomRef p atoms i) >>= fun _ =>
      convert (i :: p))).ending = .returns (.ok ev) := by simpa using converted
  rw [← List.append_nil (atomRef p atoms i).toList]
  exact bind_settles ended held (key_settles _ _)

/-- An array gives everything back when each element that its loop gets to does. -/
theorem fromJsArray_settles {length : Except Thrown JSValue} {result : GoResult}
    (elements : ∀ i, i < (elementCount length).toNat → Passed (arrayElement r p convert) 0 i →
      ∀ res result, (arrayElement r p convert i res).ending = .returns result →
        (arrayElement r p convert i res).Settles [])
    (returned : (fromJsArray r p convert length).ending = .returns result) :
    (fromJsArray r p convert length).Settles [] := by
  apply (used_carries _ _ _).settles
  refine (holdingDeferred_wraps _ _).settles returned ?_
  obtain ⟨nonnegative, looped | ⟨res, looped, -⟩⟩ := fromJsArray_ending.mp returned
  · rw [if_neg (by omega)]
    have inner := each_settles_early (fun i _ below => elements i (by omega)) looped
    exact bind_settles looped inner (pure_settles _)
  · rw [if_neg (by omega)]
    have inner := each_settles_early (fun i _ below => elements i (by omega)) looped
    exact bind_settles looped inner (pure_settles _)

/-- An object whose loop runs to its end gives everything back when each property does. -/
theorem fromJsObject_settles {atoms : List JSAtom} {res : List (List UInt8 × Decoded)}
    (properties : ∀ i, 0 ≤ i → i < 0 + atoms.length → Passed (objectProperty r p convert atoms) 0 i →
      ∀ res res', (objectProperty r p convert atoms i res).ending = .returns (.ok res') →
        (objectProperty r p convert atoms i res).Settles (atomRef p atoms i).toList)
    (looped : (each (objectProperty r p convert atoms) atoms.length 0 []).ending =
      .returns (.ok res)) : (fromJsObject r p convert (.ok atoms)).Settles [] := by
  apply (used_carries _ _ _).settles
  apply (took_carries [Resource.mk (.node p) .table] [] _).settles
  apply (took_carries (atomRefs p atoms) _ _).settles
  apply bind_settles looped (each_settles properties looped)
  exact (gave_carries [Resource.mk (.node p) .table] [] (pure _)).settles (pure_settles _)

/-- Copying bytes to a Go string takes no reference. -/
theorem goStringN_settles (bytes : List UInt8) (n : Int32) : (goStringN bytes n).Settles [] := by
  simp only [goStringN]
  split
  · exact fun _ => rfl
  · exact pure_settles _

/-- The walk over an array that returns settles when no path that it reaches leaks and every
element that is converted settles. -/
theorem array_settles {depth : Nat} {length : Except Thrown JSValue} {result : GoResult}
    (read : r p = .array length)
    (returned : (fromJsArray r p (fromJsValue r depth) length).ending = .returns result)
    (tight : ∀ q, Reaches r p q → ¬ LeaksAt r q)
    (parts : ∀ i result, (fromJsValue r depth (i :: p)).ending = .returns result →
      (∀ q, Reaches r (i :: p) q → ¬ LeaksAt r q) → (fromJsValue r depth (i :: p)).Settles []) :
    (fromJsArray r p (fromJsValue r depth) length).Settles [] := by
  apply fromJsArray_settles ?_ returned
  intro i below passed res result ended
  obtain ⟨unthrown, converted⟩ := elements_passed passed fun q ev => converts_of_returns
  have deeper : ∀ q, Reaches r (i :: p) q → ¬ LeaksAt r q := fun q reached =>
    tight q (.element read below unthrown converted reached)
  refine arrayElement_settles (fun counted => deeper _ (.here _) (Or.inl counted)) ?_ ended
  exact fun result ended => parts i result ended deeper

/-- The walk over an object that returns gets to its end where no error of a property leaks
the table, and settles when every property does. -/
theorem object_settles {depth : Nat} {atoms : List JSAtom} {result : GoResult}
    (read : r p = .object (.ok atoms))
    (returned : (fromJsObject r p (fromJsValue r depth) (.ok atoms)).ending = .returns result)
    (tight : ∀ q, Reaches r p q → ¬ LeaksAt r q)
    (parts : ∀ i result, (fromJsValue r depth (i :: p)).ending = .returns result →
      (∀ q, Reaches r (i :: p) q → ¬ LeaksAt r q) → (fromJsValue r depth (i :: p)).Settles []) :
    (fromJsObject r p (fromJsValue r depth) (.ok atoms)).Settles [] := by
  obtain ⟨e, looped, -⟩ | ⟨res, looped, -⟩ := fromJsObject_ending.mp returned
  · obtain ⟨i, -, below, passed, res, stopped⟩ := each_stopped looped
    have converted := properties_passed passed fun q ev => converts_of_returns
    have failed := reported_of_returns (objectProperty_stops.mp stopped)
    exact absurd (Or.inr ⟨atoms, i, read, by omega, converted, failed⟩) (tight p (.here p))
  · apply fromJsObject_settles ?_ looped
    intro i _ below passed res res' ended
    have converted := properties_passed passed fun q ev => converts_of_returns
    obtain ⟨ev, went⟩ := objectProperty_passes.mp ⟨res', ended⟩
    refine objectProperty_settles went (parts i _ went ?_)
    exact fun q reached => tight q (.property read (by omega) converted reached)

/-- A conversion that returns and gets to no leak gives everything back.

Proof: induction on the depth. Every element or property that a loop gets to is
below the value, so it has no leak either. The loop over properties runs to its
end, for a property that fails is a leak. -/
theorem fromJsValue_settles {depth : Nat} {result : GoResult}
    (returned : (fromJsValue r depth p).ending = .returns result)
    (tight : ∀ q, Reaches r p q → ¬ LeaksAt r q) : (fromJsValue r depth p).Settles [] := by
  induction depth generalizing p result with
  | zero => simp [fromJsValue, unfinished] at returned
  | succ depth inductionHypothesis =>
    have parts := fun i result => @inductionHypothesis (i :: p) result
    cases read : r p with
    | thrown x =>
      simp only [fromJsValue, read]
      have known : ¬ (Answer.thrown x).CountedOther := fun counted =>
        tight p (.here p) (Or.inl (by rwa [read]))
      exact bind_settles (fromJsException_ending _ x) (exception_settles _ known) (pure_settles _)
    | string bytes =>
      simp only [fromJsValue, read] at returned ⊢
      apply (used_carries _ _ _).settles
      exact (holding_wraps _ _).settles (by simpa using returned) (goStringN_settles _ _)
    | array length =>
      rw [fromJsValue_array read] at returned
      simp only [fromJsValue, read]
      exact (used_carries _ _ _).settles (array_settles read returned tight parts)
    | object names =>
      rw [fromJsValue_object read] at returned
      simp only [fromJsValue, read]
      apply (used_carries _ _ _).settles
      cases names with
      | error x => exact (used_carries _ _ _).settles (pure_settles _)
      | ok atoms => exact object_settles read returned tight parts
    | function f =>
      simp only [fromJsValue, read]
      exact (used_carries _ _ _).settles (pure_settles _)
    | other v =>
      simp only [fromJsValue, read]
      exact (used_carries _ _ _).settles (pure_settles _)
    | _ =>
      simp only [fromJsValue, read]
      exact pure_settles _

/-- An element keeps a reference for good if it is a counted value of another kind or its
conversion keeps one. -/
theorem arrayElement_leaves {i : Nat} (res : List Decoded)
    (leaves : (r (i :: p)).CountedOther ∨ ¬ (r (i :: p)).IsThrown ∧ (convert (i :: p)).Leaves []) :
    (arrayElement r p convert i res).Leaves [] := by
  rcases leaves with counted | ⟨unthrown, inner⟩
  · cases read : r (i :: p) with
    | thrown x =>
      cases x with
      | error stack name => simp [read, Answer.CountedOther] at counted
      | other v =>
        rw [read] at counted
        simp only [arrayElement, read]
        have left := other_leaves (.node (i :: p)) counted
        exact (used_carries _ _ _).leaves (bind_leaves left fun _ => (pure_settles _).owes)
    | _ => simp [read, Answer.CountedOther] at counted
  · rw [arrayElement_read unthrown]
    apply (used_carries _ _ _).leaves
    refine bind_leaves ((holding_wraps _ _).leaves inner) fun result => ?_
    cases result <;> exact (pure_settles _).owes

/-- A property keeps one if its conversion does. -/
theorem objectProperty_leaves {atoms : List JSAtom} {i : Nat} (res : List (List UInt8 × Decoded))
    (leaves : (convert (i :: p)).Leaves []) :
    (objectProperty r p convert atoms i res).Leaves (atomRef p atoms i).toList := by
  refine (used_carries _ _ _).leaves ((used_carries _ _ _).leaves ?_)
  have held : (holding (valueRef r (i :: p)) (gives (atomRef p atoms i) >>= fun _ =>
      convert (i :: p))).Leaves (atomRef p atoms i).toList :=
    (holding_wraps _ _).leaves (by simpa using (gave_carries _ _ _).leaves leaves)
  rw [← List.append_nil (atomRef p atoms i).toList]
  refine bind_leaves held fun result => ?_
  cases result with
  | error e => exact (pure_settles _).owes
  | ok ev => exact (key_settles _ _).owes

/-- An array whose loop gets to an element that leaves something leaves something. -/
theorem fromJsArray_leaves {length : Except Thrown JSValue} {i : Nat}
    (owes : ∀ q, (convert q).Owes []) (below : i < (elementCount length).toNat)
    (passes : ∀ j, 0 ≤ j → j < i → ∀ res, ∃ res',
      (arrayElement r p convert j res).ending = .returns (.ok res'))
    (leaves : (r (i :: p)).CountedOther ∨ ¬ (r (i :: p)).IsThrown ∧ (convert (i :: p)).Leaves []) :
    (fromJsArray r p convert length).Leaves [] := by
  have inside : i < 0 + (elementCount length).toNat := by omega
  have looped := each_leaves (fun _ => []) (a := []) (Nat.zero_le i) inside passes
    (arrayElement_owes owes) fun res => arrayElement_leaves res leaves
  rw [List.flatMap_eq_nil_iff.mpr fun _ _ => rfl] at looped
  apply (used_carries _ _ _).leaves
  apply (holdingDeferred_wraps _ _).leaves
  rw [if_neg (by omega)]
  refine bind_leaves looped fun result => ?_
  cases result <;> exact (pure_settles _).owes

/-- An object whose loop gets to a property that leaves something leaves something. -/
theorem fromJsObject_leaves {atoms : List JSAtom} {i : Nat} (owes : ∀ q, (convert q).Owes [])
    (below : i < atoms.length)
    (passes : ∀ j, 0 ≤ j → j < i → ∀ res, ∃ res',
      (objectProperty r p convert atoms j res).ending = .returns (.ok res'))
    (leaves : (convert (i :: p)).Leaves []) : (fromJsObject r p convert (.ok atoms)).Leaves [] := by
  have inside : i < 0 + atoms.length := by omega
  have looped := each_leaves (fun i => (atomRef p atoms i).toList) (a := []) (Nat.zero_le i) inside
    passes (objectProperty_owes owes atoms) fun res => objectProperty_leaves res leaves
  apply (used_carries _ _ _).leaves
  apply (took_carries [Resource.mk (.node p) .table] [] _).leaves
  apply (took_carries (atomRefs p atoms) _ _).leaves
  refine bind_leaves looped fun result => ?_
  cases result with
  | error e => exact owes_of_none (by simp) _
  | ok res => exact (gave_carries [Resource.mk (.node p) .table] [] (pure _)).owes (pure_settles _).owes

/-- An object one of whose properties fails leaves its table of keys. -/
theorem fromJsObject_leaves_table {atoms : List JSAtom} {e : String} (owes : ∀ q, (convert q).Owes [])
    (looped : (each (objectProperty r p convert atoms) atoms.length 0 []).ending =
      .returns (.error e)) : (fromJsObject r p convert (.ok atoms)).Leaves [] := by
  apply (used_carries _ _ _).leaves
  apply (took_carries [Resource.mk (.node p) .table] [] _).leaves
  apply (took_carries (atomRefs p atoms) _ _).leaves
  have inner := each_owes (fun i => (atomRef p atoms i).toList)
    (objectProperty_owes (r := r) (p := p) owes atoms) atoms.length 0 []
  have short := inner.leaves ⟨.node p, .table⟩
  simp only [bind_returns looped]
  obtain ⟨x, left⟩ := short
  exact ⟨x, by simpa [taken, given, atomRefs] using left⟩

/-- A leak that is reached from a thrown value is that value. -/
theorem Reaches.thrown_leak {q : Path} (reached : Reaches r p q) (thrown : (r p).IsThrown)
    (leak : LeaksAt r q) : (r p).CountedOther := by
  obtain rfl := reached.eq_of_thrown thrown
  rcases leak with counted | ⟨atoms, i, read, -⟩
  · exact counted
  · simp [read, Answer.IsThrown] at thrown

/-- At a leak itself either the exception or the table of keys is left. -/
theorem LeaksAt.leaves (leak : LeaksAt r p) :
    ∀ᶠ depth in atTop, (fromJsValue r depth p).Leaves [] := by
  rcases leak with counted | ⟨atoms, i, read, below, converts, q, failing, reported⟩
  · refine eventually_succ (Eventually.of_forall fun depth => ?_)
    cases read : r p with
    | thrown x =>
      cases x with
      | error stack name => simp [read, Answer.CountedOther] at counted
      | other v =>
        rw [read] at counted
        simp only [fromJsValue, read]
        exact bind_leaves (other_leaves (.node p) counted) fun _ => (pure_settles _).owes
    | _ => simp [read, Answer.CountedOther] at counted
  · have earlier := eventually_below fun j before => (converts j before).returns
    refine eventually_succ (((failing.returns reported).and earlier).mono ?_)
    rintro depth ⟨⟨e, failed⟩, converted⟩
    have looped := properties_stop r below converted failed
    simp only [fromJsValue, read]
    exact (used_carries _ _ _).leaves (fromJsObject_leaves_table (fromJsValue_owes r depth) looped)

/-- A conversion that gets to a leak leaves something at every depth that is large
enough.

Proof: induction on the way to the leak. Above it the loop gets to the part that
leaves something. -/
theorem Reaches.leaves {q : Path} (reached : Reaches r p q) (leak : LeaksAt r q) :
    ∀ᶠ depth in atTop, (fromJsValue r depth p).Leaves [] := by
  induction reached with
  | here p => exact leak.leaves
  | @element p q length i read below unthrown converts deeper inductionHypothesis =>
    have earlier := eventually_below fun j before => (converts j before).returns
    refine eventually_succ (((inductionHypothesis leak).and earlier).mono ?_)
    rintro depth ⟨left, converted⟩
    have inner : (r (i :: p)).CountedOther ∨
        ¬ (r (i :: p)).IsThrown ∧ (fromJsValue r depth (i :: p)).Leaves [] := by
      by_cases thrown : (r (i :: p)).IsThrown
      · exact Or.inl (deeper.thrown_leak thrown leak)
      · exact Or.inr ⟨thrown, left⟩
    simp only [fromJsValue, read]
    exact (used_carries _ _ _).leaves (fromJsArray_leaves (fromJsValue_owes r depth) below
      (elements_pass unthrown converted) inner)
  | @property p q atoms i read below converts deeper inductionHypothesis =>
    have earlier := eventually_below fun j before => (converts j before).returns
    refine eventually_succ (((inductionHypothesis leak).and earlier).mono ?_)
    rintro depth ⟨left, converted⟩
    simp only [fromJsValue, read]
    exact (used_carries _ _ _).leaves (fromJsObject_leaves (fromJsValue_owes r depth) below
      (properties_pass r atoms converted) left)

end GoQuickjs
