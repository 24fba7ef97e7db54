import GoQuickjs.Reached

/-!
# What a conversion gives

A conversion that returns at one depth is the same computation at every larger one,
so its result belongs to the value alone. `Gives` is that result. It is functional,
and for an array or an object it is put together from what the parts give, in the
order in which they are read, up to the first one that fails. Where no part fails it is
the value that the answers of the engine describe.
-/

namespace GoQuickjs

open Tracing Traced Filter

variable {r : Reading} {p : Path} {convert convert' : Path → Owning GoResult}

/-! ## More depth -/

/-- An element keeps its result when the conversions do. -/
theorem arrayElement_keeps (converts : ∀ q, Keeps (convert q) (convert' q)) (i : Nat)
    (res : List Decoded) : Keeps (arrayElement r p convert i res) (arrayElement r p convert' i res) := by
  by_cases thrown : (r (i :: p)).IsThrown
  · cases shape : r (i :: p) with
    | thrown x =>
      simp only [arrayElement, shape]
      exact Keeps.refl _
    | _ => simp [shape, Answer.IsThrown] at thrown
  · rw [arrayElement_read thrown, arrayElement_read thrown]
    exact (Keeps.refl _).bind fun _ => ((converts _).holding _).bind fun _ => Keeps.refl _

/-- An array keeps its result when the conversions do. -/
theorem fromJsArray_keeps (converts : ∀ q, Keeps (convert q) (convert' q))
    (length : Except Thrown JSValue) :
    Keeps (fromJsArray r p convert length) (fromJsArray r p convert' length) := by
  refine (Keeps.refl _).bind fun _ => Keeps.holdingDeferred _ ?_
  split
  · exact Keeps.refl _
  · exact (Keeps.each (arrayElement_keeps converts) _ _ _).bind fun _ => Keeps.refl _

/-- A property keeps its result when the conversions do. -/
theorem objectProperty_keeps (converts : ∀ q, Keeps (convert q) (convert' q))
    (atoms : List JSAtom) (i : Nat) (res : List (List UInt8 × Decoded)) :
    Keeps (objectProperty r p convert atoms i res) (objectProperty r p convert' atoms i res) := by
  refine (Keeps.refl _).bind fun _ => (Keeps.refl _).bind fun _ => ?_
  exact (Keeps.holding _ ((Keeps.refl _).bind fun _ => converts _)).bind fun _ => Keeps.refl _

/-- An object keeps its result when the conversions do. -/
theorem fromJsObject_keeps (converts : ∀ q, Keeps (convert q) (convert' q))
    (names : Except Thrown (List JSAtom)) :
    Keeps (fromJsObject r p convert names) (fromJsObject r p convert' names) := by
  refine (Keeps.refl _).bind fun _ => ?_
  cases names with
  | error x => exact Keeps.refl _
  | ok atoms =>
    refine (Keeps.refl _).bind fun _ => (Keeps.refl _).bind fun _ => ?_
    exact (Keeps.each (objectProperty_keeps converts atoms) _ _ _).bind fun _ => Keeps.refl _

/-- A conversion that returned is the same at every larger depth.

Proof: induction on the depth; only arrays and objects pass it on. -/
theorem fromJsValue_keeps {depth deeper : Nat} (above : depth ≤ deeper) (p : Path) :
    Keeps (fromJsValue r depth p) (fromJsValue r deeper p) := by
  induction depth generalizing deeper p with
  | zero =>
    intro a returned
    simp [fromJsValue, unfinished] at returned
  | succ depth inductionHypothesis =>
    obtain ⟨deeper, rfl⟩ : ∃ below, deeper = below + 1 := ⟨deeper - 1, by omega⟩
    have parts := fun q => @inductionHypothesis deeper (by omega) q
    cases read : r p with
    | array length =>
      simp only [fromJsValue, read]
      exact (Keeps.refl _).bind fun _ => fromJsArray_keeps parts length
    | object names =>
      simp only [fromJsValue, read]
      exact (Keeps.refl _).bind fun _ => fromJsObject_keeps parts names
    | _ =>
      simp only [fromJsValue, read]
      exact Keeps.refl _

/-! ## Results -/

/-- The conversion of the value at a path returns this result. -/
def Gives (r : Reading) (p : Path) (result : GoResult) : Prop :=
  ∃ depth, (fromJsValue r depth p).ending = .returns result

/-- A conversion that returns returns the same with more depth. -/
theorem returns_deeper {depth deeper : Nat} {result : GoResult} (above : depth ≤ deeper)
    (returned : (fromJsValue r depth p).ending = .returns result) :
    (fromJsValue r deeper p).ending = .returns result := by
  rw [fromJsValue_keeps above p result returned, returned]

/-- A result that is given at one depth is given at every larger one. -/
theorem Gives.eventually {result : GoResult} (gives : Gives r p result) :
    ∀ᶠ depth in atTop, (fromJsValue r depth p).ending = .returns result := by
  obtain ⟨depth, returned⟩ := gives
  exact eventually_atTop.mpr ⟨depth, fun deeper above => returns_deeper above returned⟩

/-- A value converts to one result. -/
theorem Gives.unique {result other : GoResult} (gives : Gives r p result)
    (gives' : Gives r p other) : result = other := by
  obtain ⟨depth, returned, returned'⟩ := (gives.eventually.and gives'.eventually).exists
  simpa using returned.symm.trans returned'

/-- A value of the other kind is given exactly when the value converts. -/
theorem gives_ok_iff : (∃ v, Gives r p (.ok v)) ↔ Converts r p := by
  constructor
  · rintro ⟨v, depth, returned⟩
    exact converts_of_returns returned
  · intro converts
    obtain ⟨depth, v, returned⟩ := converts.returns.exists
    exact ⟨v, depth, returned⟩

/-- An error is given exactly when the conversion gets to an answer that makes it fail. -/
theorem gives_error_iff :
    (∃ e, Gives r p (.error e)) ↔ ∃ q, Reaches r p q ∧ (r q).Reported := by
  constructor
  · rintro ⟨e, depth, returned⟩
    exact reported_of_returns returned
  · rintro ⟨q, reached, reported⟩
    obtain ⟨depth, e, returned⟩ := (reached.returns reported).exists
    exact ⟨e, depth, returned⟩

/-- What an answer without parts gives, if it gives anything. -/
theorem gives_of_flat {m : Owning GoResult} (flat : ∀ depth, fromJsValue r (depth + 1) p = m)
    {result : GoResult} : Gives r p result ↔ m.ending = .returns result := by
  constructor
  · rintro ⟨depth, returned⟩
    cases depth with
    | zero => simp [fromJsValue, unfinished] at returned
    | succ depth => rwa [flat] at returned
  · intro returned
    exact ⟨1, by rw [flat, returned]⟩

/-- An exception converts to its message. -/
theorem gives_thrown {x : Thrown} (read : r p = .thrown x) {result : GoResult} :
    Gives r p result ↔ result = withError x.message := by
  rw [gives_of_flat (m := withError <$> fromJsException (.node p) (some x))
    fun depth => by simp only [fromJsValue, read]]
  change (fromJsException _ (some x) >>= fun err => pure (withError err)).ending = _ ↔ _
  rw [bind_returns (fromJsException_ending _ x)]
  simp [eq_comm]

/-! ## Arrays -/

/-- The element is read and converted to this value. -/
def ElementGives (r : Reading) (p : Path) (i : Nat) (v : Decoded) : Prop :=
  ¬ (r (i :: p)).IsThrown ∧ Gives r (i :: p) (.ok v)

/-- The element ends the walk over its array with this result: its read throws, or
its conversion fails. -/
def ElementStops (r : Reading) (p : Path) (i : Nat) (result : GoResult) : Prop :=
  (∃ x, r (i :: p) = .thrown x ∧ result = withError x.message) ∨
    ¬ (r (i :: p)).IsThrown ∧ ∃ e, Gives r (i :: p) (.error e) ∧ result = .error e

/-- A round of the loop goes on with the element appended. -/
theorem arrayElement_goes (i : Nat) (res res' : List Decoded) :
    (arrayElement r p convert i res).ending = .returns (.ok res') ↔
      ∃ v, (¬ (r (i :: p)).IsThrown ∧ (convert (i :: p)).ending = .returns (.ok v)) ∧
        res' = res ++ [v] := by
  by_cases thrown : (r (i :: p)).IsThrown
  · cases shape : r (i :: p) with
    | thrown x => simp [arrayElement_thrown shape, Answer.IsThrown]
    | _ => simp [shape, Answer.IsThrown] at thrown
  · simp only [arrayElement_read thrown, uses_bind, bind_ending, holding_ending, thrown,
      not_false_eq_true, true_and]
    constructor
    · rintro ⟨result, converted, went⟩
      cases result with
      | error e => simp at went
      | ok v => exact ⟨v, converted, by simpa [eq_comm] using went⟩
    · rintro ⟨v, converted, rfl⟩
      exact ⟨.ok v, converted, rfl⟩

/-- A round of the loop ends it with an exception or an error. -/
theorem arrayElement_halts (i : Nat) (res : List Decoded) (result : GoResult) :
    (arrayElement r p convert i res).ending = .returns (.error result) ↔
      (∃ x, r (i :: p) = .thrown x ∧ result = withError x.message) ∨
        ¬ (r (i :: p)).IsThrown ∧
          ∃ e, (convert (i :: p)).ending = .returns (.error e) ∧ result = .error e := by
  by_cases thrown : (r (i :: p)).IsThrown
  · cases shape : r (i :: p) with
    | thrown x => simp [arrayElement_thrown shape, Answer.IsThrown, eq_comm]
    | _ => simp [shape, Answer.IsThrown] at thrown
  · constructor
    · intro stopped
      rcases arrayElement_stops stopped with ⟨x, read, -⟩ | failed
      · exact absurd (by simp [read, Answer.IsThrown]) thrown
      · exact Or.inr ⟨thrown, failed⟩
    · rintro (⟨x, read, -⟩ | ⟨-, e, failed, rfl⟩)
      · exact absurd (by simp [read, Answer.IsThrown]) thrown
      · simp only [arrayElement_read thrown, uses_bind, bind_ending, holding_ending]
        exact ⟨.error e, failed, rfl⟩

/-- What is gathered element by element is the list of the elements. -/
theorem gathered_append (start : Nat) (res vs : List Decoded) :
    gathered (fun _ v res => res ++ [v]) start res vs = res ++ vs := by
  induction vs generalizing start res with
  | nil => simp [gathered]
  | cons v vs inductionHypothesis =>
    rw [gathered, inductionHypothesis]
    simp

/-- The loop over the elements runs to its end with one image for each. -/
theorem elements_gathered {n : Nat} {res : List Decoded} :
    (∃ depth, (each (arrayElement r p (fromJsValue r depth)) n 0 []).ending = .returns (.ok res)) ↔
      res.length = n ∧ ∀ i v, res[i]? = some v → ElementGives r p i v := by
  rw [each_gathers_deep (fun depth => arrayElement_goes)
    fun d d' i v above => And.imp_right (returns_deeper above)]
  simp only [gathered_append, List.nil_append, Nat.zero_add, exists_and_left]
  constructor
  · rintro ⟨vs, length, gives, rfl⟩
    exact ⟨length, gives⟩
  · rintro ⟨length, gives⟩
    exact ⟨res, length, gives, rfl⟩

/-- The loop over the elements is ended by the first one that stops it. -/
theorem elements_stopped {n : Nat} {result : GoResult} :
    (∃ depth, (each (arrayElement r p (fromJsValue r depth)) n 0 []).ending =
        .returns (.error result)) ↔
      ∃ i < n, (∀ j < i, ∃ v, ElementGives r p j v) ∧ ElementStops r p i result := by
  have stops : ∀ i, (∃ depth, (∃ x, r (i :: p) = .thrown x ∧ result = withError x.message) ∨
      ¬ (r (i :: p)).IsThrown ∧ ∃ e, (fromJsValue r depth (i :: p)).ending = .returns (.error e) ∧
        result = .error e) ↔ ElementStops r p i result := by
    intro i
    rw [exists_or, exists_const, exists_and_left, exists_comm]
    simp only [exists_and_right]
    rfl
  rw [each_halts_deep (fun depth => arrayElement_goes) (fun depth => arrayElement_halts)
    (fun d d' i v above => And.imp_right (returns_deeper above))
    fun d d' i result above => Or.imp_right (And.imp_right fun ⟨e, failed, same⟩ =>
      ⟨e, returns_deeper above failed, same⟩)]
  simp only [Nat.zero_add, stops, ElementGives, Gives, exists_and_left]

/-- What the walk over an array returns: the images of all elements in order, or what
the first element that stops it leaves. -/
theorem fromJsArray_gives {length : Except Thrown JSValue} {result : GoResult} :
    (∃ depth, (fromJsArray r p (fromJsValue r depth) length).ending = .returns result) ↔
      0 ≤ elementCount length ∧
        ((∃ i < (elementCount length).toNat, (∀ j < i, ∃ v, ElementGives r p j v) ∧
            ElementStops r p i result) ∨
          ∃ vs : List Decoded, (vs.length = (elementCount length).toNat ∧
            ∀ i v, vs[i]? = some v → ElementGives r p i v) ∧ result = .ok (.slice vs)) := by
  simp only [fromJsArray_ending, exists_and_left, exists_or]
  rw [elements_stopped, exists_comm]
  simp only [exists_and_right, elements_gathered]

/-- An array converts by `fromJsArray`. -/
theorem gives_array {length : Except Thrown JSValue} (read : r p = .array length)
    {result : GoResult} : Gives r p result ↔
      ∃ depth, (fromJsArray r p (fromJsValue r depth) length).ending = .returns result := by
  constructor
  · rintro ⟨depth, returned⟩
    cases depth with
    | zero => simp [fromJsValue, unfinished] at returned
    | succ depth => exact ⟨depth, by rwa [fromJsValue_array read] at returned⟩
  · rintro ⟨depth, returned⟩
    exact ⟨depth + 1, by rwa [fromJsValue_array read]⟩

/-- A conversion that returns has converted, one level deeper, every element that it
got to. -/
theorem returns_element {length : Except Thrown JSValue} {depth i : Nat} {result : GoResult}
    (read : r p = .array length)
    (returned : (fromJsValue r (depth + 1) p).ending = .returns result)
    (below : i < (elementCount length).toNat) (earlier : ∀ j < i, ∃ v, ElementGives r p j v)
    (unthrown : ¬ (r (i :: p)).IsThrown) :
    ∃ part, (fromJsValue r depth (i :: p)).ending = .returns part := by
  rw [fromJsValue_array read] at returned
  obtain ⟨-, looped | ⟨res, looped, -⟩⟩ := fromJsArray_ending.mp returned
  · obtain ⟨k, -, passed, stopped⟩ := (each_halts arrayElement_goes arrayElement_halts).mp looped
    rw [Nat.zero_add] at stopped
    rcases Nat.lt_trichotomy i k with before | rfl | after
    · obtain ⟨v, -, converted⟩ := passed i before
      rw [Nat.zero_add] at converted
      exact ⟨_, converted⟩
    · rcases stopped with ⟨x, thrown, -⟩ | ⟨-, e, failed, -⟩
      · exact absurd (by simp [thrown, Answer.IsThrown]) unthrown
      · exact ⟨_, failed⟩
    · obtain ⟨v, read', given⟩ := earlier k after
      rcases stopped with ⟨x, thrown, -⟩ | ⟨-, e, failed, -⟩
      · exact absurd (by simp [thrown, Answer.IsThrown]) read'
      · have impossible := given.unique ⟨depth, failed⟩
        simp at impossible
  · obtain ⟨vs, count, yielded, -⟩ := (each_gathers arrayElement_goes).mp looped
    have converted := (yielded i vs[i] (List.getElem?_eq_getElem (count ▸ below))).2
    rw [Nat.zero_add] at converted
    exact ⟨_, converted⟩

/-! ## Objects -/

/-- The Go key of the property `i`. -/
def keyText (atoms : List JSAtom) (i : Nat) : List UInt8 := goString (atoms[i]?.elim [] JSAtom.text)

/-- A round of the loop goes on with the property stored under its key. -/
theorem objectProperty_goes (atoms : List JSAtom) (i : Nat) (res res' : List (List UInt8 × Decoded)) :
    (objectProperty r p convert atoms i res).ending = .returns (.ok res') ↔
      ∃ v, (convert (i :: p)).ending = .returns (.ok v) ∧
        res' = setKey (keyText atoms i) v res := by
  simp only [objectProperty, uses_bind, gives_bind, bind_ending, holding_ending]
  constructor
  · rintro ⟨result, converted, went⟩
    cases result with
    | error e => simp at went
    | ok v => exact ⟨v, converted, by simpa [holding_eq, bind_returns, eq_comm, keyText] using went⟩
  · rintro ⟨v, converted, rfl⟩
    exact ⟨.ok v, converted, by simp [holding_eq, bind_returns, keyText]⟩

/-- The entries of the returned map: each property is set under its key, in order. -/
def entries (atoms : List JSAtom) (vs : List Decoded) : List (List UInt8 × Decoded) :=
  gathered (fun i v res => setKey (keyText atoms i) v res) 0 [] vs

/-- The loop over the properties gathers one entry for each. -/
theorem properties_gathered {atoms : List JSAtom} {n : Nat} {res : List (List UInt8 × Decoded)} :
    (∃ depth, (each (objectProperty r p (fromJsValue r depth) atoms) n 0 []).ending =
        .returns (.ok res)) ↔
      ∃ vs : List Decoded, vs.length = n ∧ (∀ i v, vs[i]? = some v → Gives r (i :: p) (.ok v)) ∧
        res = entries atoms vs := by
  rw [each_gathers_deep (fun depth => objectProperty_goes atoms)
    fun d d' i v above => returns_deeper above]
  simp only [Nat.zero_add]
  rfl

/-- The loop over the properties stops at the first that does not convert. -/
theorem properties_stopped {atoms : List JSAtom} {n : Nat} {e : String} :
    (∃ depth, (each (objectProperty r p (fromJsValue r depth) atoms) n 0 []).ending =
        .returns (.error e)) ↔
      ∃ i < n, (∀ j < i, ∃ v, Gives r (j :: p) (.ok v)) ∧ Gives r (i :: p) (.error e) := by
  rw [each_halts_deep (fun depth => objectProperty_goes atoms) (fun depth i res e => objectProperty_stops)
    (fun d d' i v above => returns_deeper above) fun d d' i e above => returns_deeper above]
  simp only [Nat.zero_add]
  rfl

/-- What the walk over an object returns: the map of the images of all properties, or
the error of the first property that fails. -/
theorem fromJsObject_gives {atoms : List JSAtom} {result : GoResult} :
    (∃ depth, (fromJsObject r p (fromJsValue r depth) (.ok atoms)).ending = .returns result) ↔
      (∃ e, (∃ i < atoms.length, (∀ j < i, ∃ v, Gives r (j :: p) (.ok v)) ∧
          Gives r (i :: p) (.error e)) ∧ result = .error e) ∨
        ∃ vs : List Decoded, vs.length = atoms.length ∧
          (∀ i v, vs[i]? = some v → Gives r (i :: p) (.ok v)) ∧
          result = .ok (.map (if atoms.length = 0 then none else some (entries atoms vs))) := by
  simp only [fromJsObject_ending, exists_or]
  rw [exists_comm, exists_comm (α := Nat)]
  simp only [exists_and_right, properties_stopped, properties_gathered]
  apply or_congr_right
  constructor
  · rintro ⟨res, ⟨vs, length, gives, rfl⟩, same⟩
    exact ⟨vs, length, gives, same⟩
  · rintro ⟨vs, length, gives, same⟩
    exact ⟨_, ⟨vs, length, gives, rfl⟩, same⟩

/-- An object converts by `fromJsObject`. -/
theorem gives_object {names : Except Thrown (List JSAtom)} (read : r p = .object names)
    {result : GoResult} : Gives r p result ↔
      ∃ depth, (fromJsObject r p (fromJsValue r depth) names).ending = .returns result := by
  constructor
  · rintro ⟨depth, returned⟩
    cases depth with
    | zero => simp [fromJsValue, unfinished] at returned
    | succ depth => exact ⟨depth, by rwa [fromJsValue_object read] at returned⟩
  · rintro ⟨depth, returned⟩
    exact ⟨depth + 1, by rwa [fromJsValue_object read]⟩

/-- A conversion that returns has converted, one level deeper, every property that it
got to. -/
theorem returns_property {atoms : List JSAtom} {depth i : Nat} {result : GoResult}
    (read : r p = .object (.ok atoms))
    (returned : (fromJsValue r (depth + 1) p).ending = .returns result)
    (below : i < atoms.length) (earlier : ∀ j < i, ∃ v, Gives r (j :: p) (.ok v)) :
    ∃ part, (fromJsValue r depth (i :: p)).ending = .returns part := by
  rw [fromJsValue_object read] at returned
  obtain ⟨e, looped, -⟩ | ⟨res, looped, -⟩ := fromJsObject_ending.mp returned
  · obtain ⟨k, -, passed, stopped⟩ :=
      (each_halts (objectProperty_goes atoms) fun i res e => objectProperty_stops).mp looped
    rw [Nat.zero_add] at stopped
    rcases Nat.lt_trichotomy i k with before | rfl | after
    · obtain ⟨v, converted⟩ := passed i before
      rw [Nat.zero_add] at converted
      exact ⟨_, converted⟩
    · exact ⟨_, stopped⟩
    · obtain ⟨v, given⟩ := earlier k after
      have impossible := given.unique ⟨depth, stopped⟩
      simp at impossible
  · obtain ⟨vs, count, yielded, -⟩ := (each_gathers (objectProperty_goes atoms)).mp looped
    have converted := yielded i vs[i] (List.getElem?_eq_getElem (count ▸ below))
    rw [Nat.zero_add] at converted
    exact ⟨_, converted⟩

/-! ## Described values -/

/-- What an answer without parts is converted to. -/
def Answer.flatResult : Answer → Option GoResult
  | .thrown x => some (withError x.message)
  | .null | .undefined => some (.ok .nil)
  | .bool b => some (.ok (.bool b))
  | .int i => some (.ok (.int64 i.toInt))
  | .float64 word => some (.ok (.float64 (if isNaN word then goNaN else word)))
  | .string bytes =>
    let n := Int32.ofNat bytes.length
    if n < 0 then none else some (.ok (.string (bytes.take n.toInt.toNat)))
  | .function f => some (.ok (.bindGoFunc f))
  | .other _ => some (.error "unsupported type")
  | .array _ | .object _ => none

/-- The answers at a path and below it describe a Go value: an array the slice of what its
elements describe, an object the map of what its properties describe. An element whose
reading throws anything but an `Error` object makes a nil of its array. -/
inductive Describes (r : Reading) : Path → Decoded → Prop
  | flat {p : Path} {d : Decoded} : (r p).flatResult = some (.ok d) → Describes r p d
  | array {p : Path} {length : Except Thrown JSValue} {vs : List Decoded} :
      r p = .array length → 0 ≤ elementCount length → vs.length = (elementCount length).toNat →
      (∀ i < vs.length, ¬ (r (i :: p)).IsThrown) →
      (∀ i v, vs[i]? = some v → Describes r (i :: p) v) → Describes r p (.slice vs)
  | arrayCut {p : Path} {length : Except Thrown JSValue} {i : Nat} {v : JSValue} :
      r p = .array length → i < (elementCount length).toNat →
      (∀ j < i, ¬ (r (j :: p)).IsThrown) → (∀ j < i, Converts r (j :: p)) →
      r (i :: p) = .thrown (.other v) → Describes r p .nil
  | object {p : Path} {atoms : List JSAtom} {vs : List Decoded} :
      r p = .object (.ok atoms) → vs.length = atoms.length →
      (∀ i v, vs[i]? = some v → Describes r (i :: p) v) →
      Describes r p (.map (if atoms.length = 0 then none else some (entries atoms vs)))

/-- An answer without parts gives what it stands for. -/
theorem gives_answer {expected result : GoResult} (flat : (r p).flatResult = some expected) :
    Gives r p result ↔ result = expected := by
  cases read : r p with
  | thrown x =>
    rw [gives_thrown read]
    rw [read] at flat
    rw [Option.some.inj flat]
  | string bytes =>
    rw [gives_of_flat fun depth => by simp only [fromJsValue, read]; rfl]
    simp only [read, Answer.flatResult, Option.ite_none_left_eq_some, Option.some.injEq] at flat
    rw [uses_bind, holding_ending, goStringN, if_neg flat.1, pure_ending, flat.2,
      Ending.returns.injEq, eq_comm]
  | array length => simp [read, Answer.flatResult] at flat
  | object names => simp [read, Answer.flatResult] at flat
  | _ =>
    simp only [read, Answer.flatResult, Option.some.injEq] at flat
    rw [gives_of_flat fun depth => by simp only [fromJsValue, read]; rfl, ← flat]
    exact ⟨fun returned => (Ending.returns.inj returned).symm, fun same => congrArg _ same.symm⟩

/-- An array is cut short by an element whose reading throws no `Error` object. -/
theorem gives_cut {length : Except Thrown JSValue} {i : Nat} {v : JSValue}
    (read : r p = .array length) (below : i < (elementCount length).toNat)
    (unthrown : ∀ j < i, ¬ (r (j :: p)).IsThrown) (earlier : ∀ j < i, Converts r (j :: p))
    (cut : r (i :: p) = .thrown (.other v)) : Gives r p (.ok .nil) := by
  apply (gives_array read).mpr
  refine fromJsArray_gives.mpr ⟨by omega, .inl ⟨i, below, ?_, .inl ⟨.other v, cut, rfl⟩⟩⟩
  intro j before
  obtain ⟨part, gives⟩ := gives_ok_iff.mpr (earlier j before)
  exact ⟨part, unthrown j before, gives⟩

/-- A plain answer has a result of its own. -/
theorem Answer.Plain.flat {a : Answer} (plain : a.Plain) : ∃ d, a.flatResult = some (.ok d) := by
  cases a with
  | thrown x =>
    cases x with
    | error stack name => cases plain
    | other v => exact ⟨_, rfl⟩
  | string bytes => exact ⟨_, if_neg plain⟩
  | array length => cases plain
  | object names => cases plain
  | other v => cases plain
  | _ => exact ⟨_, rfl⟩

/-- The values that are given are those that the answers describe.

Proof: induction on the conversion in one direction, on the description in the other. In
each case it is known what the walk over the parts returns. -/
theorem gives_iff_describes {d : Decoded} : Gives r p (.ok d) ↔ Describes r p d := by
  constructor
  · intro gives
    have converts := gives_ok_iff.mp ⟨d, gives⟩
    induction converts generalizing d with
    | plain plain =>
      obtain ⟨expected, flat⟩ := plain.flat
      obtain rfl := Except.ok.inj ((gives_answer flat).mp gives)
      exact .flat flat
    | array read nonnegative unthrown _ inductionHypothesis =>
      obtain ⟨_, ⟨i, below, _, stopped⟩ | ⟨vs, ⟨length, parts⟩, same⟩⟩ :=
        fromJsArray_gives.mp ((gives_array read).mp gives)
      · obtain ⟨x, thrown, _⟩ | ⟨_, e, _, same⟩ := stopped
        · exact absurd (by simp [thrown, Answer.IsThrown]) (unthrown i below)
        · cases same
      · obtain rfl := Except.ok.inj same
        refine .array read nonnegative length (fun i below => unthrown i (length ▸ below)) ?_
        intro i v part
        obtain ⟨inside, _⟩ := List.getElem?_eq_some_iff.mp part
        exact inductionHypothesis i (length ▸ inside) (parts i v part).2
    | arrayCut read below unthrown earlier cut _ =>
      obtain rfl := Except.ok.inj (gives.unique (gives_cut read below unthrown earlier cut))
      exact .arrayCut read below unthrown earlier cut
    | object read _ inductionHypothesis =>
      obtain ⟨e, _, same⟩ | ⟨vs, length, parts, same⟩ :=
        fromJsObject_gives.mp ((gives_object read).mp gives)
      · cases same
      · obtain rfl := Except.ok.inj same
        refine .object read length ?_
        intro i v part
        obtain ⟨inside, _⟩ := List.getElem?_eq_some_iff.mp part
        exact inductionHypothesis i (length ▸ inside) (parts i v part)
  · intro describes
    induction describes with
    | flat flat => exact (gives_answer flat).mpr rfl
    | array read nonnegative length unthrown _ inductionHypothesis =>
      apply (gives_array read).mpr
      refine fromJsArray_gives.mpr ⟨nonnegative, .inr ⟨_, ⟨length, ?_⟩, rfl⟩⟩
      intro i v part
      obtain ⟨inside, _⟩ := List.getElem?_eq_some_iff.mp part
      exact ⟨unthrown i inside, inductionHypothesis i v part⟩
    | arrayCut read below unthrown earlier cut =>
      exact gives_cut read below unthrown earlier cut
    | object read length _ inductionHypothesis =>
      exact (gives_object read).mpr (fromJsObject_gives.mpr
        (.inr ⟨_, length, inductionHypothesis, rfl⟩))

end GoQuickjs
