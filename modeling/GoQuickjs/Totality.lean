import GoQuickjs.Wrappers

/-!
# Which Go values can be encoded

`makeJsValue` switches on the kind of a value, and some of its cases ask for more than
the kind. The assertions `v.(bool)`, `v.(string)` and `v.([]byte)` hold for the
unnamed type only, `Interface()` panics on what a nil pointer points to, a chain of
pointers may never end, and a string may be more than the engine can hold. A wrapper
needs an id, and the search for one only ends when one is free.

The last value of the chain of pointers decides.
-/

namespace GoQuickjs.World

variable {ctx : Ptr} {memory : GoMemory} {fresh : Fresh} {v u : GoVal} {w : World}

/-- The call returned a JS value or an error. -/
def Answers : Outcome JSValue → Prop
  | .value js => js ≠ .exception
  | .failed _ => True
  | .panicked => False

/-- `makeJsValue` returns, with a JS value or with an error. -/
def Encodes (ctx : Ptr) (memory : GoMemory) (fresh : Fresh) (v : GoVal) (w : World) : Prop :=
  ∃ depth outcome after, makeJsValue ctx memory fresh depth v w = some (outcome, after) ∧
    Answers outcome

/-- The value a pointer leads to, unless the pointer itself is wrapped. -/
def pointsTo (memory : GoMemory) : GoVal → Option GoVal
  | .ptr toInterface (some target) =>
    if !toInterface && (memory target).isStruct then none else some (memory target)
  | _ => none

/-- The value ends a chain of pointers and its own case of the switch succeeds: it is
of an unnamed type where the switch asserts one, it is no nil pointer, the engine can
hold its text, and an id is left for its wrapper. -/
def Encodable (store : PtrStore GoAddr) (memory : GoMemory) : GoVal → Prop
  | .bool named _ => named = false
  | .string named bytes | .bytes named bytes => named = false ∧ ¬ Oversized bytes
  | .slice _ _ | .array _ _ | .map _ | .struct _ _ | .func _ => store.live < 2 ^ 32
  | .ptr toInterface (some target) =>
    toInterface = false ∧ (memory target).isStruct = true ∧ store.live < 2 ^ 32
  | .ptr _ none => False
  | .nil | .int _ _ | .uint _ _ | .float _ | .other _ => True

/-! ## The cases of the switch -/

/-- A text is answered unless the engine makes no string of it. -/
theorem makeString_answers (bytes : List UInt8) :
    Answers (makeString fresh bytes) ↔ ¬ Oversized bytes := by
  rw [← newStringLen_iff, makeString]
  cases newStringLen bytes (Int32.ofNat bytes.length) <;> simp [Answers]

/-- The call for a text returns unless the process does not survive it. -/
theorem makeString_panicked_iff (bytes : List UInt8) :
    makeString fresh bytes = .panicked ↔ Fatal bytes := by
  rw [← newStringLen_crashed_iff, makeString]
  cases newStringLen bytes (Int32.ofNat bytes.length) <;> simp

/-- `JS_NewInt64` never fails. -/
theorem jsNewInt64_ne_exception (n : Int) : jsNewInt64 n ≠ .exception := by
  rw [jsNewInt64]
  split <;> simp [jsNewInt32]

/-- Neither does `JS_NewFloat64`. -/
theorem jsNewFloat64_ne_exception (word : UInt64) : jsNewFloat64 word ≠ .exception := by
  simp only [jsNewFloat64]
  split <;> simp

/-- So no signed integer is converted to an exception. -/
theorem makeJsInt_ne_exception (kind : IntKind) (n : Int) : makeJsInt kind n ≠ .exception := by
  cases kind with
  | int8 | int16 | int32 => simp [makeJsInt, jsNewInt32]
  | int | int64 => exact jsNewInt64_ne_exception n

/-- And no unsigned one. -/
theorem makeJsUint_ne_exception (kind : UintKind) (n : Nat) : makeJsUint kind n ≠ .exception := by
  cases kind with
  | uint8 | uint16 => simp [makeJsUint, jsNewInt32]
  | uint | uint32 => exact jsNewInt64_ne_exception _
  | uint64 =>
    rw [makeJsUint]
    split
    · exact jsNewInt64_ne_exception n
    · exact jsNewFloat64_ne_exception _

/-- A new wrapper is made as long as an id is free. -/
theorem produced_iff {wrap : UInt32 × Stores → JSValue × World}
    (unused : Wrappers.Unused ctx w fresh) (object : ∀ made, (wrap made).1 ≠ .exception) :
    (∃ outcome after, produced ((w.stores.registerIn ctx fresh.goVar).map wrap) =
      some (outcome, after) ∧ Answers outcome) ↔ (w.stores.seen ctx).live < 2 ^ 32 := by
  rw [← PtrStore.register_returns_iff unused.1]
  simp only [produced, Stores.registerIn, Stores.getPtrStore_fst, Option.map_map]
  constructor
  · rintro ⟨outcome, after, returned, _⟩
    obtain ⟨made, registered, _⟩ := Option.map_eq_some_iff.mp returned
    exact ⟨made, registered⟩
  · rintro ⟨made, registered⟩
    rw [registered]
    exact ⟨_, _, rfl, object _⟩

/-- A pointer is converted as what it points to. -/
theorem pointsTo_step {depth : Nat} (leads : pointsTo memory v = some u) :
    makeJsValue ctx memory fresh (depth + 1) v w = makeJsValue ctx memory fresh depth u w := by
  cases v with
  | ptr toInterface target =>
    cases target with
    | none => cases leads
    | some target =>
      simp only [pointsTo] at leads
      split at leads
      · cases leads
      · rename_i followed
        obtain rfl := Option.some.inj leads
        simp only [makeJsValue]
        rw [if_neg followed]
  | _ => cases leads

/-- A pointer that is followed is not itself encoded. -/
theorem Encodable.last {store : PtrStore GoAddr} (encodable : Encodable store memory v) :
    pointsTo memory v = none := by
  cases v with
  | ptr toInterface target =>
    cases target with
    | none => rfl
    | some target => simp [pointsTo, encodable.1, encodable.2.1]
  | _ => rfl

/-- More depth does not change what is returned. -/
theorem makeJsValue_deeper {depth more : Nat} {v : GoVal}
    {result : Outcome JSValue × World} (enough : depth ≤ more)
    (returned : makeJsValue ctx memory fresh depth v w = some result) :
    makeJsValue ctx memory fresh more v w = some result := by
  induction depth generalizing v more with
  | zero => simp [makeJsValue] at returned
  | succ depth inductionHypothesis =>
    obtain ⟨more, rfl⟩ : ∃ n, more = n + 1 := ⟨more - 1, by omega⟩
    cases leads : pointsTo memory v with
    | some next =>
      rw [pointsTo_step leads] at returned ⊢
      exact inductionHypothesis (by omega) returned
    | none =>
      cases v with
      | ptr toInterface target =>
        cases target with
        | none => exact returned
        | some target =>
          simp only [pointsTo] at leads
          split at leads
          · rename_i struct
            simp only [makeJsValue] at returned ⊢
            rwa [if_pos struct] at returned ⊢
          · cases leads
      | _ => exact returned

/-- A value that ends a chain of pointers is converted in one step. -/
theorem last_depth (last : pointsTo memory v = none) (depth more : Nat) :
    makeJsValue ctx memory fresh (depth + 1) v w = makeJsValue ctx memory fresh (more + 1) v w := by
  cases v with
  | ptr toInterface target =>
    cases target with
    | none => rfl
    | some target =>
      simp only [pointsTo] at last
      split at last
      · rename_i struct
        simp only [makeJsValue]
        rw [if_pos struct, if_pos struct]
      · cases last
  | _ => rfl

/-- A value that ends a chain of pointers is encoded by its own case of the switch. -/
theorem last_iff {depth : Nat} (unused : Wrappers.Unused ctx w fresh)
    (last : pointsTo memory v = none) :
    (∃ outcome after, makeJsValue ctx memory fresh (depth + 1) v w = some (outcome, after) ∧
      Answers outcome) ↔ Encodable (w.stores.seen ctx) memory v := by
  have wrapped : (∃ outcome after, produced (makeGoObject ctx fresh v w) = some (outcome, after) ∧
      Answers outcome) ↔ (w.stores.seen ctx).live < 2 ^ 32 :=
    produced_iff unused (by simp)
  have direct : ∀ outcome, (∃ found after, some (outcome, w) = some (found, after) ∧
      Answers found) ↔ Answers outcome := by
    intro outcome
    simp
  cases v with
  | slice base len => exact wrapped
  | array base len => exact wrapped
  | map base => exact wrapped
  | struct type base => exact wrapped
  | func code => exact produced_iff unused (by simp)
  | ptr toInterface target =>
    cases target with
    | none => exact direct _
    | some target =>
      simp only [pointsTo] at last
      split at last
      · rename_i struct
        simp only [makeJsValue]
        rw [if_pos struct, wrapped, Encodable]
        simp_all
      · cases last
  | nil => exact (direct _).trans (by simp [Answers, Encodable])
  | bool named value =>
    refine (direct _).trans ?_
    cases named <;> simp [Answers, Encodable]
  | int kind value => exact (direct _).trans (iff_of_true (makeJsInt_ne_exception kind value) trivial)
  | uint kind value =>
    exact (direct _).trans (iff_of_true (makeJsUint_ne_exception kind value) trivial)
  | float word => exact (direct _).trans (iff_of_true (jsNewFloat64_ne_exception word) trivial)
  | string named value =>
    refine (direct _).trans ?_
    cases named
    · simp [Encodable, makeString_answers]
    · simp [Answers, Encodable]
  | bytes named value =>
    refine (direct _).trans ?_
    cases named
    · simp [Encodable, makeString_answers]
    · simp [Answers, Encodable]
  | other kind => exact (direct _).trans (by simp [Answers, Encodable])

/-- A value is converted as the end of the chain of pointers that begins with it.

Proof: induction on the depth in one direction and along the chain in the other. -/
theorem chain_iff (accepted : Outcome JSValue → Prop) :
    (∃ depth outcome after, makeJsValue ctx memory fresh depth v w = some (outcome, after) ∧
      accepted outcome) ↔
    ∃ u, Relation.ReflTransGen (fun a b => pointsTo memory a = some b) v u ∧
      pointsTo memory u = none ∧ ∃ outcome after,
        makeJsValue ctx memory fresh 1 u w = some (outcome, after) ∧ accepted outcome := by
  constructor
  · rintro ⟨depth, outcome, after, returned, holds⟩
    induction depth generalizing v with
    | zero => simp [makeJsValue] at returned
    | succ depth inductionHypothesis =>
      cases leads : pointsTo memory v with
      | none =>
        refine ⟨v, .refl, leads, outcome, after, ?_, holds⟩
        rwa [last_depth leads 0 depth]
      | some next =>
        rw [pointsTo_step leads] at returned
        obtain ⟨u, chain, ends⟩ := inductionHypothesis returned
        exact ⟨u, .head leads chain, ends⟩
  · rintro ⟨u, chain, last, outcome, after, returned, holds⟩
    induction chain using Relation.ReflTransGen.head_induction_on with
    | refl => exact ⟨1, outcome, after, returned, holds⟩
    | head leads _ inductionHypothesis =>
      obtain ⟨depth, outcome, after, returned, holds⟩ := inductionHypothesis
      exact ⟨depth + 1, outcome, after, by rw [pointsTo_step leads, returned], holds⟩

/-- `makeJsValue` returns a JS value or an error exactly when the chain of pointers that
begins with the value ends in one that can be encoded. -/
theorem encodes_iff (ctx : Ptr) (memory : GoMemory) (fresh : Fresh) (v : GoVal) (w : World)
    (unused : Wrappers.Unused ctx w fresh) :
    Encodes ctx memory fresh v w ↔
      ∃ u, Relation.ReflTransGen (fun a b => pointsTo memory a = some b) v u ∧
        Encodable (w.stores.seen ctx) memory u := by
  rw [Encodes, chain_iff Answers]
  constructor
  · rintro ⟨u, chain, last, answered⟩
    exact ⟨u, chain, (last_iff unused last).mp answered⟩
  · rintro ⟨u, chain, encodable⟩
    exact ⟨u, chain, encodable.last, (last_iff unused encodable.last).mpr encodable⟩

/-- The value is encoded by a wrapper, for which an id is taken. -/
def takesId (memory : GoMemory) : GoVal → Bool
  | .slice _ _ | .array _ _ | .map _ | .struct _ _ | .func _ => true
  | .ptr toInterface (some target) => !toInterface && (memory target).isStruct
  | _ => false

/-- The value ends a chain of pointers, and its own case of the switch asserts no type that the
value does not have. -/
def Regular (memory : GoMemory) : GoVal → Prop
  | .bool named _ | .string named _ | .bytes named _ => named = false
  | .ptr toInterface target => takesId memory (.ptr toInterface target) = true
  | _ => True

/-- The text of a string or of a byte slice. -/
def text : GoVal → Option (List UInt8)
  | .string _ bytes | .bytes _ bytes => some bytes
  | _ => none

/-- The case of the switch for the value returns: where it makes a wrapper, an id is left, and
where it makes a string, the process survives. Any other text that the engine cannot hold is
answered with `JS_EXCEPTION`. -/
@[mk_iff finishes_def]
structure Finishes (store : PtrStore GoAddr) (memory : GoMemory) (u : GoVal) : Prop where
  regular : Regular memory u
  room : takesId memory u = true → store.live < 2 ^ 32
  survived : ∀ bytes, text u = some bytes → ¬ Fatal bytes

/-- A text that the process survives finishes. -/
theorem finishes_text {store : PtrStore GoAddr} {named : Bool} {bytes : List UInt8}
    (textual : v = .string named bytes ∨ v = .bytes named bytes) :
    Finishes store memory v ↔ named = false ∧ ¬ Fatal bytes := by
  obtain rfl | rfl := textual <;> simp [finishes_def, Regular, takesId, text]

/-- What finishes is encoded, unless it is a text. -/
theorem finishes_iff {store : PtrStore GoAddr} : Finishes store memory v ↔
    Encodable store memory v ∨
      ∃ bytes, (v = .string false bytes ∨ v = .bytes false bytes) ∧ ¬ Fatal bytes := by
  have survives : ∀ {bytes}, ¬ Oversized bytes → ¬ Fatal bytes := fun short fatal =>
    short fatal.oversized
  cases v with
  | string named value =>
    rw [finishes_text (.inl rfl)]
    cases named with
    | true => simp [Encodable]
    | false => simpa [Encodable] using survives
  | bytes named value =>
    rw [finishes_text (.inr rfl)]
    cases named with
    | true => simp [Encodable]
    | false => simpa [Encodable] using survives
  | ptr toInterface target =>
    cases target with
    | none => simp [finishes_def, Regular, takesId, text, Encodable]
    | some target =>
      simp only [finishes_def, Regular, takesId, text, Encodable, Bool.and_eq_true,
        Bool.not_eq_true', reduceCtorEq, or_self, false_and, exists_false, or_false, false_implies,
        implies_true, and_true]
      tauto
  | _ => simp [finishes_def, Regular, takesId, text, Encodable]

/-- Only a text is converted to `JS_EXCEPTION`. -/
theorem exception_text {after : World} (last : pointsTo memory v = none)
    (returned : makeJsValue ctx memory fresh 1 v w = some (.value .exception, after)) :
    ∃ bytes, (v = .string false bytes ∨ v = .bytes false bytes) ∧ ¬ Fatal bytes := by
  have wrapped : ∀ {wrap : UInt32 × Stores → JSValue × World} {made : Option (UInt32 × Stores)},
      (∀ registered, (wrap registered).1 ≠ .exception) →
      produced (made.map wrap) ≠ some (.value .exception, after) := by
    intro wrap made object same
    obtain ⟨_, registered, pair⟩ := Option.map_eq_some_iff.mp same
    obtain ⟨found, _, rfl⟩ := Option.map_eq_some_iff.mp registered
    exact object found (Outcome.value.inj (Prod.mk.inj pair).1)
  have direct : ∀ {js : JSValue}, js ≠ .exception →
      some (Outcome.value js, w) ≠ some (.value .exception, after) := by
    intro js normal same
    exact normal (Outcome.value.inj (Prod.mk.inj (Option.some.inj same)).1)
  have survived : ∀ {bytes}, makeString fresh bytes = .value .exception → ¬ Fatal bytes := by
    intro bytes refused fatal
    rw [(makeString_panicked_iff bytes).mpr fatal] at refused
    cases refused
  cases v with
  | string named value =>
    cases named
    · exact ⟨value, .inl rfl, survived (Prod.mk.inj (Option.some.inj returned)).1⟩
    · cases returned
  | bytes named value =>
    cases named
    · exact ⟨value, .inr rfl, survived (Prod.mk.inj (Option.some.inj returned)).1⟩
    · cases returned
  | slice base len => exact absurd returned (wrapped (by simp))
  | array base len => exact absurd returned (wrapped (by simp))
  | map base => exact absurd returned (wrapped (by simp))
  | struct type base => exact absurd returned (wrapped (by simp))
  | func code => exact absurd returned (wrapped (by simp))
  | ptr toInterface target =>
    cases target with
    | none => cases returned
    | some target =>
      simp only [pointsTo] at last
      split at last
      · rename_i struct
        simp only [makeJsValue] at returned
        rw [if_pos struct] at returned
        exact absurd returned (wrapped (by simp))
      · cases last
  | nil => cases returned
  | bool named value => cases named <;> cases returned
  | int kind value => exact absurd returned (direct (makeJsInt_ne_exception kind value))
  | uint kind value => exact absurd returned (direct (makeJsUint_ne_exception kind value))
  | float word => exact absurd returned (direct (jsNewFloat64_ne_exception word))
  | other kind => cases returned

/-- A conversion that returns follows no pointer any more. -/
theorem Finishes.last {store : PtrStore GoAddr} (finishes : Finishes store memory v) :
    pointsTo memory v = none := by
  obtain encodable | ⟨bytes, rfl | rfl, _⟩ := finishes_iff.mp finishes
  · exact encodable.last
  · rfl
  · rfl

/-- `makeJsValue` returns exactly when the chain of pointers that begins with the value ends in
one whose case finishes. -/
theorem returns_iff (unused : Wrappers.Unused ctx w fresh) :
    (∃ depth outcome after, makeJsValue ctx memory fresh depth v w = some (outcome, after) ∧
      outcome ≠ .panicked) ↔
    ∃ u, Relation.ReflTransGen (fun a b => pointsTo memory a = some b) v u ∧
      Finishes (w.stores.seen ctx) memory u := by
  rw [chain_iff (· ≠ .panicked)]
  constructor
  · rintro ⟨u, chain, last, outcome, after, returned, ends⟩
    refine ⟨u, chain, finishes_iff.mpr ?_⟩
    cases outcome with
    | panicked => exact absurd rfl ends
    | failed e => exact .inl ((last_iff unused last).mp ⟨_, after, returned, trivial⟩)
    | value js =>
      by_cases thrown : js = .exception
      · subst thrown
        exact .inr (exception_text last returned)
      · exact .inl ((last_iff unused last).mp ⟨_, after, returned, thrown⟩)
  · rintro ⟨u, chain, finishes⟩
    refine ⟨u, chain, finishes.last, ?_⟩
    obtain encodable | ⟨bytes, rfl | rfl, survived⟩ := finishes_iff.mp finishes
    · obtain ⟨outcome, after, returned, answers⟩ := (last_iff unused encodable.last).mpr encodable
      refine ⟨outcome, after, returned, ?_⟩
      rintro rfl
      exact answers
    · exact ⟨_, w, rfl, mt (makeString_panicked_iff bytes).mp survived⟩
    · exact ⟨_, w, rfl, mt (makeString_panicked_iff bytes).mp survived⟩

/-- A pointer to a pointer to a struct is encoded as the inner pointer. -/
theorem pointerToStruct_encodes :
    Encodes 1 (fun | 0 => .ptr false (some 1) | _ => .struct 0 2) ⟨3, 4⟩ (.ptr false (some 0))
      World.initial :=
  (encodes_iff 1 _ ⟨3, 4⟩ _ World.initial ⟨rfl, rfl⟩).mpr
    ⟨.ptr false (some 1), .single rfl, rfl, rfl, by decide⟩

/-- A pointer that is nil, or an empty interface that holds a pointer to itself, is not
encoded: the first panics and the second is followed forever. -/
theorem pointers_not_encoded :
    ¬ Encodes 1 (fun _ => .nil) ⟨3, 4⟩ (.ptr false none) World.initial ∧
      ¬ Encodes 1 (fun _ => .ptr true (some 0)) ⟨3, 4⟩ (.ptr true (some 0)) World.initial := by
  constructor
  · rintro ⟨depth, outcome, after, returned, answers⟩
    cases depth with
    | zero => cases returned
    | succ depth =>
      cases returned
      exact answers
  · rintro ⟨depth, outcome, after, returned, _⟩
    induction depth with
    | zero => cases returned
    | succ depth inductionHypothesis => exact inductionHypothesis returned

end GoQuickjs.World
