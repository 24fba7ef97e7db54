import GoQuickjs.Totality

/-!
# Conversions one after the other

Arguments and environments hand over several values. Each of them has addresses of its own
from the two allocators, and each wrapper takes one id, so that the ids in use grow by the
values that are wrapped. Nothing else of what was converted before has an influence: what a
value is converted to is determined by the end of its chain of pointers and by the address of
the new engine structure.
-/

namespace GoQuickjs.World

variable {ctx : Ptr} {memory : GoMemory} {fresh : Fresh} {w after : World} {u v : GoVal}

/-! ## One value -/

/-- What is converted does not depend on the depth. -/
theorem makeJsValue_unique {depth more : Nat} {one other : Outcome JSValue × World}
    (first : makeJsValue ctx memory fresh depth v w = some one)
    (second : makeJsValue ctx memory fresh more v w = some other) : one = other := by
  have deep := makeJsValue_deeper (Nat.le_max_left depth more) first
  rw [makeJsValue_deeper (Nat.le_max_right depth more) second] at deep
  exact (Option.some.inj deep).symm

/-- What a value that ends a chain of pointers is converted to. -/
def answer (fresh : Fresh) : GoVal → Outcome JSValue
  | .nil => .value .null
  | .bool _ value => .value (.bool value)
  | .int kind value => .value (makeJsInt kind value)
  | .uint kind value => .value (makeJsUint kind value)
  | .float word => .value (jsNewFloat64 word)
  | .string _ value | .bytes _ value => makeString fresh value
  | .slice _ _ | .array _ _ | .map _ | .struct _ _ | .ptr _ _ | .func _ =>
    .value (.object fresh.object)
  | .other kind => .failed ("unsupported type " ++ kind.name)

/-- What the conversion of the end of a chain of pointers answers, and the ids in use after it. -/
def ConvertedAs (ctx : Ptr) (memory : GoMemory) (fresh : Fresh) (u : GoVal) (w : World)
    (outcome : Outcome JSValue) (after : World) : Prop :=
  (Regular memory u → outcome = answer fresh u) ∧
    (after.stores.seen ctx).live = (w.stores.seen ctx).live + if takesId memory u then 1 else 0

/-- A new wrapper takes one id. -/
theorem produced_converted {outcome : Outcome JSValue} {wrap : UInt32 × Stores → JSValue × World}
    (unused : Wrappers.Unused ctx w fresh) (takes : takesId memory u = true)
    (answers : answer fresh u = .value (.object fresh.object))
    (wrapped : ∀ made, (wrap made).1 = .object fresh.object ∧ (wrap made).2.stores = made.2)
    (returned : produced ((w.stores.registerIn ctx fresh.goVar).map wrap) = some (outcome, after)) :
    ConvertedAs ctx memory fresh u w outcome after := by
  obtain ⟨_, made, same⟩ := Option.map_eq_some_iff.mp returned
  obtain ⟨⟨idx, registered⟩, found, rfl⟩ := Option.map_eq_some_iff.mp made
  obtain ⟨rfl, rfl⟩ := Prod.mk.inj same
  obtain ⟨store, inStore, _, _, seen⟩ := Stores.registerIn_cases found
  refine ⟨fun _ => ?_, ?_⟩
  · rw [(wrapped _).1, answers]
  · rw [(wrapped _).2, seen, if_pos rfl, if_pos takes]
    exact PtrStore.register_live unused.1 inStore

/-- A value that ends a chain of pointers is converted by its own case of the switch. -/
theorem last_converted {depth : Nat} {outcome : Outcome JSValue}
    (unused : Wrappers.Unused ctx w fresh) (last : pointsTo memory u = none)
    (returned : makeJsValue ctx memory fresh (depth + 1) u w = some (outcome, after)) :
    ConvertedAs ctx memory fresh u w outcome after := by
  cases u with
  | slice base len => exact produced_converted unused rfl rfl (fun _ => ⟨rfl, rfl⟩) returned
  | array base len => exact produced_converted unused rfl rfl (fun _ => ⟨rfl, rfl⟩) returned
  | map base => exact produced_converted unused rfl rfl (fun _ => ⟨rfl, rfl⟩) returned
  | struct type base => exact produced_converted unused rfl rfl (fun _ => ⟨rfl, rfl⟩) returned
  | func code => exact produced_converted unused rfl rfl (fun _ => ⟨rfl, rfl⟩) returned
  | ptr toInterface target =>
    cases target with
    | none =>
      cases returned
      exact ⟨fun regular => (by cases regular), rfl⟩
    | some target =>
      simp only [pointsTo] at last
      split at last
      · rename_i struct
        simp only [makeJsValue] at returned
        rw [if_pos struct] at returned
        exact produced_converted unused struct rfl (fun _ => ⟨rfl, rfl⟩) returned
      · cases last
  | bool named value =>
    cases returned
    exact ⟨fun regular => if_neg (by simpa [Regular] using regular), rfl⟩
  | string named value =>
    cases returned
    exact ⟨fun regular => if_neg (by simpa [Regular] using regular), rfl⟩
  | bytes named value =>
    cases returned
    exact ⟨fun regular => if_neg (by simpa [Regular] using regular), rfl⟩
  | nil | int | uint | float | other =>
    cases returned
    exact ⟨fun _ => rfl, rfl⟩

/-- A value is converted as the end of its chain of pointers, whatever was converted before. -/
theorem converted {depth : Nat} {outcome : Outcome JSValue} (unused : Wrappers.Unused ctx w fresh)
    (chain : Relation.ReflTransGen (fun a b => pointsTo memory a = some b) v u)
    (last : pointsTo memory u = none)
    (returned : makeJsValue ctx memory fresh depth v w = some (outcome, after)) :
    ConvertedAs ctx memory fresh u w outcome after := by
  induction chain using Relation.ReflTransGen.head_induction_on generalizing depth with
  | refl =>
    cases depth with
    | zero => simp [makeJsValue] at returned
    | succ depth => exact last_converted unused last returned
  | head leads _ inductionHypothesis =>
    cases depth with
    | zero => simp [makeJsValue] at returned
    | succ depth =>
      rw [pointsTo_step leads] at returned
      exact inductionHypothesis returned

/-! ## Several values -/

/-- Every value that is still to be converted has addresses of its own that are not in use. -/
structure Supply {Index : Type} (ctx : Ptr) (w : World) (fresh : Index → Fresh)
    (pending : Index → Prop) : Prop where
  unused : ∀ k, pending k → Wrappers.Unused ctx w (fresh k)
  apart : ∀ j k, j ≠ k →
    (fresh j).goVar ≠ (fresh k).goVar ∧ (fresh j).object ≠ (fresh k).object

/-- The addresses of the other values stay out of use. -/
theorem Supply.next {Index : Type} {fresh : Index → Fresh} {pending still : Index → Prop}
    {i : Index} {depth : Nat} {outcome : Outcome JSValue} (supply : Supply ctx w fresh pending)
    (here : pending i) (others : ∀ k, still k → pending k ∧ k ≠ i)
    (returned : makeJsValue ctx memory (fresh i) depth v w = some (outcome, after)) :
    Supply ctx after fresh still := by
  refine ⟨?_, supply.apart⟩
  intro k later
  obtain ⟨inside, different⟩ := others k later
  have before := supply.unused k inside
  have used := supply.unused i here
  obtain ⟨otherVar, otherObject⟩ := supply.apart k i different
  cases makeJsValue_effect returned with
  | unchanged sameStore _ sameWrappers _ =>
    rw [Wrappers.Unused, sameStore, sameWrappers]
    exact before
  | wrapped v idx wrapper registered _ wrappers _ _ =>
    rw [Wrappers.Unused, wrappers, Finmap.lookup_insert_of_ne _ otherObject]
    refine ⟨?_, before.2⟩
    obtain ⟨_, known, _⟩ | ⟨_, _, after⟩ := PtrStore.register_cases registered
    · rw [used.1] at known
      cases known
    · rw [after, Finmap.lookup_insert_of_ne _ otherVar]
      exact before.1

end GoQuickjs.World
