import Mathlib.Order.Filter.AtTopBot.Basic
import GoQuickjs.Decode

/-!
# How far a conversion gets

Whether a conversion returns a value, returns an error or does neither is a property
of the answers the engine gives. `Converts` says that the value at a path is
converted without an error, and `Reaches` that the conversion of one value gets to
read another one below it. Both are defined from the answers alone, and the
conversion is shown to follow them, at every depth that is large enough.
-/

namespace GoQuickjs

open Tracing Traced Filter

/-! ## Answers -/

/-- `JS_IsException`. -/
def Answer.IsThrown : Answer → Prop
  | .thrown _ => True
  | _ => False

/-- Reading the value, its length or its keys throws. -/
def Answer.Throws : Answer → Prop
  | .thrown _ | .array (.error _) | .object (.error _) => True
  | _ => False

/-- What is thrown leaves no error: a value that is not an `Error` object is thrown
when the value is read, or anything is thrown by the `length` of an array. -/
def Answer.Swallowed : Answer → Prop
  | .thrown (.other _) | .array (.error _) => True
  | _ => False

/-- The answer makes the conversion fail: an `Error` object is thrown, the keys of an
object are refused, or the value has no Go counterpart. -/
def Answer.Reported : Answer → Prop
  | .thrown (.error _ _) | .object (.error _) | .other _ => True
  | _ => False

/-- The answer is turned into a Go value without reading further. -/
def Answer.Plain : Answer → Prop
  | .thrown (.other _) | .null | .undefined | .bool _ | .int _ | .float64 _ | .function _ => True
  | .string bytes => ¬ Int32.ofNat bytes.length < 0
  | _ => False

/-- The text of the error that `fromJsException` makes. -/
def Thrown.message : Thrown → Option String
  | .error _ name => some (name.text.getD "")
  | .other _ => none

/-- The value at the path is converted without an error. -/
inductive Converts (r : Reading) : Path → Prop
  | plain {p : Path} : (r p).Plain → Converts r p
  | array {p : Path} {length : Except Thrown JSValue} : r p = .array length →
      0 ≤ elementCount length → (∀ i < (elementCount length).toNat, ¬ (r (i :: p)).IsThrown) →
      (∀ i < (elementCount length).toNat, Converts r (i :: p)) → Converts r p
  | arrayCut {p : Path} {length : Except Thrown JSValue} {i : Nat} {v : JSValue} :
      r p = .array length → i < (elementCount length).toNat →
      (∀ j < i, ¬ (r (j :: p)).IsThrown) → (∀ j < i, Converts r (j :: p)) →
      r (i :: p) = .thrown (.other v) → Converts r p
  | object {p : Path} {atoms : List JSAtom} : r p = .object (.ok atoms) →
      (∀ i < atoms.length, Converts r (i :: p)) → Converts r p

/-- The conversion of the value at the first path gets to read the second one. -/
inductive Reaches (r : Reading) : Path → Path → Prop
  | here (p : Path) : Reaches r p p
  | element {p q : Path} {length : Except Thrown JSValue} {i : Nat} : r p = .array length →
      i < (elementCount length).toNat → (∀ j < i, ¬ (r (j :: p)).IsThrown) →
      (∀ j < i, Converts r (j :: p)) → Reaches r (i :: p) q → Reaches r p q
  | property {p q : Path} {atoms : List JSAtom} {i : Nat} : r p = .object (.ok atoms) →
      i < atoms.length → (∀ j < i, Converts r (j :: p)) → Reaches r (i :: p) q → Reaches r p q

/-! ## One level -/

variable {r : Reading} {p : Path} {convert : Path → Owning GoResult}

/-- A thrown value has no parts to read. -/
theorem Reaches.eq_of_thrown {q : Path} (reached : Reaches r p q) (thrown : (r p).IsThrown) :
    q = p := by
  cases reached with
  | here => rfl
  | element read => simp [read, Answer.IsThrown] at thrown
  | property read => simp [read, Answer.IsThrown] at thrown

/-- A conversion that gets to a node gets to what is reached from it. -/
theorem Reaches.trans {q q' : Path} (first : Reaches r p q) (second : Reaches r q q') :
    Reaches r p q' := by
  induction first with
  | here => exact second
  | element read below unthrown earlier _ inductionHypothesis =>
    exact .element read below unthrown earlier (inductionHypothesis second)
  | property read below earlier _ inductionHypothesis =>
    exact .property read below earlier (inductionHypothesis second)

@[simp] theorem uses_trace (ref : Option Resource) : (uses ref).trace = ref.toList.map .use := rfl

/-- A use goes in front of the rest. -/
@[simp] theorem uses_bind {β : Type} (ref : Option Resource) (rest : Unit → Owning β) :
    uses ref >>= rest = ⟨(rest ()).ending, ref.toList.map .use ++ (rest ()).trace⟩ := rfl

/-- A reference given back goes in front of the rest. -/
@[simp] theorem gives_bind {β : Type} (ref : Option Resource) (rest : Unit → Owning β) :
    gives ref >>= rest = ⟨(rest ()).ending, ref.toList.map .give ++ (rest ()).trace⟩ := rfl

/-- The text of a property, unless its value is one to skip. -/
theorem propertyText_ending (place : Place) (part textPart : Part) (skip : JSValue → Bool)
    (property : Fetched) : (propertyText place part textPart skip property).ending =
      .returns (if skip property.value then none else property.text) := by
  simp only [propertyText, uses_bind, holdingDeferred_ending]
  split
  · rfl
  · cases property.text <;> rfl

/-- `DumpException` always returns. -/
theorem dumpException_ending (place : Place) (stack : Fetched) :
    (dumpException place stack).ending = .returns () := by
  rw [dumpException, bind_returns (propertyText_ending ..)]
  rfl

/-- `getExceptionStr` returns the name, or the empty string. -/
theorem getExceptionStr_ending (place : Place) (name : Fetched) :
    (getExceptionStr place name).ending = .returns (name.text.getD "") := by
  rw [getExceptionStr, bind_returns (propertyText_ending ..)]
  rfl

/-- `fromJsException` returns the message of what was thrown. -/
theorem fromJsException_ending (place : Place) (x : Thrown) :
    (fromJsException place (some x)).ending = .returns x.message := by
  cases x with
  | other v => rfl
  | error stack name =>
    simp only [fromJsException, holdingDeferred_ending, uses_bind,
      bind_returns (dumpException_ending place stack),
      bind_returns (getExceptionStr_ending place name)]
    rfl

/-- An element whose read throws ends the loop with the error of the exception. -/
theorem arrayElement_thrown {i : Nat} {x : Thrown} (read : r (i :: p) = .thrown x)
    (res : List Decoded) : (arrayElement r p convert i res).ending =
      .returns (.error (withError x.message)) := by
  simp only [arrayElement, read, uses_bind, bind_returns (fromJsException_ending _ x)]
  rfl

/-- An element that is read is converted with its reference held. -/
theorem arrayElement_read {i : Nat} (read : ¬ (r (i :: p)).IsThrown) (res : List Decoded) :
    arrayElement r p convert i res = uses (valueRef r p) >>= fun _ =>
      holding (valueRef r (i :: p)) (convert (i :: p)) >>= fun
        | .error e => pure (.error (.error e))
        | .ok ev => pure (.ok (res ++ [ev])) := by
  unfold arrayElement
  generalize r (i :: p) = answer at read ⊢
  cases answer with
  | thrown x => exact absurd trivial read
  | _ => rfl

/-- The loop passes an element that can be read and converted. -/
theorem arrayElement_passes {i : Nat} {res : List Decoded} :
    (∃ res', (arrayElement r p convert i res).ending = .returns (.ok res')) ↔
      ¬ (r (i :: p)).IsThrown ∧ ∃ ev, (convert (i :: p)).ending = .returns (.ok ev) := by
  by_cases thrown : (r (i :: p)).IsThrown
  · cases shape : r (i :: p) with
    | thrown x => simp [arrayElement_thrown shape, Answer.IsThrown]
    | _ => simp [shape, Answer.IsThrown] at thrown
  · simp only [arrayElement_read thrown, uses_bind, bind_ending, holding_ending, thrown,
      not_false_eq_true, true_and]
    constructor
    · rintro ⟨res', result, converted, went⟩
      cases result with
      | error e => simp at went
      | ok ev => exact ⟨ev, converted⟩
    · rintro ⟨ev, converted⟩
      exact ⟨_, .ok ev, converted, rfl⟩

/-- What stops the loop over the elements. -/
theorem arrayElement_stops {i : Nat} {res : List Decoded} {result : GoResult}
    (stopped : (arrayElement r p convert i res).ending = .returns (.error result)) :
    (∃ x, r (i :: p) = .thrown x ∧ result = withError x.message) ∨
      ∃ e, (convert (i :: p)).ending = .returns (.error e) ∧ result = .error e := by
  by_cases thrown : (r (i :: p)).IsThrown
  · cases shape : r (i :: p) with
    | thrown x =>
      rw [arrayElement_thrown shape] at stopped
      exact Or.inl ⟨x, rfl, by simpa using stopped.symm⟩
    | _ => simp [shape, Answer.IsThrown] at thrown
  · simp only [arrayElement_read thrown, uses_bind, bind_ending, holding_ending] at stopped
    obtain ⟨outcome, converted, ended⟩ := stopped
    cases outcome with
    | error e => exact Or.inr ⟨e, converted, by simpa using ended.symm⟩
    | ok ev => simp at ended

/-- The loop passes a property that can be converted. -/
theorem objectProperty_passes {atoms : List JSAtom} {i : Nat}
    {res : List (List UInt8 × Decoded)} :
    (∃ res', (objectProperty r p convert atoms i res).ending = .returns (.ok res')) ↔
      ∃ ev, (convert (i :: p)).ending = .returns (.ok ev) := by
  simp only [objectProperty, uses_bind, gives_bind, bind_ending, holding_ending]
  constructor
  · rintro ⟨res', result, converted, went⟩
    cases result with
    | error e => simp at went
    | ok ev => exact ⟨ev, converted⟩
  · rintro ⟨ev, converted⟩
    exact ⟨_, .ok ev, converted, rfl⟩

/-- What stops the loop over the properties. -/
theorem objectProperty_stops {atoms : List JSAtom} {i : Nat} {res : List (List UInt8 × Decoded)}
    {e : String} : (objectProperty r p convert atoms i res).ending = .returns (.error e) ↔
      (convert (i :: p)).ending = .returns (.error e) := by
  simp only [objectProperty, uses_bind, gives_bind, bind_ending, holding_ending]
  constructor
  · rintro ⟨result, converted, ended⟩
    cases result with
    | error err =>
      obtain rfl : err = e := by simpa using ended
      exact converted
    | ok ev => simp [holding_eq, bind_returns] at ended
  · exact fun converted => ⟨.error e, converted, rfl⟩

/-! ## One value -/

/-- An array ends with the result of the loop over its elements, or with the error of one. -/
theorem fromJsArray_ending {length : Except Thrown JSValue} {result : GoResult} :
    (fromJsArray r p convert length).ending = .returns result ↔ 0 ≤ elementCount length ∧
      ((each (arrayElement r p convert) (elementCount length).toNat 0 []).ending =
          .returns (.error result) ∨
        ∃ res, (each (arrayElement r p convert) (elementCount length).toNat 0 []).ending =
          .returns (.ok res) ∧ result = .ok (.slice res)) := by
  simp only [fromJsArray, uses_bind, holdingDeferred_ending]
  by_cases negative : elementCount length < 0
  · rw [if_pos negative]
    simp [panicking]
    omega
  · rw [if_neg negative, bind_ending]
    constructor
    · rintro ⟨outcome, looped, ended⟩
      refine ⟨by omega, ?_⟩
      cases outcome with
      | error early =>
        obtain rfl : early = result := by simpa using ended
        exact Or.inl looped
      | ok res => exact Or.inr ⟨res, looped, by simpa using ended.symm⟩
    · rintro ⟨-, looped | ⟨res, looped, rfl⟩⟩
      · exact ⟨_, looped, rfl⟩
      · exact ⟨_, looped, rfl⟩

/-- An object ends with the result of the loop over its properties, or with the error of one. -/
theorem fromJsObject_ending {atoms : List JSAtom} {result : GoResult} :
    (fromJsObject r p convert (.ok atoms)).ending = .returns result ↔
      (∃ e, (each (objectProperty r p convert atoms) atoms.length 0 []).ending =
          .returns (.error e) ∧ result = .error e) ∨
        ∃ res, (each (objectProperty r p convert atoms) atoms.length 0 []).ending =
          .returns (.ok res) ∧
          result = .ok (.map (if atoms.length = 0 then none else some res)) := by
  simp only [fromJsObject, uses_bind, log_bind, bind_ending]
  constructor
  · rintro ⟨outcome, looped, ended⟩
    cases outcome with
    | error e => exact Or.inl ⟨e, looped, by simpa using ended.symm⟩
    | ok res => exact Or.inr ⟨res, looped, by simpa using ended.symm⟩
  · rintro (⟨e, looped, rfl⟩ | ⟨res, looped, rfl⟩)
    · exact ⟨_, looped, rfl⟩
    · exact ⟨_, looped, rfl⟩

/-- An exception is converted to its message. -/
theorem fromJsValue_thrown {x : Thrown} (read : r p = .thrown x) (depth : Nat) :
    (fromJsValue r (depth + 1) p).ending = .returns (withError x.message) := by
  simp only [fromJsValue, read]
  change (fromJsException _ (some x) >>= fun err => pure (withError err)).ending = _
  rw [bind_returns (fromJsException_ending _ x)]
  rfl

/-- An array is converted by `fromJsArray`. -/
theorem fromJsValue_array {length : Except Thrown JSValue} (read : r p = .array length)
    (depth : Nat) : (fromJsValue r (depth + 1) p).ending =
      (fromJsArray r p (fromJsValue r depth) length).ending := by
  simp only [fromJsValue, read, uses_bind]

/-- An object is converted by `fromJsObject`. -/
theorem fromJsValue_object {names : Except Thrown (List JSAtom)} (read : r p = .object names)
    (depth : Nat) : (fromJsValue r (depth + 1) p).ending =
      (fromJsObject r p (fromJsValue r depth) names).ending := by
  simp only [fromJsValue, read, uses_bind]

/-- A plain value is converted at any depth. -/
theorem fromJsValue_plain (plain : (r p).Plain) (depth : Nat) :
    ∃ v, (fromJsValue r (depth + 1) p).ending = .returns (.ok v) := by
  cases read : r p with
  | thrown x =>
    cases x with
    | error stack name => simp [read, Answer.Plain] at plain
    | other v => exact ⟨.nil, fromJsValue_thrown read depth⟩
  | string bytes =>
    have fits : ¬ Int32.ofNat bytes.length < 0 := by simpa [read, Answer.Plain] using plain
    simp only [fromJsValue, read, uses_bind, holding_ending, goStringN, if_neg fits]
    exact ⟨_, rfl⟩
  | array length => simp [read, Answer.Plain] at plain
  | object names => simp [read, Answer.Plain] at plain
  | other v => simp [read, Answer.Plain] at plain
  | _ =>
    simp only [fromJsValue, read]
    exact ⟨_, rfl⟩

/-- An error at the root of a conversion. -/
theorem fromJsValue_reported (reported : (r p).Reported) (depth : Nat) :
    ∃ e, (fromJsValue r (depth + 1) p).ending = .returns (.error e) := by
  cases read : r p with
  | thrown x =>
    cases x with
    | error stack name => exact ⟨_, fromJsValue_thrown read depth⟩
    | other v => simp [read, Answer.Reported] at reported
  | object names =>
    cases names with
    | error x => exact ⟨_, fromJsValue_object read depth⟩
    | ok atoms => simp [read, Answer.Reported] at reported
  | other v =>
    simp only [fromJsValue, read]
    exact ⟨_, rfl⟩
  | _ => simp [read, Answer.Reported] at reported

/-! ## What a result says about the answers -/

/-- The elements that a loop passed were read and converted. -/
theorem elements_passed {n : Nat} (passed : Passed (arrayElement r p convert) 0 n)
    (known : ∀ q ev, (convert q).ending = .returns (.ok ev) → Converts r q) :
    (∀ i < n, ¬ (r (i :: p)).IsThrown) ∧ ∀ i < n, Converts r (i :: p) := by
  have each_read : ∀ i < n, ¬ (r (i :: p)).IsThrown ∧ Converts r (i :: p) := by
    intro i below
    obtain ⟨res, res', went⟩ := passed i (Nat.zero_le i) below
    obtain ⟨read, ev, converted⟩ := arrayElement_passes.mp ⟨res', went⟩
    exact ⟨read, known _ ev converted⟩
  exact ⟨fun i below => (each_read i below).1, fun i below => (each_read i below).2⟩

/-- The properties that a loop passed were converted. -/
theorem properties_passed {atoms : List JSAtom} {n : Nat}
    (passed : Passed (objectProperty r p convert atoms) 0 n)
    (known : ∀ q ev, (convert q).ending = .returns (.ok ev) → Converts r q) :
    ∀ i < n, Converts r (i :: p) := by
  intro i below
  obtain ⟨res, res', went⟩ := passed i (Nat.zero_le i) below
  obtain ⟨ev, converted⟩ := objectProperty_passes.mp ⟨res', went⟩
  exact known _ ev converted

/-- A conversion that returns without error converts.

Proof: induction on the depth. A loop that ran to its end passed every index, and
one that was stopped without error was stopped by a swallowed exception. -/
theorem converts_of_returns {depth : Nat} {v : Decoded}
    (returned : (fromJsValue r depth p).ending = .returns (.ok v)) : Converts r p := by
  induction depth generalizing p v with
  | zero => simp [fromJsValue, unfinished] at returned
  | succ depth inductionHypothesis =>
    cases read : r p with
    | array length =>
      rw [fromJsValue_array read] at returned
      obtain ⟨nonnegative, looped | ⟨res, looped, -⟩⟩ := fromJsArray_ending.mp returned
      · obtain ⟨i, -, below, passed, res, stopped⟩ := each_stopped looped
        obtain ⟨unthrown, converted⟩ := elements_passed passed fun q ev => inductionHypothesis
        rcases arrayElement_stops stopped with ⟨x, thrown, result⟩ | ⟨e, -, result⟩
        · cases x with
          | error stack name => simp [Thrown.message, withError] at result
          | other value =>
            exact .arrayCut read (by omega) unthrown converted thrown
        · simp at result
      · have passed := each_passed looped
        rw [Nat.zero_add] at passed
        obtain ⟨unthrown, converted⟩ := elements_passed passed fun q ev => inductionHypothesis
        exact .array read nonnegative unthrown converted
    | object names =>
      rw [fromJsValue_object read] at returned
      cases names with
      | error x => simp [fromJsObject] at returned
      | ok atoms =>
        obtain ⟨e, -, result⟩ | ⟨res, looped, -⟩ := fromJsObject_ending.mp returned
        · simp at result
        · have passed := each_passed looped
          rw [Nat.zero_add] at passed
          exact .object read (properties_passed passed fun q ev => inductionHypothesis)
    | thrown x =>
      rw [fromJsValue_thrown read] at returned
      cases x with
      | error stack name => simp [Thrown.message, withError] at returned
      | other value => exact .plain (by simp [read, Answer.Plain])
    | string bytes =>
      simp only [fromJsValue, read, uses_bind, holding_ending, goStringN] at returned
      by_cases long : Int32.ofNat bytes.length < 0
      · simp [if_pos long, panicking] at returned
      · exact .plain (by simpa [read, Answer.Plain] using long)
    | other value => simp [fromJsValue, read] at returned
    | _ => exact .plain (by simp [read, Answer.Plain])

/-- A conversion that returns an error got to an answer that makes it fail.

Proof: induction on the depth; a loop that is stopped with an error is stopped by
the element or property at which the error arose. -/
theorem reported_of_returns {depth : Nat} {e : String}
    (returned : (fromJsValue r depth p).ending = .returns (.error e)) :
    ∃ q, Reaches r p q ∧ (r q).Reported := by
  induction depth generalizing p e with
  | zero => simp [fromJsValue, unfinished] at returned
  | succ depth inductionHypothesis =>
    by_cases here : (r p).Reported
    · exact ⟨p, .here p, here⟩
    cases read : r p with
    | array length =>
      rw [fromJsValue_array read] at returned
      obtain ⟨-, looped | ⟨res, -, result⟩⟩ := fromJsArray_ending.mp returned
      · obtain ⟨i, -, below, passed, res, stopped⟩ := each_stopped looped
        obtain ⟨unthrown, converted⟩ := elements_passed passed fun q ev => converts_of_returns
        have deeper : ∃ q, Reaches r (i :: p) q ∧ (r q).Reported := by
          rcases arrayElement_stops stopped with ⟨x, thrown, result⟩ | ⟨err, failed, -⟩
          · cases x with
            | error stack name => exact ⟨i :: p, .here _, by simp [thrown, Answer.Reported]⟩
            | other value => simp [Thrown.message, withError] at result
          · exact inductionHypothesis failed
        obtain ⟨q, reached, reported⟩ := deeper
        exact ⟨q, .element read (by omega) unthrown converted reached, reported⟩
      · simp at result
    | object names =>
      cases names with
      | error x => exact absurd (by simp [read, Answer.Reported]) here
      | ok atoms =>
        rw [fromJsValue_object read] at returned
        obtain ⟨err, looped, -⟩ | ⟨res, -, result⟩ := fromJsObject_ending.mp returned
        · obtain ⟨i, -, below, passed, res, stopped⟩ := each_stopped looped
          have converted := properties_passed passed fun q ev => converts_of_returns
          obtain ⟨q, reached, reported⟩ := inductionHypothesis (objectProperty_stops.mp stopped)
          exact ⟨q, .property read (by omega) converted reached, reported⟩
        · simp at result
    | thrown x =>
      cases x with
      | error stack name => exact absurd (by simp [read, Answer.Reported]) here
      | other value => simp [fromJsValue_thrown read, Thrown.message, withError] at returned
    | string bytes =>
      simp only [fromJsValue, read, uses_bind, holding_ending, goStringN] at returned
      split at returned <;> simp [panicking] at returned
    | other value => exact absurd (by simp [read, Answer.Reported]) here
    | _ => simp [fromJsValue, read] at returned

/-! ## What the answers say about a result -/

/-- What holds one level deeper, from some depth on, holds from some depth on. -/
theorem eventually_succ {holds : Nat → Prop} (later : ∀ᶠ depth in atTop, holds (depth + 1)) :
    ∀ᶠ depth in atTop, holds depth := by
  obtain ⟨enough, from_there⟩ := eventually_atTop.mp later
  refine eventually_atTop.mpr ⟨enough + 1, ?_⟩
  intro depth above
  obtain ⟨below, rfl⟩ : ∃ below, depth = below + 1 := ⟨depth - 1, by omega⟩
  exact from_there below (by omega)

/-- A bounded number of conditions, each met from some depth on, are met together. -/
theorem eventually_below {holds : Nat → Nat → Prop} {n : Nat}
    (each_holds : ∀ i < n, ∀ᶠ depth in atTop, holds i depth) :
    ∀ᶠ depth in atTop, ∀ i < n, holds i depth :=
  (eventually_all_finite (Set.finite_lt_nat n)).mpr each_holds

/-- Elements that are read and converted let the loop go on. -/
theorem elements_pass {n : Nat} (unthrown : ∀ i < n, ¬ (r (i :: p)).IsThrown)
    (converted : ∀ i < n, ∃ v, (convert (i :: p)).ending = .returns (.ok v)) :
    ∀ i, 0 ≤ i → i < n → ∀ res, ∃ res',
      (arrayElement r p convert i res).ending = .returns (.ok res') :=
  fun i _ below _ => arrayElement_passes.mpr ⟨unthrown i below, converted i below⟩

/-- Properties that are converted let the loop go on. -/
theorem properties_pass (r : Reading) (atoms : List JSAtom) {n : Nat}
    (converted : ∀ i < n, ∃ v, (convert (i :: p)).ending = .returns (.ok v)) :
    ∀ i, 0 ≤ i → i < n → ∀ res, ∃ res',
      (objectProperty r p convert atoms i res).ending = .returns (.ok res') :=
  fun i _ below _ => objectProperty_passes.mpr (converted i below)

/-- The loop over the properties ends with the first error. -/
theorem properties_stop (r : Reading) {atoms : List JSAtom} {i : Nat} {e : String} (below : i < atoms.length)
    (converted : ∀ j < i, ∃ v, (convert (j :: p)).ending = .returns (.ok v))
    (failed : (convert (i :: p)).ending = .returns (.error e)) :
    (each (objectProperty r p convert atoms) atoms.length 0 []).ending = .returns (.error e) :=
  each_stops (Nat.zero_le i) (by omega) (properties_pass r atoms converted)
    fun _ => objectProperty_stops.mpr failed

/-- A value that converts is converted at every depth that is large enough.

Proof: induction on the derivation. Finitely many elements or properties are
converted at one common depth, and the loop over them then runs to its end, or to
the swallowed exception that cuts it. -/
theorem Converts.returns (converts : Converts r p) :
    ∀ᶠ depth in atTop, ∃ v, (fromJsValue r depth p).ending = .returns (.ok v) := by
  induction converts with
  | plain plain =>
    exact eventually_succ (Eventually.of_forall fun depth => fromJsValue_plain plain depth)
  | array read nonnegative unthrown _ inductionHypothesis =>
    refine eventually_succ ((eventually_below inductionHypothesis).mono ?_)
    intro depth converted
    have passes := elements_pass unthrown converted
    rw [← Nat.zero_add (Int.toNat _)] at passes
    obtain ⟨res, looped⟩ := each_completes (a := []) passes
    rw [fromJsValue_array read]
    exact ⟨_, fromJsArray_ending.mpr ⟨nonnegative, Or.inr ⟨res, looped, rfl⟩⟩⟩
  | @arrayCut p length i v read below unthrown _ thrown inductionHypothesis =>
    refine eventually_succ ((eventually_below inductionHypothesis).mono ?_)
    intro depth converted
    have inside : i < 0 + (elementCount length).toNat := by omega
    have looped := each_stops (a := []) (Nat.zero_le i) inside (elements_pass unthrown converted)
      fun res => arrayElement_thrown thrown res
    rw [fromJsValue_array read]
    exact ⟨_, fromJsArray_ending.mpr ⟨by omega, Or.inl looped⟩⟩
  | @object p atoms read _ inductionHypothesis =>
    refine eventually_succ ((eventually_below inductionHypothesis).mono ?_)
    intro depth converted
    have passes := properties_pass r atoms converted
    rw [← Nat.zero_add (List.length _)] at passes
    obtain ⟨res, looped⟩ := each_completes (a := []) passes
    rw [fromJsValue_object read]
    exact ⟨_, fromJsObject_ending.mpr (Or.inr ⟨res, looped, rfl⟩)⟩

/-- A conversion that gets to an answer that makes it fail returns an error at every
depth that is large enough.

Proof: induction on the way to that answer. -/
theorem Reaches.returns {q : Path} (reached : Reaches r p q) (reported : (r q).Reported) :
    ∀ᶠ depth in atTop, ∃ e, (fromJsValue r depth p).ending = .returns (.error e) := by
  induction reached with
  | here p =>
    exact eventually_succ (Eventually.of_forall fun depth => fromJsValue_reported reported depth)
  | @element p q length i read below unthrown converts _ inductionHypothesis =>
    have earlier := eventually_below fun j before => (converts j before).returns
    refine eventually_succ (((inductionHypothesis reported).and earlier).mono ?_)
    rintro depth ⟨⟨e, failed⟩, converted⟩
    have stopped : ∃ err, ∀ res,
        (arrayElement r p (fromJsValue r depth) i res).ending = .returns (.error (.error err)) := by
      by_cases thrown : (r (i :: p)).IsThrown
      · cases shape : r (i :: p) with
        | thrown x =>
          cases x with
          | error stack name => exact ⟨_, fun res => arrayElement_thrown shape res⟩
          | other v =>
            cases depth with
            | zero => simp [fromJsValue, unfinished] at failed
            | succ depth =>
              simp [fromJsValue_thrown shape, Thrown.message, withError] at failed
        | _ => simp [shape, Answer.IsThrown] at thrown
      · refine ⟨e, fun res => ?_⟩
        rw [arrayElement_read thrown, uses_bind, bind_ending]
        exact ⟨.error e, by simpa using failed, rfl⟩
    obtain ⟨err, stops⟩ := stopped
    have inside : i < 0 + (elementCount length).toNat := by omega
    have looped := each_stops (a := []) (Nat.zero_le i) inside (elements_pass unthrown converted)
      stops
    rw [fromJsValue_array read]
    exact ⟨err, fromJsArray_ending.mpr ⟨by omega, Or.inl looped⟩⟩
  | @property p q atoms i read below converts _ inductionHypothesis =>
    have earlier := eventually_below fun j before => (converts j before).returns
    refine eventually_succ (((inductionHypothesis reported).and earlier).mono ?_)
    rintro depth ⟨⟨e, failed⟩, converted⟩
    have looped := properties_stop r below converted failed
    rw [fromJsValue_object read]
    exact ⟨e, fromJsObject_ending.mpr (Or.inl ⟨e, looped, rfl⟩)⟩

end GoQuickjs
