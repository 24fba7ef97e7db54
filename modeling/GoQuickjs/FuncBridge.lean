import GoQuickjs.Conversions
import GoQuickjs.Decode

/-!
# Go functions called from JS

An engine function made for a Go function hands control back to the engine by a value.
`JS_EXCEPTION` tells the engine that an exception is pending in `current_exception` of the
runtime, where `JS_Throw` has left it; a text that the engine cannot hold leaves an
`InternalError` there, unless it takes the process down.

`goFuncBridge` answers `JS_EXCEPTION` without having thrown in four places. Three of them are
not reached with the data of a live wrapper. The fourth is reached by every Go function that
returns nothing or nil.
-/

namespace GoQuickjs.World

open Runs

/-- `JS_Throw`: the answer, and what is pending afterwards. -/
def jsThrow (obj : JSValue) : JSValue × JSValue := (.exception, obj)

/-- `JS_HasException` for the value of `current_exception`. -/
def hasException (current : JSValue) : Bool := current ≠ .uninitialized

/-- The value that a native function answers, and what is in `current_exception` afterwards. -/
def answered (fresh : Fresh) (current : JSValue) : NativeResult → JSValue × JSValue
  | .value js => (js, if js = .exception then .object fresh.object else current)
  | .throws emsg => jsThrow emsg
  | .exception => (.exception, current)

/-- `getArgs`: an argument that is not converted is nil. -/
def getArgs (args : List GoResult) (i : Nat) : Decoded :=
  match args[i]? with
  | some (.ok goVal) => goVal
  | _ => .nil

/-- The call has returned an error, or what it returned was not converted: `makeJsValue` has
reported an error or has left an exception. -/
def CallFailed (ctx : Ptr) (memory : GoMemory) (fresh : Fresh) (called : Except (List UInt8) GoVal)
    (w : World) : Prop :=
  (∃ e, called = .error e) ∨ ∃ v depth outcome after, called = .ok v ∧
    makeJsValue ctx memory fresh depth v w = some (outcome, after) ∧
    (outcome = .value .exception ∨ ∃ e, outcome = .failed e)

/-- The bridge hands control back. Where it answers `JS_EXCEPTION` an exception is pending, it
does so exactly when the call failed, and else it answers what the result of the call is
converted to. -/
def FollowsProtocol (ctx : Ptr) (memory : GoMemory) (fresh : Fresh) (current : JSValue)
    (callGolangFunc : GoVal → Except (List UInt8) GoVal) (fn : GoVal) (funcData : JSValue) (w : World) :
    Prop :=
  ∃ depth native after,
    goFuncBridge ctx memory fresh depth callGolangFunc funcData w = some (.value native, after) ∧
    ((answered fresh current native).1 = .exception →
      hasException (answered fresh current native).2 = true) ∧
    ((answered fresh current native).1 = .exception ↔
      CallFailed ctx memory fresh (callGolangFunc fn) (w.bridgeTarget ctx funcData).2) ∧
    ∀ v js depth after, callGolangFunc fn = .ok v →
      makeJsValue ctx memory fresh depth v (w.bridgeTarget ctx funcData).2 =
        some (.value js, after) →
      (answered fresh current native).1 = js

variable {ctx : Ptr} {memory : GoMemory} {fresh : Fresh} {w : World} {fn v : GoVal}
  {funcData current : JSValue} {callGolangFunc : GoVal → Except (List UInt8) GoVal} {depth : Nat}

/-! ## Thrown texts -/

/-- A text is thrown unless the process does not survive it, and what is thrown is never the mark
of an empty `current_exception`. -/
theorem throwText_survived (fresh : Fresh) {text : List UInt8} (survived : ¬ Fatal text) :
    ∃ emsg, throwText fresh text = .value (.throws emsg) ∧ emsg ≠ .uninitialized := by
  rw [← newStringLen_crashed_iff] at survived
  simp only [throwText, makeString]
  cases answer : newStringLen text (Int32.ofNat text.length) with
  | made => exact ⟨_, rfl, by simp⟩
  | refused => exact ⟨_, rfl, by simp⟩
  | crashed => exact absurd answer survived

/-- A text of the fatal length ends the process. -/
theorem throwText_fatal {text : List UInt8} (fatal : Fatal text) :
    throwText fresh text = .panicked := by
  rw [throwText, (makeString_panicked_iff text).mpr fatal, Outcome.map]

/-- The text of the error of `makeJsValue`. -/
def unsupported (kind : OtherKind) : String := "unsupported type " ++ kind.name

/-- The texts of the bridge's own errors are too short for that. -/
theorem unsupported_survived (kind : OtherKind) :
    ¬ Fatal (unsupported kind).toUTF8.data.toList := by
  intro fatal
  have short : (unsupported kind).toUTF8.data.toList.length < 2 ^ 30 := by cases kind <;> decide
  exact not_oversized short fatal.oversized

/-- `makeJsValue` reports an error for the kinds without a JS counterpart only. -/
theorem failed_unsupported {v : GoVal} {e : String} {after : World}
    (returned : makeJsValue ctx memory fresh depth v w = some (.failed e, after)) :
    ∃ kind, e = unsupported kind := by
  have wrapped : ∀ {made : Option (JSValue × World)},
      produced made ≠ some (.failed e, after) := by
    intro made same
    obtain ⟨_, _, pair⟩ := Option.map_eq_some_iff.mp same
    cases pair
  have textual : ∀ {bytes : List UInt8} {named : Bool},
      (if named then Outcome.panicked else makeString fresh bytes) ≠ .failed e := by
    intro bytes named
    rw [makeString]
    cases named <;> cases newStringLen bytes (Int32.ofNat bytes.length) <;> simp
  induction depth generalizing v with
  | zero => cases returned
  | succ depth inductionHypothesis =>
    cases v with
    | other kind =>
      cases returned
      exact ⟨kind, rfl⟩
    | ptr toInterface target =>
      cases target with
      | none => cases returned
      | some target =>
        simp only [makeJsValue] at returned
        split at returned
        · exact absurd returned wrapped
        · exact inductionHypothesis returned
    | slice base len => exact absurd returned wrapped
    | array base len => exact absurd returned wrapped
    | map base => exact absurd returned wrapped
    | struct type base => exact absurd returned wrapped
    | func code => exact absurd returned wrapped
    | string named bytes => exact absurd (Prod.mk.inj (Option.some.inj returned)).1 textual
    | bytes named bytes => exact absurd (Prod.mk.inj (Option.some.inj returned)).1 textual
    | nil => cases returned
    | bool named value => cases named <;> cases returned
    | int kind value => cases returned
    | uint kind value => cases returned
    | float word => cases returned

/-! ## The exits of the bridge -/

/-- How an outcome of `makeJsValue` is handed on. -/
def handedOn (fresh : Fresh) : Outcome JSValue → Outcome NativeResult
  | .value jsVal => .value (.value jsVal)
  | .failed err => throwText fresh err.toUTF8.data.toList
  | .panicked => .panicked

/-- A result that is not nil is converted. -/
theorem goFuncBridge_result (found : (w.bridgeTarget ctx funcData).1 = some fn)
    (returned : callGolangFunc fn = .ok v) (something : v ≠ .nil) :
    goFuncBridge ctx memory fresh depth callGolangFunc funcData w =
      (makeJsValue ctx memory fresh depth v (w.bridgeTarget ctx funcData).2).map fun made =>
        (handedOn fresh made.1, made.2) := by
  rw [goFuncBridge, found]
  simp only [returned]
  cases v with
  | nil => exact absurd rfl something
  | _ => rfl

/-- The text of an error is thrown. -/
theorem goFuncBridge_error {e : List UInt8} (found : (w.bridgeTarget ctx funcData).1 = some fn)
    (returned : callGolangFunc fn = .error e) :
    goFuncBridge ctx memory fresh depth callGolangFunc funcData w =
      some (throwText fresh e, (w.bridgeTarget ctx funcData).2) := by
  rw [goFuncBridge, found]
  simp only [returned]

/-- An error of the call is thrown, unless the process does not survive its text. -/
theorem error_follows_iff {e : List UInt8} (found : (w.bridgeTarget ctx funcData).1 = some fn)
    (returned : callGolangFunc fn = .error e) :
    FollowsProtocol ctx memory fresh current callGolangFunc fn funcData w ↔ ¬ Fatal e := by
  constructor
  · rintro ⟨depth, native, after, bridged, -⟩ fatal
    rw [goFuncBridge_error found returned, throwText_fatal fatal] at bridged
    cases bridged
  · intro survived
    obtain ⟨emsg, thrown, pending⟩ := throwText_survived fresh survived
    refine ⟨0, .throws emsg, (w.bridgeTarget ctx funcData).2, ?_, ?_, ?_, ?_⟩
    · rw [goFuncBridge_error found returned, thrown]
    · intro _
      exact decide_eq_true pending
    · exact iff_of_true rfl (.inl ⟨e, returned⟩)
    · intro v js depth after ok
      rw [returned] at ok
      cases ok

/-- A nil result is answered with `JS_EXCEPTION`, though neither the call nor a conversion has
failed. -/
theorem nil_result_breaks (found : (w.bridgeTarget ctx funcData).1 = some fn)
    (returned : callGolangFunc fn = .ok .nil) :
    ¬ FollowsProtocol ctx memory fresh current callGolangFunc fn funcData w := by
  rintro ⟨depth, native, after, bridged, -, failed, -⟩
  have bare : native = .exception := by
    rw [goFuncBridge, found] at bridged
    simp only [returned] at bridged
    exact (Outcome.value.inj (Prod.mk.inj (Option.some.inj bridged)).1).symm
  subst bare
  obtain ⟨e, error⟩ | ⟨v, depth, outcome, after, ok, converted, ending⟩ := failed.mp rfl
  · rw [returned] at error
    cases error
  · obtain rfl : GoVal.nil = v := Except.ok.inj (returned.symm.trans ok)
    cases depth with
    | zero => cases converted
    | succ depth =>
      cases converted
      obtain same | ⟨e, same⟩ := ending <;> cases same

/-- Any other result is answered as it is converted. -/
theorem result_follows_iff (found : (w.bridgeTarget ctx funcData).1 = some fn)
    (returned : callGolangFunc fn = .ok v) (something : v ≠ .nil) :
    FollowsProtocol ctx memory fresh current callGolangFunc fn funcData w ↔
      ∃ depth outcome after, makeJsValue ctx memory fresh depth v
        (w.bridgeTarget ctx funcData).2 = some (outcome, after) ∧ outcome ≠ .panicked := by
  constructor
  · rintro ⟨depth, native, after, bridged, -⟩
    rw [goFuncBridge_result found returned something] at bridged
    obtain ⟨⟨outcome, next⟩, converted, same⟩ := Option.map_eq_some_iff.mp bridged
    refine ⟨depth, outcome, next, converted, ?_⟩
    rintro rfl
    cases same
  · rintro ⟨depth, outcome, after, converted, ends⟩
    have onlyResult : ∀ {u : GoVal}, callGolangFunc fn = .ok u → u = v :=
      fun ok => Except.ok.inj (ok.symm.trans returned)
    have unique : ∀ {u : GoVal} {more found next}, callGolangFunc fn = .ok u →
        makeJsValue ctx memory fresh more u (w.bridgeTarget ctx funcData).2 = some (found, next) →
        found = outcome := by
      intro u more found next ok other
      obtain rfl := onlyResult ok
      exact (Prod.mk.inj (makeJsValue_unique other converted)).1
    have bridged : goFuncBridge ctx memory fresh depth callGolangFunc funcData w =
        some (handedOn fresh outcome, after) := by
      rw [goFuncBridge_result found returned something, converted]
      rfl
    cases outcome with
    | panicked => exact absurd rfl ends
    | failed e =>
      obtain ⟨kind, rfl⟩ := failed_unsupported converted
      obtain ⟨emsg, thrown, pending⟩ :=
        throwText_survived fresh (unsupported_survived kind)
      rw [handedOn, thrown] at bridged
      refine ⟨depth, .throws emsg, after, bridged, fun _ => decide_eq_true pending, ?_, ?_⟩
      · exact iff_of_true rfl (.inr ⟨v, depth, _, after, returned, converted, .inr ⟨_, rfl⟩⟩)
      · intro u js more next ok other
        cases unique ok other
    | value js =>
      refine ⟨depth, .value js, after, bridged, ?_, ?_, ?_⟩
      · intro thrown
        have exception : js = .exception := thrown
        simp [answered, exception, hasException]
      · constructor
        · rintro exception
          obtain rfl : js = .exception := exception
          exact .inr ⟨v, depth, _, after, returned, converted, .inl rfl⟩
        · rintro (⟨e, error⟩ | ⟨u, more, other, next, ok, reconverted, ending⟩)
          · rw [returned] at error
            cases error
          · obtain rfl := unique ok reconverted
            obtain same | ⟨e, same⟩ := ending
            · exact Outcome.value.inj same
            · cases same
      · intro u made more next ok other
        exact (Outcome.value.inj (unique ok other)).symm

/-- In every run of one context, the bridge follows the engine's exception protocol for a live
function exactly when the call of the Go function returns an error whose text the process
survives, or a result that is not nil and leads to a value that is converted: to no nil
pointer, not in circles and to no value of a defined bool, string or bytes type, with an id
left where it is wrapped, and to no text that the process does not survive. -/
theorem followsProtocol_iff (ctx : Ptr) (actions : List Wrappers.Action) (w : World)
    (reached : run (Wrappers.step ctx) World.initial actions = some w) (obj : Ptr)
    (funcData : JSValue) (live : w.wrappers.lookup obj = some (.goFunc funcData)) (fn : GoVal)
    (made : w.origin.lookup obj = some fn) (memory : GoMemory) (fresh : Fresh)
    (unused : Wrappers.Unused ctx w fresh) (current : JSValue)
    (callGolangFunc : GoVal → Nat → (Nat → Decoded) → Except (List UInt8) GoVal)
    (args : List GoResult) :
    FollowsProtocol ctx memory fresh current
        (fun fn => callGolangFunc fn args.length (getArgs args)) fn funcData w ↔
      (∃ e, callGolangFunc fn args.length (getArgs args) = .error e ∧ ¬ Fatal e) ∨
      ∃ v, callGolangFunc fn args.length (getArgs args) = .ok v ∧ v ≠ .nil ∧
        ∃ u, Relation.ReflTransGen (fun a b => pointsTo memory a = some b) v u ∧
          Finishes (w.stores.seen ctx) memory u := by
  have found : (w.bridgeTarget ctx funcData).1 = some fn := by
    obtain ⟨v, origin, resolves⟩ := Wrappers.live_wrapper_resolves ctx actions w reached obj _ live
    rw [made] at origin
    rwa [Option.some.inj origin]
  have seen : (w.bridgeTarget ctx funcData).2.stores.seen ctx = w.stores.seen ctx :=
    Stores.seen_getPtrStore w.stores ctx ctx
  have stillUnused : Wrappers.Unused ctx (w.bridgeTarget ctx funcData).2 fresh := by
    rw [Wrappers.Unused, seen]
    exact unused
  cases called : callGolangFunc fn args.length (getArgs args) with
  | error e =>
    rw [error_follows_iff found called]
    simp
  | ok v =>
    by_cases something : v = .nil
    · subst something
      exact iff_of_false (nil_result_breaks found called) (by simp)
    · rw [result_follows_iff found called something, returns_iff stillUnused, seen]
      simp [something]

/-- A Go function that returns an integer. -/
theorem integer_result_follows :
    ∃ w, run (Wrappers.step 100) World.initial [.make (fun _ => .nil) ⟨1, 10⟩ 1 (.func (some 8))] =
        some w ∧
      FollowsProtocol 100 (fun _ => .nil) ⟨2, 11⟩ .uninitialized (fun _ => .ok (.int .int 7))
        (.func (some 8)) (.int 1) w :=
  ⟨_, rfl, (followsProtocol_iff 100 [.make (fun _ => .nil) ⟨1, 10⟩ 1 (.func (some 8))] _ rfl 10 (.int 1)
    rfl (.func (some 8)) rfl (fun _ => .nil) ⟨2, 11⟩ (by decide) .uninitialized
    (fun _ _ _ => .ok (.int .int 7)) []).mpr
    (.inr ⟨.int .int 7, rfl, by simp, .int .int 7, .refl, trivial, by simp [takesId], by simp [text]⟩)⟩

/-- A Go function without results: the script is left with a mark and no exception. -/
theorem no_result_breaks :
    ∃ w, run (Wrappers.step 100) World.initial [.make (fun _ => .nil) ⟨1, 10⟩ 1 (.func (some 8))] =
        some w ∧
      w.wrappers.lookup 10 = some (.goFunc (.int 1)) ∧
      goFuncBridge 100 (fun _ => .nil) ⟨2, 11⟩ 0 (fun _ => .ok .nil) (.int 1) w =
        some (.value .exception, w) ∧
      answered ⟨2, 11⟩ .uninitialized .exception = (.exception, .uninitialized) ∧
      ¬ FollowsProtocol 100 (fun _ => .nil) ⟨2, 11⟩ .uninitialized (fun _ => .ok .nil)
        (.func (some 8)) (.int 1) w :=
  ⟨_, rfl, rfl, rfl, rfl, nil_result_breaks rfl rfl⟩

end GoQuickjs.World
