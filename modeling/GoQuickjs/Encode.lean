import GoQuickjs.Stores
import GoQuickjs.Strings

/-!
# Handing Go values to the engine

`makeJsValue` turns a Go value into an engine value. Composites become proxy
objects whose opaque part holds the context's address and an id of the context's
store; functions become engine functions whose data is that id as a number. Both
register the address of a fresh Go variable that holds the value. `goObjGet`,
`goObjSet` and `goFuncBridge` go the other way: from a wrapper to the Go value.

The world is that of one context: the stores, the variables whose addresses were
registered, the wrappers that are still alive, and for each wrapper the Go value
it was made from, which is a history variable that no function reads.

Addresses come from two allocators. A call receives the address of the next Go
variable and of the next engine structure; what is fresh about them is stated
where runs are defined. Contents of engine strings and the `length` property of
engine functions are not recorded, and what `reflect` selects for a property key
is a parameter.
-/

namespace GoQuickjs

/-- The C structure `goOpaque`. -/
structure GoOpaque where
  ctx : Ptr
  idx : UInt32
deriving DecidableEq

/-- A live engine object made for a Go value: a proxy of class `GoObjHandler`, or
a function of `JS_NewCFunctionData` with its single data value. -/
inductive Wrapper where
  | proxy : GoOpaque → Wrapper
  | goFunc : JSValue → Wrapper
deriving DecidableEq

/-- What one context has handed out. -/
structure World where
  stores : Stores
  vars : Finmap fun _ : GoAddr => GoVal
  wrappers : Finmap fun _ : Ptr => Wrapper
  origin : Finmap fun _ : Ptr => GoVal

/-- The next addresses of the Go allocator and of the engine's allocator. -/
structure Fresh where
  goVar : GoAddr
  object : Ptr
deriving DecidableEq

/-- How a Go function ends: with a result, with an error, or in a panic. A process that
the engine takes down while the function is in it counts as a panic. -/
inductive Outcome (α : Type) where
  | value : α → Outcome α
  | failed : String → Outcome α
  | panicked : Outcome α
deriving DecidableEq

/-- The result is handed on. -/
def Outcome.map {α β : Type} (f : α → β) : Outcome α → Outcome β
  | .value result => .value (f result)
  | .failed e => .failed e
  | .panicked => .panicked

namespace World

/-- No store, no variable, no wrapper. -/
def initial : World := ⟨∅, ∅, ∅, ∅⟩

/-! ## From Go to the engine -/

/-- `makeGoObject` in Go and in C: register the address of the parameter variable
and attach the id to a new proxy object. -/
def makeGoObject (ctx : Ptr) (fresh : Fresh) (v : GoVal) (w : World) : Option (JSValue × World) :=
  (w.stores.registerIn ctx fresh.goVar).map fun registered =>
    (.object fresh.object,
      { stores := registered.2
        vars := w.vars.insert fresh.goVar v
        wrappers := w.wrappers.insert fresh.object (.proxy ⟨ctx, registered.1⟩)
        origin := w.origin.insert fresh.object v })

/-- `wrapGoFunc`: register the address of the parameter variable and make an engine
function whose data is the id as a number. -/
def wrapGoFunc (ctx : Ptr) (fresh : Fresh) (fnVar : GoVal) (w : World) :
    Option (JSValue × World) :=
  (w.stores.registerIn ctx fresh.goVar).map fun registered =>
    (.object fresh.object,
      { stores := registered.2
        vars := w.vars.insert fresh.goVar fnVar
        wrappers := w.wrappers.insert fresh.object (.goFunc (jsNewUint32 registered.1))
        origin := w.origin.insert fresh.object fnVar })

/-- `bindGoFunc`. -/
def bindGoFunc (ctx : Ptr) (fresh : Fresh) (fnVarPtr : GoVal) (w : World) :
    Option (JSValue × World) :=
  wrapGoFunc ctx fresh fnVarPtr w

/-- `makeString` and `makeBytes`: a new engine string, or `JS_EXCEPTION` where the engine
makes none. `getStrPtrLen` cuts the length to a C `int`. -/
def makeString (fresh : Fresh) (bytes : List UInt8) : Outcome JSValue :=
  match newStringLen bytes (Int32.ofNat bytes.length) with
  | .made => .value (.string fresh.object)
  | .refused => .value .exception
  | .crashed => .panicked

/-- Attach a normal result to the call that produced it. -/
def produced (made : Option (JSValue × World)) : Option (Outcome JSValue × World) :=
  made.map fun result => (.value result.1, result.2)

/-- The integer cases of `makeJsValue`. The kinds up to 32 bits are cut to `int32`,
the others go through `JS_NewInt64`. -/
def makeJsInt : IntKind → Int → JSValue
  | .int8, n | .int16, n | .int32, n => jsNewInt32 (Int32.ofInt n)
  | .int, n | .int64, n => jsNewInt64 n

/-- The unsigned cases. A `uint` is read as a signed 64-bit number whatever its top
bit; a `uint64` with its top bit set goes through a double. -/
def makeJsUint : UintKind → Nat → JSValue
  | .uint8, n | .uint16, n => jsNewInt32 (Int32.ofInt n)
  | .uint, n | .uint32, n => jsNewInt64 (Int64.ofInt n).toInt
  | .uint64, n => if n < 2 ^ 63 then jsNewInt64 n else jsNewFloat64 (Binary64.ofNat n)

/-- The function `makeJsValue`. A pointer to anything but a struct is followed, so
a chain of pointers that never ends exhausts every depth. A defined type of kind
bool, string or byte slice panics at the type assertion, and so does `Interface()`
on the zero value behind a nil pointer. -/
def makeJsValue (ctx : Ptr) (memory : GoMemory) (fresh : Fresh) :
    Nat → GoVal → World → Option (Outcome JSValue × World)
  | 0, _, _ => none
  | depth + 1, v, w =>
    match v with
    | .nil => some (.value .null, w)
    | .bool named value => some (if named then .panicked else .value (.bool value), w)
    | .int kind value => some (.value (makeJsInt kind value), w)
    | .uint kind value => some (.value (makeJsUint kind value), w)
    | .float word => some (.value (jsNewFloat64 word), w)
    | .string named value => some (if named then .panicked else makeString fresh value, w)
    | .bytes named value => some (if named then .panicked else makeString fresh value, w)
    | .slice _ _ | .array _ _ | .map _ | .struct _ _ => produced (makeGoObject ctx fresh v w)
    | .ptr _ none => some (.panicked, w)
    | .ptr toInterface (some target) =>
      if !toInterface && (memory target).isStruct then produced (makeGoObject ctx fresh v w)
      else makeJsValue ctx memory fresh depth (memory target) w
    | .func _ => produced (bindGoFunc ctx fresh v w)
    | .other kind => some (.failed ("unsupported type " ++ kind.name), w)

/-! ## From the engine back to Go -/

/-- `getTargetIdx`: the id in the opaque part of a proxy, zero for any other object. -/
def getTargetIdx (w : World) (obj : Ptr) : UInt32 :=
  match w.wrappers.lookup obj with
  | some (.proxy o) => o.idx
  | _ => 0

/-- `getTargetValue`: the Go value behind a proxy. The lookup may create the store. -/
def getTargetValue (ctx : Ptr) (w : World) (obj : Ptr) : Option GoVal × World :=
  let found := w.stores.lookupIn ctx (w.getTargetIdx obj)
  (found.1.bind fun vPtr => w.vars.lookup vPtr, { w with stores := found.2 })

/-- The first half of `goFuncBridge`: the Go function named by the data of an engine
function. `JS_ToUint32` leaves zero where it fails. -/
def bridgeTarget (ctx : Ptr) (w : World) (funcData : JSValue) : Option GoVal × World :=
  let found := w.stores.lookupIn ctx ((jsToUint32 funcData).getD 0)
  ((found.1.bind fun fnPtr => w.vars.lookup fnPtr).filter GoVal.isFunc,
    { w with stores := found.2 })

/-- How a native function hands control back to the engine: with a value, with what was
thrown, or with `JS_EXCEPTION` and nothing thrown. -/
inductive NativeResult where
  | value : JSValue → NativeResult
  | throws : JSValue → NativeResult
  | exception : NativeResult
deriving DecidableEq

/-- `C.JS_Throw` of the text of an error. -/
def throwText (fresh : Fresh) (text : List UInt8) : Outcome NativeResult :=
  (makeString fresh text).map .throws

/-- The function `goFuncBridge`. What `CallGolangFunc` answers is a parameter, an error
by its text; what happens while the Go function runs is other steps of the same context. -/
def goFuncBridge (ctx : Ptr) (memory : GoMemory) (fresh : Fresh) (depth : Nat)
    (callGolangFunc : GoVal → Except (List UInt8) GoVal) (funcData : JSValue) (w : World) :
    Option (Outcome NativeResult × World) :=
  let found := w.bridgeTarget ctx funcData
  match found.1 with
  | none => some (.value .exception, found.2)
  | some fn =>
    match callGolangFunc fn with
    | .error e => some (throwText fresh e, found.2)
    | .ok .nil => some (.value .exception, found.2)
    | .ok v =>
      (makeJsValue ctx memory fresh depth v found.2).map fun made =>
        (match made.1 with
          | .value jsVal => .value (.value jsVal)
          | .failed err => throwText fresh err.toUTF8.data.toList
          | .panicked => .panicked, made.2)

/-- What `reflect` finds in a Go value for a property key: nothing, a value that can
leave the package, or a method. -/
inductive Member where
  | absent : Member
  | value : GoVal → Member
  | method : Option Nat → Member
deriving DecidableEq

/-- The exported function `goObjGet`, over the selection that `go_arr_get`,
`go_map_get` and `go_struct_get` make by kind and key. -/
def goObjGet (ctx : Ptr) (memory : GoMemory) (fresh : Fresh) (depth : Nat)
    (select : GoVal → List UInt8 → Member) (obj : Ptr) (key : List UInt8) (w : World) :
    Option (Outcome JSValue × World) :=
  let found := w.getTargetValue ctx obj
  match found.1 with
  | none | some .nil => some (.value .undefined, found.2)
  | some v =>
    if key = [] then some (.value .undefined, found.2)
    else
      match select v key with
      | .absent => some (.value .undefined, found.2)
      | .method code => produced (bindGoFunc ctx fresh (.func code) found.2)
      | .value member =>
        (makeJsValue ctx memory fresh depth member found.2).map fun made =>
          (match made.1 with
            | .failed _ => .value .undefined
            | other => other, made.2)

/-- The exported function `goObjSet` as far as the context's own state goes: the
target is looked up, and the write itself happens in Go memory. -/
def goObjSet (ctx : Ptr) (obj : Ptr) (w : World) : World := (w.getTargetValue ctx obj).2

/-- The engine frees a dead wrapper. For a proxy it runs `free_obj_id_opaque`, which
gives the id back; the finalizer of an engine function frees its data values, and
those are numbers. -/
def collect (w : World) (obj : Ptr) : World :=
  match w.wrappers.lookup obj with
  | some (.proxy o) =>
    { w with stores := w.stores.goFreeId o.ctx o.idx, wrappers := w.wrappers.erase obj }
  | _ => { w with wrappers := w.wrappers.erase obj }

/-! ## The effect of a call on the world -/

/-- All that any call can do to the world: leave everything a context can see, or
register the fresh variable and make one wrapper for the value it holds. -/
inductive Effect (ctx : Ptr) (fresh : Fresh) (w w' : World) : Prop where
  | unchanged (sameStore : w'.stores.seen ctx = w.stores.seen ctx) (sameVars : w'.vars = w.vars)
      (sameWrappers : w'.wrappers = w.wrappers) (sameOrigin : w'.origin = w.origin)
  | wrapped (v : GoVal) (idx : UInt32) (wrapper : Wrapper)
      (registered : (w.stores.seen ctx).register fresh.goVar =
        some (idx, w'.stores.seen ctx))
      (vars : w'.vars = w.vars.insert fresh.goVar v)
      (wrappers : w'.wrappers = w.wrappers.insert fresh.object wrapper)
      (origin : w'.origin = w.origin.insert fresh.object v)
      (kind : wrapper = .proxy ⟨ctx, idx⟩ ∨ (wrapper = .goFunc (jsNewUint32 idx) ∧ v.isFunc))

variable {ctx : Ptr} {fresh : Fresh} {w w' : World}

theorem Effect.refl : Effect ctx fresh w w := .unchanged rfl rfl rfl rfl

/-- What is answered at once leaves the world as it is. -/
theorem Effect.of_same {α : Type} {result outcome : Outcome α}
    (same : some (result, w) = some (outcome, w')) : Effect ctx fresh w w' := by
  obtain ⟨_, rfl⟩ := Prod.mk.inj (Option.some.inj same)
  exact Effect.refl

/-- A call whose result is handed on has the effect of the call. -/
theorem Effect.of_produced {made : Option (JSValue × World)} {outcome : Outcome JSValue}
    (effect : ∀ js, made = some (js, w') → Effect ctx fresh w w')
    (returned : produced made = some (outcome, w')) : Effect ctx fresh w w' := by
  obtain ⟨⟨js, after⟩, same, pair⟩ := Option.map_eq_some_iff.mp returned
  obtain ⟨_, rfl⟩ := Prod.mk.inj pair
  exact effect js same

/-- Looking a value up before a call adds nothing to its effect. -/
theorem Effect.after_lookup (idx : UInt32)
    (effect : Effect ctx fresh { w with stores := (w.stores.lookupIn ctx idx).2 } w') :
    Effect ctx fresh w w' := by
  have seen : (w.stores.lookupIn ctx idx).2.seen ctx = w.stores.seen ctx :=
    Stores.seen_getPtrStore w.stores ctx ctx
  cases effect with
  | unchanged sameStore sameVars sameWrappers sameOrigin =>
    exact .unchanged (sameStore.trans seen) sameVars sameWrappers sameOrigin
  | wrapped v idx wrapper registered vars wrappers origin kind =>
    exact .wrapped v idx wrapper (seen ▸ registered) vars wrappers origin kind

theorem makeGoObject_effect {v : GoVal} {js : JSValue}
    (made : makeGoObject ctx fresh v w = some (js, w')) : Effect ctx fresh w w' := by
  obtain ⟨⟨idx, stores⟩, registered, same⟩ := Option.map_eq_some_iff.mp made
  obtain ⟨rfl, rfl⟩ := Prod.mk.inj same
  obtain ⟨store, inStore, _, _, seen⟩ := Stores.registerIn_cases registered
  refine .wrapped v idx _ ?_ rfl rfl rfl (.inl rfl)
  rw [inStore, seen, if_pos rfl]

theorem bindGoFunc_effect {code : Option Nat} {js : JSValue}
    (made : bindGoFunc ctx fresh (.func code) w = some (js, w')) : Effect ctx fresh w w' := by
  obtain ⟨⟨idx, stores⟩, registered, same⟩ := Option.map_eq_some_iff.mp made
  obtain ⟨rfl, rfl⟩ := Prod.mk.inj same
  obtain ⟨store, inStore, _, _, seen⟩ := Stores.registerIn_cases registered
  refine .wrapped (.func code) idx _ ?_ rfl rfl rfl (.inr ⟨rfl, rfl⟩)
  rw [inStore, seen, if_pos rfl]

/-- Whatever value is encoded, at most one wrapper is made.

Proof: induction on the depth. Only the pointer case recurses; composites and
functions wrap, and every other case leaves the world alone. -/
theorem makeJsValue_effect {memory : GoMemory} {depth : Nat} {v : GoVal}
    {outcome : Outcome JSValue}
    (returned : makeJsValue ctx memory fresh depth v w = some (outcome, w')) :
    Effect ctx fresh w w' := by
  induction depth generalizing v with
  | zero => simp [makeJsValue] at returned
  | succ depth inductionHypothesis =>
    have object : produced (makeGoObject ctx fresh v w) = some (outcome, w') →
        Effect ctx fresh w w' := Effect.of_produced fun _ => makeGoObject_effect
    cases v with
    | slice base len => exact object returned
    | array base len => exact object returned
    | map base => exact object returned
    | struct type base => exact object returned
    | func code => exact Effect.of_produced (fun _ => bindGoFunc_effect) returned
    | ptr toInterface target =>
      cases target with
      | none => exact Effect.of_same returned
      | some target =>
        simp only [makeJsValue] at returned
        split at returned
        · exact object returned
        · exact inductionHypothesis returned
    | nil => exact Effect.of_same returned
    | bool named value => exact Effect.of_same returned
    | int kind value => exact Effect.of_same returned
    | uint kind value => exact Effect.of_same returned
    | float word => exact Effect.of_same returned
    | string named value => exact Effect.of_same returned
    | bytes named value => exact Effect.of_same returned
    | other kind => exact Effect.of_same returned

theorem goFuncBridge_effect {memory : GoMemory} {depth : Nat}
    {callGolangFunc : GoVal → Except (List UInt8) GoVal} {funcData : JSValue}
    {outcome : Outcome NativeResult}
    (returned : goFuncBridge ctx memory fresh depth callGolangFunc funcData w =
      some (outcome, w')) : Effect ctx fresh w w' := by
  apply Effect.after_lookup ((jsToUint32 funcData).getD 0)
  simp only [goFuncBridge] at returned
  split at returned
  · exact Effect.of_same returned
  · split at returned
    · exact Effect.of_same returned
    · exact Effect.of_same returned
    · obtain ⟨⟨result, after⟩, made, pair⟩ := Option.map_eq_some_iff.mp returned
      obtain ⟨_, rfl⟩ := Prod.mk.inj pair
      exact makeJsValue_effect made

theorem goObjGet_effect {memory : GoMemory} {depth : Nat} {select : GoVal → List UInt8 → Member}
    {obj : Ptr} {key : List UInt8} {outcome : Outcome JSValue}
    (returned : goObjGet ctx memory fresh depth select obj key w = some (outcome, w')) :
    Effect ctx fresh w w' := by
  apply Effect.after_lookup (w.getTargetIdx obj)
  simp only [goObjGet] at returned
  split at returned
  · exact Effect.of_same returned
  · exact Effect.of_same returned
  · split at returned
    · exact Effect.of_same returned
    · split at returned
      · exact Effect.of_same returned
      · exact Effect.of_produced (fun _ => bindGoFunc_effect) returned
      · obtain ⟨⟨result, after⟩, made, pair⟩ := Option.map_eq_some_iff.mp returned
        obtain ⟨_, rfl⟩ := Prod.mk.inj pair
        exact makeJsValue_effect made

end World

end GoQuickjs
