import GoQuickjs.Encode
import GoQuickjs.Library.Tracing

/-!
# Handing engine values to Go

`fromJsValue` of `value.go` walks an engine value and builds a Go value from it.
Each step of the walk asks the engine, and the engine may run a script, a getter or
a proxy trap, before it answers; so the value that is walked is modelled by the
answers. A reading gives the answer at every path: at the empty path for the value
itself, and at `i :: p` for the element or property `i` of the value at `p`, read
when the walk gets there. A cyclic value has answers at all depths, so the walk is
given a depth and is still running where that is used up.

Along with its result a conversion records the references it takes, uses and gives
back. The API functions of `context.go` and `js-func.go` that convert their result
are embedded on top. What a reference named by the same place and part stands for
is one engine reference: a place is read at most once. A value that `getVar` or
`JS_Call` hands to its caller is recorded as taken when it is handed over.
-/

namespace GoQuickjs

open Tracing

/-! ## What the engine answers -/

/-- What reading a property of an exception object and turning it into a C string
gives: the property's value, and the text unless the conversion throws. -/
structure Fetched where
  value : JSValue
  text : Option String
deriving DecidableEq

/-- A thrown value: an object of class `Error` with what its properties `stack` and
`name` read as, or any other value. -/
inductive Thrown where
  | error : Fetched → Fetched → Thrown
  | other : JSValue → Thrown
deriving DecidableEq

/-- `JS_VALUE_HAS_REF_COUNT` of a thrown value. -/
def Thrown.hasRefCount : Thrown → Bool
  | .error _ _ => true
  | .other v => v.hasRefCount

/-- A property key of the engine: its text in UTF-8, and whether it is a tagged
integer or a predefined atom, which carry no reference count. -/
structure JSAtom where
  isConst : Bool
  text : List UInt8
deriving DecidableEq

/-- The engine's answer when a value is read: `JS_EXCEPTION` with what was thrown,
or a value with what `fromJsValue` asks about it. An array answers with its `length`,
an object with its enumerable own keys, and either of these may throw. A value
counts as an array when `JS_IsArray` is not zero, also where it fails. -/
inductive Answer where
  | thrown : Thrown → Answer
  | null : Answer
  | undefined : Answer
  | bool : Bool → Answer
  | int : Int32 → Answer
  | float64 : UInt64 → Answer
  | string : List UInt8 → Answer
  | array : Except Thrown JSValue → Answer
  | function : Ptr → Answer
  | object : Except Thrown (List JSAtom) → Answer
  | other : JSValue → Answer

/-- The value carries a reference that its reader owns. -/
def Answer.hasRefCount : Answer → Bool
  | .string _ | .array _ | .function _ | .object _ => true
  | .other v => v.hasRefCount
  | _ => false

/-- `JS_IsFunction`. -/
def Answer.isFunction : Answer → Bool
  | .function _ => true
  | _ => false

/-- The way from a converted value to a part of it, innermost index first. -/
abbrev Path := List Nat

/-- The answers the engine gives during one conversion. -/
abbrev Reading := Path → Answer

/-! ## References -/

/-- Where a reference comes from: the call itself, the lookup of a global variable,
or a path in the converted value. -/
inductive Place where
  | call : Place
  | lookup : Place
  | node : Path → Place
deriving DecidableEq

/-- Which reference of a place. -/
inductive Part where
  | value | exception | stack | stackText | name | nameText | text | length | table
  | global | argArray
  | atom : Nat → Part
  | key : Nat → Part
  | argument : Nat → Part
deriving DecidableEq

/-- A reference, an allocated table or a C string of the engine. -/
structure Resource where
  place : Place
  part : Part
deriving DecidableEq

/-- A Go function that takes and gives back references of the engine. -/
abbrev Owning (α : Type) := Traced Resource α

/-- The reference of a value, if it carries one. -/
def owned (counted : Bool) (place : Place) (part : Part) : Option Resource :=
  if counted then some ⟨place, part⟩ else none

/-- The reference of the value at a path. -/
def valueRef (r : Reading) (p : Path) : Option Resource :=
  owned (r p).hasRefCount (.node p) .value

/-- The reference of the key `i` of the object at a path. -/
def atomRef (p : Path) (atoms : List JSAtom) (i : Nat) : Option Resource :=
  owned (atoms[i]?.any fun a => !a.isConst) (.node p) (.atom i)

/-- Pass a reference to the engine, if there is one. -/
def uses (ref : Option Resource) : Owning Unit := .log (ref.toList.map .use)

/-- Give a reference back, if there is one. -/
def gives (ref : Option Resource) : Owning Unit := .log (ref.toList.map .give)

/-! ## The converted Go values -/

/-- The Go values that conversions build. A map is nil or has its entries in the
order in which they were first set. -/
inductive Decoded where
  | nil : Decoded
  | bool : Bool → Decoded
  | int64 : Int → Decoded
  | float64 : UInt64 → Decoded
  | string : List UInt8 → Decoded
  | slice : List Decoded → Decoded
  | map : Option (List (List UInt8 × Decoded)) → Decoded
  | bindGoFunc : Ptr → Decoded

/-- The pair of a Go value and an error. -/
abbrev GoResult := Except String Decoded

/-- A nil value with an error that may be nil. -/
def withError : Option String → GoResult
  | none => .ok .nil
  | some e => .error e

/-- `res[key] = ev`. -/
def setKey (key : List UInt8) (ev : Decoded) :
    List (List UInt8 × Decoded) → List (List UInt8 × Decoded)
  | [] => [(key, ev)]
  | entry :: rest => if entry.1 = key then (key, ev) :: rest else entry :: setKey key ev rest

/-- `C.GoStringN`: the first bytes, and a panic for a negative count. -/
def goStringN (bytes : List UInt8) (n : Int32) : Owning GoResult :=
  if n < 0 then .panicking else pure (.ok (.string (bytes.take n.toInt.toNat)))

/-- `C.GoString`: the bytes before the first NUL. -/
def goString (bytes : List UInt8) : List UInt8 := bytes.takeWhile (· != 0)

/-- `math.NaN()` as a word. -/
def goNaN : UInt64 := 0x7ff8000000000001

/-- `JS_VALUE_IS_NAN` on a double. -/
def isNaN (word : UInt64) : Bool := 0x7ff0000000000000 < word &&& 0x7fffffffffffffff

/-! ## Exceptions -/

/-- Read a property of an exception object, turn it into a C string unless it is to be
skipped, copy the string and free it. -/
def propertyText (place : Place) (part textPart : Part) (skip : JSValue → Bool)
    (property : Fetched) : Owning (Option String) := do
  uses (some ⟨place, .exception⟩)
  .holdingDeferred (owned property.value.hasRefCount place part) do
    if skip property.value then pure none
    else
      uses (owned property.value.hasRefCount place part)
      match property.text with
      | none => pure none
      | some str => .holding (some ⟨place, textPart⟩) (pure (some str))

/-- `dumpException`: print the property `stack`, unless it is undefined or null. -/
def dumpException (place : Place) (stack : Fetched) : Owning Unit := do
  let _ ← propertyText place .stack .stackText (fun v => v.isUndefined || v.isNull) stack

/-- `getExceptionStr`: the property `name` as a string, empty where that fails. -/
def getExceptionStr (place : Place) (name : Fetched) : Owning String := do
  let str ← propertyText place .name .nameText (fun _ => false) name
  pure (str.getD "")

/-- `fromJsException`: fetch the pending exception, which is `JS_UNINITIALIZED` when
it was fetched before, and make an error from it. A value that is not an `Error`
object gives no error and is not given back. -/
def fromJsException (place : Place) : Option Thrown → Owning (Option String)
  | none => pure none
  | some (.other v) => do
    .log ((owned v.hasRefCount place .exception).toList.map .take)
    uses (owned v.hasRefCount place .exception)
    pure none
  | some (.error stack name) =>
    .holdingDeferred (some ⟨place, .exception⟩) do
      uses (some ⟨place, .exception⟩)
      dumpException place stack
      let exceptionStr ← getExceptionStr place name
      pure (some exceptionStr)

/-! ## Arrays -/

/-- The variable `l` of `fromJsArray`: the property `length` cut to 32 bits, and zero
when it is not a number or cannot be read. -/
def elementCount : Except Thrown JSValue → Int
  | .ok arrLen => if arrLen.isNumber then ((jsToInt32 arrLen).getD 0).toInt else 0
  | .error _ => 0

/-- The reference of the value that reading `length` gave. -/
def lengthRef (p : Path) : Except Thrown JSValue → Option Resource
  | .ok arrLen => owned arrLen.hasRefCount (.node p) .length
  | .error _ => none

/-- One round of the loop of `fromJsArray`. -/
def arrayElement (r : Reading) (p : Path) (convert : Path → Owning GoResult) (i : Nat)
    (res : List Decoded) : Owning (Except GoResult (List Decoded)) := do
  uses (valueRef r p)
  match r (i :: p) with
  | .thrown x =>
    let err ← fromJsException (.node (i :: p)) (some x)
    pure (.error (withError err))
  | _ =>
    match ← Traced.holding (valueRef r (i :: p)) (convert (i :: p)) with
    | .error e => pure (.error (.error e))
    | .ok ev => pure (.ok (res ++ [ev]))

/-- `fromJsArray`. A negative length panics in `make`. -/
def fromJsArray (r : Reading) (p : Path) (convert : Path → Owning GoResult)
    (length : Except Thrown JSValue) : Owning GoResult := do
  uses (valueRef r p)
  .holdingDeferred (lengthRef p length) do
    if elementCount length < 0 then .panicking
    else
      match ← Traced.each (arrayElement r p convert) (elementCount length).toNat 0 [] with
      | .error result => pure result
      | .ok res => pure (.ok (.slice res))

/-! ## Objects -/

/-- One round of the loop of `fromJsObject`. The key is given back right after the
property was read, and passed to the engine once more when its value is stored. -/
def objectProperty (r : Reading) (p : Path) (convert : Path → Owning GoResult)
    (atoms : List JSAtom) (i : Nat) (res : List (List UInt8 × Decoded)) :
    Owning (Except String (List (List UInt8 × Decoded))) := do
  uses (valueRef r p)
  uses (atomRef p atoms i)
  let result ← Traced.holding (valueRef r (i :: p)) do
    gives (atomRef p atoms i)
    convert (i :: p)
  match result with
  | .error e => pure (.error e)
  | .ok ev =>
    uses (atomRef p atoms i)
    .holding (some ⟨.node p, .key i⟩) (pure ())
    pure (.ok (setKey (goString (atoms[i]?.elim [] JSAtom.text)) ev res))

/-- `fromJsObject`. The table of keys is given back at the end of the function only,
which an error of a property skips. -/
def fromJsObject (r : Reading) (p : Path) (convert : Path → Owning GoResult)
    (names : Except Thrown (List JSAtom)) : Owning GoResult := do
  uses (valueRef r p)
  match names with
  | .error _ => pure (.error "failed to get property names")
  | .ok atoms =>
    .log [.take ⟨.node p, .table⟩]
    .log (((List.range' 0 atoms.length).flatMap fun i => (atomRef p atoms i).toList).map .take)
    match ← Traced.each (objectProperty r p convert atoms) atoms.length 0 [] with
    | .error e => pure (.error e)
    | .ok res =>
      .log [.give ⟨.node p, .table⟩]
      pure (.ok (.map (if atoms.length = 0 then none else some res)))

/-! ## Values -/

/-- `fromJsValue` on the value at a path, to a given depth. -/
def fromJsValue (r : Reading) : Nat → Path → Owning GoResult
  | 0, _ => .unfinished
  | depth + 1, p =>
    match r p with
    | .thrown x => withError <$> fromJsException (.node p) (some x)
    | .null | .undefined => pure (.ok .nil)
    | .bool b => pure (.ok (.bool b))
    | .int i => pure (.ok (.int64 i.toInt))
    | .float64 word => pure (.ok (.float64 (if isNaN word then goNaN else word)))
    | .string bytes => do
      uses (valueRef r p)
      .holding (some ⟨.node p, .text⟩) (goStringN bytes (Int32.ofNat bytes.length))
    | .array length => do
      uses (valueRef r p)
      fromJsArray r p (fromJsValue r depth) length
    | .function f => do
      uses (valueRef r p)
      pure (.ok (.bindGoFunc f))
    | .object names => do
      uses (valueRef r p)
      fromJsObject r p (fromJsValue r depth) names
    | .other _ => do
      uses (valueRef r p)
      pure (.error "unsupported type")

/-! ## API functions -/

/-- `getVar` on a global variable: what it reads as, with the error of a lookup that
throws. -/
def getVar (v : Answer) : Owning (Option String) :=
  .holdingDeferred (some ⟨.lookup, .global⟩) do
    uses (some ⟨.lookup, .global⟩)
    match v with
    | .thrown x => fromJsException .lookup (some x)
    | _ => pure none

/-- `setEnv` over what `makeJsValue` gives for the values of the map, in the order
of the iteration. `JS_SetPropertyStr` consumes the value. -/
def setEnv (env : List (Outcome JSValue)) : Owning (Option String) :=
  .holdingDeferred (some ⟨.call, .global⟩) (install env 0)
where
  install : List (Outcome JSValue) → Nat → Owning (Option String)
    | [], _ => pure none
    | .value v :: rest, i => do
      uses (some ⟨.call, .global⟩)
      .holding (owned v.hasRefCount .call (.argument i)) (pure ())
      install rest (i + 1)
    | .failed err :: _, _ => pure (some err)
    | .panicked :: _, _ => .panicking

/-- The references in an argument array, from an index on. -/
def argRefs : List (Outcome JSValue) → Nat → List Resource
  | [], _ => []
  | .value v :: rest, i =>
    (owned v.hasRefCount .call (.argument i)).toList ++ argRefs rest (i + 1)
  | _ :: rest, i => argRefs rest (i + 1)

/-- Fill the argument array: `undefined` stands for an argument that cannot be
converted. -/
def setJsArgs : List (Outcome JSValue) → Nat → Owning Unit
  | [], _ => pure ()
  | .value v :: rest, i => do
    .log ((owned v.hasRefCount .call (.argument i)).toList.map .take)
    setJsArgs rest (i + 1)
  | .failed _ :: rest, i => setJsArgs rest (i + 1)
  | .panicked :: _, _ => .panicking

/-- `callFunc`, and the first half of `callJsFuncFromGo`: make the arguments, call the
engine and give the arguments back. -/
def callFunc (fnRef : Option Resource) (args : List (Outcome JSValue)) : Owning Unit := do
  let array := owned (!args.isEmpty) .call .argArray
  .log (array.toList.map .take)
  setJsArgs args 0
  uses fnRef
  .log ((argRefs args 0).map .use)
  .log ((argRefs args 0).map .give)
  gives array

/-- What `JS_Call` gives: the result of the function, or, when there is no function
to call, a thrown `TypeError`, given by what its properties read as. -/
def jsCall (fn : Answer) (stack name : Fetched) (result : Reading) : Reading :=
  if fn.isFunction then result else fun _ => .thrown (.error stack name)

namespace JsContext

/-- The reference of a variable found by `getVar`. -/
def varRef (fn : Answer) : Option Resource := owned fn.hasRefCount .lookup .value

/-- `Eval`, and `eval` below it. The reading is that of the completion value; of a
module it is that of the awaited promise, where a rejection is thrown. -/
def eval (depth : Nat) (env : List (Outcome JSValue)) (result : Reading) : Owning GoResult := do
  match ← setEnv env with
  | some err => pure (.error err)
  | none =>
    match result [] with
    | .thrown x =>
      .holding (owned x.hasRefCount (.node []) .exception) (pure ())
      pure (.error "exception thrown")
    | _ => .holding (valueRef result []) (fromJsValue result depth [])

/-- `EvalFile`. -/
def evalFile (depth : Nat) (scriptFile : String) (loaded : Bool) (env : List (Outcome JSValue))
    (result : Reading) : Owning GoResult :=
  if loaded then eval depth env result else pure (.error ("failed to load " ++ scriptFile))

/-- `GetGlobal`. An exception that `getVar` fetched without making an error of it is
no longer pending when `fromJsValue` asks for it. -/
def getGlobal (depth : Nat) (value : Reading) : Owning GoResult := do
  match ← getVar (value []) with
  | some e => pure (.error e)
  | none =>
    match value [] with
    | .thrown _ => withError <$> fromJsException (.node []) none
    | _ => .holding (valueRef value []) (fromJsValue value depth [])

/-- `CallFunc`. -/
def callFunc (depth : Nat) (funcName : String) (fn : Answer) (args : List (Outcome JSValue))
    (result : Reading) : Owning GoResult := do
  match ← getVar fn with
  | some e => pure (.error e)
  | none =>
    .holdingDeferred (varRef fn) do
      uses (varRef fn)
      if fn.isFunction then
        GoQuickjs.callFunc (varRef fn) args
        .holdingDeferred (valueRef result []) (fromJsValue result depth [])
      else pure (.error ("var " ++ funcName ++ " is not with type function"))

/-- A call of a func variable bound by `BindFunc`, that is of the function made by
`wrapFunc`, up to what `callJsFuncFromGo` hands to `ToGolangResults`. The error of
the lookup is ignored. -/
def boundFunc (depth : Nat) (fn : Answer) (args : List (Outcome JSValue)) (stack name : Fetched)
    (result : Reading) : Owning GoResult := do
  let _ ← getVar fn
  .holdingDeferred (varRef fn) do
    GoQuickjs.callFunc (varRef fn) args
    let jsRes := jsCall fn stack name result
    .holding (valueRef jsRes []) (fromJsValue jsRes depth [])

end JsContext

end GoQuickjs
