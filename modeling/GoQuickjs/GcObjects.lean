import Mathlib.Data.List.Perm.Basic
import GoQuickjs.Encode

/-!
# What the objects of the engine refer to

Every structure with a `JSGCObjectHeader` is described here by the fields of it
that refer to other such structures. Two functions of `quickjs.c` walk over these
fields: `mark_children` reports each referred structure to the cycle collector,
and the functions that free a structure drop each reference it holds. The
collector is sound only as long as both agree, class by class.

Strings, symbols, numbers and atoms have no such header and appear as `other`.
-/

namespace GoQuickjs.Gc

/-- A `JSValue`, as far as the collector sees it. -/
inductive Value where
  | undefined : Value
  | object : Ptr → Value
  | functionBytecode : Ptr → Value
  | other : Value
deriving DecidableEq

/-- A reference to drop, by the function that drops it: `JS_FreeValueRT`,
`free_var_ref`, `js_free_shape`, `async_func_free`, `JS_FreeContext`, or, for a
reference that does not keep its target, `js_weakref_free`. -/
inductive Ref where
  | value : Ptr → Ref
  | varRef : Ptr → Ref
  | shape : Ptr → Ref
  | asyncFunction : Ptr → Ref
  | context : Ptr → Ref
  | weak : Ptr → Ref
deriving DecidableEq

/-- The structure whose `ref_count` the reference is counted in. -/
def Ref.strong : Ref → Option Ptr
  | .value p | .varRef p | .shape p | .asyncFunction p | .context p => some p
  | .weak _ => none

/-- `JS_MarkValue`. -/
def markValue : Value → List Ptr
  | .object p | .functionBytecode p => [p]
  | .undefined | .other => []

/-- `JS_FreeValueRT`, as the reference it drops. -/
def freeValue : Value → List Ref
  | .object p | .functionBytecode p => [.value p]
  | .undefined | .other => []

/-- `js_weakref_free`, as the reference it drops. -/
def weakrefFree : Value → List Ref
  | .object p => [.weak p]
  | .undefined | .functionBytecode _ | .other => []

/-! ## Properties -/

/-- A `JSProperty`, by the bits `JS_PROP_TMASK` of its flags. -/
inductive Property where
  | normal : Value → Property
  | getset (getter setter : Option Ptr) : Property
  | varRef : Ptr → Property
  | autoinit (realm : Ptr) : Property
deriving DecidableEq

/-- A property slot. Deleting a property clears its atom, its flags and its value. -/
structure Slot where
  named : Bool
  property : Property
  cleared : named = false → property = .normal .undefined

/-- The part of `mark_children` for one property. -/
def markProperty : Property → List Ptr
  | .normal value => markValue value
  | .getset getter setter => getter.toList ++ setter.toList
  | .varRef p => [p]
  | .autoinit realm => [realm]

/-- The loop of `mark_children` over the properties skips the deleted ones. -/
def markSlot (slot : Slot) : List Ptr := if slot.named then markProperty slot.property else []

/-- `free_property`. -/
def freeProperty : Property → List Ref
  | .normal value => freeValue value
  | .getset getter setter => getter.toList.map .value ++ setter.toList.map .value
  | .varRef p => [.varRef p]
  | .autoinit realm => [.context realm]

/-! ## Classes -/

/-- A `JSMapRecord`. Deleting a record that an iterator still uses clears it. -/
structure MapRecord where
  key : Value
  value : Value
  empty : Bool
  cleared : empty = true → key = .undefined ∧ value = .undefined

/-- A `JSMapState`. -/
structure MapState where
  isWeak : Bool
  records : List MapRecord

/-- A `JSGeneratorData`: a completed generator has no frame. -/
structure GeneratorData where
  completed : Bool
  funcState : Option Ptr
  frameless : completed = true → funcState = none

/-- A `JSAsyncGeneratorRequest`. -/
structure AsyncGeneratorRequest where
  result : Value
  promise : Value
  resolvingFuncs : Value × Value

/-- A `JSPromiseReactionData`. -/
structure PromiseReaction where
  resolvingFuncs : Value × Value
  handler : Value

/-- A `JSPromiseData`: the reactions to fulfilment and those to rejection. -/
structure PromiseData where
  fulfillReactions : List PromiseReaction
  rejectReactions : List PromiseReaction
  promiseResult : Value

/-- A `JSFinRecEntry`. -/
structure FinRecEntry where
  target : Value
  heldVal : Value
  token : Value

/-- The data of an object by its class; classes with the same finalizer and the same
`gc_mark` share a case, and a missing record is `none`. -/
inductive ClassData where
  | plain : ClassData
  | array (values : List Value) : ClassData
  | objectData (value : Value) : ClassData
  | cFunction (realm : Option Ptr) : ClassData
  | bytecodeFunction (homeObject : Option Ptr)
      (code : Option (Ptr × Option (List (Option Ptr)))) : ClassData
  | boundFunction (funcObj thisVal : Value) (argv : List Value) : ClassData
  | cFunctionData (data : Option (List Value)) : ClassData
  | forInIterator (obj : Value) : ClassData
  | regExp : ClassData
  | arrayBuffer : ClassData
  | typedArray (buffer : Option Ptr) : ClassData
  | map (state : Option MapState) : ClassData
  | mapIterator (obj : Option Value) : ClassData
  | arrayIterator (obj : Option Value) : ClassData
  | regExpStringIterator (data : Option (Value × Value)) : ClassData
  | generator (data : Option GeneratorData) : ClassData
  | asyncFunctionResolve (state : Option Ptr) : ClassData
  | asyncGenerator (data : Option (List AsyncGeneratorRequest × Option Ptr)) : ClassData
  | proxy (data : Option (Value × Value)) : ClassData
  | promise (data : Option PromiseData) : ClassData
  | promiseResolveFunction (promise : Option Value) : ClassData
  | asyncFromSyncIterator (data : Option (Value × Value)) : ClassData
  | weakRef (target : Option Value) : ClassData
  | finalizationRegistry (data : Option (List FinRecEntry × Value)) : ClassData
  | worker (onMessageFunc : Option Value) : ClassData
  | goObject (opaquePart : Option GoOpaque) : ClassData

/-- The data of a class whose functions do nothing when the record is missing. -/
def whenPresent {α β : Type} (walk : α → List β) (data : Option α) : List β := data.elim [] walk

/-- `js_array_mark`. -/
def jsArrayMark (values : List Value) : List Ptr := values.flatMap markValue

/-- `js_array_finalizer`: the values of a fast array. -/
def jsArrayFinalizer (values : List Value) : List Ref := values.flatMap freeValue

/-- `js_object_data_mark`. -/
def jsObjectDataMark (value : Value) : List Ptr := markValue value

/-- `js_object_data_finalizer`: the value of a wrapper object or a date. -/
def jsObjectDataFinalizer (value : Value) : List Ref := freeValue value

/-- `js_c_function_mark`. -/
def jsCFunctionMark (realm : Option Ptr) : List Ptr := realm.toList

/-- `js_c_function_finalizer`: the realm of the function. -/
def jsCFunctionFinalizer (realm : Option Ptr) : List Ref := realm.toList.map .context

/-- `js_bytecode_function_mark`: the closure variables, then the bytecode. -/
def jsBytecodeFunctionMark (homeObject : Option Ptr)
    (code : Option (Ptr × Option (List (Option Ptr)))) : List Ptr :=
  homeObject.toList ++
    whenPresent (fun code => whenPresent (·.flatMap Option.toList) code.2 ++ [code.1]) code

/-- `js_bytecode_function_finalizer`. -/
def jsBytecodeFunctionFinalizer (homeObject : Option Ptr)
    (code : Option (Ptr × Option (List (Option Ptr)))) : List Ref :=
  homeObject.toList.map .value ++
    whenPresent (fun code =>
      whenPresent (·.flatMap fun varRef => varRef.toList.map .varRef) code.2 ++ [.value code.1]) code

/-- `js_bound_function_mark`. -/
def jsBoundFunctionMark (funcObj thisVal : Value) (argv : List Value) : List Ptr :=
  markValue funcObj ++ markValue thisVal ++ argv.flatMap markValue

/-- `js_bound_function_finalizer`. -/
def jsBoundFunctionFinalizer (funcObj thisVal : Value) (argv : List Value) : List Ref :=
  freeValue funcObj ++ freeValue thisVal ++ argv.flatMap freeValue

/-- `js_c_function_data_mark`. -/
def jsCFunctionDataMark : Option (List Value) → List Ptr := whenPresent (·.flatMap markValue)

/-- `js_c_function_data_finalizer`: the values bound to a C function. -/
def jsCFunctionDataFinalizer : Option (List Value) → List Ref := whenPresent (·.flatMap freeValue)

/-- `js_for_in_iterator_mark`. -/
def jsForInIteratorMark (obj : Value) : List Ptr := markValue obj

/-- `js_for_in_iterator_finalizer`: the object that is enumerated. -/
def jsForInIteratorFinalizer (obj : Value) : List Ref := freeValue obj

/-- `js_typed_array_mark`. -/
def jsTypedArrayMark (buffer : Option Ptr) : List Ptr :=
  whenPresent (fun p => markValue (.object p)) buffer

/-- `js_typed_array_finalizer`: the buffer of a typed array or a data view. -/
def jsTypedArrayFinalizer (buffer : Option Ptr) : List Ref :=
  whenPresent (fun p => freeValue (.object p)) buffer

/-- `js_map_mark`: the keys of a weak map are not reported. -/
def jsMapMark : Option MapState → List Ptr :=
  whenPresent fun state => state.records.flatMap fun record =>
    (if state.isWeak then [] else markValue record.key) ++ markValue record.value

/-- `js_map_finalizer`: records kept for an iterator only are skipped. -/
def jsMapFinalizer : Option MapState → List Ref :=
  whenPresent fun state => state.records.flatMap fun record =>
    if record.empty then []
    else (if state.isWeak then weakrefFree record.key else freeValue record.key) ++
      freeValue record.value

/-- `js_map_iterator_mark`. -/
def jsMapIteratorMark : Option Value → List Ptr := whenPresent markValue

/-- `js_map_iterator_finalizer`: the map, while the iteration goes on. -/
def jsMapIteratorFinalizer : Option Value → List Ref := whenPresent freeValue

/-- `js_array_iterator_mark`. -/
def jsArrayIteratorMark : Option Value → List Ptr := whenPresent markValue

/-- `js_array_iterator_finalizer`. -/
def jsArrayIteratorFinalizer : Option Value → List Ref := whenPresent freeValue

/-- The two values of a record, reported one after the other. -/
def markPair (pair : Value × Value) : List Ptr := markValue pair.1 ++ markValue pair.2

/-- The two values of a record, dropped one after the other. -/
def freePair (pair : Value × Value) : List Ref := freeValue pair.1 ++ freeValue pair.2

/-- `js_regexp_string_iterator_mark`. -/
def jsRegExpStringIteratorMark : Option (Value × Value) → List Ptr := whenPresent markPair

/-- `js_regexp_string_iterator_finalizer`: the expression and the string. -/
def jsRegExpStringIteratorFinalizer : Option (Value × Value) → List Ref := whenPresent freePair

/-- `js_generator_mark`. -/
def jsGeneratorMark : Option GeneratorData → List Ptr :=
  whenPresent fun data => data.funcState.toList

/-- `js_generator_finalizer`, by `free_generator_stack_rt`. -/
def jsGeneratorFinalizer : Option GeneratorData → List Ref :=
  whenPresent fun data =>
    if data.completed then [] else data.funcState.toList.map .asyncFunction

/-- `js_async_function_resolve_mark`. -/
def jsAsyncFunctionResolveMark (state : Option Ptr) : List Ptr := state.toList

/-- `js_async_function_resolve_finalizer`: the function that is resumed. -/
def jsAsyncFunctionResolveFinalizer (state : Option Ptr) : List Ref :=
  state.toList.map .asyncFunction

/-- `js_async_generator_mark`: the requests in the queue, then the frame. -/
def jsAsyncGeneratorMark : Option (List AsyncGeneratorRequest × Option Ptr) → List Ptr :=
  whenPresent fun data =>
    (data.1.flatMap fun request =>
      markValue request.result ++ markValue request.promise ++ markPair request.resolvingFuncs) ++
    data.2.toList

/-- `js_async_generator_finalizer`, by `js_async_generator_free`. -/
def jsAsyncGeneratorFinalizer : Option (List AsyncGeneratorRequest × Option Ptr) → List Ref :=
  whenPresent fun data =>
    (data.1.flatMap fun request =>
      freeValue request.result ++ freeValue request.promise ++ freePair request.resolvingFuncs) ++
    data.2.toList.map .asyncFunction

/-- `js_proxy_mark`. -/
def jsProxyMark : Option (Value × Value) → List Ptr := whenPresent markPair

/-- `js_proxy_finalizer`: the target and the handler. -/
def jsProxyFinalizer : Option (Value × Value) → List Ref := whenPresent freePair

/-- `js_promise_mark`: the reactions of both kinds, then the result. -/
def jsPromiseMark : Option PromiseData → List Ptr :=
  whenPresent fun data =>
    ((data.fulfillReactions ++ data.rejectReactions).flatMap fun reaction =>
      markPair reaction.resolvingFuncs ++ markValue reaction.handler) ++ markValue data.promiseResult

/-- `js_promise_finalizer`, by `promise_reaction_data_free`. -/
def jsPromiseFinalizer : Option PromiseData → List Ref :=
  whenPresent fun data =>
    ((data.fulfillReactions ++ data.rejectReactions).flatMap fun reaction =>
      freePair reaction.resolvingFuncs ++ freeValue reaction.handler) ++ freeValue data.promiseResult

/-- `js_promise_resolve_function_mark`. -/
def jsPromiseResolveFunctionMark : Option Value → List Ptr := whenPresent markValue

/-- `js_promise_resolve_function_finalizer`: the promise. -/
def jsPromiseResolveFunctionFinalizer : Option Value → List Ref := whenPresent freeValue

/-- `js_async_from_sync_iterator_mark`. -/
def jsAsyncFromSyncIteratorMark : Option (Value × Value) → List Ptr := whenPresent markPair

/-- `js_async_from_sync_iterator_finalizer`: the iterator and its `next` method. -/
def jsAsyncFromSyncIteratorFinalizer : Option (Value × Value) → List Ref := whenPresent freePair

/-- `js_weakref_finalizer`. -/
def jsWeakrefFinalizer : Option Value → List Ref := whenPresent weakrefFree

/-- `js_finrec_mark`: the held values and the callback, not the weak targets and tokens. -/
def jsFinrecMark : Option (List FinRecEntry × Value) → List Ptr :=
  whenPresent fun data =>
    (data.1.flatMap fun entry => markValue entry.heldVal) ++ markValue data.2

/-- `js_finrec_finalizer`. -/
def jsFinrecFinalizer : Option (List FinRecEntry × Value) → List Ref :=
  whenPresent fun data =>
    (data.1.flatMap fun entry =>
      weakrefFree entry.target ++ weakrefFree entry.token ++ freeValue entry.heldVal) ++
    freeValue data.2

/-- `js_worker_finalizer`, by `js_free_port`: the message handler, once the Worker has a
port. -/
def jsWorkerFinalizer : Option Value → List Ref := whenPresent freeValue

/-- `free_obj_id_opaque` on the object at `p`: the finalizer of a Go proxy ends with
`JS_FreeValueRT` on the proxy itself. -/
def freeObjIdOpaque (p : Ptr) (opaquePart : Option GoOpaque) : List Ref :=
  whenPresent (fun _ => [.value p]) opaquePart

/-- The `gc_mark` of a class; a class without one reports nothing. -/
def gcMark : ClassData → List Ptr
  | .plain | .regExp | .arrayBuffer | .weakRef _ | .worker _ | .goObject _ => []
  | .array values => jsArrayMark values
  | .objectData value => jsObjectDataMark value
  | .cFunction realm => jsCFunctionMark realm
  | .bytecodeFunction homeObject code => jsBytecodeFunctionMark homeObject code
  | .boundFunction funcObj thisVal argv => jsBoundFunctionMark funcObj thisVal argv
  | .cFunctionData data => jsCFunctionDataMark data
  | .forInIterator obj => jsForInIteratorMark obj
  | .typedArray buffer => jsTypedArrayMark buffer
  | .map state => jsMapMark state
  | .mapIterator obj => jsMapIteratorMark obj
  | .arrayIterator obj => jsArrayIteratorMark obj
  | .regExpStringIterator data => jsRegExpStringIteratorMark data
  | .generator data => jsGeneratorMark data
  | .asyncFunctionResolve state => jsAsyncFunctionResolveMark state
  | .asyncGenerator data => jsAsyncGeneratorMark data
  | .proxy data => jsProxyMark data
  | .promise data => jsPromiseMark data
  | .promiseResolveFunction promise => jsPromiseResolveFunctionMark promise
  | .asyncFromSyncIterator data => jsAsyncFromSyncIteratorMark data
  | .finalizationRegistry data => jsFinrecMark data

/-- The finalizer of a class, for the object at `p`. -/
def finalizer (p : Ptr) : ClassData → List Ref
  | .plain | .regExp | .arrayBuffer => []
  | .array values => jsArrayFinalizer values
  | .objectData value => jsObjectDataFinalizer value
  | .cFunction realm => jsCFunctionFinalizer realm
  | .bytecodeFunction homeObject code => jsBytecodeFunctionFinalizer homeObject code
  | .boundFunction funcObj thisVal argv => jsBoundFunctionFinalizer funcObj thisVal argv
  | .cFunctionData data => jsCFunctionDataFinalizer data
  | .forInIterator obj => jsForInIteratorFinalizer obj
  | .typedArray buffer => jsTypedArrayFinalizer buffer
  | .map state => jsMapFinalizer state
  | .mapIterator obj => jsMapIteratorFinalizer obj
  | .arrayIterator obj => jsArrayIteratorFinalizer obj
  | .regExpStringIterator data => jsRegExpStringIteratorFinalizer data
  | .generator data => jsGeneratorFinalizer data
  | .asyncFunctionResolve state => jsAsyncFunctionResolveFinalizer state
  | .asyncGenerator data => jsAsyncGeneratorFinalizer data
  | .proxy data => jsProxyFinalizer data
  | .promise data => jsPromiseFinalizer data
  | .promiseResolveFunction promise => jsPromiseResolveFunctionFinalizer promise
  | .asyncFromSyncIterator data => jsAsyncFromSyncIteratorFinalizer data
  | .weakRef target => jsWeakrefFinalizer target
  | .finalizationRegistry data => jsFinrecFinalizer data
  | .worker onMessageFunc => jsWorkerFinalizer onMessageFunc
  | .goObject opaquePart => freeObjIdOpaque p opaquePart

/-! ## Structures -/

/-- The frame of an async function: gone once it has completed; without a known stack
top while it runs; otherwise with the stack from `arg_buf` up to `cur_sp`. -/
inductive AsyncFrame where
  | completed : AsyncFrame
  | running (curFunc thisVal : Value) : AsyncFrame
  | suspended (curFunc thisVal : Value) (stack : List Value) : AsyncFrame

/-- What a module refers to: the variables it exports and its values, in the order of
`js_mark_module_def`. -/
structure ModuleDef where
  localExports : List (Option Ptr)
  values : List Value

/-- What a context refers to: its modules, its values in the order of
`JS_MarkContext`, and the shape of its arrays. -/
structure Context where
  loadedModules : List ModuleDef
  values : List Value
  arrayShape : Option Ptr

/-- A structure with a `JSGCObjectHeader`, by its `gc_obj_type`. A variable reference
is either detached, with a value of its own, or on the stack of a function, which
it keeps alive when that function is async. -/
inductive GcObject where
  | jsObject (shape : Ptr) (slots : List Slot) (data : ClassData) : GcObject
  | functionBytecode (cpool : List Value) (realm : Option Ptr) : GcObject
  | detachedVarRef (value : Value) : GcObject
  | stackVarRef (asyncFunc : Option Ptr) : GcObject
  | asyncFunction (frame : AsyncFrame) (resolvingFuncs : Value × Value) : GcObject
  | shape (proto : Option Ptr) : GcObject
  | jsContext (ctx : Context) : GcObject

/-- `js_mark_module_def`. -/
def markModuleDef (moduleDef : ModuleDef) : List Ptr :=
  moduleDef.localExports.flatMap Option.toList ++ moduleDef.values.flatMap markValue

/-- `JS_MarkContext`. -/
def markContext (ctx : Context) : List Ptr :=
  ctx.loadedModules.flatMap markModuleDef ++ ctx.values.flatMap markValue ++ ctx.arrayShape.toList

/-- The part of `mark_children` for the frame of an async function. -/
def markFrame : AsyncFrame → List Ptr
  | .completed => []
  | .running curFunc thisVal => markValue curFunc ++ markValue thisVal
  | .suspended curFunc thisVal stack =>
    markValue curFunc ++ markValue thisVal ++ stack.flatMap markValue

/-- `mark_children`: the structures reported, in order. -/
def markChildren : GcObject → List Ptr
  | .jsObject shape slots data => shape :: slots.flatMap markSlot ++ gcMark data
  | .functionBytecode cpool realm => cpool.flatMap markValue ++ realm.toList
  | .detachedVarRef value => markValue value
  | .stackVarRef asyncFunc => asyncFunc.toList
  | .asyncFunction frame resolvingFuncs => markFrame frame ++ markPair resolvingFuncs
  | .shape proto => proto.toList
  | .jsContext ctx => markContext ctx

/-- `js_free_module_def`. -/
def freeModuleDef (moduleDef : ModuleDef) : List Ref :=
  (moduleDef.localExports.flatMap fun varRef => varRef.toList.map .varRef) ++
    moduleDef.values.flatMap freeValue

/-- `async_func_free_frame`. Freeing the frame of a running function fails an
assertion. -/
def asyncFuncFreeFrame : AsyncFrame → Option (List Ref)
  | .completed => some []
  | .running _ _ => none
  | .suspended curFunc thisVal stack =>
    some (stack.flatMap freeValue ++ freeValue curFunc ++ freeValue thisVal)

/-- The references dropped when the structure at `p` is freed, in order: by
`free_object`, `free_function_bytecode`, `free_var_ref`, `__async_func_free`,
`js_free_shape0` or `JS_FreeContext`. -/
def freedRefs (p : Ptr) : GcObject → Option (List Ref)
  | .jsObject shape slots data =>
    some ((slots.flatMap fun slot => freeProperty slot.property) ++ .shape shape :: finalizer p data)
  | .functionBytecode cpool realm =>
    some (cpool.flatMap freeValue ++ realm.toList.map .context)
  | .detachedVarRef value => some (freeValue value)
  | .stackVarRef asyncFunc => some (asyncFunc.toList.map .asyncFunction)
  | .asyncFunction frame resolvingFuncs =>
    (asyncFuncFreeFrame frame).map (· ++ freePair resolvingFuncs)
  | .shape proto => some (proto.toList.map .value)
  | .jsContext ctx =>
    some (ctx.loadedModules.flatMap freeModuleDef ++ ctx.values.flatMap freeValue ++
      ctx.arrayShape.toList.map .shape)

/-- The references that an object of the class holds and its `gc_mark` does not report: the
message handler of a Worker. -/
def unreportedRefs : ClassData → List Ref
  | .worker onMessageFunc => jsWorkerFinalizer onMessageFunc
  | _ => []

/-- The references of the structure that `mark_children` does not report. -/
def GcObject.unreported : GcObject → List Ref
  | .jsObject _ _ data => unreportedRefs data
  | _ => []

/-- The class drops a reference on the object it finalizes: a Go proxy with its opaque
part. -/
def dropsSelf : ClassData → Bool
  | .goObject (some _) => true
  | _ => false

/-- The structure is a Go proxy with its opaque part. -/
def GcObject.dropsSelf : GcObject → Bool
  | .jsObject _ _ data => Gc.dropsSelf data
  | _ => false

/-! ## Both walks agree -/

/-- The structures whose counts the references are in. -/
def strongTargets (refs : List Ref) : List Ptr := refs.filterMap Ref.strong

@[simp] theorem strongTargets_nil : strongTargets [] = [] := rfl

/-- The targets of two lists of references, one after the other. -/
@[simp] theorem strongTargets_append (left right : List Ref) :
    strongTargets (left ++ right) = strongTargets left ++ strongTargets right :=
  List.filterMap_append

/-- A weak reference has no target that is counted. -/
@[simp] theorem strongTargets_cons (ref : Ref) (refs : List Ref) :
    strongTargets (ref :: refs) = ref.strong.toList ++ strongTargets refs := by
  cases ref <;> rfl

/-- References made one from each part. -/
@[simp] theorem strongTargets_map {α : Type} (drop : α → Ref) (parts : List α) :
    strongTargets (parts.map drop) = parts.filterMap fun part => (drop part).strong := by
  simp [strongTargets]

/-- References made of each part in turn. -/
@[simp] theorem strongTargets_flatMap {α : Type} (free : α → List Ref) (parts : List α) :
    strongTargets (parts.flatMap free) = parts.flatMap fun part => strongTargets (free part) := by
  induction parts with
  | nil => rfl
  | cons part rest inductionHypothesis => simp [inductionHypothesis]

/-- A missing record drops nothing. -/
@[simp] theorem strongTargets_whenPresent {α : Type} (free : α → List Ref) (data : Option α) :
    strongTargets (whenPresent free data) =
      whenPresent (fun record => strongTargets (free record)) data := by
  cases data <;> rfl

/-- Dropping a value drops what marking it reports. -/
@[simp] theorem strongTargets_freeValue (value : Value) :
    strongTargets (freeValue value) = markValue value := by
  cases value <;> rfl

/-- A weak reference is not counted. -/
@[simp] theorem strongTargets_weakrefFree (value : Value) :
    strongTargets (weakrefFree value) = [] := by
  cases value <;> rfl

/-- Both values of a record. -/
@[simp] theorem strongTargets_freePair (pair : Value × Value) :
    strongTargets (freePair pair) = markPair pair := by
  simp [freePair, markPair]

/-- A cleared slot reports nothing and holds nothing. -/
@[simp] theorem strongTargets_slot (slot : Slot) :
    strongTargets (freeProperty slot.property) = markSlot slot := by
  by_cases named : slot.named = true
  · cases kind : slot.property with
    | normal value => simp [freeProperty, markSlot, markProperty, named, kind]
    | getset getter setter => simp [freeProperty, markSlot, markProperty, named, kind, Ref.strong]
    | varRef p => simp [freeProperty, markSlot, markProperty, named, kind, Ref.strong]
    | autoinit realm => simp [freeProperty, markSlot, markProperty, named, kind, Ref.strong]
  · have cleared : slot.property = .normal .undefined := slot.cleared (by simpa using named)
    simp [freeProperty, markSlot, named, cleared, markValue]

/-- A cleared record reports nothing and holds nothing. -/
theorem strongTargets_map_record (isWeak : Bool) (record : MapRecord) :
    strongTargets (if record.empty then [] else
        (if isWeak then weakrefFree record.key else freeValue record.key) ++
          freeValue record.value) =
      (if isWeak then [] else markValue record.key) ++ markValue record.value := by
  by_cases empty : record.empty = true
  · obtain ⟨noKey, noValue⟩ := record.cleared empty
    simp [empty, noKey, noValue, markValue]
  · cases isWeak <;> simp [empty]

/-- A completed generator has no frame that could be reported. -/
theorem strongTargets_generator (data : GeneratorData) :
    strongTargets (if data.completed then [] else data.funcState.toList.map .asyncFunction) =
      data.funcState.toList := by
  by_cases completed : data.completed = true
  · simp [completed, data.frameless completed]
  · simp [completed, Ref.strong]

/-- Both walks over a closure meet the home object, the variables and the bytecode. -/
theorem strongTargets_bytecodeFunction (homeObject : Option Ptr)
    (code : Option (Ptr × Option (List (Option Ptr)))) :
    strongTargets (jsBytecodeFunctionFinalizer homeObject code) =
      jsBytecodeFunctionMark homeObject code := by
  simp [jsBytecodeFunctionFinalizer, jsBytecodeFunctionMark, Ref.strong]

/-- The finalizer of a class drops what its `gc_mark` reports; that of a Worker drops the
message handler and that of a Go proxy the proxy itself. -/
theorem strongTargets_finalizer (p : Ptr) (data : ClassData) :
    strongTargets (finalizer p data) = gcMark data ++ (strongTargets (unreportedRefs data) ++
      if dropsSelf data then [p] else []) := by
  cases data with
  | plain | regExp | arrayBuffer => rfl
  | array values => simp [finalizer, gcMark, jsArrayFinalizer, jsArrayMark, dropsSelf, unreportedRefs, unreportedRefs]
  | objectData value => simp [finalizer, gcMark, jsObjectDataFinalizer, jsObjectDataMark, dropsSelf, unreportedRefs, unreportedRefs]
  | cFunction realm => cases realm <;> rfl
  | bytecodeFunction homeObject code =>
    simp [finalizer, gcMark, dropsSelf, unreportedRefs, strongTargets_bytecodeFunction]
  | boundFunction funcObj thisVal argv =>
    simp [finalizer, gcMark, jsBoundFunctionFinalizer, jsBoundFunctionMark, dropsSelf, unreportedRefs, unreportedRefs]
  | cFunctionData data =>
    simp [finalizer, gcMark, jsCFunctionDataFinalizer, jsCFunctionDataMark, dropsSelf, unreportedRefs, unreportedRefs]
  | forInIterator obj =>
    simp [finalizer, gcMark, jsForInIteratorFinalizer, jsForInIteratorMark, dropsSelf, unreportedRefs, unreportedRefs]
  | typedArray buffer => cases buffer <;> rfl
  | map state =>
    simp [finalizer, gcMark, jsMapFinalizer, jsMapMark, dropsSelf, unreportedRefs, strongTargets_map_record]
  | mapIterator obj => simp [finalizer, gcMark, jsMapIteratorFinalizer, jsMapIteratorMark, dropsSelf, unreportedRefs, unreportedRefs]
  | arrayIterator obj =>
    simp [finalizer, gcMark, jsArrayIteratorFinalizer, jsArrayIteratorMark, dropsSelf, unreportedRefs, unreportedRefs]
  | regExpStringIterator data =>
    simp [finalizer, gcMark, jsRegExpStringIteratorFinalizer, jsRegExpStringIteratorMark, dropsSelf, unreportedRefs, unreportedRefs]
  | generator data =>
    simp [finalizer, gcMark, jsGeneratorFinalizer, jsGeneratorMark, dropsSelf, unreportedRefs,
      strongTargets_generator]
  | asyncFunctionResolve state => cases state <;> rfl
  | asyncGenerator data =>
    simp [finalizer, gcMark, jsAsyncGeneratorFinalizer, jsAsyncGeneratorMark, dropsSelf, unreportedRefs, Ref.strong]
  | proxy data => simp [finalizer, gcMark, jsProxyFinalizer, jsProxyMark, dropsSelf, unreportedRefs, unreportedRefs]
  | promise data => simp [finalizer, gcMark, jsPromiseFinalizer, jsPromiseMark, dropsSelf, unreportedRefs, unreportedRefs]
  | promiseResolveFunction promise =>
    simp [finalizer, gcMark, jsPromiseResolveFunctionFinalizer, jsPromiseResolveFunctionMark,
      dropsSelf, unreportedRefs, unreportedRefs]
  | asyncFromSyncIterator data =>
    simp [finalizer, gcMark, jsAsyncFromSyncIteratorFinalizer, jsAsyncFromSyncIteratorMark,
      dropsSelf, unreportedRefs, unreportedRefs]
  | weakRef target => cases target <;> simp [finalizer, gcMark, jsWeakrefFinalizer, whenPresent,
      dropsSelf, unreportedRefs, unreportedRefs]
  | finalizationRegistry data => simp [finalizer, gcMark, jsFinrecFinalizer, jsFinrecMark, dropsSelf, unreportedRefs, unreportedRefs]
  | worker onMessageFunc =>
    simp [finalizer, gcMark, unreportedRefs, jsWorkerFinalizer, dropsSelf, unreportedRefs, unreportedRefs]
  | goObject opaquePart => cases opaquePart <;> rfl

/-- The frame of an async function is freed from the stack on, and marked from the function on. -/
theorem strongTargets_frame {frame : AsyncFrame} {refs : List Ref}
    (freed : asyncFuncFreeFrame frame = some refs) : (strongTargets refs).Perm (markFrame frame) := by
  cases frame with
  | completed =>
    obtain rfl := Option.some.inj freed
    exact .refl _
  | running curFunc thisVal => cases freed
  | suspended curFunc thisVal stack =>
    obtain rfl := Option.some.inj freed
    simp only [strongTargets_append, strongTargets_flatMap, strongTargets_freeValue, markFrame,
      List.append_assoc]
    exact (List.perm_append_comm).trans (by simp)

/-- Both walks over a module meet its exports and its values. -/
@[simp] theorem strongTargets_module (moduleDef : ModuleDef) :
    strongTargets (freeModuleDef moduleDef) = markModuleDef moduleDef := by
  simp [freeModuleDef, markModuleDef, Ref.strong]

/-- Freeing a structure drops exactly the references that `mark_children` reports of
it, as often as it reports them; only a Worker drops a message handler that is not
reported, and a Go proxy drops one more reference, on itself.

Proof: by the type of the structure, and for objects by their class; the order
differs for objects, whose shape is reported first, and for async functions. -/
theorem freed_eq_marked {p : Ptr} {obj : GcObject} {refs : List Ref}
    (freed : freedRefs p obj = some refs) :
    (strongTargets refs).Perm (markChildren obj ++ (strongTargets obj.unreported ++
      if obj.dropsSelf then [p] else [])) := by
  cases obj with
  | jsObject shape slots data =>
    obtain rfl := Option.some.inj freed
    simp only [strongTargets_append, strongTargets_cons, strongTargets_flatMap, strongTargets_slot,
      strongTargets_finalizer, markChildren, GcObject.unreported, GcObject.dropsSelf, Ref.strong,
      Option.toList_some,
      List.cons_append, List.nil_append, List.append_assoc]
    exact List.perm_middle
  | functionBytecode cpool realm =>
    obtain rfl := Option.some.inj freed
    simp [markChildren, GcObject.unreported, GcObject.dropsSelf, Ref.strong]
  | detachedVarRef value =>
    obtain rfl := Option.some.inj freed
    simp [markChildren, GcObject.unreported, GcObject.dropsSelf]
  | stackVarRef asyncFunc =>
    obtain rfl := Option.some.inj freed
    simp [markChildren, GcObject.unreported, GcObject.dropsSelf, Ref.strong]
  | asyncFunction frame resolvingFuncs =>
    obtain ⟨frameRefs, frameFreed, rfl⟩ := Option.map_eq_some_iff.mp freed
    simp only [strongTargets_append, strongTargets_freePair, strongTargets_nil, markChildren,
      GcObject.unreported, GcObject.dropsSelf, Bool.false_eq_true, if_false, List.append_nil]
    exact (strongTargets_frame frameFreed).append_right _
  | shape proto =>
    obtain rfl := Option.some.inj freed
    simp [markChildren, GcObject.unreported, GcObject.dropsSelf, Ref.strong]
  | jsContext ctx =>
    obtain rfl := Option.some.inj freed
    simp [markChildren, markContext, GcObject.unreported, GcObject.dropsSelf, Ref.strong]

/-! ## What a structure holds -/

/-- The references the fields of a structure hold, whether it can be freed or not. -/
def heldRefs : GcObject → List Ref
  | .jsObject shape slots data =>
    (slots.flatMap fun slot => freeProperty slot.property) ++
      .shape shape :: (if dropsSelf data then [] else finalizer 0 data)
  | .asyncFunction (.running curFunc thisVal) resolvingFuncs =>
    freeValue curFunc ++ freeValue thisVal ++ freePair resolvingFuncs
  | obj => (freedRefs 0 obj).getD []

/-- Only the finalizer of a Go proxy looks at the address of its object. -/
theorem finalizer_eq (p : Ptr) (data : ClassData) :
    finalizer p data =
      (if dropsSelf data then [] else finalizer 0 data) ++ if dropsSelf data then [.value p] else [] := by
  cases data with
  | goObject opaquePart => cases opaquePart <;> rfl
  | _ => exact (List.append_nil _).symm

/-- Freeing a structure drops the references it holds, and a Go proxy then one on
itself. -/
theorem freedRefs_eq {p : Ptr} {obj : GcObject} {refs : List Ref}
    (freed : freedRefs p obj = some refs) :
    refs = heldRefs obj ++ if obj.dropsSelf then [.value p] else [] := by
  cases obj with
  | jsObject shape slots data =>
    obtain rfl := Option.some.inj freed
    rw [finalizer_eq]
    cases drops : dropsSelf data <;> simp [heldRefs, GcObject.dropsSelf, drops]
  | functionBytecode | detachedVarRef | stackVarRef | shape | jsContext =>
    obtain rfl := Option.some.inj freed
    simp [heldRefs, freedRefs, GcObject.dropsSelf]
  | asyncFunction frame resolvingFuncs =>
    cases frame with
    | running curFunc thisVal => cases freed
    | completed | suspended =>
      obtain rfl := Option.some.inj freed
      simp [heldRefs, freedRefs, asyncFuncFreeFrame, GcObject.dropsSelf]

/-- The structure can be freed: it is not an async function that runs. -/
def GcObject.freeable : GcObject → Bool
  | .asyncFunction (.running _ _) _ => false
  | _ => true

/-- What can be freed has a list of references to drop. -/
theorem freedRefs_of_freeable {obj : GcObject} (freeable : obj.freeable = true) (p : Ptr) :
    ∃ refs, freedRefs p obj = some refs := by
  cases obj with
  | asyncFunction frame resolvingFuncs =>
    cases frame with
    | running curFunc thisVal => cases freeable
    | completed | suspended => exact ⟨_, rfl⟩
  | jsObject | functionBytecode | detachedVarRef | stackVarRef | shape | jsContext => exact ⟨_, rfl⟩

/-- The collector sees the references a structure holds, each as often as it is held, and
does not see the message handler of a Worker. -/
theorem held_perm_marked (obj : GcObject) : (strongTargets (heldRefs obj)).Perm
    (markChildren obj ++ strongTargets obj.unreported) := by
  by_cases freeable : obj.freeable = true
  · obtain ⟨refs, freed⟩ := freedRefs_of_freeable freeable 0
    have agree := freed_eq_marked freed
    rw [freedRefs_eq freed, strongTargets_append, ← List.append_assoc] at agree
    by_cases self : obj.dropsSelf = true
    · rw [if_pos self, if_pos self] at agree
      exact (List.perm_append_right_iff _).mp agree
    · simpa [self] using agree
  · cases obj with
    | asyncFunction frame resolvingFuncs =>
      cases frame with
      | running curFunc thisVal => simp [heldRefs, markChildren, markFrame, GcObject.unreported]
      | completed | suspended => exact absurd rfl freeable
    | jsObject | functionBytecode | detachedVarRef | stackVarRef | shape | jsContext =>
      exact absurd rfl freeable

/-- References counted by their target. -/
theorem countP_strong (refs : List Ref) (q : Ptr) :
    refs.countP (fun ref => ref.strong = some q) = (strongTargets refs).count q := by
  rw [strongTargets, List.count, List.countP_filterMap]
  refine List.countP_congr fun ref _ => ?_
  cases ref.strong <;> simp

/-- The two walks over a structure agree: freeing it drops as many references on any structure as
`mark_children` reports of it, except that a Worker also drops the handler of its messages, and
a Go proxy one more reference on itself. -/
theorem freed_count_eq_marked {p : Ptr} {obj : GcObject} {refs : List Ref}
    (freed : freedRefs p obj = some refs) (q : Ptr) :
    refs.countP (fun ref => ref.strong = some q) =
      (markChildren obj).count q + (strongTargets obj.unreported).count q +
        if obj.dropsSelf = true ∧ p = q then 1 else 0 := by
  rw [countP_strong, (freed_eq_marked freed).count_eq, List.count_append, List.count_append, Nat.add_assoc]
  by_cases self : obj.dropsSelf = true
  · by_cases same : p = q <;> simp [self, same]
  · simp [self]

/-- A Go proxy drops a reference on itself, a Worker one on its message handler. -/
theorem freed_count_eq_marked_proxy :
    [Ref.shape 1, .value 2].countP (fun ref => ref.strong = some 2) =
      (markChildren (.jsObject 1 [] (.goObject (some ⟨0, 3⟩)))).count 2 + 0 + 1 ∧
    [Ref.shape 1, .value 3].countP (fun ref => ref.strong = some 3) =
      (markChildren (.jsObject 1 [] (.worker (some (.object 3))))).count 3 + 1 + 0 :=
  ⟨freed_count_eq_marked (show freedRefs 2 (.jsObject 1 [] (.goObject (some ⟨0, 3⟩))) =
      some [.shape 1, .value 2] from rfl) 2,
    freed_count_eq_marked (show freedRefs 2 (.jsObject 1 [] (.worker (some (.object 3)))) =
      some [.shape 1, .value 3] from rfl) 3⟩

end GoQuickjs.Gc
