import GoQuickjs.GcObjects
import GoQuickjs.Library.ReferenceCounts

/-!
# Freeing structures of the engine

The heap of `quickjs.c`: the structures with a `JSGCObjectHeader`, their reference
counts, and the lists they are linked in. The functions that drop a reference are
modelled as the source has them: dropping the last reference on an object, a
bytecode or an async function only links it into `gc_zero_ref_count_list`, from
where `free_zero_refcount` frees one after the other; shapes, variable references
and contexts are freed on the spot. While cycles are removed, a count that falls
to zero frees nothing but these.

A function returns nothing where an assertion of the source fails, where `abort` is
called, and where memory that was given back, or the links of a structure that is
in no list, would be used.
-/

namespace GoQuickjs.Gc

open ReferenceCounts

/-- `JSGCObjectTypeEnum`. -/
inductive GcObjType where
  | jsObject : GcObjType
  | functionBytecode : GcObjType
  | shape : GcObjType
  | varRef : GcObjType
  | asyncFunction : GcObjType
  | jsContext : GcObjType
deriving DecidableEq

/-- `JSGCPhaseEnum`. -/
inductive GcPhase where
  | none : GcPhase
  | decref : GcPhase
  | removeCycles : GcPhase
deriving DecidableEq

/-- The field `gc_obj_type` of a structure. -/
def GcObject.gcObjType : GcObject → GcObjType
  | .jsObject _ _ _ => .jsObject
  | .functionBytecode _ _ => .functionBytecode
  | .detachedVarRef _ | .stackVarRef _ => .varRef
  | .asyncFunction _ _ => .asyncFunction
  | .shape _ => .shape
  | .jsContext _ => .jsContext

/-- A structure in memory: with its fields, or freed with only the header in use. -/
inductive Struct where
  | live : GcObject → Struct
  | freed : GcObjType → Struct

/-- The type in the header of a structure. -/
def Struct.gcObjType : Struct → GcObjType
  | .live obj => obj.gcObjType
  | .freed type => type

/-- The structures whose memory has not been given back, and their counts. -/
structure Memory where
  allocated : Finset Ptr
  struct : Ptr → Struct
  refCount : Ptr → Int
  weakrefCount : Ptr → Nat

/-- The memory, the marks, the lists of the runtime and its phase. -/
structure Heap extends Memory where
  mark : Ptr → Bool
  gcObjList : List Ptr
  tmpObjList : List Ptr
  gcZeroRefCountList : List Ptr
  gcPhase : GcPhase

namespace Heap

/-- The structure is linked into one of the lists. -/
def Linked (heap : Heap) (p : Ptr) : Prop :=
  p ∈ heap.gcObjList ∨ p ∈ heap.tmpObjList ∨ p ∈ heap.gcZeroRefCountList

instance (heap : Heap) (p : Ptr) : Decidable (heap.Linked p) := by
  unfold Linked
  infer_instance

/-- `--ref_count`. -/
def decrement (heap : Heap) (p : Ptr) : Heap :=
  { heap with refCount := Function.update heap.refCount p (heap.refCount p - 1) }

/-- The fields of the structure have been freed. -/
def setFreed (heap : Heap) (p : Ptr) : Heap :=
  { heap with struct := Function.update heap.struct p (.freed (heap.struct p).gcObjType) }

/-- `js_free_rt` of a structure. -/
def release (heap : Heap) (p : Ptr) : Heap := { heap with allocated := heap.allocated.erase p }

/-- `list_del`, without a look at the links. -/
def unlink (heap : Heap) (p : Ptr) : Heap :=
  { heap with
    gcObjList := heap.gcObjList.erase p
    tmpObjList := heap.tmpObjList.erase p
    gcZeroRefCountList := heap.gcZeroRefCountList.erase p }

/-- `list_del`. -/
def listDel (heap : Heap) (p : Ptr) : Option Heap :=
  if heap.Linked p then some (heap.unlink p) else none

/-- `list_del`, then `list_add` to `gc_zero_ref_count_list`. -/
def queueZero (heap : Heap) (p : Ptr) : Option Heap :=
  (heap.listDel p).map fun heap =>
    { heap with gcZeroRefCountList := p :: heap.gcZeroRefCountList }

end Heap

/-! ## Dropping a reference -/

/-- `JS_FreeValueRT` on an object or a bytecode. At zero, or below, the structure is
queued; outside of any phase the queue is worked off at once. -/
def freeValueRT (freeZeroRefcount : Heap → Option Heap) (heap : Heap) (p : Ptr) : Option Heap :=
  if p ∈ heap.allocated then
    let heap := heap.decrement p
    if heap.refCount p ≤ 0 ∧ heap.gcPhase ≠ .removeCycles then
      (heap.queueZero p).bind fun heap =>
        let heap := { heap with mark := Function.update heap.mark p true }
        if heap.gcPhase = .none then freeZeroRefcount heap else some heap
    else some heap
  else none

/-- `async_func_free`. -/
def asyncFuncFree (freeZeroRefcount : Heap → Option Heap) (heap : Heap) (p : Ptr) : Option Heap :=
  if p ∈ heap.allocated then
    let heap := heap.decrement p
    if heap.refCount p = 0 ∧ heap.gcPhase ≠ .removeCycles then
      (heap.queueZero p).bind fun heap =>
        if heap.gcPhase = .none then freeZeroRefcount heap else some heap
    else some heap
  else none

/-- `js_weakref_free` on an object: the memory of a freed object goes with its last
weak reference, unless the object is about to be freed. -/
def jsWeakrefFree (heap : Heap) (p : Ptr) : Option Heap :=
  if p ∈ heap.allocated ∧ 1 ≤ heap.weakrefCount p then
    let heap := { heap with
      weakrefCount := Function.update heap.weakrefCount p (heap.weakrefCount p - 1) }
    if heap.weakrefCount p = 0 ∧ heap.refCount p = 0 ∧ heap.mark p = false then
      some (heap.release p)
    else some heap
  else none

/-- The fields of the structure at `p` are freed and the structure is unlinked: the
common part of all functions that free a structure. -/
def freeFields (free : Heap → Ref → Option Heap) (heap : Heap) (p : Ptr) : Option Heap :=
  match heap.struct p with
  | .freed _ => none
  | .live obj =>
    (freedRefs p obj).bind fun refs =>
      (refs.foldlM free (heap.setFreed p)).bind fun heap => heap.listDel p

/-- `free_var_ref`. -/
def freeVarRef (free : Heap → Ref → Option Heap) (heap : Heap) (p : Ptr) : Option Heap :=
  if p ∈ heap.allocated ∧ 0 < heap.refCount p then
    let heap := heap.decrement p
    if heap.refCount p = 0 then (freeFields free heap p).map (·.release p) else some heap
  else none

/-- `js_free_shape`, with the assertion of `js_free_shape0`. -/
def jsFreeShape (free : Heap → Ref → Option Heap) (heap : Heap) (p : Ptr) : Option Heap :=
  if p ∈ heap.allocated then
    let heap := heap.decrement p
    if heap.refCount p ≤ 0 then
      if heap.refCount p = 0 then (freeFields free heap p).map (·.release p) else none
    else some heap
  else none

/-- `JS_FreeContext`. -/
def jsFreeContext (free : Heap → Ref → Option Heap) (heap : Heap) (p : Ptr) : Option Heap :=
  if p ∈ heap.allocated then
    let heap := heap.decrement p
    if 0 < heap.refCount p then some heap
    else if heap.refCount p = 0 then (freeFields free heap p).map (·.release p) else none
  else none

/-- A reference is dropped by its own function. The functions that free a structure on
the spot call one another to a bounded depth. -/
def freeRef (freeZeroRefcount : Heap → Option Heap) : Nat → Heap → Ref → Option Heap
  | 0, _, _ => none
  | depth + 1, heap, ref =>
    match ref with
    | .value p => freeValueRT freeZeroRefcount heap p
    | .asyncFunction p => asyncFuncFree freeZeroRefcount heap p
    | .weak p => jsWeakrefFree heap p
    | .varRef p => freeVarRef (freeRef freeZeroRefcount depth) heap p
    | .shape p => jsFreeShape (freeRef freeZeroRefcount depth) heap p
    | .context p => jsFreeContext (freeRef freeZeroRefcount depth) heap p

/-! ## Freeing what was queued -/

/-- `free_object`. -/
def freeObject (free : Heap → Ref → Option Heap) (heap : Heap) (p : Ptr) : Option Heap :=
  (freeFields free heap p).map fun heap =>
    if heap.gcPhase = .removeCycles then
      if heap.refCount p = 0 ∧ heap.weakrefCount p = 0 then heap.release p
      else { heap with gcZeroRefCountList := heap.gcZeroRefCountList ++ [p] }
    else if heap.weakrefCount p = 0 then heap.release p
    else { heap with mark := Function.update heap.mark p false }

/-- The end of `free_function_bytecode` and of `__async_func_free`. -/
def freeKeeping (free : Heap → Ref → Option Heap) (heap : Heap) (p : Ptr) : Option Heap :=
  (freeFields free heap p).map fun heap =>
    if heap.gcPhase = .removeCycles ∧ heap.refCount p ≠ 0 then
      { heap with gcZeroRefCountList := heap.gcZeroRefCountList ++ [p] }
    else heap.release p

/-- `free_function_bytecode`. -/
def freeFunctionBytecode (free : Heap → Ref → Option Heap) (heap : Heap) (p : Ptr) :
    Option Heap := freeKeeping free heap p

/-- `__async_func_free`. -/
def asyncFuncFreeNow (free : Heap → Ref → Option Heap) (heap : Heap) (p : Ptr) : Option Heap :=
  freeKeeping free heap p

/-- `free_gc_object`. -/
def freeGcObject (free : Heap → Ref → Option Heap) (heap : Heap) (p : Ptr) : Option Heap :=
  match (heap.struct p).gcObjType with
  | .jsObject => freeObject free heap p
  | .functionBytecode => freeFunctionBytecode free heap p
  | .asyncFunction => asyncFuncFreeNow free heap p
  | .shape | .varRef | .jsContext => none

/-- The depth to which the functions of `freeRef` call one another. -/
def freeDepth : Nat := 3

/-- The loop of `free_zero_refcount`, for a bounded number of rounds. In its phase
nothing calls `free_zero_refcount` again. -/
def freeZeroLoop : Nat → Heap → Option Heap
  | rounds, heap =>
    match heap.gcZeroRefCountList, rounds with
    | [], _ => some heap
    | _ :: _, 0 => none
    | p :: _, rounds + 1 =>
      if p ∈ heap.allocated ∧ heap.refCount p = 0 then
        (freeGcObject (freeRef (fun _ => none) freeDepth) heap p).bind (freeZeroLoop rounds)
      else none

/-- `free_zero_refcount`: every round frees a structure, so that the number of
structures bounds the rounds. -/
def freeZeroRefcount (heap : Heap) : Option Heap :=
  (freeZeroLoop heap.allocated.card { heap with gcPhase := .decref }).map fun heap =>
    { heap with gcPhase := .none }

/-- A reference is dropped from outside of any phase. -/
def jsFree (heap : Heap) (ref : Ref) : Option Heap := freeRef freeZeroRefcount freeDepth heap ref

end GoQuickjs.Gc
