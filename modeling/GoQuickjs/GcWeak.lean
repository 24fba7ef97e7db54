import GoQuickjs.GcMutator

/-!
# Clearing what refers weakly

Before a collection `JS_RunGC` visits the weak structures of the runtime: weak maps
and sets, `WeakRef` objects and finalization registries. An entry whose target is no
longer referred to is deleted, and the references it holds are dropped; a registry
first queues the job that calls back. What loses its last reference by that is only
queued, and freed after the visit. While an entry is visited other entries can die:
those behind it are then deleted as well, those before it in the next collection.

What the program needs must not hang on such an entry: it reaches a value in an entry
only together with the target of the entry.
-/

namespace GoQuickjs.Gc

open ReferenceCounts

/-! ## Weak structures -/

/-- The structure is in `rt->weakref_list`. -/
def GcObject.isWeak : GcObject → Bool
  | .jsObject _ _ (.map (some state)) => state.isWeak
  | .jsObject _ _ (.weakRef (some _)) => true
  | .jsObject _ _ (.finalizationRegistry (some _)) => true
  | _ => false

/-- The same of a structure in memory. -/
def Struct.isWeak : Struct → Bool
  | .live obj => obj.isWeak
  | .freed _ => false

/-- `js_weakref_is_live` of an object. -/
def jsWeakrefIsLive (heap : Heap) (p : Ptr) : Bool := heap.refCount p ≠ 0

/-- `js_weakref_is_live`. Undefined counts as live; what it is for a symbol is an argument. -/
def jsWeakrefIsLiveValue (symbolLive : Bool) (heap : Heap) : Value → Bool
  | .object p => jsWeakrefIsLive heap p
  | .other => symbolLive
  | .undefined | .functionBytecode _ => true

/-- What the heap does not tell about an entry of a weak structure: whether its target is live
if that is a symbol, the same of its token, and whether there is memory for its job. -/
structure Outside where
  targetLive : Bool
  tokenLive : Bool
  room : Bool

/-- The heap, and the references that the program holds outside of it. -/
structure Engine where
  heap : Heap
  roots : Multiset Ref

namespace Engine

/-- `JS_EnqueueJob` once there is memory for the entry: the arguments are duplicated, and held
by the queue. -/
def jsEnqueueJob (engine : Engine) (args : List Value) : Engine :=
  (args.flatMap freeValue).foldl (fun engine ref =>
    { heap := engine.heap.increment ref.target, roots := ref ::ₘ engine.roots }) engine

/-- References are dropped while nothing is freed, and then the fields of the structure are
those without them. -/
def giveUp (engine : Engine) (p : Ptr) (refs : List Ref) (left : GcObject) : Option Engine :=
  (refs.foldlM (freeRef (fun _ => none) freeDepth) engine.heap).map fun heap =>
    { engine with heap := heap.assign p left }

/-- `list_for_each_safe` over the entries of a weak structure: each is visited with its number
and with the fields that the structure has for what is left of the entry. -/
def eachEntry {Entry : Type}
    (visit : Nat → Entry → (Option Entry → GcObject) → Engine → Option (Option Entry × Engine))
    (fields : List Entry → GcObject) : List Entry → Nat → List Entry → Engine → Option Engine
  | _, _, [], engine => some engine
  | kept, n, entry :: rest, engine =>
    (visit n entry (fun left => fields (kept ++ left.toList ++ rest)) engine).bind fun visited =>
      eachEntry visit fields (kept ++ visited.1.toList) (n + 1) rest visited.2

/-- `map_delete_weakrefs` for one record, by `map_delete_record`. No iterator uses the records
of a weak map, so that the record goes at once. -/
def mapDeleteRecord (outside : Nat → Outside) (p : Ptr) (n : Nat) (record : MapRecord)
    (fields : Option MapRecord → GcObject) (engine : Engine) :
    Option (Option MapRecord × Engine) :=
  if jsWeakrefIsLiveValue (outside n).targetLive engine.heap record.key then some (some record, engine)
  else
    (engine.giveUp p (weakrefFree record.key ++ freeValue record.value) (fields none)).map
      (none, ·)

/-- `weakref_delete_weakref` for the `WeakRef` at `p`, with the fields it has without a target. -/
def weakrefDeleteWeakref (outside : Outside) (p : Ptr) (target : Value) (without : GcObject)
    (engine : Engine) : Option Engine :=
  if jsWeakrefIsLiveValue outside.targetLive engine.heap target then some engine
  else engine.giveUp p (weakrefFree target) without

/-- The first half of `finrec_delete_weakref` for one entry: its token. -/
def finrecDeleteToken (outside : Nat → Outside) (p : Ptr) (n : Nat) (entry : FinRecEntry)
    (fields : Option FinRecEntry → GcObject) (engine : Engine) : Option (FinRecEntry × Engine) :=
  if jsWeakrefIsLiveValue (outside n).tokenLive engine.heap entry.token then some (entry, engine)
  else
    (engine.giveUp p (weakrefFree entry.token)
      (fields (some { entry with token := .undefined }))).map
        ({ entry with token := .undefined }, ·)

/-- The second half of `finrec_delete_weakref` for one entry: its target. -/
def finrecDeleteTarget (outside : Nat → Outside) (p : Ptr) (cb : Value) (n : Nat)
    (entry : FinRecEntry) (fields : Option FinRecEntry → GcObject) (engine : Engine) :
    Option (Option FinRecEntry × Engine) :=
  if jsWeakrefIsLiveValue (outside n).targetLive engine.heap entry.target then some (some entry, engine)
  else
    let queued := if (outside n).room then engine.jsEnqueueJob [cb, entry.heldVal] else engine
    (queued.giveUp p
      (weakrefFree entry.target ++ weakrefFree entry.token ++ freeValue entry.heldVal)
      (fields none)).map (none, ·)

/-- `finrec_delete_weakref` for one entry. -/
def finrecDeleteEntry (outside : Nat → Outside) (p : Ptr) (cb : Value) (n : Nat)
    (entry : FinRecEntry) (fields : Option FinRecEntry → GcObject) (engine : Engine) :
    Option (Option FinRecEntry × Engine) :=
  (finrecDeleteToken outside p n entry fields engine).bind fun visited =>
    finrecDeleteTarget outside p cb n visited.1 fields visited.2

/-- The body of the loop of `gc_remove_weak_objects`, for the weak structure at `p`. -/
def deleteWeakrefs (outside : Nat → Outside) (engine : Engine) (p : Ptr) : Option Engine :=
  match engine.heap.struct p with
  | .live (.jsObject shape slots (.map (some ⟨true, records⟩))) =>
    eachEntry (mapDeleteRecord outside p)
      (fun records => .jsObject shape slots (.map (some ⟨true, records⟩))) [] 0 records engine
  | .live (.jsObject shape slots (.weakRef (some target))) =>
    weakrefDeleteWeakref (outside 0) p target (.jsObject shape slots (.weakRef (some .undefined)))
      engine
  | .live (.jsObject shape slots (.finalizationRegistry (some (entries, cb)))) =>
    eachEntry (finrecDeleteEntry outside p cb)
      (fun entries => .jsObject shape slots (.finalizationRegistry (some (entries, cb)))) [] 0
      entries engine
  | _ => none

/-- `gc_remove_weak_objects` for the structures of `rt->weakref_list`. -/
def gcRemoveWeakObjects (weakrefList : List Ptr) (outside : Ptr → Nat → Outside)
    (engine : Engine) : Option Engine :=
  (weakrefList.foldlM (fun (engine : Engine) p => engine.deleteWeakrefs (outside p) p)
    { engine with heap := { engine.heap with gcPhase := .decref } }).bind fun engine =>
      (freeZeroRefcount { engine.heap with gcPhase := .none }).map fun heap =>
        { engine with heap }

end Engine

/-! ## Entries -/

/-- The entries of a weak structure: the target of each, and the value it holds. -/
def weakEntries : GcObject → List (Value × Value)
  | .jsObject _ _ (.map (some ⟨true, records⟩)) => records.map fun record => (record.key, record.value)
  | .jsObject _ _ (.weakRef (some target)) => if target = .undefined then [] else [(target, .undefined)]
  | .jsObject _ _ (.finalizationRegistry (some (entries, _))) =>
    entries.map fun entry => (entry.target, entry.heldVal)
  | _ => []

/-- A weak structure when all its entries are deleted. -/
def withoutEntries : GcObject → GcObject
  | .jsObject shape slots (.map (some ⟨true, _⟩)) => .jsObject shape slots (.map (some ⟨true, []⟩))
  | .jsObject shape slots (.weakRef (some _)) => .jsObject shape slots (.weakRef (some .undefined))
  | .jsObject shape slots (.finalizationRegistry (some (_, cb))) =>
    .jsObject shape slots (.finalizationRegistry (some ([], cb)))
  | obj => obj

/-- The entry is not deleted: its target is live. -/
def stays (heap : Heap) (entry : Value × Value) : Bool :=
  match entry.1 with
  | .object key => key ∈ heap.gcObjList
  | .other => false
  | .undefined | .functionBytecode _ => true

/-- A weak structure has lost nothing but entries whose target is a symbol or not live. -/
structure Pruned (heap : Heap) (old left : GcObject) : Prop where
  same : withoutEntries left = withoutEntries old
  fewer : (weakEntries left).Sublist (weakEntries old)
  stay : ((weakEntries old).filter (stays heap)).Sublist (weakEntries left)

variable {needed : Ptr → Prop} {roots pending : Multiset Ref} {overdrawn : Ptr → Nat} {heap : Heap}
  {p q : Ptr} {ref : Ref} {depth : Nat}

/-! ## Dropping references while nothing is freed -/

/-- A weak reference is dropped without a call to another function. -/
theorem rank_weakrefFree {value : Value} (member : ref ∈ weakrefFree value) : ref.rank = 0 := by
  cases value <;> simp_all [weakrefFree, Ref.rank]

/-- What dropping a reference leaves alone while what it frees is only queued: all fields, and
every structure stays on a list. -/
structure Queued (before after : Heap) : Prop extends Kept before after where
  struct : after.struct = before.struct
  linked : ∀ q, before.Linked q → after.Linked q

namespace Queued

variable {first second third : Heap}

/-- Nothing is changed by a step that does not happen. -/
theorem refl (heap : Heap) : Queued heap heap := ⟨.refl heap, rfl, fun _ => id⟩

/-- What two steps leave alone, both together leave alone. -/
theorem trans (left : Queued first second) (right : Queued second third) : Queued first third :=
  ⟨left.toKept.trans right.toKept, right.struct.trans left.struct,
    fun q linked => right.linked q (left.linked q linked)⟩

end Queued

/-- A structure that is queued stays on a list, as do the others, whatever follows. -/
theorem queueZero_then {follow : Heap → Option Heap} {after : Heap}
    (keeps : ∀ middle, middle.gcPhase = heap.gcPhase → follow middle = some after →
      after.struct = middle.struct ∧ after.gcPhase = middle.gcPhase ∧
        ∀ q, middle.Linked q → after.Linked q)
    (done : (heap.queueZero p).bind follow = some after) :
    after.struct = heap.struct ∧ after.gcPhase = heap.gcPhase ∧
      ∀ q, heap.Linked q → after.Linked q := by
  obtain ⟨middle, queued, rest⟩ := Option.bind_eq_some_iff.mp done
  by_cases linked : heap.Linked p
  · rw [Heap.queueZero, Heap.listDel, if_pos linked] at queued
    obtain rfl := Option.some.inj queued
    have follows := fun phase => keeps _ phase rest
    obtain ⟨same, phase, stay⟩ := follows rfl
    refine ⟨same, phase, fun q before => stay q ?_⟩
    by_cases here : q = p
    · exact .inr (.inr (here ▸ List.mem_cons_self ..))
    · refine before.imp (List.mem_erase_of_ne here).mpr (Or.imp (List.mem_erase_of_ne here).mpr ?_)
      exact fun zero => List.mem_cons_of_mem _ ((List.mem_erase_of_ne here).mpr zero)
  · simp [Heap.queueZero, Heap.listDel, linked] at queued

/-- A reference whose function calls no other of its kind leaves all fields and lists alone while
what is freed is only queued. -/
theorem freeRef_queued {after : Heap} (inPhase : heap.gcPhase = .decref) (rank : ref.rank = 0)
    (dropped : freeRef (fun _ => none) (depth + 1) heap ref = some after) :
    after.struct = heap.struct ∧ after.gcPhase = heap.gcPhase ∧
      ∀ q, heap.Linked q → after.Linked q := by
  have unchanged : ∀ {before : Heap}, some before = some after → before.struct = heap.struct →
      before.gcPhase = heap.gcPhase → (∀ q, heap.Linked q → before.Linked q) →
      after.struct = heap.struct ∧ after.gcPhase = heap.gcPhase ∧
        ∀ q, heap.Linked q → after.Linked q := by
    intro before same struct phase linked
    obtain rfl := Option.some.inj same
    exact ⟨struct, phase, linked⟩
  cases ref with
  | value p =>
    simp only [freeRef, freeValueRT] at dropped
    split at dropped
    · split at dropped
      · refine @queueZero_then (heap.decrement p) p _ _ (fun middle phase rest => ?_) dropped
        rw [if_neg (by simp [phase, Heap.decrement, inPhase])] at rest
        obtain rfl := Option.some.inj rest
        exact ⟨rfl, rfl, fun _ => id⟩
      · exact unchanged dropped rfl rfl fun _ => id
    · cases dropped
  | asyncFunction p =>
    simp only [freeRef, asyncFuncFree] at dropped
    split at dropped
    · split at dropped
      · refine @queueZero_then (heap.decrement p) p _ _ (fun middle phase rest => ?_) dropped
        rw [if_neg (by simp [phase, Heap.decrement, inPhase])] at rest
        obtain rfl := Option.some.inj rest
        exact ⟨rfl, rfl, fun _ => id⟩
      · exact unchanged dropped rfl rfl fun _ => id
    · cases dropped
  | weak p =>
    simp only [freeRef, jsWeakrefFree] at dropped
    split at dropped
    · split at dropped <;> exact unchanged dropped rfl rfl fun _ => id
    · cases dropped
  | varRef p | shape p | context p => simp [Ref.rank] at rank

/-- The fields of a structure can as well be assigned before such a reference is dropped. -/
theorem freeRef_assign {obj : GcObject} (inPhase : heap.gcPhase = .decref) (rank : ref.rank = 0) :
    freeRef (fun _ => none) (depth + 1) (heap.assign p obj) ref =
      (freeRef (fun _ => none) (depth + 1) heap ref).map (·.assign p obj) := by
  cases ref with
  | value q =>
    simp only [freeRef, freeValueRT, Heap.assign, Heap.decrement, Heap.queueZero, Heap.listDel,
      Heap.Linked, Heap.unlink, inPhase]
    split_ifs <;> simp
  | asyncFunction q =>
    simp only [freeRef, asyncFuncFree, Heap.assign, Heap.decrement, Heap.queueZero, Heap.listDel,
      Heap.Linked, Heap.unlink, inPhase]
    split_ifs <;> simp
  | weak q =>
    change jsWeakrefFree (heap.assign p obj) q = (jsWeakrefFree heap q).map (·.assign p obj)
    let less : Heap := { heap with
      weakrefCount := Function.update heap.weakrefCount q (heap.weakrefCount q - 1) }
    by_cases counted : q ∈ heap.allocated ∧ 1 ≤ heap.weakrefCount q
    · have before : jsWeakrefFree heap q =
          if less.weakrefCount q = 0 ∧ less.refCount q = 0 ∧ less.mark q = false then
            some (less.release q) else some less := if_pos counted
      have after : jsWeakrefFree (heap.assign p obj) q =
          if less.weakrefCount q = 0 ∧ less.refCount q = 0 ∧ less.mark q = false then
            some ((less.release q).assign p obj) else some (less.assign p obj) := if_pos counted
      rw [before, after]
      split_ifs <;> rfl
    · have before : jsWeakrefFree heap q = none := if_neg counted
      have after : jsWeakrefFree (heap.assign p obj) q = none := if_neg counted
      rw [before, after]
      rfl
  | varRef q | shape q | context q => simp [Ref.rank] at rank

/-- Dropping such a reference, while what is freed is only queued. -/
theorem freeRef_queues (inPhase : heap.gcPhase = .decref) (rank : ref.rank = 0)
    (inv : Inv needed roots (ref ::ₘ pending) overdrawn [] heap) :
    ∃ after, freeRef (fun _ => none) (depth + 1) heap ref = some after ∧
      Inv needed roots pending overdrawn [] after ∧ Queued heap after := by
  obtain ⟨after, drawn, dropped, final, settled⟩ := freeRef_drops (fun idle => by cases idle)
    (depth + 1) needed roots pending overdrawn [] heap ref inPhase (by omega) inv
  obtain ⟨struct, _, linked⟩ := freeRef_queued inPhase rank dropped
  have same : drawn = overdrawn := by
    funext q
    have paid := settled.paid q
    rw [struct] at paid
    omega
  exact ⟨after, dropped, same ▸ final, settled.toKept, struct, linked⟩

/-- Dropping several of them one after the other. -/
theorem freeRefs_queues (refs : List Ref) (ranks : ∀ ref ∈ refs, ref.rank = 0)
    (inPhase : heap.gcPhase = .decref) (inv : Inv needed roots (refs + pending) overdrawn [] heap) :
    ∃ after, refs.foldlM (freeRef (fun _ => none) (depth + 1)) heap = some after ∧
      Inv needed roots pending overdrawn [] after ∧ Queued heap after := by
  induction refs generalizing heap with
  | nil => exact ⟨heap, rfl, by simpa using inv, .refl heap⟩
  | cons ref rest inductionHypothesis =>
    have spelled : ((ref :: rest : List Ref) : Multiset Ref) + pending = ref ::ₘ (rest + pending) := by
      rw [← Multiset.cons_coe, Multiset.cons_add]
    obtain ⟨middle, dropped, kept, queued⟩ :=
      freeRef_queues inPhase (ranks ref (by simp)) (spelled ▸ inv)
    obtain ⟨after, others, final, further⟩ := inductionHypothesis
      (fun other member => ranks other (List.mem_cons_of_mem _ member))
      (queued.phase.trans inPhase) kept
    refine ⟨after, ?_, final, queued.trans further⟩
    rw [List.foldlM_cons, dropped]
    exact others

/-- Assigning the fields before several such references are dropped. -/
theorem freeRefs_assign {obj : GcObject} (refs : List Ref) (ranks : ∀ ref ∈ refs, ref.rank = 0)
    (inPhase : heap.gcPhase = .decref) :
    refs.foldlM (freeRef (fun _ => none) (depth + 1)) (heap.assign p obj) =
      (refs.foldlM (freeRef (fun _ => none) (depth + 1)) heap).map (·.assign p obj) := by
  induction refs generalizing heap with
  | nil => rfl
  | cons ref rest inductionHypothesis =>
    rw [List.foldlM_cons, List.foldlM_cons, freeRef_assign inPhase (ranks ref (by simp))]
    cases dropped : freeRef (fun _ => none) (depth + 1) heap ref with
    | none => rfl
    | some middle =>
      have phase := (freeRef_queued inPhase (ranks ref (by simp)) dropped).2.1
      exact inductionHypothesis (fun other member => ranks other (List.mem_cons_of_mem _ member))
        (phase.trans inPhase)

/-! ## Fields that give up references -/

/-- A live structure is where it should be with other fields, unless cycles are removed. -/
theorem Placed.refielded {use isOpen : Prop} {drawn : Nat} {view : View} {obj : GcObject}
    (placed : Placed use drawn isOpen view) (quiet : view.Quiet) (live : view.Live)
    (type : obj.gcObjType = view.type) (rests : obj.freeable = true) :
    Placed use drawn isOpen { view with struct := .live obj } := by
  have closed : ¬ isOpen := fun isOpen => (placed.open_linked isOpen).2 live
  have alive : View.Live { view with struct := .live obj } := ⟨obj, rfl⟩
  have sameType : View.type { view with struct := .live obj } = view.type := type
  exact {
    linked_allocated := placed.linked_allocated
    live_linked := fun stored _ => placed.live_linked stored live
    open_linked := fun isOpen => absurd isOpen closed
    open_inline := fun isOpen => absurd isOpen closed
    open_settled := fun isOpen => absurd isOpen closed
    counted := fun gc _ => ⟨alive, (placed.counted gc closed).2⟩
    unmarked := placed.unmarked
    marked := fun waits object => placed.marked waits (sameType ▸ object)
    inline_counted := fun stored _ inline => placed.inline_counted stored live (sameType ▸ inline)
    kept := fun _ dead => absurd alive dead
    spent := fun stored drawn => absurd live (placed.spent stored drawn).1
    quiet := by
      intro _
      refine ⟨(placed.quiet quiet).1, fun zero => ?_⟩
      obtain ⟨queued, rest⟩ := (placed.quiet quiet).2 zero
      exact ⟨sameType ▸ queued, fun open' => ⟨alive, (rest open').2⟩⟩
    idle := fun none => ⟨(placed.idle none).1, fun isOpen => absurd isOpen closed⟩
    garbage := fun removing => absurd quiet removing
    ordinary := fun removing => absurd quiet removing
    swept := fun removing => absurd quiet removing
    runs := by
      intro _ other same runs
      obtain rfl : obj = other := Struct.live.inj same
      rw [rests] at runs
      cases runs }

/-- A live structure gives up some of the references in its fields, unless cycles are removed. -/
theorem Inv.surrender {old left : GcObject} {given : Multiset Ref}
    (inv : Inv needed roots pending overdrawn [] heap) (quiet : heap.gcPhase ≠ .removeCycles)
    (stored : p ∈ heap.allocated) (fields : heap.struct p = .live old)
    (type : left.gcObjType = old.gcObjType) (rests : left.freeable = true)
    (exchanged : (heldRefs old : Multiset Ref) = heldRefs left + given)
    (supported : Supported needed roots (heap.assign p left).toMemory) :
    Inv needed roots (given + pending) overdrawn [] (heap.assign p left) := by
  have refs : heap.refsAt p = heldRefs old := by simp [Memory.refsAt, fields]
  have sameType : left.gcObjType = (heap.struct p).gcObjType := by
    rw [fields]
    exact type
  refine ⟨?_, inv.nodup, fun q => ?_, supported, fun removing => absurd removing quiet⟩
  · refine inv.balanced.assign stored sameType ?_
    rw [refs, exchanged, add_assoc, add_assoc]
  · by_cases same : q = p
    · subst same
      have view : (heap.assign q left).view q = { heap.view q with struct := .live left } := by
        simp [Heap.view, Heap.assign]
      rw [view]
      exact (inv.placed q).refielded quiet ⟨old, fields⟩ sameType rests
    · have view : (heap.assign p left).view q = heap.view q := by
        simp [Heap.view, Heap.assign, Function.update_of_ne same]
      rw [view]
      exact inv.placed q

/-- The program takes one more of a reference that a structure holds, unless cycles are removed. -/
theorem Inv.hold (inv : Inv needed roots pending overdrawn [] heap)
    (quiet : heap.gcPhase ≠ .removeCycles) (stored : q ∈ heap.allocated)
    (inside : ref ∈ heap.refsAt q) (counted : ref.strong = some p) :
    Inv needed (ref ::ₘ roots) pending overdrawn [] (heap.increment p) := by
  have fits := inv.balanced.fieldsFit q stored ref inside
  have there : p ∈ heap.allocated := strong_target counted ▸ fits.1
  have referred := inv.balanced.pos_of_field stored inside counted
  obtain ⟨undrawn, positive⟩ := inv.undrawn there referred
  obtain ⟨live, gc, _⟩ := inv.counted_quiet there referred quiet
  have placed := inv.placed p
  refine ⟨?_, inv.nodup, fun other => ?_, fun other use => ?_, fun removing => absurd removing quiet⟩
  · rw [Multiset.add_cons]
    exact inv.balanced.increment counted fits
  · by_cases same : other = p
    · subst same
      have notOpen : other ∈ ([] : List Ptr) ↔ False := by simp
      have unqueued : other ∉ heap.gcZeroRefCountList := by
        intro zero
        have none := (((placed.quiet quiet).2 zero).2 (by simp)).2
        simp only [Heap.view] at none
        omega
      rw [notOpen, undrawn]
      refine Placed.resting there live gc (placed.quiet quiet).1 unqueued ?_ (placed.unmarked gc)
        (placed.runs there)
      change 0 < Function.update heap.refCount other (heap.refCount other + 1) other
      rw [Function.update_self]
      omega
    · have view : (heap.increment p).view other = heap.view other := by
        simp [Heap.view, Heap.increment, Function.update_of_ne same]
      rw [view]
      exact inv.placed other
  · refine (inv.supported other use).imp_left ?_
    rintro ⟨root, held, hits⟩
    exact ⟨root, Multiset.mem_cons_of_mem held, hits⟩

/-! ## What hangs on no dead entry -/

/-- What the program can reach for good: through the fields of structures, and through the entry
of a weak structure only together with the target of the entry. -/
inductive Secure (roots : Multiset Ref) (memory : Memory) : Ptr → Prop where
  | root {p : Ptr} (held : Rooted roots p) : Secure roots memory p
  | field {q p : Ptr} (secure : Secure roots memory q) {obj : GcObject}
      (fields : memory.struct q = .live obj) {ref : Ref} (inside : ref ∈ heldRefs (withoutEntries obj))
      (hits : ref.strong = some p) : Secure roots memory p
  | entry {q key p : Ptr} (secure : Secure roots memory q) {obj : GcObject}
      (fields : memory.struct q = .live obj) {value : Value}
      (inside : (.object key, value) ∈ weakEntries obj) (alive : Secure roots memory key)
      (hits : p ∈ markValue value) : Secure roots memory p

/-- Of the structures that are needed, each is held by the program or by another one of them,
where an entry counts only while its target is needed. -/
def Steady (needed : Ptr → Prop) (roots : Multiset Ref) (memory : Memory) : Prop :=
  ∀ p, needed p → Rooted roots p ∨ ∃ q ∈ memory.allocated, needed q ∧
    ∃ obj, memory.struct q = .live obj ∧ ((∃ ref ∈ heldRefs (withoutEntries obj), ref.strong = some p) ∨
      ∃ key value, (.object key, value) ∈ weakEntries obj ∧ needed key ∧ p ∈ markValue value)

variable {obj old left : GcObject}

/-- The type does not depend on the entries. -/
@[simp] theorem type_withoutEntries : (withoutEntries obj).gcObjType = obj.gcObjType := by
  unfold withoutEntries
  split <;> rfl

/-- Nor does whether it is a Go proxy. -/
@[simp] theorem dropsSelf_withoutEntries : (withoutEntries obj).dropsSelf = obj.dropsSelf := by
  unfold withoutEntries
  split <;> rfl

/-- Nor does whether it runs. -/
@[simp] theorem freeable_withoutEntries : (withoutEntries obj).freeable = obj.freeable := by
  unfold withoutEntries
  split <;> rfl

/-- What a structure holds without its entries it holds with them. -/
theorem firm_held (inside : ref ∈ heldRefs (withoutEntries obj)) : ref ∈ heldRefs obj := by
  unfold withoutEntries at inside
  split at inside
  · simp only [heldRefs, finalizer, jsMapFinalizer, whenPresent, dropsSelf, Option.elim_some,
      List.flatMap_nil, List.mem_append, List.mem_cons, Bool.false_eq_true, if_false] at inside ⊢
    exact inside.imp_right (Or.imp_right fun none => absurd none List.not_mem_nil)
  · simp only [heldRefs, finalizer, jsWeakrefFinalizer, whenPresent, dropsSelf, Option.elim_some,
      weakrefFree, List.mem_append, List.mem_cons, Bool.false_eq_true, if_false] at inside ⊢
    exact inside.imp_right (Or.imp_right fun none => absurd none List.not_mem_nil)
  · simp only [heldRefs, finalizer, jsFinrecFinalizer, whenPresent, dropsSelf, Option.elim_some,
      List.flatMap_nil, List.nil_append, List.mem_append, List.mem_cons, Bool.false_eq_true,
      if_false] at inside ⊢
    exact inside.imp_right (Or.imp_right .inr)
  · exact inside

/-- A structure holds the value of each of its entries. -/
theorem entry_held {entry : Value × Value} (inside : entry ∈ weakEntries obj) (hits : p ∈ markValue entry.2) :
    ∃ ref ∈ heldRefs obj, ref.strong = some p := by
  have taken : ∃ ref ∈ freeValue entry.2, ref.strong = some p := by
    cases value : entry.2 <;> simp_all [markValue, freeValue, Ref.strong]
  obtain ⟨ref, free, strong⟩ := taken
  refine ⟨ref, ?_, strong⟩
  unfold weakEntries at inside
  split at inside
  · obtain ⟨record, there, rfl⟩ := List.mem_map.mp inside
    have used : record.empty = false := by
      by_contra cleared
      simp [(record.cleared (by simpa using cleared)).2, freeValue] at free
    simp only [heldRefs, finalizer, jsMapFinalizer, whenPresent, dropsSelf, Option.elim_some,
      List.mem_append, List.mem_cons, List.mem_flatMap, Bool.false_eq_true, if_false]
    exact .inr (.inr ⟨record, there, by simp [used, free]⟩)
  · split at inside
    · cases inside
    · obtain rfl := List.mem_singleton.mp inside
      cases free
  · obtain ⟨entry, there, rfl⟩ := List.mem_map.mp inside
    simp only [heldRefs, finalizer, jsFinrecFinalizer, whenPresent, dropsSelf, Option.elim_some,
      List.mem_append, List.mem_cons, List.mem_flatMap, Bool.false_eq_true, if_false]
    exact .inr (.inr (.inl ⟨entry, there, .inr free⟩))
  · cases inside

variable {memory : Memory} {first second : Heap} {middle : GcObject}

/-- Entries that count only while their target is needed are references all the same. -/
theorem Steady.supported (steady : Steady needed roots memory) : Supported needed roots memory := by
  intro p use
  refine (steady p use).imp_right ?_
  rintro ⟨q, stored, useful, obj, fields, ⟨ref, inside, hits⟩ | ⟨key, value, inside, _, hits⟩⟩
  · refine ⟨q, stored, useful, ref, ?_, hits⟩
    rw [Memory.refsAt, fields]
    exact firm_held inside
  · obtain ⟨ref, held, strong⟩ := entry_held inside hits
    refine ⟨q, stored, useful, ref, ?_, strong⟩
    rwa [Memory.refsAt, fields]

/-- What the program can reach for good is in memory. -/
theorem Secure.stored (balanced : Balanced (pending + roots) overdrawn memory)
    (secure : Secure roots memory p) : p ∈ memory.allocated := by
  have inMemory : ∀ {q obj ref}, q ∈ memory.allocated → memory.struct q = .live obj →
      ref ∈ heldRefs obj → ∀ {p}, ref.strong = some p → p ∈ memory.allocated := by
    intro q obj ref stored fields inside p hits
    refine strong_target hits ▸ (balanced.fieldsFit q stored ref ?_).1
    rwa [Memory.refsAt, fields]
  induction secure with
  | root held =>
    obtain ⟨ref, root, hits⟩ := held
    exact strong_target hits ▸ (balanced.heldFit ref (Multiset.mem_add.mpr (.inr root))).1
  | field _ fields inside hits stored => exact inMemory stored fields (firm_held inside) hits
  | entry _ fields inside _ hits stored _ =>
    obtain ⟨ref, held, strong⟩ := entry_held inside hits
    exact inMemory stored fields held strong

/-- What the program can reach for good is held by it, or so. -/
theorem Secure.steady (balanced : Balanced (pending + roots) overdrawn memory) :
    Steady (Secure roots memory) roots memory := by
  intro p secure
  cases secure with
  | root held => exact .inl held
  | @field q _ earlier obj fields ref inside hits =>
    exact .inr ⟨q, earlier.stored balanced, earlier, obj, fields, .inl ⟨ref, inside, hits⟩⟩
  | @entry q key _ earlier obj fields value inside alive hits =>
    exact .inr ⟨q, earlier.stored balanced, earlier, obj, fields, .inr ⟨key, value, inside, alive, hits⟩⟩

namespace Pruned

/-- Nothing was deleted. -/
theorem refl (heap : Heap) (obj : GcObject) : Pruned heap obj obj :=
  ⟨rfl, List.Sublist.refl _, List.filter_sublist⟩

/-- With fewer live structures fewer entries have to be there. -/
theorem mono (pruned : Pruned first old left) (shrinks : second.gcObjList ⊆ first.gcObjList) :
    Pruned second old left := by
  refine ⟨pruned.same, pruned.fewer, List.Sublist.trans ?_ pruned.stay⟩
  have weaker : ∀ entry, stays second entry = true → stays first entry = true := by
    rintro ⟨target, value⟩ stay
    cases target with
    | object key => simpa [stays] using shrinks (by simpa [stays] using stay)
    | other => exact stay
    | undefined | functionBytecode => rfl
  exact List.monotone_filter_right _ weaker

/-- Entries are deleted twice. -/
theorem trans (earlier : Pruned heap old middle) (later : Pruned heap middle left) :
    Pruned heap old left := by
  refine ⟨later.same.trans earlier.same, later.fewer.trans earlier.fewer, ?_⟩
  have still : ((weakEntries old).filter (stays heap)).Sublist
      ((weakEntries middle).filter (stays heap)) := by
    simpa [List.filter_filter] using earlier.stay.filter (stays heap)
  exact still.trans later.stay

/-- The type stays. -/
theorem type (pruned : Pruned heap old left) : left.gcObjType = old.gcObjType :=
  type_withoutEntries.symm.trans ((congrArg GcObject.gcObjType pruned.same).trans type_withoutEntries)

/-- So does whether the structure is a Go proxy. -/
theorem dropsSelf (pruned : Pruned heap old left) : left.dropsSelf = old.dropsSelf :=
  dropsSelf_withoutEntries.symm.trans
    ((congrArg GcObject.dropsSelf pruned.same).trans dropsSelf_withoutEntries)

/-- So does whether it runs. -/
theorem freeable (pruned : Pruned heap old left) : left.freeable = old.freeable :=
  freeable_withoutEntries.symm.trans
    ((congrArg GcObject.freeable pruned.same).trans freeable_withoutEntries)

end Pruned

namespace Steady

/-- Dead entries hold nothing that is needed. -/
theorem assign (steady : Steady needed roots heap.toMemory) (fields : heap.struct p = .live old)
    (pruned : Pruned heap old left) (listed : ∀ q, needed q → q ∈ heap.gcObjList) :
    Steady needed roots (heap.assign p left).toMemory := by
  intro other use
  refine (steady other use).imp_right ?_
  rintro ⟨q, stored, useful, obj, there, held⟩
  by_cases same : q = p
  · subst same
    obtain rfl : obj = old := Struct.live.inj (there.symm.trans fields)
    refine ⟨q, stored, useful, left, Function.update_self .., held.imp ?_ ?_⟩
    · rintro ⟨ref, inside, hits⟩
      exact ⟨ref, pruned.same ▸ inside, hits⟩
    · rintro ⟨key, value, inside, alive, hits⟩
      refine ⟨key, value, pruned.stay.subset (List.mem_filter.mpr ⟨inside, ?_⟩), alive, hits⟩
      simpa [stays] using listed key alive
  · exact ⟨q, stored, useful, obj, (Function.update_of_ne same ..).trans there, held⟩

/-- Nothing changes as long as what is needed stays in memory. -/
theorem congr (steady : Steady needed roots heap.toMemory) {after : Heap}
    (struct : after.struct = heap.struct) (stored : ∀ q, needed q → q ∈ after.allocated) :
    Steady needed roots after.toMemory := by
  intro other use
  refine (steady other use).imp_right ?_
  rintro ⟨q, _, useful, obj, there, held⟩
  exact ⟨q, stored q useful, useful, obj, (congrFun struct q).trans there, held⟩

/-- One more reference supports no less. -/
theorem grows (steady : Steady needed roots memory) (ref : Ref) :
    Steady needed (ref ::ₘ roots) memory := by
  intro other use
  refine (steady other use).imp_left ?_
  rintro ⟨root, held, hits⟩
  exact ⟨root, Multiset.mem_cons_of_mem held, hits⟩

end Steady

/-- Unless cycles are removed, what is needed is in `gc_obj_list`. -/
theorem Inv.needed_quiet {opened : List Ptr} (inv : Inv needed roots pending overdrawn opened heap)
    (quiet : heap.gcPhase ≠ .removeCycles) (use : needed p) :
    p ∈ heap.allocated ∧ p ∈ heap.gcObjList := by
  have stored : p ∈ heap.allocated := by
    rcases inv.supported p use with ⟨ref, held, hits⟩ | ⟨q, there, _, ref, inside, hits⟩
    · exact strong_target hits ▸ (inv.balanced.heldFit ref (Multiset.mem_add.mpr (.inr held))).1
    · exact strong_target hits ▸ (inv.balanced.fieldsFit q there ref inside).1
  have positive := inv.supported.counted inv.balanced use
  exact ⟨stored, (inv.counted_quiet stored positive quiet).2.1⟩

/-! ## The visit -/

/-- A structure in memory has lost nothing but entries whose target is a symbol or not live. -/
inductive Thinned (heap : Heap) : Struct → Struct → Prop where
  | live {old left : GcObject} (pruned : Pruned heap old left) : Thinned heap (.live old) (.live left)
  | freed (type : GcObjType) : Thinned heap (.freed type) (.freed type)

namespace Thinned

/-- Nothing was deleted. -/
theorem refl (heap : Heap) (struct : Struct) : Thinned heap struct struct := by
  cases struct with
  | live obj => exact .live (.refl heap obj)
  | freed type => exact .freed type

/-- With fewer live structures fewer entries have to be there. -/
theorem mono {before after : Struct} (thinned : Thinned first before after)
    (shrinks : second.gcObjList ⊆ first.gcObjList) : Thinned second before after := by
  cases thinned with
  | live pruned => exact .live (pruned.mono shrinks)
  | freed type => exact .freed type

/-- It loses no less where one more of the structures does. -/
theorem assign {origin : Ptr → Struct} {old left : GcObject}
    (thinned : ∀ q, Thinned heap (origin q) (heap.struct q)) (fields : heap.struct p = .live old)
    (pruned : Pruned heap old left) (q : Ptr) :
    Thinned heap (origin q) ((heap.assign p left).struct q) := by
  by_cases same : q = p
  · subst same
    have before := thinned q
    rw [fields] at before
    change Thinned _ _ (Function.update heap.struct q (.live left) q)
    rw [Function.update_self]
    generalize origin q = earlier at before ⊢
    cases before with
    | live earlier => exact .live (earlier.trans pruned)
  · change Thinned _ _ (Function.update heap.struct p (.live left) q)
    rw [Function.update_of_ne same]
    exact thinned q

/-- A Go proxy stays one. -/
theorem debt {before after : Struct} (thinned : Thinned heap before after) :
    after.debt = before.debt := by
  cases thinned with
  | live pruned => simp [Struct.debt, pruned.dropsSelf]
  | freed type => rfl

end Thinned

/-- While the weak structures are visited: nothing is freed, the program and its jobs hold no
less than before, and structures have lost nothing but dead entries. -/
structure Visiting (needed : Ptr → Prop) (overdrawn : Ptr → Nat) (start engine : Engine) : Prop where
  inv : Inv needed engine.roots 0 overdrawn [] engine.heap
  phase : engine.heap.gcPhase = .decref
  steady : Steady needed engine.roots engine.heap.toMemory
  more : start.roots ≤ engine.roots
  allocated : engine.heap.allocated ⊆ start.heap.allocated
  gc : engine.heap.gcObjList.Sublist start.heap.gcObjList
  linked : ∀ q, start.heap.Linked q → engine.heap.Linked q
  thinned : ∀ q, Thinned engine.heap (start.heap.struct q) (engine.heap.struct q)

namespace Visiting

variable {start engine : Engine}

/-- It is not the phase of the removal of cycles. -/
theorem quiet (visiting : Visiting needed overdrawn start engine) :
    engine.heap.gcPhase ≠ .removeCycles := by
  simp [visiting.phase]

/-- The entry of a dead target may go. -/
theorem goes (visiting : Visiting needed overdrawn start engine) {symbolLive : Bool}
    {target value : Value} (dead : jsWeakrefIsLiveValue symbolLive engine.heap target ≠ true) :
    stays engine.heap (target, value) = false := by
  cases target with
  | object key =>
    have none : engine.heap.refCount key = 0 := by
      simpa [jsWeakrefIsLiveValue, jsWeakrefIsLive] using dead
    have unlisted : key ∉ engine.heap.gcObjList := by
      intro gc
      have positive := ((visiting.inv.placed key).counted gc (by simp)).2
      simp only [Heap.view] at positive
      omega
    simpa [stays] using unlisted
  | other => rfl
  | undefined | functionBytecode => exact absurd rfl dead

/-- A weak structure gives up references of dead entries. -/
theorem giveUp (visiting : Visiting needed overdrawn start engine) (there : start.heap.Linked p)
    (fields : engine.heap.struct p = .live old) (refs : List Ref)
    (ranks : ∀ ref ∈ refs, ref.rank = 0)
    (exchanged : (heldRefs old : Multiset Ref) = heldRefs left + refs)
    (pruned : Pruned engine.heap old left) (rests : old.freeable = true) :
    ∃ next, engine.giveUp p refs left = some next ∧ Visiting needed overdrawn start next ∧
      next.heap.struct p = .live left := by
  have quiet := visiting.quiet
  have stored : p ∈ engine.heap.allocated :=
    (visiting.inv.placed p).linked_allocated (visiting.linked p there)
  have steady := visiting.steady.assign fields pruned
    fun q use => (visiting.inv.needed_quiet quiet use).2
  have given := visiting.inv.surrender quiet stored fields pruned.type
    (pruned.freeable.trans rests) exchanged steady.supported
  have drops : ∃ after,
      refs.foldlM (freeRef (fun _ => none) freeDepth) (engine.heap.assign p left) = some after ∧
        Inv needed engine.roots 0 overdrawn [] after ∧ Queued (engine.heap.assign p left) after :=
    freeRefs_queues refs ranks visiting.phase given
  obtain ⟨after, dropped, final, queued⟩ := drops
  have moved : refs.foldlM (freeRef (fun _ => none) freeDepth) (engine.heap.assign p left) =
      (refs.foldlM (freeRef (fun _ => none) freeDepth) engine.heap).map (·.assign p left) :=
    freeRefs_assign refs ranks visiting.phase
  rw [moved] at dropped
  obtain ⟨middle, before, rfl⟩ := Option.map_eq_some_iff.mp dropped
  have phase : (middle.assign p left).gcPhase = .decref := queued.phase.trans visiting.phase
  refine ⟨{ engine with heap := middle.assign p left }, ?_, ?_, Function.update_self ..⟩
  · exact congrArg (Option.map fun heap => { engine with heap := heap.assign p left }) before
  · refine ⟨final, phase, steady.congr queued.struct ?_, visiting.more,
      queued.allocated.trans visiting.allocated, queued.gc.trans visiting.gc,
      fun q linked => queued.linked q (visiting.linked q linked), fun q => ?_⟩
    · exact fun q use => (final.needed_quiet (by simp [phase]) use).1
    · rw [queued.struct]
      exact .mono (.assign visiting.thinned fields pruned q) queued.gc.subset

/-- A job holds references that a structure holds. -/
theorem enqueue (visiting : Visiting needed overdrawn start engine) (there : start.heap.Linked p)
    (args : List Value)
    (held : ∀ ref ∈ args.flatMap freeValue, ref ∈ engine.heap.refsAt p) :
    Visiting needed overdrawn start (engine.jsEnqueueJob args) ∧
      (engine.jsEnqueueJob args).heap.struct = engine.heap.struct ∧
      (engine.jsEnqueueJob args).heap.gcObjList = engine.heap.gcObjList := by
  have strong : ∀ ref ∈ args.flatMap freeValue, ref.strong = some ref.target := by
    intro ref inside
    obtain ⟨value, _, free⟩ := List.mem_flatMap.mp inside
    cases value <;> simp_all [freeValue, Ref.strong, Ref.target]
  rw [Engine.jsEnqueueJob]
  generalize args.flatMap freeValue = refs at strong held
  induction refs generalizing engine with
  | nil => exact ⟨visiting, rfl, rfl⟩
  | cons ref rest inductionHypothesis =>
    have stored : p ∈ engine.heap.allocated :=
      (visiting.inv.placed p).linked_allocated (visiting.linked p there)
    have one := visiting.inv.hold visiting.quiet stored (held ref (by simp)) (strong ref (by simp))
    have visited : Visiting needed overdrawn start
        { heap := engine.heap.increment ref.target, roots := ref ::ₘ engine.roots } :=
      ⟨one, visiting.phase, visiting.steady.grows ref,
        visiting.more.trans (Multiset.le_cons_self _ _), visiting.allocated, visiting.gc,
        visiting.linked, fun q => (visiting.thinned q).mono (List.Subset.refl _)⟩
    exact inductionHypothesis visited
      (fun other member => strong other (List.mem_cons_of_mem _ member))
      (fun other member => held other (List.mem_cons_of_mem _ member))

end Visiting

/-- The visit of an entry returns, and what it leaves of the entry is what the structure then
holds. -/
def Visits (needed : Ptr → Prop) (overdrawn : Ptr → Nat) (start : Engine) (p : Ptr) {Entry : Type}
    (visit : Nat → Entry → (Option Entry → GcObject) → Engine → Option (Option Entry × Engine))
    (fields : List Entry → GcObject) : Prop :=
  ∀ n entry kept rest engine, Visiting needed overdrawn start engine →
    engine.heap.struct p = .live (fields (kept ++ entry :: rest)) →
    ∃ left next, visit n entry (fun left => fields (kept ++ left.toList ++ rest)) engine =
        some (left, next) ∧ Visiting needed overdrawn start next ∧
      next.heap.struct p = .live (fields (kept ++ left.toList ++ rest))

/-- All entries of a weak structure are visited.

Proof: induction on the entries that are left. -/
theorem eachEntry_visits {Entry : Type} {start engine : Engine}
    {visit : Nat → Entry → (Option Entry → GcObject) → Engine → Option (Option Entry × Engine)}
    {fields : List Entry → GcObject} (visits : Visits needed overdrawn start p visit fields)
    {rest kept : List Entry} {n : Nat} (visiting : Visiting needed overdrawn start engine)
    (there : engine.heap.struct p = .live (fields (kept ++ rest))) :
    ∃ next, Engine.eachEntry visit fields kept n rest engine = some next ∧
      Visiting needed overdrawn start next := by
  induction rest generalizing kept n engine with
  | nil => exact ⟨engine, rfl, visiting⟩
  | cons entry rest inductionHypothesis =>
    obtain ⟨left, middle, visited, still, struct⟩ := visits n entry kept rest engine visiting there
    obtain ⟨next, others, final⟩ := inductionHypothesis (n := n + 1) still struct
    refine ⟨next, ?_, final⟩
    rw [Engine.eachEntry, visited]
    exact others

/-- The visit of a record of a weak map. -/
theorem mapDeleteRecord_visits {start : Engine} (there : start.heap.Linked p)
    (outside : Nat → Outside) (shape : Ptr) (slots : List Slot) :
    Visits needed overdrawn start p (Engine.mapDeleteRecord outside p)
      fun records => .jsObject shape slots (.map (some ⟨true, records⟩)) := by
  intro n record kept rest engine visiting struct
  by_cases live : jsWeakrefIsLiveValue (outside n).targetLive engine.heap record.key = true
  · refine ⟨some record, engine, if_pos live, visiting, ?_⟩
    simpa using struct
  · have used : record.empty = false := by
      by_contra empty
      simp [(record.cleared (by simpa using empty)).1, jsWeakrefIsLiveValue] at live
    let fields (records : List MapRecord) : GcObject :=
      .jsObject shape slots (.map (some ⟨true, records⟩))
    have goes : stays engine.heap (record.key, record.value) = false := visiting.goes live
    have pruned : Pruned engine.heap (fields (kept ++ record :: rest)) (fields (kept ++ rest)) := by
      refine ⟨rfl, ?_, ?_⟩
      · simp [fields, weakEntries]
      · simpa [fields, weakEntries, goes] using List.filter_sublist.append List.filter_sublist
    have exchanged : (heldRefs (fields (kept ++ record :: rest)) : Multiset Ref) =
        heldRefs (fields (kept ++ rest)) +
          ((weakrefFree record.key ++ freeValue record.value : List Ref) : Multiset Ref) := by
      simp only [fields, heldRefs, finalizer, jsMapFinalizer, whenPresent, dropsSelf, Option.elim_some,
        List.flatMap_append, List.flatMap_cons, used, Bool.false_eq_true, if_false, if_true,
        ← Multiset.coe_add, ← Multiset.cons_coe, ← Multiset.singleton_add]
      abel
    obtain ⟨next, given, final, struct⟩ := visiting.giveUp there struct _
      (fun ref inside => (List.mem_append.mp inside).elim rank_weakrefFree rank_freeValue)
      exchanged pruned rfl
    refine ⟨none, next, ?_, final, by simpa using struct⟩
    rw [Engine.mapDeleteRecord, if_neg live]
    simpa using given

/-- The visit of a `WeakRef`. -/
theorem weakrefDeleteWeakref_visits {start engine : Engine} (there : start.heap.Linked p)
    (outside : Outside) (shape : Ptr) (slots : List Slot) (target : Value)
    (visiting : Visiting needed overdrawn start engine)
    (struct : engine.heap.struct p = .live (.jsObject shape slots (.weakRef (some target)))) :
    ∃ next, Engine.weakrefDeleteWeakref outside p target
        (.jsObject shape slots (.weakRef (some .undefined))) engine = some next ∧
      Visiting needed overdrawn start next := by
  by_cases live : jsWeakrefIsLiveValue outside.targetLive engine.heap target = true
  · exact ⟨engine, if_pos live, visiting⟩
  · let fields (target : Value) : GcObject := .jsObject shape slots (.weakRef (some target))
    have goes : stays engine.heap (target, .undefined) = false := visiting.goes live
    have pruned : Pruned engine.heap (fields target) (fields .undefined) := by
      refine ⟨rfl, by simp [fields, weakEntries], ?_⟩
      simp only [fields, weakEntries]
      split <;> simp [goes]
    have exchanged : (heldRefs (fields target) : Multiset Ref) =
        heldRefs (fields .undefined) + (weakrefFree target : Multiset Ref) := by
      have none : weakrefFree .undefined = [] := rfl
      simp only [fields, heldRefs, finalizer, jsWeakrefFinalizer, whenPresent, dropsSelf,
        Option.elim_some, none, Bool.false_eq_true, if_false,
        ← Multiset.coe_add, ← Multiset.cons_coe, ← Multiset.singleton_add, Multiset.coe_nil, add_zero]
      abel
    obtain ⟨next, given, final, _⟩ := visiting.giveUp there struct _
      (fun ref inside => rank_weakrefFree inside) exchanged pruned rfl
    exact ⟨next, (if_neg live).trans given, final⟩

/-- The visit of the token of an entry of a finalization registry. -/
theorem finrecDeleteToken_visits {start engine : Engine} (there : start.heap.Linked p)
    (outside : Nat → Outside) (shape : Ptr) (slots : List Slot) (cb : Value) (n : Nat)
    (entry : FinRecEntry) (kept rest : List FinRecEntry)
    (visiting : Visiting needed overdrawn start engine)
    (struct : engine.heap.struct p =
      .live (.jsObject shape slots (.finalizationRegistry (some (kept ++ entry :: rest, cb))))) :
    ∃ left next, Engine.finrecDeleteToken outside p n entry (fun left =>
        .jsObject shape slots (.finalizationRegistry (some (kept ++ left.toList ++ rest, cb)))) engine =
          some (left, next) ∧ Visiting needed overdrawn start next ∧
      next.heap.struct p =
        .live (.jsObject shape slots (.finalizationRegistry (some (kept ++ left :: rest, cb)))) := by
  by_cases live : jsWeakrefIsLiveValue (outside n).tokenLive engine.heap entry.token = true
  · exact ⟨entry, engine, if_pos live, visiting, struct⟩
  · let fields (entries : List FinRecEntry) : GcObject :=
      .jsObject shape slots (.finalizationRegistry (some (entries, cb)))
    let left : FinRecEntry := { entry with token := .undefined }
    have pruned : Pruned engine.heap (fields (kept ++ entry :: rest)) (fields (kept ++ left :: rest)) :=
      ⟨rfl, by simp [fields, left, weakEntries], by
        simpa [fields, left, weakEntries] using List.filter_sublist.append List.filter_sublist⟩
    have exchanged : (heldRefs (fields (kept ++ entry :: rest)) : Multiset Ref) =
        heldRefs (fields (kept ++ left :: rest)) + (weakrefFree entry.token : Multiset Ref) := by
      simp only [fields, left, heldRefs, finalizer, jsFinrecFinalizer, whenPresent, dropsSelf,
        Option.elim_some, List.flatMap_append, List.flatMap_cons, Bool.false_eq_true, if_false,
        weakrefFree, List.append_nil,
        ← Multiset.coe_add, ← Multiset.cons_coe, ← Multiset.singleton_add]
      abel
    obtain ⟨next, given, final, after⟩ := visiting.giveUp there struct _
      (fun ref inside => rank_weakrefFree inside) exchanged pruned rfl
    refine ⟨left, next, ?_, final, after⟩
    rw [Engine.finrecDeleteToken, if_neg live]
    simpa [left, fields] using given

/-- The visit of an entry of a finalization registry. -/
theorem finrecDeleteEntry_visits {start : Engine} (there : start.heap.Linked p)
    (outside : Nat → Outside) (shape : Ptr) (slots : List Slot) (cb : Value) :
    Visits needed overdrawn start p (Engine.finrecDeleteEntry outside p cb)
      fun entries => .jsObject shape slots (.finalizationRegistry (some (entries, cb))) := by
  intro n original kept rest before visitingBefore structBefore
  obtain ⟨entry, engine, token, visiting, struct⟩ := finrecDeleteToken_visits there outside shape
    slots cb n original kept rest visitingBefore structBefore
  rw [Engine.finrecDeleteEntry, token]
  by_cases live : jsWeakrefIsLiveValue (outside n).targetLive engine.heap entry.target = true
  · refine ⟨some entry, engine, if_pos live, visiting, ?_⟩
    simpa using struct
  · let fields (entries : List FinRecEntry) : GcObject :=
      .jsObject shape slots (.finalizationRegistry (some (entries, cb)))
    have goes : stays engine.heap (entry.target, entry.heldVal) = false := visiting.goes live
    have refs : engine.heap.refsAt p = heldRefs (fields (kept ++ entry :: rest)) := by
      rw [Memory.refsAt, struct]
    have held : ∀ ref ∈ [cb, entry.heldVal].flatMap freeValue, ref ∈ engine.heap.refsAt p := by
      intro ref inside
      have cases : ref ∈ freeValue cb ∨ ref ∈ freeValue entry.heldVal := by simpa using inside
      simp only [refs, fields, heldRefs, finalizer, jsFinrecFinalizer, whenPresent, dropsSelf,
        Option.elim_some, Bool.false_eq_true, if_false, List.mem_append, List.mem_cons,
        List.mem_flatMap]
      exact .inr (.inr (cases.symm.imp_left fun value => ⟨entry, by simp, .inr value⟩))
    have queues : ∃ queued, (if (outside n).room then engine.jsEnqueueJob [cb, entry.heldVal]
        else engine) = queued ∧ Visiting needed overdrawn start queued ∧
        queued.heap.struct = engine.heap.struct ∧ queued.heap.gcObjList = engine.heap.gcObjList := by
      by_cases room : (outside n).room = true
      · exact ⟨_, if_pos room, visiting.enqueue there _ held⟩
      · exact ⟨_, if_neg room, visiting, rfl, rfl⟩
    obtain ⟨queued, enqueued, still, same, lists⟩ := queues
    have pruned : Pruned engine.heap (fields (kept ++ entry :: rest)) (fields (kept ++ rest)) := by
      refine ⟨rfl, ?_, ?_⟩
      · simp [fields, weakEntries]
      · simpa [fields, weakEntries, goes] using List.filter_sublist.append List.filter_sublist
    have exchanged : (heldRefs (fields (kept ++ entry :: rest)) : Multiset Ref) =
        heldRefs (fields (kept ++ rest)) + ((weakrefFree entry.target ++ weakrefFree entry.token ++
          freeValue entry.heldVal : List Ref) : Multiset Ref) := by
      simp only [fields, heldRefs, finalizer, jsFinrecFinalizer, whenPresent, dropsSelf,
        Option.elim_some, List.flatMap_append, List.flatMap_cons, Bool.false_eq_true, if_false,
        ← Multiset.coe_add, ← Multiset.cons_coe, ← Multiset.singleton_add]
      abel
    have ranks : ∀ ref ∈ weakrefFree entry.target ++ weakrefFree entry.token ++
        freeValue entry.heldVal, ref.rank = 0 := by
      intro ref inside
      rcases List.mem_append.mp inside with weak | value
      · exact (List.mem_append.mp weak).elim rank_weakrefFree rank_weakrefFree
      · exact rank_freeValue value
    obtain ⟨next, given, final, after⟩ := still.giveUp there ((congrFun same p).trans struct) _ ranks
      exchanged (pruned.mono (lists ▸ List.Subset.refl _)) rfl
    refine ⟨none, next, ?_, final, by simpa using after⟩
    rw [Option.bind_some, Engine.finrecDeleteTarget, if_neg live, enqueued]
    simpa [fields] using given

/-- A weak structure stays one. -/
theorem Thinned.isWeak {before after : Struct} (thinned : Thinned heap before after) :
    after.isWeak = before.isWeak := by
  have stable : ∀ obj, (withoutEntries obj).isWeak = obj.isWeak := by
    intro obj
    unfold withoutEntries
    split <;> rfl
  cases thinned with
  | live pruned => exact (stable _).symm.trans ((congrArg GcObject.isWeak pruned.same).trans (stable _))
  | freed type => rfl

/-- A weak structure is a weak map, a `WeakRef` or a finalization registry. -/
theorem isWeak_cases {struct : Struct} (weak : struct.isWeak = true) :
    (∃ shape slots records, struct = .live (.jsObject shape slots (.map (some ⟨true, records⟩)))) ∨
    (∃ shape slots target, struct = .live (.jsObject shape slots (.weakRef (some target)))) ∨
    ∃ shape slots entries cb,
      struct = .live (.jsObject shape slots (.finalizationRegistry (some (entries, cb)))) := by
  cases struct with
  | freed type => cases weak
  | live obj =>
    simp only [Struct.isWeak, GcObject.isWeak] at weak
    split at weak
    case h_1 shape slots state =>
      obtain ⟨isWeak, records⟩ := state
      obtain rfl : isWeak = true := weak
      exact .inl ⟨shape, slots, records, rfl⟩
    case h_2 shape slots target => exact .inr (.inl ⟨shape, slots, target, rfl⟩)
    case h_3 shape slots data => exact .inr (.inr ⟨shape, slots, data.1, data.2, rfl⟩)
    case h_4 => cases weak

/-- A weak structure is visited. -/
theorem deleteWeakrefs_visits {start engine : Engine} (there : start.heap.Linked p)
    (weak : (start.heap.struct p).isWeak = true) (outside : Nat → Outside)
    (visiting : Visiting needed overdrawn start engine) :
    ∃ next, engine.deleteWeakrefs outside p = some next ∧ Visiting needed overdrawn start next := by
  have still : (engine.heap.struct p).isWeak = true := (visiting.thinned p).isWeak.trans weak
  rcases isWeak_cases still with ⟨shape, slots, records, fields⟩ | ⟨shape, slots, target, fields⟩ |
    ⟨shape, slots, entries, cb, fields⟩
  · rw [Engine.deleteWeakrefs, fields]
    exact eachEntry_visits (mapDeleteRecord_visits there outside shape slots) visiting fields
  · rw [Engine.deleteWeakrefs, fields]
    exact weakrefDeleteWeakref_visits there (outside 0) shape slots target visiting fields
  · rw [Engine.deleteWeakrefs, fields]
    exact eachEntry_visits (finrecDeleteEntry_visits there outside shape slots cb) visiting fields

/-- All weak structures are visited.

Proof: induction on the list of them. -/
theorem weakrefList_visits {start engine : Engine} (weakrefList : List Ptr)
    (listed : ∀ p ∈ weakrefList, start.heap.Linked p ∧ (start.heap.struct p).isWeak = true)
    (outside : Ptr → Nat → Outside) (visiting : Visiting needed overdrawn start engine) :
    ∃ next, weakrefList.foldlM (fun (engine : Engine) p => engine.deleteWeakrefs (outside p) p)
      engine = some next ∧ Visiting needed overdrawn start next := by
  induction weakrefList generalizing engine with
  | nil => exact ⟨engine, rfl, visiting⟩
  | cons p rest inductionHypothesis =>
    obtain ⟨there, weak⟩ := listed p (by simp)
    obtain ⟨middle, visited, still⟩ := deleteWeakrefs_visits there weak (outside p) visiting
    obtain ⟨next, others, final⟩ := inductionHypothesis
      (fun q member => listed q (List.mem_cons_of_mem _ member)) still
    refine ⟨next, ?_, final⟩
    rw [List.foldlM_cons, visited]
    exact others

/-! ## The whole pass -/

/-- After the pass: the program and its jobs hold no less than before, and what is live has lost
nothing but entries whose target is a symbol or not live. -/
structure Cleared (engine : Engine) (overdrawn : Ptr → Nat) (next : Engine) (drawn : Ptr → Nat) :
    Prop where
  phase : next.heap.gcPhase = .none
  more : engine.roots ≤ next.roots
  allocated : next.heap.allocated ⊆ engine.heap.allocated
  gc : next.heap.gcObjList.Sublist engine.heap.gcObjList
  thinned : ∀ p ∈ next.heap.gcObjList, Thinned next.heap (engine.heap.struct p) (next.heap.struct p)
  paid : ∀ q, drawn q + (next.heap.struct q).debt = overdrawn q + (engine.heap.struct q).debt

/-- `gc_remove_weak_objects` returns and keeps the invariant. -/
theorem gcRemoveWeakObjects_returns {engine : Engine} {weakrefList : List Ptr}
    (inv : Inv needed engine.roots 0 overdrawn [] engine.heap) (idle : engine.heap.gcPhase = .none)
    (steady : Steady needed engine.roots engine.heap.toMemory)
    (listed : ∀ p ∈ weakrefList, p ∈ engine.heap.gcObjList ∧ (engine.heap.struct p).isWeak = true)
    (outside : Ptr → Nat → Outside) :
    ∃ next drawn, engine.gcRemoveWeakObjects weakrefList outside = some next ∧
      Inv needed next.roots 0 drawn [] next.heap ∧ Cleared engine overdrawn next drawn := by
  have quiet : engine.heap.gcPhase ≠ .removeCycles := by simp [idle]
  let entered : Engine := { engine with heap := { engine.heap with gcPhase := .decref } }
  have visiting : Visiting needed overdrawn entered entered := by
    refine ⟨⟨inv.balanced, inv.nodup, fun q => (inv.placed q).decref quiet, inv.supported, ?_⟩, rfl,
      steady, le_refl _, Finset.Subset.refl _, List.Sublist.refl _, fun _ => id, fun q => .refl _ _⟩
    intro removing
    cases removing
  have linked : ∀ p ∈ weakrefList,
      entered.heap.Linked p ∧ (entered.heap.struct p).isWeak = true :=
    fun p member => ⟨.inl (listed p member).1, (listed p member).2⟩
  obtain ⟨swept, visited, final⟩ := weakrefList_visits weakrefList linked outside visiting
  have again : ({ ({ swept.heap with gcPhase := .none } : Heap) with gcPhase := .decref } : Heap) =
      swept.heap := by
    rw [← final.phase]
  obtain ⟨after, drawn, freed, rests, settled⟩ := freeZeroRefcount_works needed swept.roots 0
    overdrawn [] { swept.heap with gcPhase := .none } rfl (by simp) (again ▸ final.inv)
  refine ⟨{ swept with heap := after }, drawn, ?_, rests, settled.phase, final.more,
    settled.allocated.trans final.allocated, settled.gc.trans final.gc, fun p gc => ?_, fun q => ?_⟩
  · rw [Engine.gcRemoveWeakObjects, visited, Option.bind_some, freed]
    rfl
  · obtain ⟨stored, live⟩ := (rests.live_iff settled.phase).mp gc
    change Thinned after _ (after.struct p)
    rw [settled.same p stored live]
    exact (final.thinned p).mono settled.gc.subset
  · exact (settled.paid q).trans (congrArg (overdrawn q + ·) (final.thinned q).debt)

/-- What the program can reach for good is still live, and the program can still reach it.

Proof: induction on the path. An entry on the path stays, since its target is on a path too. -/
theorem Secure.survives {engine next : Engine} {drawn : Ptr → Nat}
    (inv : Inv (Secure engine.roots engine.heap.toMemory) next.roots 0 drawn [] next.heap)
    (cleared : Cleared engine overdrawn next drawn)
    (secure : Secure engine.roots engine.heap.toMemory p) :
    p ∈ next.heap.gcObjList ∧ next.heap.Reachable next.roots p := by
  have listed : ∀ {q}, Secure engine.roots engine.heap.toMemory q → q ∈ next.heap.gcObjList :=
    fun secure => inv.needed_listed cleared.phase secure
  have thinner : ∀ {q obj}, Secure engine.roots engine.heap.toMemory q →
      engine.heap.struct q = .live obj →
      ∃ left, next.heap.struct q = .live left ∧ Pruned next.heap obj left := by
    intro q obj secure fields
    have thinned := cleared.thinned q (listed secure)
    rw [fields] at thinned
    generalize next.heap.struct q = after at thinned
    cases thinned with
    | live pruned => exact ⟨_, rfl, pruned⟩
  refine ⟨listed secure, ?_⟩
  induction secure with
  | root held =>
    obtain ⟨ref, root, hits⟩ := held
    exact .root (outside_pos.mpr ⟨ref, Multiset.mem_of_le cleared.more root, hits⟩)
  | field earlier fields inside hits reached =>
    obtain ⟨left, there, pruned⟩ := thinner earlier fields
    refine .step reached (mem_referred.mpr ⟨_, ?_, hits⟩)
    rw [Memory.refsAt, there]
    exact firm_held (pruned.same ▸ inside)
  | entry earlier fields inside alive hits reached _ =>
    obtain ⟨left, there, pruned⟩ := thinner earlier fields
    have stay := pruned.stay.subset (List.mem_filter.mpr ⟨inside, by simpa [stays] using listed alive⟩)
    obtain ⟨ref, held, strong⟩ := entry_held stay hits
    refine .step reached (mem_referred.mpr ⟨ref, ?_, strong⟩)
    rwa [Memory.refsAt, there]

end GoQuickjs.Gc
