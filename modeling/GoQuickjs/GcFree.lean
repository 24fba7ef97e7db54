import GoQuickjs.GcMoves

/-!
# Freeing keeps the counts true

Every function that drops a reference, or frees a structure, returns and keeps the
invariant of the heap: no assertion fails, no memory is used after it was given back,
and the counts stay the number of references. This holds for each function on its
own; `free_zero_refcount` then works off its queue, every round of which frees one
live structure for good.
-/

namespace GoQuickjs.Gc

open ReferenceCounts

variable {needed : Ptr → Prop} {roots pending : Multiset Ref} {overdrawn : Ptr → Nat} {opened : List Ptr} {heap : Heap}
  {p : Ptr} {ref : Ref} {depth : Nat} {phase : GcPhase}

/-! ## What the functions promise -/

/-- The structure is a Go proxy that will drop a reference on itself, as a number. -/
def Struct.debt : Struct → Nat
  | .live obj => if obj.dropsSelf then 1 else 0
  | .freed _ => 0

/-- An operation that only frees leaves the rest alone, and overdraws a structure exactly when
it frees a Go proxy there. -/
structure Settled (before : Heap) (overdrawn : Ptr → Nat) (after : Heap) (drawn : Ptr → Nat) : Prop
    extends Kept before after where
  paid : ∀ q, drawn q + (after.struct q).debt = overdrawn q + (before.struct q).debt

/-- An operation that changes no fields frees no proxy. -/
theorem Kept.settled {before after : Heap} (kept : Kept before after)
    (same : after.struct = before.struct) (overdrawn : Ptr → Nat) :
    Settled before overdrawn after overdrawn :=
  ⟨kept, fun q => by rw [same]⟩

namespace Settled

variable {first second third : Heap} {none some more : Ptr → Nat}

/-- Nothing was done. -/
theorem refl (heap : Heap) (overdrawn : Ptr → Nat) : Settled heap overdrawn heap overdrawn :=
  (Kept.refl heap).settled rfl overdrawn

/-- One operation after another. -/
theorem trans (left : Settled first none second some) (right : Settled second some third more) :
    Settled first none third more :=
  ⟨left.toKept.trans right.toKept, fun q => (right.paid q).trans (left.paid q)⟩

end Settled

/-- The heap after an operation that drops references: it satisfies the invariant, nothing that
is left was changed, and Go proxies that were freed are overdrawn. -/
def Dropped (needed : Ptr → Prop) (roots pending : Multiset Ref) (overdrawn : Ptr → Nat) (opened : List Ptr)
    (before : Heap) (result : Option Heap) : Prop :=
  ∃ after drawn, result = some after ∧ Inv needed roots pending drawn opened after ∧
    Settled before overdrawn after drawn

/-- The function drops every reference up to a depth. -/
def Drops (depth : Nat) (phase : GcPhase) (free : Heap → Ref → Option Heap) : Prop :=
  ∀ needed roots pending overdrawn opened heap ref, heap.gcPhase = phase → ref.rank < depth →
    Inv needed roots (ref ::ₘ pending) overdrawn opened heap →
    Dropped needed roots pending overdrawn opened heap (free heap ref)

/-- The function works off the queue, outside of any phase. -/
def WorksOff (freeZeroRefcount : Heap → Option Heap) : Prop :=
  ∀ needed roots pending overdrawn opened (heap : Heap), heap.gcPhase = .none →
    (∀ q ∈ opened, (heap.struct q).gcObjType.inline = true) →
    Inv needed roots pending overdrawn opened { heap with gcPhase := .decref } →
    Dropped needed roots pending overdrawn opened heap (freeZeroRefcount heap)

/-- Dropping the references of a list one after the other. -/
theorem Drops.foldl {free : Heap → Ref → Option Heap} (drops : Drops depth phase free)
    (refs : List Ref) (shallow : ∀ ref ∈ refs, ref.rank < depth) (inPhase : heap.gcPhase = phase)
    (inv : Inv needed roots (refs + pending) overdrawn opened heap) :
    Dropped needed roots pending overdrawn opened heap (refs.foldlM free heap) := by
  induction refs generalizing heap overdrawn with
  | nil => exact ⟨heap, overdrawn, rfl, by simpa using inv, .refl heap overdrawn⟩
  | cons ref rest inductionHypothesis =>
    have spelled : ((ref :: rest : List Ref) : Multiset Ref) + pending = ref ::ₘ (rest + pending) := by
      rw [← Multiset.cons_coe, Multiset.cons_add]
    obtain ⟨middle, drawn, dropped, settled, kept⟩ :=
      drops needed roots _ overdrawn opened heap ref inPhase (shallow ref (by simp)) (spelled ▸ inv)
    obtain ⟨after, more, others, final, further⟩ :=
      inductionHypothesis (fun other member => shallow other (List.mem_cons_of_mem _ member))
        (kept.phase.trans inPhase) settled
    refine ⟨after, more, ?_, final, kept.trans further⟩
    rw [List.foldlM_cons, dropped]
    exact others

/-! ## References that are queued -/

/-- A structure in a list can be unlinked. -/
theorem listDel_linked (linked : heap.Linked p) : heap.listDel p = some (heap.unlink p) :=
  if_pos linked

/-- A value points to a structure that is queued. -/
theorem fits_value (fits : (Ref.value p).fits (heap.struct p).gcObjType = true) :
    (heap.struct p).gcObjType.inline = false := by
  cases type : (heap.struct p).gcObjType <;> simp_all [Ref.fits, GcObjType.inline]

/-- The last reference on a structure that is queued, in the phase the heap is in. -/
def Heap.requeued (heap : Heap) (p : Ptr) (mark : Ptr → Bool) : Heap :=
  { heap.awaiting p mark with gcPhase := heap.gcPhase }

theorem kept_requeued (heap : Heap) (p : Ptr) (mark : Ptr → Bool) :
    Kept heap (heap.requeued p mark) :=
  ⟨rfl, Finset.Subset.refl _, fun _ _ _ => rfl, fun _ => rfl, List.erase_sublist,
    List.erase_sublist⟩

/-- Once the last reference is dropped the structure waits in the queue, which is worked
off at once outside of any phase. -/
theorem requeued_drops {freeZeroRefcount : Heap → Option Heap}
    (works : heap.gcPhase = .none → WorksOff freeZeroRefcount)
    (inv : Inv needed roots (ref ::ₘ pending) overdrawn opened heap) (quiet : heap.gcPhase ≠ .removeCycles)
    {mark : Ptr → Bool} (waits : Inv needed roots pending overdrawn opened (heap.awaiting p mark)) :
    Dropped needed roots pending overdrawn opened heap
      (if heap.gcPhase = .none then freeZeroRefcount (heap.requeued p mark)
        else some (heap.requeued p mark)) := by
  by_cases idle : heap.gcPhase = .none
  · rw [if_pos idle]
    have inline : ∀ q ∈ opened, (heap.struct q).gcObjType.inline = true :=
      fun q isOpen => ((inv.placed q).idle idle).2 isOpen
    obtain ⟨after, drawn, returned, settled, kept⟩ :=
      works idle needed roots pending overdrawn opened (heap.requeued p mark) idle inline waits
    exact ⟨after, drawn, returned, settled,
      ((kept_requeued heap p mark).settled rfl overdrawn).trans kept⟩
  · rw [if_neg idle]
    have phase : heap.gcPhase = .decref := by
      cases kind : heap.gcPhase <;> simp_all
    have same : heap.requeued p mark = heap.awaiting p mark := by
      rw [Heap.requeued, phase]
      rfl
    exact ⟨_, overdrawn, rfl, same ▸ waits, (kept_requeued heap p mark).settled rfl overdrawn⟩

/-- A count that does not fall to zero, or falls while cycles are removed, only falls. -/
theorem decrement_drops (inv : Inv needed roots (ref ::ₘ pending) overdrawn opened heap)
    (counted : ref.strong = some p) (queued : (heap.struct p).gcObjType.inline = false)
    (notLast : ¬ (heap.refCount p = 1 ∧ heap.gcPhase ≠ .removeCycles)) :
    Dropped needed roots pending overdrawn opened heap (some (heap.decrement p)) := by
  obtain ⟨_, _, _, positive⟩ := inv.target counted
  have stays : 1 < heap.refCount p ∨ heap.gcPhase = .removeCycles ∧
      (heap.struct p).gcObjType.inline = false := by
    by_cases removing : heap.gcPhase = .removeCycles
    · exact .inr ⟨removing, queued⟩
    · have notOne : heap.refCount p ≠ 1 := fun one => notLast ⟨one, removing⟩
      exact .inl (by omega)
  exact ⟨heap.decrement p, overdrawn, rfl, inv.decrement counted stays,
    (kept_decrement heap p).settled rfl overdrawn⟩

/-- The count after it fell. -/
theorem decrement_refCount : (heap.decrement p).refCount p = heap.refCount p - 1 :=
  Function.update_self ..

/-- `JS_FreeValueRT` drops a reference. -/
theorem freeValueRT_drops {freeZeroRefcount : Heap → Option Heap}
    (works : heap.gcPhase = .none → WorksOff freeZeroRefcount)
    (inv : Inv needed roots (.value p ::ₘ pending) overdrawn opened heap) :
    Dropped needed roots pending overdrawn opened heap (freeValueRT freeZeroRefcount heap p) := by
  obtain ⟨member, fits, _, positive⟩ := inv.target (p := p) rfl
  have queued := fits_value fits
  have reached : (heap.decrement p).refCount p ≤ 0 ↔ heap.refCount p = 1 := by
    rw [decrement_refCount]
    omega
  rw [freeValueRT, if_pos member]
  simp only [reached, ne_eq]
  by_cases last : heap.refCount p = 1 ∧ ¬ heap.gcPhase = .removeCycles
  · obtain ⟨_, inGc, _⟩ := inv.target_quiet (p := p) rfl last.2
    have linked : (heap.decrement p).Linked p := .inl inGc
    have waits := inv.queue (p := p) rfl last.2 last.1 queued (Function.update heap.mark p true)
      (fun q other => Function.update_of_ne other ..) (fun _ => Function.update_self ..)
    have dropped := requeued_drops works inv last.2 waits
    refine Eq.mp (congrArg (Dropped needed roots pending overdrawn opened heap) ?_) dropped
    refine Eq.trans ?_ (if_pos last).symm
    rw [Heap.queueZero, listDel_linked linked]
    rfl
  · refine Eq.mp (congrArg (Dropped needed roots pending overdrawn opened heap) (if_neg last).symm) ?_
    exact decrement_drops inv rfl queued last

/-- `async_func_free` drops a reference. -/
theorem asyncFuncFree_drops {freeZeroRefcount : Heap → Option Heap}
    (works : heap.gcPhase = .none → WorksOff freeZeroRefcount)
    (inv : Inv needed roots (.asyncFunction p ::ₘ pending) overdrawn opened heap) :
    Dropped needed roots pending overdrawn opened heap (asyncFuncFree freeZeroRefcount heap p) := by
  obtain ⟨member, fits, _, positive⟩ := inv.target (p := p) rfl
  have type : (heap.struct p).gcObjType = .asyncFunction := by
    cases kind : (heap.struct p).gcObjType <;> simp_all [Ref.fits]
  have queued : (heap.struct p).gcObjType.inline = false := by
    rw [type]
    rfl
  have reached : (heap.decrement p).refCount p = 0 ↔ heap.refCount p = 1 := by
    rw [decrement_refCount]
    omega
  rw [asyncFuncFree, if_pos member]
  simp only [reached, ne_eq]
  by_cases last : heap.refCount p = 1 ∧ ¬ heap.gcPhase = .removeCycles
  · obtain ⟨_, inGc, _⟩ := inv.target_quiet (p := p) rfl last.2
    have linked : (heap.decrement p).Linked p := .inl inGc
    have notObject : (heap.struct p).gcObjType = .jsObject → heap.mark p = true := by
      intro object
      rw [type] at object
      cases object
    have waits := inv.queue (p := p) rfl last.2 last.1 queued heap.mark (fun _ _ => rfl) notObject
    have dropped := requeued_drops works inv last.2 waits
    refine Eq.mp (congrArg (Dropped needed roots pending overdrawn opened heap) ?_) dropped
    refine Eq.trans ?_ (if_pos last).symm
    rw [Heap.queueZero, listDel_linked linked]
    rfl
  · refine Eq.mp (congrArg (Dropped needed roots pending overdrawn opened heap) (if_neg last).symm) ?_
    exact decrement_drops inv rfl queued last

/-! ## Structures that are freed -/

/-- How deep the references of a structure can be, at most. -/
def GcObjType.rank : GcObjType → Nat
  | .shape | .varRef => 1
  | .jsContext => 2
  | .jsObject | .functionBytecode | .asyncFunction => 3

/-- No reference is deeper than one to a context. -/
theorem rank_lt (ref : Ref) : ref.rank < 3 := by
  cases ref <;> simp [Ref.rank]

/-- A value is queued, so that nothing is called below it. -/
theorem rank_freeValue {value : Value} (member : ref ∈ freeValue value) : ref.rank = 0 := by
  cases value <;> simp_all [freeValue, Ref.rank]

/-- A module holds variable references and values. -/
theorem rank_freeModuleDef {moduleDef : ModuleDef} (member : ref ∈ freeModuleDef moduleDef) :
    ref.rank ≤ 1 := by
  simp only [freeModuleDef, List.mem_append, List.mem_flatMap, List.mem_map] at member
  rcases member with ⟨_, _, p, _, rfl⟩ | ⟨value, _, inside⟩
  · exact Nat.le_refl 1
  · rw [rank_freeValue inside]
    exact Nat.zero_le 1

/-- A shape or a variable reference only holds references that are queued, a context
none on a context. -/
theorem rank_heldRefs {obj : GcObject} (member : ref ∈ heldRefs obj) :
    ref.rank < obj.gcObjType.rank := by
  cases obj with
  | jsObject | functionBytecode | asyncFunction => exact rank_lt ref
  | detachedVarRef value =>
    have inside : ref ∈ freeValue value := member
    simp [rank_freeValue inside, GcObject.gcObjType, GcObjType.rank]
  | stackVarRef asyncFunc =>
    simp only [heldRefs, freedRefs, Option.getD_some, List.mem_map] at member
    obtain ⟨p, _, rfl⟩ := member
    simp [Ref.rank, GcObject.gcObjType, GcObjType.rank]
  | shape proto =>
    simp only [heldRefs, freedRefs, Option.getD_some, List.mem_map] at member
    obtain ⟨p, _, rfl⟩ := member
    simp [Ref.rank, GcObject.gcObjType, GcObjType.rank]
  | jsContext ctx =>
    simp only [heldRefs, freedRefs, Option.getD_some, List.mem_append, List.mem_flatMap,
      List.mem_map] at member
    rcases member with (⟨moduleDef, _, inside⟩ | ⟨value, _, inside⟩) | ⟨p, _, rfl⟩
    · exact Nat.lt_succ_of_le (rank_freeModuleDef inside)
    · simp [rank_freeValue inside, GcObject.gcObjType, GcObjType.rank]
    · simp [Ref.rank, GcObject.gcObjType, GcObjType.rank]

/-- The reference a Go proxy drops on itself, when it has no other left. -/
theorem freeValueRT_overdraws (freeZeroRefcount : Heap → Option Heap)
    (inv : Inv needed roots pending overdrawn (p :: opened) heap) (inPhase : heap.gcPhase = .decref) :
    freeValueRT freeZeroRefcount heap p =
      some (heap.awaiting p (Function.update heap.mark p true)) := by
  have placed := inv.placed p
  have quiet : heap.gcPhase ≠ .removeCycles := by simp [inPhase]
  obtain ⟨linked, _⟩ := placed.open_linked (by simp)
  have settled : heap.refCount p + (overdrawn p : Int) = 0 := placed.open_settled (by simp) (.inl quiet)
  have below : (heap.decrement p).refCount p ≤ 0 := by
    rw [decrement_refCount]
    omega
  have again : (heap.decrement p).Linked p := linked
  have member : p ∈ heap.allocated := placed.linked_allocated linked
  rw [freeValueRT, if_pos member]
  refine (if_pos ⟨below, quiet⟩).trans ?_
  rw [Heap.queueZero, listDel_linked again]
  simp only [Option.map_some, Option.bind_some]
  refine (if_neg (by simp [Heap.unlink, Heap.decrement, inPhase])).trans ?_
  simp [Heap.awaiting, Heap.unlink, Heap.decrement, inPhase]

/-- A freed structure owes nothing. -/
theorem debt_setFreed_self : ((heap.setFreed p).struct p).debt = 0 := by
  simp [Heap.setFreed, Struct.debt]

/-- The other structures owe what they did. -/
theorem debt_setFreed {q : Ptr} (other : q ≠ p) :
    ((heap.setFreed p).struct q).debt = (heap.struct q).debt := by
  simp [Heap.setFreed, Function.update_of_ne other]

/-- The fields of an open structure are freed and it is unlinked; it stays open, with
what is left of it settled by the caller. A Go proxy drops one more reference on
itself, which is only possible while queued structures are freed. -/
theorem freeFields_drops {free : Heap → Ref → Option Heap} (drops : Drops depth phase free)
    (inPhase : heap.gcPhase = phase) {obj : GcObject} (there : heap.struct p = .live obj)
    (freeable : obj.freeable = true) (shallow : obj.gcObjType.rank ≤ depth)
    (inv : Inv needed roots (heap.refsAt p + pending) overdrawn (p :: opened) (heap.setFreed p))
    (self : obj.dropsSelf = true → phase = .decref ∧ obj.gcObjType.inline = false ∧
      ∃ freeZeroRefcount, ∀ heap, free heap (.value p) = freeValueRT freeZeroRefcount heap p) :
    ∃ after drawn, freeFields free heap p = some (after.unlink p) ∧
      Inv needed roots pending drawn (p :: opened) after ∧ Settled heap overdrawn after drawn := by
  obtain ⟨refs, freed⟩ := freedRefs_of_freeable freeable p
  have held : heap.refsAt p = heldRefs obj := by simp [Memory.refsAt, there]
  rw [held] at inv
  have ranks : ∀ ref ∈ heldRefs obj, ref.rank < depth :=
    fun ref member => Nat.lt_of_lt_of_le (rank_heldRefs member) shallow
  obtain ⟨middle, drawn, dropped, settled, kept⟩ :=
    drops.foldl (heldRefs obj) ranks (kept_setFreed heap p |>.phase.trans inPhase) inv
  have spelled : freeFields free heap p =
      (refs.foldlM free (heap.setFreed p)).bind fun heap => heap.listDel p := by
    simp [freeFields, there, freed]
  rw [spelled, freedRefs_eq freed]
  by_cases drawsSelf : obj.dropsSelf = true
  · obtain ⟨isDecref, queued, freeZeroRefcount, frees⟩ := self drawsSelf
    have middlePhase : middle.gcPhase = .decref := (kept.phase.trans inPhase).trans isDecref
    have type : (middle.struct p).gcObjType.inline = false := by
      rw [kept.types, Balanced.type_setFreed, there]
      exact queued
    have selfDrop : [Ref.value p].foldlM free middle =
        some (middle.awaiting p (Function.update middle.mark p true)) := by
      simp [frees, freeValueRT_overdraws freeZeroRefcount settled middlePhase]
    refine ⟨_, _, ?_, settled.overdraw middlePhase type, ?_⟩
    · rw [if_pos drawsSelf, List.foldlM_append, dropped]
      refine (congrArg (Option.bind · fun heap => heap.listDel p) selfDrop).trans ?_
      exact listDel_linked (.inr (.inr (List.mem_cons_self ..)))
    · have same := kept_awaiting middle p (Function.update middle.mark p true)
      rw [← middlePhase] at same
      refine ⟨((kept_setFreed heap p).trans kept.toKept).trans same, fun q => ?_⟩
      have before := kept.paid q
      change Function.update drawn p (drawn p + 1) q + (middle.struct q).debt = _
      by_cases here : q = p
      · subst here
        rw [debt_setFreed_self] at before
        rw [Function.update_self, there, Struct.debt, if_pos drawsSelf]
        omega
      · rw [debt_setFreed here] at before
        rw [Function.update_of_ne here]
        exact before
  · have linked := ((settled.placed p).open_linked (by simp)).1
    have freely : ∀ q, ((heap.setFreed p).struct q).debt = (heap.struct q).debt := by
      intro q
      by_cases here : q = p
      · subst here
        rw [debt_setFreed_self, there, Struct.debt, if_neg drawsSelf]
      · exact debt_setFreed here
    refine ⟨middle, drawn, ?_, settled, (kept_setFreed heap p).trans kept.toKept,
      fun q => (freely q) ▸ kept.paid q⟩
    simp only [drawsSelf, Bool.false_eq_true, if_false, List.append_nil]
    rw [dropped]
    exact listDel_linked linked

/-- The last reference on a structure that is freed on the spot frees it. -/
theorem inline_drops {free : Heap → Ref → Option Heap} (drops : Drops depth phase free)
    (inPhase : heap.gcPhase = phase) (inv : Inv needed roots (ref ::ₘ pending) overdrawn opened heap)
    (counted : ref.strong = some p) (last : heap.refCount p = 1)
    (inline : (heap.struct p).gcObjType.inline = true)
    (shallow : (heap.struct p).gcObjType.rank ≤ depth) :
    Dropped needed roots pending overdrawn opened heap ((freeFields free (heap.decrement p) p).map (·.release p)) := by
  obtain ⟨⟨obj, there⟩, closed⟩ := inv.target_inline counted inline
  have type : obj.gcObjType.inline = true := by
    rw [there] at inline
    exact inline
  have freeable : obj.freeable = true := by
    cases obj <;> simp_all [GcObject.gcObjType, GcObjType.inline, GcObject.freeable]
  have ordinary : obj.dropsSelf = false := by
    cases obj <;> simp_all [GcObject.gcObjType, GcObjType.inline, GcObject.dropsSelf]
  have opens := inv.open_inline counted last inline
  obtain ⟨middle, drawn, freed, settled, kept⟩ :=
    freeFields_drops drops ((kept_decrement heap p).phase.trans inPhase) there freeable
      (by rw [there] at shallow; exact shallow) opens (by rw [ordinary]; simp)
  have stillInline : (middle.struct p).gcObjType.inline = true := by
    rw [kept.types]
    exact inline
  have member : p ∈ middle.allocated :=
    (settled.placed p).linked_allocated ((settled.placed p).open_linked (by simp)).1
  have notObject : (middle.struct p).gcObjType ≠ .jsObject := by
    intro object
    rw [object] at stillInline
    cases stillInline
  have empty : middle.refCount p + (drawn p : Int) = 0 :=
    (settled.placed p).open_settled (by simp) (.inr stillInline)
  refine ⟨(middle.unlink p).release p, drawn, ?_, ?_, ?_⟩
  · rw [freed]
    rfl
  · exact settled.close_release closed empty (settled.weakless member notObject)
  · have freeing := (kept_unlink middle p).trans (kept_release _ p)
    exact (((kept_decrement heap p).settled rfl overdrawn).trans kept).trans
      (freeing.settled rfl drawn)

/-- One reference less of several. -/
theorem several_drops (inv : Inv needed roots (ref ::ₘ pending) overdrawn opened heap)
    (counted : ref.strong = some p) (several : 1 < heap.refCount p) :
    Dropped needed roots pending overdrawn opened heap (some (heap.decrement p)) :=
  ⟨heap.decrement p, overdrawn, rfl, inv.decrement counted (.inl several),
    (kept_decrement heap p).settled rfl overdrawn⟩

/-- `free_var_ref` drops a reference. -/
theorem freeVarRef_drops {free : Heap → Ref → Option Heap} (drops : Drops depth phase free)
    (inPhase : heap.gcPhase = phase) (deep : 1 ≤ depth)
    (inv : Inv needed roots (.varRef p ::ₘ pending) overdrawn opened heap) :
    Dropped needed roots pending overdrawn opened heap (freeVarRef free heap p) := by
  obtain ⟨member, fits, _, positive⟩ := inv.target (p := p) rfl
  have type : (heap.struct p).gcObjType = .varRef := by
    cases kind : (heap.struct p).gcObjType <;> simp_all [Ref.fits]
  rw [freeVarRef, if_pos ⟨member, positive⟩]
  simp only [decrement_refCount]
  by_cases last : heap.refCount p = 1
  · rw [if_pos (by omega)]
    exact inline_drops drops inPhase inv rfl last (by rw [type]; rfl) (by rw [type]; exact deep)
  · rw [if_neg (by omega)]
    exact several_drops inv rfl (by omega)

/-- `js_free_shape` drops a reference. -/
theorem jsFreeShape_drops {free : Heap → Ref → Option Heap} (drops : Drops depth phase free)
    (inPhase : heap.gcPhase = phase) (deep : 1 ≤ depth)
    (inv : Inv needed roots (.shape p ::ₘ pending) overdrawn opened heap) :
    Dropped needed roots pending overdrawn opened heap (jsFreeShape free heap p) := by
  obtain ⟨member, fits, _, positive⟩ := inv.target (p := p) rfl
  have type : (heap.struct p).gcObjType = .shape := by
    cases kind : (heap.struct p).gcObjType <;> simp_all [Ref.fits]
  rw [jsFreeShape, if_pos member]
  simp only [decrement_refCount]
  by_cases last : heap.refCount p = 1
  · rw [if_pos (by omega), if_pos (by omega)]
    exact inline_drops drops inPhase inv rfl last (by rw [type]; rfl) (by rw [type]; exact deep)
  · rw [if_neg (by omega)]
    exact several_drops inv rfl (by omega)

/-- `JS_FreeContext` drops a reference. -/
theorem jsFreeContext_drops {free : Heap → Ref → Option Heap} (drops : Drops depth phase free)
    (inPhase : heap.gcPhase = phase) (deep : 2 ≤ depth)
    (inv : Inv needed roots (.context p ::ₘ pending) overdrawn opened heap) :
    Dropped needed roots pending overdrawn opened heap (jsFreeContext free heap p) := by
  obtain ⟨member, fits, _, positive⟩ := inv.target (p := p) rfl
  have type : (heap.struct p).gcObjType = .jsContext := by
    cases kind : (heap.struct p).gcObjType <;> simp_all [Ref.fits]
  rw [jsFreeContext, if_pos member]
  simp only [decrement_refCount]
  by_cases last : heap.refCount p = 1
  · rw [if_neg (by omega), if_pos (by omega)]
    exact inline_drops drops inPhase inv rfl last (by rw [type]; rfl) (by rw [type]; exact deep)
  · rw [if_pos (by omega)]
    exact several_drops inv rfl (by omega)

/-- Every reference is dropped by its own function.

Proof: induction on the depth; a function that frees on the spot calls others only for
references of lower rank. -/
theorem freeRef_drops {freeZeroRefcount : Heap → Option Heap}
    (works : phase = .none → WorksOff freeZeroRefcount) (depth : Nat) :
    Drops depth phase (freeRef freeZeroRefcount depth) := by
  induction depth with
  | zero =>
    intro _ _ _ _ _ _ ref _ shallow
    exact absurd shallow (Nat.not_lt_zero _)
  | succ depth inductionHypothesis =>
    intro needed roots pending overdrawn opened heap ref inPhase shallow inv
    cases ref with
    | value p => exact freeValueRT_drops (fun idle => works (inPhase.symm.trans idle)) inv
    | asyncFunction p => exact asyncFuncFree_drops (fun idle => works (inPhase.symm.trans idle)) inv
    | weak p =>
      obtain ⟨after, dropped, settled, kept, same⟩ := inv.weaken
      exact ⟨after, overdrawn, dropped, settled, kept.settled same overdrawn⟩
    | varRef p =>
      exact freeVarRef_drops inductionHypothesis inPhase (Nat.lt_of_succ_lt_succ shallow) inv
    | shape p =>
      exact jsFreeShape_drops inductionHypothesis inPhase (Nat.lt_of_succ_lt_succ shallow) inv
    | context p =>
      exact jsFreeContext_drops inductionHypothesis inPhase (Nat.lt_of_succ_lt_succ shallow) inv

/-! ## Working off the queue -/

/-- An open structure whose count is zero was not overdrawn. -/
theorem settled_zero (inv : Inv needed roots pending overdrawn (p :: opened) heap)
    (zero : heap.refCount p = 0) : heap.refCount p + (overdrawn p : Int) = 0 := by
  have placed := inv.placed p
  have member : p ∈ heap.allocated := placed.linked_allocated (placed.open_linked (by simp)).1
  rcases Nat.eq_zero_or_pos (overdrawn p) with none | drawn
  · rw [zero, none]
    rfl
  · exact (placed.spent member drawn).2

/-- A structure that waits is freed: it is not live any more, and it has left the list it
waited in, unless it is kept while cycles are removed. -/
theorem freeGcObject_frees {free : Heap → Ref → Option Heap} (drops : Drops freeDepth phase free)
    (values : ∃ freeZeroRefcount, ∀ heap p, free heap (.value p) = freeValueRT freeZeroRefcount heap p)
    (inPhase : heap.gcPhase = phase) (active : phase ≠ .none)
    (inv : Inv needed roots pending overdrawn opened heap)
    (waiting : p ∈ heap.tmpObjList ∨ p ∈ heap.gcZeroRefCountList) (closed : p ∉ opened)
    {obj : GcObject} (there : heap.struct p = .live obj) (queued : obj.gcObjType.inline = false)
    (freeable : obj.freeable = true) (self : obj.dropsSelf = true → phase = .decref) :
    ∃ after drawn, freeGcObject free heap p = some after ∧ Inv needed roots pending drawn opened after ∧
      Settled heap overdrawn after drawn ∧ ¬ after.Live p ∧ p ∉ after.tmpObjList := by
  have type : (heap.struct p).gcObjType = obj.gcObjType := by rw [there]; rfl
  have opens := inv.open_waiting waiting closed ⟨obj, there⟩ (inPhase ▸ active) (type ▸ queued)
  have shallow : obj.gcObjType.rank ≤ freeDepth := by
    cases obj.gcObjType <;> decide
  obtain ⟨freeZeroRefcount, frees⟩ := values
  obtain ⟨middle, drawn, freed, settled, kept⟩ :=
    freeFields_drops drops inPhase there freeable shallow opens
      (fun drawsSelf => ⟨self drawsSelf, queued, freeZeroRefcount, fun heap => frees heap p⟩)
  have placed := settled.placed p
  obtain ⟨linked, dead⟩ := placed.open_linked (by simp)
  have member : p ∈ middle.allocated := placed.linked_allocated linked
  have middleType : (middle.struct p).gcObjType = obj.gcObjType := (kept.types p).trans type
  have middlePhase : (middle.unlink p).gcPhase = phase := kept.phase.trans inPhase
  have quietly : phase ≠ .removeCycles → middle.refCount p + (drawn p : Int) = 0 :=
    fun quiet => placed.open_settled (by simp) (.inl fun same => quiet (middlePhase.symm.trans same))
  have notTmp : p ∉ (middle.unlink p).tmpObjList := fun tmp => settled.unlinked (.inr (.inl tmp))
  have unlinked := kept.trans ((kept_unlink middle p).settled rfl drawn)
  have released := unlinked.trans ((kept_release _ p).settled rfl drawn)
  have keptAt : ∀ mark zero, Settled heap overdrawn { middle.unlink p with
      mark := mark, gcZeroRefCountList := zero } drawn := fun mark zero =>
    unlinked.trans ((Kept.relisted mark zero).settled rfl drawn)
  by_cases object : obj.gcObjType = .jsObject
  · have spelled : freeGcObject free heap p = freeObject free heap p := by
      simp [freeGcObject, type, object]
    rw [spelled, freeObject, freed]
    simp only [Option.map_some]
    by_cases removing : phase = .removeCycles
    · rw [if_pos (middlePhase.trans removing)]
      by_cases unused : (middle.unlink p).refCount p = 0 ∧ (middle.unlink p).weakrefCount p = 0
      · rw [if_pos unused]
        exact ⟨_, drawn, rfl, settled.close_release closed (settled_zero settled unused.1) unused.2,
          released, dead, notTmp⟩
      · rw [if_neg unused]
        exact ⟨_, drawn, rfl, settled.close_keep closed (middlePhase.trans removing)
          (middleType ▸ queued), keptAt _ _, dead, notTmp⟩
    · rw [if_neg (fun same => removing (middlePhase.symm.trans same))]
      by_cases unused : (middle.unlink p).weakrefCount p = 0
      · rw [if_pos unused]
        exact ⟨_, drawn, rfl, settled.close_release closed (quietly removing) unused,
          released, dead, notTmp⟩
      · rw [if_neg unused]
        exact ⟨_, drawn, rfl, settled.close_zombie closed (quietly removing) unused
          (middleType.trans object), keptAt _ _, dead, notTmp⟩
  · have notObject : (middle.struct p).gcObjType ≠ .jsObject := by
      rw [middleType]
      exact object
    have noWeak := settled.weakless member notObject
    have spelled : freeGcObject free heap p = freeKeeping free heap p := by
      cases kind : obj.gcObjType <;>
        simp_all [freeGcObject, GcObjType.inline, freeFunctionBytecode, asyncFuncFreeNow]
    rw [spelled, freeKeeping, freed]
    simp only [Option.map_some]
    by_cases kept' : (middle.unlink p).gcPhase = .removeCycles ∧ (middle.unlink p).refCount p ≠ 0
    · rw [if_pos kept']
      exact ⟨_, drawn, rfl, settled.close_keep closed kept'.1 (middleType ▸ queued), keptAt _ _,
        dead, notTmp⟩
    · rw [if_neg kept']
      have empty : middle.refCount p + (drawn p : Int) = 0 := by
        by_cases removing : phase = .removeCycles
        · by_cases zero : middle.refCount p = 0
          · exact settled_zero settled zero
          · exact absurd ⟨middlePhase.trans removing, zero⟩ kept'
        · exact quietly removing
      exact ⟨_, drawn, rfl, settled.close_release closed empty noWeak, released, dead, notTmp⟩

/-- A structure is live, decided. -/
def Struct.isLive : Struct → Bool
  | .live _ => true
  | .freed _ => false

/-- The live structures. -/
def Heap.living (heap : Heap) : Finset Ptr :=
  heap.allocated.filter fun p => (heap.struct p).isLive

/-- The live structures, as a condition. -/
theorem mem_living : p ∈ heap.living ↔ p ∈ heap.allocated ∧ heap.Live p := by
  rw [Heap.living, Finset.mem_filter, Memory.Live]
  cases heap.struct p <;> simp [Struct.isLive]

/-- An operation that only frees makes nothing live. -/
theorem living_subset {after : Heap} (kept : Kept heap after) : after.living ⊆ heap.living := by
  intro q member
  obtain ⟨stored, live⟩ := mem_living.mp member
  exact mem_living.mpr ⟨kept.allocated stored, kept.live stored live⟩

/-- Freeing one more structure leaves fewer live ones. -/
theorem living_lt {after : Heap} (kept : Kept heap after) (member : p ∈ heap.allocated)
    (live : heap.Live p) (dead : ¬ after.Live p) : after.living.card < heap.living.card := by
  refine Finset.card_lt_card ((Finset.ssubset_iff_of_subset (living_subset kept)).mpr ?_)
  exact ⟨p, mem_living.mpr ⟨member, live⟩, fun there => dead (mem_living.mp there).2⟩

/-- What waits in the queue is live, has no reference left and can be freed. -/
theorem waits (inv : Inv needed roots pending overdrawn opened heap) (inPhase : heap.gcPhase = .decref)
    (inline : ∀ q ∈ opened, (heap.struct q).gcObjType.inline = true)
    (member : p ∈ heap.gcZeroRefCountList) :
    p ∉ opened ∧ p ∈ heap.allocated ∧ heap.refCount p = 0 ∧ ∃ obj, heap.struct p = .live obj ∧
      obj.gcObjType.inline = false ∧ obj.freeable = true := by
  have quiet : heap.gcPhase ≠ .removeCycles := by simp [inPhase]
  have placed := inv.placed p
  obtain ⟨queued, rest⟩ := (placed.quiet quiet).2 member
  have closed : p ∉ opened := by
    intro isOpen
    have spot : (heap.view p).type.inline = true := inline p isOpen
    rw [queued] at spot
    cases spot
  obtain ⟨⟨obj, there⟩, zero⟩ := rest closed
  have stored : p ∈ heap.allocated := placed.linked_allocated (.inr (.inr member))
  have none : overdrawn p = 0 := by
    by_contra drawn
    exact (placed.spent stored (Nat.pos_of_ne_zero drawn)).1 ⟨obj, there⟩
  have sameType : (heap.view p).type = obj.gcObjType := by
    change (heap.struct p).gcObjType = obj.gcObjType
    rw [show heap.struct p = .live obj from there]
    rfl
  refine ⟨closed, stored, zero, obj, there, sameType ▸ queued, ?_⟩
  by_contra running
  have use := placed.runs stored obj there (by simpa using running)
  have positive := inv.supported.counted inv.balanced use
  have empty : heap.refCount p = 0 := zero
  omega

/-- One round of the loop takes the structure at the front. -/
theorem freeZeroLoop_cons (rounds : Nat) {rest : List Ptr}
    (queue : heap.gcZeroRefCountList = p :: rest) : freeZeroLoop (rounds + 1) heap =
      if p ∈ heap.allocated ∧ heap.refCount p = 0 then
        (freeGcObject (freeRef (fun _ => none) freeDepth) heap p).bind (freeZeroLoop rounds)
      else none := by
  rw [freeZeroLoop.eq_def]
  simp only
  rw [queue]

/-- The loop of `free_zero_refcount` empties the queue.

Proof: induction on the rounds; each frees the structure at the front, which leaves
fewer live ones. -/
theorem freeZeroLoop_empties (rounds : Nat) (enough : heap.living.card ≤ rounds)
    (inPhase : heap.gcPhase = .decref)
    (inline : ∀ q ∈ opened, (heap.struct q).gcObjType.inline = true)
    (inv : Inv needed roots pending overdrawn opened heap) :
    ∃ after drawn, freeZeroLoop rounds heap = some after ∧ Inv needed roots pending drawn opened after ∧
      Settled heap overdrawn after drawn ∧ after.gcZeroRefCountList = [] := by
  induction rounds generalizing heap overdrawn with
  | zero =>
    cases queue : heap.gcZeroRefCountList with
    | nil =>
      refine ⟨heap, overdrawn, ?_, inv, .refl heap overdrawn, queue⟩
      simp [freeZeroLoop, queue]
    | cons p rest =>
      obtain ⟨_, stored, _, obj, there, _⟩ := waits inv inPhase inline (p := p) (by simp [queue])
      have living : p ∈ heap.living := mem_living.mpr ⟨stored, obj, there⟩
      have positive := Finset.card_pos.mpr ⟨p, living⟩
      omega
  | succ rounds inductionHypothesis =>
    cases queue : heap.gcZeroRefCountList with
    | nil =>
      refine ⟨heap, overdrawn, ?_, inv, .refl heap overdrawn, queue⟩
      simp [freeZeroLoop, queue]
    | cons p rest =>
      have member : p ∈ heap.gcZeroRefCountList := by simp [queue]
      obtain ⟨closed, stored, zero, obj, there, queued, freeable⟩ := waits inv inPhase inline member
      have drops : Drops freeDepth .decref (freeRef (fun _ => none) freeDepth) :=
        freeRef_drops (fun idle => by cases idle) freeDepth
      obtain ⟨middle, drawn, freed, settled, kept, dead, _⟩ :=
        freeGcObject_frees drops ⟨fun _ => none, fun _ _ => rfl⟩ inPhase (by simp) inv (.inr member) closed there
          queued freeable (fun _ => rfl)
      have fewer := living_lt kept.toKept stored ⟨obj, there⟩ dead
      obtain ⟨after, more, others, final, further, empty⟩ :=
        inductionHypothesis (by omega) (kept.phase.trans inPhase)
          (fun q isOpen => (congrArg GcObjType.inline (kept.types q)).trans (inline q isOpen)) settled
      refine ⟨after, more, ?_, final, kept.trans further, empty⟩
      rw [freeZeroLoop_cons rounds queue, if_pos ⟨stored, zero⟩, freed]
      exact others

/-- `free_zero_refcount` works off the queue. -/
theorem freeZeroRefcount_works : WorksOff freeZeroRefcount := by
  intro needed roots pending overdrawn opened heap idle inline inv
  have enough : ({ heap with gcPhase := .decref } : Heap).living.card ≤ heap.allocated.card :=
    Finset.card_filter_le _ _
  obtain ⟨after, drawn, looped, settled, kept, empty⟩ :=
    freeZeroLoop_empties heap.allocated.card enough rfl inline inv
  have quiet : after.gcPhase ≠ .removeCycles := by simp [kept.phase]
  refine ⟨{ after with gcPhase := .none }, drawn, ?_, ?_, ?_⟩
  · rw [freeZeroRefcount, looped]
    rfl
  · refine ⟨settled.balanced, settled.nodup, ?_, settled.supported, fun removing => by cases removing⟩
    intro p
    refine (settled.placed p).idles quiet ?_ ?_
    · simp [Heap.view, empty]
    · intro isOpen
      exact (congrArg GcObjType.inline (kept.types p)).trans (inline p isOpen)
  · exact ⟨⟨idle.symm, kept.allocated, kept.same, kept.types, kept.tmp, kept.gc⟩, kept.paid⟩

/-- Dropping a reference from outside of any phase returns and keeps the invariant. -/
theorem jsFree_drops (idle : heap.gcPhase = .none)
    (inv : Inv needed roots (ref ::ₘ pending) overdrawn opened heap) :
    Dropped needed roots pending overdrawn opened heap (jsFree heap ref) :=
  freeRef_drops (fun _ => freeZeroRefcount_works) freeDepth needed roots pending overdrawn opened heap ref
    idle (rank_lt ref) inv

end GoQuickjs.Gc
