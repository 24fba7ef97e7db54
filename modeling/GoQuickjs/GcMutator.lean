import GoQuickjs.GcCycles

/-!
# What the running program does to the heap

Between two calls that free something the program creates structures, takes more
references on what it can see, strong or weak, and moves references between its
hands and the fields of structures. Each of these keeps the invariant of the heap,
as long as the program only gives away references that it has, and does not lose
sight of a function of its own that runs.
-/

namespace GoQuickjs.Gc

open ReferenceCounts

/-- The reference that whoever creates a structure gets. -/
def GcObjType.reference : GcObjType → Ptr → Ref
  | .jsObject, p | .functionBytecode, p => .value p
  | .shape, p => .shape p
  | .varRef, p => .varRef p
  | .asyncFunction, p => .asyncFunction p
  | .jsContext, p => .context p

namespace Heap

/-- A structure is allocated with one reference, filled and given to `add_gc_object`. -/
def addGcObject (heap : Heap) (p : Ptr) (obj : GcObject) : Heap :=
  { heap with
    allocated := insert p heap.allocated
    struct := Function.update heap.struct p (.live obj)
    refCount := Function.update heap.refCount p 1
    weakrefCount := Function.update heap.weakrefCount p 0
    mark := Function.update heap.mark p false
    gcObjList := heap.gcObjList ++ [p] }

/-- `js_weakref_new` of an object. -/
def jsWeakrefNew (heap : Heap) (p : Ptr) : Heap :=
  { heap with weakrefCount := Function.update heap.weakrefCount p (heap.weakrefCount p + 1) }

/-- The fields of a structure are assigned. -/
def assign (heap : Heap) (p : Ptr) (obj : GcObject) : Heap :=
  { heap with struct := Function.update heap.struct p (.live obj) }

end Heap

theorem reference_strong (type : GcObjType) (p : Ptr) : (type.reference p).strong = some p := by
  cases type <;> rfl

theorem reference_fits (type : GcObjType) (p : Ptr) : (type.reference p).fits type = true := by
  cases type <;> rfl

variable {needed : Ptr → Prop} {held roots more : Multiset Ref} {overdrawn : Ptr → Nat} {heap : Heap} {p : Ptr} {ref : Ref}
  {obj : GcObject}

/-! ## The counts -/

namespace Balanced

/-- One more reference on a structure. -/
theorem increment (balanced : Balanced held overdrawn heap.toMemory) (counted : ref.strong = some p)
    (fits : heap.Fits ref) : Balanced (ref ::ₘ held) overdrawn (heap.increment p).toMemory where
  strong := by
    intro q member
    have before := balanced.strong q member
    rw [tally_cons]
    by_cases same : q = p
    · subst same
      have value : (heap.increment q).refCount q = heap.refCount q + 1 := Function.update_self ..
      rw [value, if_pos (by simp [strongly, counted])]
      push_cast
      change heap.refCount q + 1 + (overdrawn q : Int) =
        (tally (strongly q) held heap.allocated heap.refsAt : Int) + 1
      omega
    · have value : (heap.increment p).refCount q = heap.refCount q := Function.update_of_ne same ..
      rw [value, if_neg (by simp [strongly, counted, Ne.symm same])]
      exact before
  weak := by
    intro q member
    have miss : ¬ weakly q ref = true := by
      cases ref <;> simp_all [weakly, Ref.strong]
    rw [tally_cons, if_neg miss]
    exact balanced.weak q member
  heldFit := by
    intro other outside
    rcases Multiset.mem_cons.mp outside with rfl | before
    · exact fits
    · exact balanced.heldFit other before
  fieldsFit := balanced.fieldsFit

/-- One more weak reference on an object. -/
theorem weakrefNew (balanced : Balanced held overdrawn heap.toMemory) (fits : heap.Fits (.weak p)) :
    Balanced (.weak p ::ₘ held) overdrawn (heap.jsWeakrefNew p).toMemory where
  strong := by
    intro q member
    rw [tally_cons, if_neg (by simp [strongly, Ref.strong])]
    exact balanced.strong q member
  weak := by
    intro q member
    have before := balanced.weak q member
    rw [tally_cons]
    by_cases same : q = p
    · subst same
      have value : (heap.jsWeakrefNew q).weakrefCount q = heap.weakrefCount q + 1 :=
        Function.update_self ..
      rw [value, if_pos (by simp [weakly])]
      exact congrArg (· + 1) before
    · have value : (heap.jsWeakrefNew p).weakrefCount q = heap.weakrefCount q :=
        Function.update_of_ne same ..
      rw [value, if_neg (by simp [weakly, Ne.symm same])]
      exact before
  heldFit := by
    intro other outside
    rcases Multiset.mem_cons.mp outside with rfl | before
    · exact fits
    · exact balanced.heldFit other before
  fieldsFit := balanced.fieldsFit

theorem refsAt_assign : (heap.assign p obj).refsAt = Function.update heap.refsAt p (heldRefs obj) := by
  funext q
  by_cases same : q = p
  · subst same
    simp [Memory.refsAt, Heap.assign]
  · simp [Memory.refsAt, Heap.assign, Function.update_of_ne same]

/-- The fields of a structure are assigned: what they held and what the program had is what
they hold and what the program has. -/
theorem assign (balanced : Balanced roots overdrawn heap.toMemory) (member : p ∈ heap.allocated)
    (type : obj.gcObjType = (heap.struct p).gcObjType)
    (exchanged : (heap.refsAt p : Multiset Ref) + roots = heldRefs obj + held) :
    Balanced held overdrawn (heap.assign p obj).toMemory := by
  have moved : ∀ kind : Ref → Bool, tally kind held heap.allocated (heap.assign p obj).refsAt =
      tally kind roots heap.allocated heap.refsAt := by
    intro kind
    have stored : tally kind held heap.allocated (Function.update heap.refsAt p (heldRefs obj)) +
        (heap.refsAt p).countP kind =
        tally kind held heap.allocated heap.refsAt + (heldRefs obj).countP kind :=
      tally_store member (heldRefs obj)
    have sides := congrArg (fun all => tally kind all heap.allocated heap.refsAt) exchanged
    simp only [tally_add] at sides
    rw [refsAt_assign]
    omega
  have types : ∀ q, ((heap.assign p obj).struct q).gcObjType = (heap.struct q).gcObjType := by
    intro q
    by_cases same : q = p
    · subst same
      simpa [Heap.assign, Struct.gcObjType] using type
    · simp [Heap.assign, Function.update_of_ne same]
  have fits : ∀ other, heap.Fits other → (heap.assign p obj).Fits other := by
    intro other fit
    refine ⟨fit.1, ?_⟩
    rw [types]
    exact fit.2
  have known : ∀ other ∈ (heldRefs obj : Multiset Ref) + held, heap.Fits other := by
    intro other inside
    rcases Multiset.mem_add.mp (exchanged ▸ inside) with field | root
    · exact balanced.fieldsFit p member other (Multiset.mem_coe.mp field)
    · exact balanced.heldFit other root
  refine ⟨?_, ?_, ?_, ?_⟩
  · intro q there
    rw [show (heap.assign p obj).allocated = heap.allocated from rfl, moved]
    exact balanced.strong q there
  · intro q there
    rw [show (heap.assign p obj).allocated = heap.allocated from rfl, moved]
    exact balanced.weak q there
  · exact fun other outside => fits other (known other (Multiset.mem_add.mpr (.inr outside)))
  · intro q there other inside
    rw [refsAt_assign] at inside
    by_cases same : q = p
    · subst same
      rw [Function.update_self] at inside
      exact fits other (known other (Multiset.mem_add.mpr (.inl inside)))
    · rw [Function.update_of_ne same] at inside
      exact fits other (balanced.fieldsFit q there other inside)

/-- A new structure takes the references in its fields from whoever creates it. -/
theorem addGcObject (balanced : Balanced (heldRefs obj + held) overdrawn heap.toMemory)
    (fresh : p ∉ heap.allocated) :
    Balanced (obj.gcObjType.reference p ::ₘ held) (Function.update overdrawn p 0)
      (heap.addGcObject p obj).toMemory := by
  let after := heap.addGcObject p obj
  have refs : after.refsAt p = heldRefs obj := by
    simp [after, Memory.refsAt, Heap.addGcObject]
  have sameRefs : ∀ q ∈ heap.allocated, after.refsAt q = heap.refsAt q := by
    intro q there
    have other : q ≠ p := fun same => fresh (same ▸ there)
    simp [after, Memory.refsAt, Heap.addGcObject, Function.update_of_ne other]
  have moved : ∀ kind : Ref → Bool, tally kind held after.allocated after.refsAt =
      tally kind ((heldRefs obj : Multiset Ref) + held) heap.allocated heap.refsAt := by
    intro kind
    change tally kind held (insert p heap.allocated) after.refsAt = _
    rw [tally_insert fresh, refs, tally_congr sameRefs, tally_add, Nat.add_comm]
  have unknown : ∀ other, heap.Fits other → other.target ≠ p :=
    fun other fit same => fresh (same ▸ fit.1)
  have fits : ∀ other, heap.Fits other → after.Fits other := by
    intro other fit
    refine ⟨Finset.mem_insert_of_mem fit.1, ?_⟩
    change other.fits (Function.update heap.struct p (.live obj) other.target).gcObjType = true
    rw [Function.update_of_ne (unknown other fit)]
    exact fit.2
  have none : ∀ kind : Ref → Bool, (∀ other, kind other = true → other.target = p) →
      tally kind ((heldRefs obj : Multiset Ref) + held) heap.allocated heap.refsAt = 0 := by
    intro kind points
    have missed : ∀ other, heap.Fits other → kind other = false := by
      intro other fit
      by_contra hit
      exact unknown other fit (points other (by simpa using hit))
    refine tally_eq_zero_iff.mpr ⟨?_, ?_⟩
    · exact fun other outside => missed other (balanced.heldFit other outside)
    · exact fun q there other inside => missed other (balanced.fieldsFit q there other inside)
  have ownFits : after.Fits (obj.gcObjType.reference p) := by
    have target : (obj.gcObjType.reference p).target = p := strong_target (reference_strong _ p)
    refine ⟨?_, ?_⟩
    · rw [target]
      exact Finset.mem_insert_self ..
    rw [target]
    simp [after, Heap.addGcObject, Struct.gcObjType, reference_fits]
  have notWeak : ∀ q, ¬ weakly q (obj.gcObjType.reference p) = true := by
    intro q
    cases obj.gcObjType <;> simp [weakly, GcObjType.reference]
  refine ⟨?_, ?_, ?_, ?_⟩
  · intro q there
    rw [tally_cons, moved]
    by_cases same : q = p
    · subst same
      have empty := none (strongly q)
        (fun other hit => strong_target (by simpa [strongly] using hit))
      rw [empty, if_pos (by simp [strongly, reference_strong])]
      simp [Heap.addGcObject]
    · have before := balanced.strong q (Finset.mem_of_mem_insert_of_ne there same)
      rw [if_neg (by simp [strongly, reference_strong, Ne.symm same]), Nat.add_zero, ← before]
      simp [Heap.addGcObject, Function.update_of_ne same]
  · intro q there
    rw [tally_cons, moved, if_neg (notWeak q), Nat.add_zero]
    by_cases same : q = p
    · subst same
      have empty := none (weakly q) (fun other hit => by
        obtain rfl : other = .weak q := by simpa [weakly] using hit
        rfl)
      rw [empty]
      simp [Heap.addGcObject]
    · rw [← balanced.weak q (Finset.mem_of_mem_insert_of_ne there same)]
      simp [Heap.addGcObject, Function.update_of_ne same]
  · intro other outside
    rcases Multiset.mem_cons.mp outside with rfl | before
    · exact ownFits
    · exact fits other (balanced.heldFit other (Multiset.mem_add.mpr (.inr before)))
  · intro q there other inside
    by_cases same : q = p
    · subst same
      have field : other ∈ heldRefs obj := refs ▸ inside
      exact fits other (balanced.heldFit other (Multiset.mem_add.mpr (.inl field)))
    · have before := Finset.mem_of_mem_insert_of_ne there same
      exact fits other (balanced.fieldsFit q before other (sameRefs q before ▸ inside))

end Balanced

/-! ## Where the structures are -/

namespace Placed

variable {needed : Prop} {view : View}

/-- A live structure in `gc_obj_list`. -/
theorem resting (stored : view.allocated) (live : view.Live) (gc : view.inGc) (tmp : ¬ view.inTmp)
    (zero : ¬ view.inZero) (counted : 0 < view.refCount) (unmarked : view.mark = false)
    (runs : ∀ obj, view.struct = .live obj → obj.freeable = false → needed) :
    Placed needed 0 False view where
  linked_allocated _ := stored
  live_linked _ _ := .inl gc
  open_linked := False.elim
  open_inline := False.elim
  open_settled := False.elim
  counted _ _ := ⟨live, counted⟩
  unmarked _ := unmarked
  marked waits := absurd waits (not_or.mpr ⟨tmp, zero⟩)
  inline_counted _ _ _ := counted
  kept _ dead := absurd live dead
  spent _ drawn := absurd drawn (Nat.lt_irrefl 0)
  quiet _ := ⟨tmp, fun waits => absurd waits zero⟩
  idle _ := ⟨zero, False.elim⟩
  garbage _ waits := absurd waits tmp
  ordinary _ _ waits := absurd waits tmp
  swept _ waits := absurd waits zero
  runs _ := runs

end Placed

namespace Inv

/-- References pass between the program and those about to be dropped. -/
theorem handOver {pending given : Multiset Ref} {opened : List Ptr}
    (inv : Inv needed roots pending overdrawn opened heap) (idle : heap.gcPhase = .none)
    (same : given + more = pending + roots) (running : RunningReachable more heap) :
    Inv (heap.Reachable more) more given overdrawn opened heap := by
  have balanced : Balanced (given + more) overdrawn heap.toMemory := same ▸ inv.balanced
  exact ⟨balanced, inv.nodup, fun q => (inv.placed q).regard (running q),
    supported_reachable balanced, fun removing => by simp [idle] at removing⟩

/-- Every running function can be reached, by the invariant. -/
theorem runningReachable {pending : Multiset Ref} {opened : List Ptr}
    (inv : Inv (heap.Reachable roots) roots pending overdrawn opened heap) :
    RunningReachable roots heap :=
  fun q => (inv.placed q).runs

/-- A live structure outside of any phase. -/
theorem at_rest (inv : Inv needed roots 0 overdrawn [] heap) (idle : heap.gcPhase = .none)
    (gc : p ∈ heap.gcObjList) : p ∈ heap.allocated ∧ heap.Live p ∧ p ∉ heap.tmpObjList ∧
      p ∉ heap.gcZeroRefCountList ∧ 0 < heap.refCount p ∧ heap.mark p = false ∧ overdrawn p = 0 := by
  have placed := inv.placed p
  have quiet : heap.gcPhase ≠ .removeCycles := by simp [idle]
  have stored : p ∈ heap.allocated := placed.linked_allocated (.inl gc)
  obtain ⟨live, counted⟩ := placed.counted gc (by simp)
  refine ⟨stored, live, (placed.quiet quiet).1, (placed.idle idle).1, counted,
    placed.unmarked gc, ?_⟩
  by_contra drawn
  exact (placed.spent stored (Nat.pos_of_ne_zero drawn)).1 live

/-- One structure of `gc_obj_list` changes and is still live and counted. -/
theorem changes (inv : Inv needed roots 0 overdrawn [] heap) (idle : heap.gcPhase = .none)
    (gc : p ∈ heap.gcObjList) {after : Heap} (balanced : Balanced more overdrawn after.toMemory)
    (lists : after.gcObjList = heap.gcObjList ∧ after.tmpObjList = heap.tmpObjList ∧
      after.gcZeroRefCountList = heap.gcZeroRefCountList ∧ after.gcPhase = heap.gcPhase)
    (others : ∀ q, q ≠ p → after.view q = heap.view q) (stored : p ∈ after.allocated)
    (live : after.Live p) (counted : 0 < after.refCount p) (mark : after.mark p = heap.mark p)
    (running : RunningReachable more after) :
    Inv (after.Reachable more) more 0 overdrawn [] after := by
  obtain ⟨sameGc, sameTmp, sameZero, phase⟩ := lists
  obtain ⟨_, _, tmp, zero, _, unmarked, undrawn⟩ := inv.at_rest idle gc
  have rest : after.gcPhase = .none := phase.trans idle
  have spelled : Balanced (0 + more) overdrawn after.toMemory := by simpa using balanced
  refine ⟨spelled, ?_, ?_, supported_reachable spelled, fun removing => by simp [rest] at removing⟩
  · rw [sameGc, sameTmp, sameZero]
    exact inv.nodup
  · intro q
    have notOpen : q ∈ ([] : List Ptr) ↔ False := by simp
    by_cases same : q = p
    · subst same
      rw [notOpen, undrawn]
      refine Placed.resting stored live ?_ ?_ ?_ counted (mark.trans unmarked) (running q stored)
      · change q ∈ after.gcObjList
        rwa [sameGc]
      · change q ∉ after.tmpObjList
        rwa [sameTmp]
      · change q ∉ after.gcZeroRefCountList
        rwa [sameZero]
    · rw [others q same]
      refine (inv.placed q).regard ?_
      intro there obj fields
      have view := others q same
      simp only [Heap.view, View.mk.injEq, eq_iff_iff] at view
      exact running q (view.1.mpr there) obj (view.2.1.trans fields)

/-- A reference is taken on a live structure. -/
theorem dup (inv : Inv (heap.Reachable roots) roots 0 overdrawn [] heap)
    (idle : heap.gcPhase = .none)
    (gc : p ∈ heap.gcObjList) (counted : ref.strong = some p)
    (fits : ref.fits (heap.struct p).gcObjType = true) :
    Inv ((heap.increment p).Reachable (ref ::ₘ roots)) (ref ::ₘ roots) 0 overdrawn []
      (heap.increment p) := by
  obtain ⟨stored, live, _, _, positive, _, _⟩ := inv.at_rest idle gc
  have fit : heap.Fits ref := by
    refine ⟨strong_target counted ▸ stored, ?_⟩
    rw [strong_target counted]
    exact fits
  have balanced : Balanced roots overdrawn heap.toMemory := by simpa using inv.balanced
  refine inv.changes idle gc (balanced.increment counted fit) ⟨rfl, rfl, rfl, rfl⟩ ?_ stored live ?_
    rfl ?_
  · intro q other
    simp [Heap.view, Heap.increment, Function.update_of_ne other]
  · change 0 < Function.update heap.refCount p (heap.refCount p + 1) p
    rw [Function.update_self]
    omega
  · exact fun q there obj fields runs => (inv.runningReachable q there obj fields runs).grows ref

/-- A weak reference is taken on a live object. -/
theorem weakrefNew (inv : Inv (heap.Reachable roots) roots 0 overdrawn [] heap)
    (idle : heap.gcPhase = .none)
    (gc : p ∈ heap.gcObjList) (object : (heap.struct p).gcObjType = .jsObject) :
    Inv ((heap.jsWeakrefNew p).Reachable (.weak p ::ₘ roots)) (.weak p ::ₘ roots) 0 overdrawn []
      (heap.jsWeakrefNew p) := by
  obtain ⟨stored, live, _, _, positive, _, _⟩ := inv.at_rest idle gc
  have fit : heap.Fits (.weak p) := by
    refine ⟨stored, ?_⟩
    change (Ref.weak p).fits (heap.struct p).gcObjType = true
    rw [object]
    rfl
  have balanced : Balanced roots overdrawn heap.toMemory := by simpa using inv.balanced
  refine inv.changes idle gc (balanced.weakrefNew fit) ⟨rfl, rfl, rfl, rfl⟩ ?_ stored live positive
    rfl ?_
  · intro q other
    simp [Heap.view, Heap.jsWeakrefNew, Function.update_of_ne other]
  · exact fun q there obj fields runs =>
      (inv.runningReachable q there obj fields runs).grows (.weak p)

/-- The fields of a live structure are assigned. -/
theorem assign (inv : Inv needed roots 0 overdrawn [] heap) (idle : heap.gcPhase = .none)
    (gc : p ∈ heap.gcObjList) (type : obj.gcObjType = (heap.struct p).gcObjType)
    (exchanged : (heap.refsAt p : Multiset Ref) + roots = heldRefs obj + held)
    (running : RunningReachable held (heap.assign p obj)) :
    Inv ((heap.assign p obj).Reachable held) held 0 overdrawn [] (heap.assign p obj) := by
  obtain ⟨stored, _, _, _, positive, _, _⟩ := inv.at_rest idle gc
  have balanced : Balanced roots overdrawn heap.toMemory := by simpa using inv.balanced
  refine inv.changes idle gc (balanced.assign stored type exchanged) ⟨rfl, rfl, rfl, rfl⟩ ?_ stored ?_
    positive rfl running
  · intro q other
    simp [Heap.view, Heap.assign, Function.update_of_ne other]
  · exact ⟨obj, Function.update_self ..⟩

/-- What the program has created it can reach. -/
theorem reachable_created : (heap.addGcObject p obj).Reachable (obj.gcObjType.reference p ::ₘ held) p :=
  .root (outside_pos.mpr ⟨_, Multiset.mem_cons_self .., reference_strong _ p⟩)

/-- What the program could reach it can still reach once it gave references to a new
structure.

Proof: induction on the path; what was given away is reached by way of the structure. -/
theorem reachable_addGcObject (inv : Inv needed (heldRefs obj + held) 0 overdrawn [] heap)
    (fresh : p ∉ heap.allocated) {q : Ptr} (reached : heap.Reachable (heldRefs obj + held) q) :
    (heap.addGcObject p obj).Reachable (obj.gcObjType.reference p ::ₘ held) q := by
  induction reached with
  | root root =>
    obtain ⟨ref, given, hits⟩ := outside_pos.mp root
    rcases Multiset.mem_add.mp given with field | kept
    · refine .step reachable_created (mem_referred.mpr ⟨ref, ?_, hits⟩)
      simpa [Memory.refsAt, Heap.addGcObject] using field
    · exact .root (outside_pos.mpr ⟨ref, Multiset.mem_cons_of_mem kept, hits⟩)
  | @step q _ earlier refers inductionHypothesis =>
    have stored : q ∈ heap.allocated := Memory.Reachable.stored inv.balanced earlier
    have other : q ≠ p := fun same => fresh (same ▸ stored)
    refine .step inductionHypothesis ?_
    simpa [Memory.referred, Memory.refsAt, Heap.addGcObject, Function.update_of_ne other] using refers

/-- A structure is created from references that the program gives. -/
theorem addGcObject
    (inv : Inv (heap.Reachable (heldRefs obj + held)) (heldRefs obj + held) 0 overdrawn [] heap)
    (idle : heap.gcPhase = .none) (fresh : p ∉ heap.allocated) :
    Inv ((heap.addGcObject p obj).Reachable (obj.gcObjType.reference p ::ₘ held))
      (obj.gcObjType.reference p ::ₘ held) 0 (Function.update overdrawn p 0) []
      (heap.addGcObject p obj) := by
  have balanced : Balanced (heldRefs obj + held) overdrawn heap.toMemory := by
    simpa using inv.balanced
  have loose : ¬ (heap.view p).Linked := fun linked =>
    fresh ((inv.placed p).linked_allocated linked)
  have notGc : p ∉ heap.gcObjList := fun gc => loose (.inl gc)
  have notTmp : p ∉ heap.tmpObjList := fun tmp => loose (.inr (.inl tmp))
  have notZero : p ∉ heap.gcZeroRefCountList := fun zero => loose (.inr (.inr zero))
  have added : Balanced (0 + (obj.gcObjType.reference p ::ₘ held)) (Function.update overdrawn p 0)
      (heap.addGcObject p obj).toMemory := by
    simpa using balanced.addGcObject fresh
  refine ⟨added, ?_, ?_, supported_reachable added, fun removing => ?_⟩
  · change ((heap.gcObjList ++ [p]) ++ heap.tmpObjList ++ heap.gcZeroRefCountList).Nodup
    rw [List.append_assoc, List.append_assoc, List.singleton_append, List.nodup_middle,
      ← List.append_assoc]
    refine List.nodup_cons.mpr ⟨?_, inv.nodup⟩
    simp [notGc, notTmp, notZero]
  · intro q
    have notOpen : q ∈ ([] : List Ptr) ↔ False := by simp
    by_cases same : q = p
    · subst same
      rw [notOpen, Function.update_self]
      refine Placed.resting (Finset.mem_insert_self ..) ⟨obj, Function.update_self ..⟩ ?_ notTmp notZero
        ?_ (Function.update_self ..) fun _ _ _ => reachable_created
      · simp [Heap.view, Heap.addGcObject]
      · simp [Heap.view, Heap.addGcObject]
    · have view : (heap.addGcObject p obj).view q = heap.view q := by
        simp [Heap.view, Heap.addGcObject, same]
      rw [view, Function.update_of_ne same]
      refine (inv.placed q).regard fun there other fields runs => ?_
      exact inv.reachable_addGcObject fresh ((inv.placed q).runs there other fields runs)
  · have phase : heap.gcPhase = .removeCycles := removing
    rw [idle] at phase
    cases phase

end Inv

end GoQuickjs.Gc
