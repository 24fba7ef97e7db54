import GoQuickjs.GcPlaces

/-!
# Moves of the heap

What the functions that drop a reference or free a structure are made of, one change
of one structure at a time: a count falls, a structure is queued, it is opened and
its references are about to be dropped, its memory is given back or kept. Each move
keeps the invariant of the heap, and says what it needs for that.
-/

namespace GoQuickjs.Gc

open ReferenceCounts

/-- What an operation that only frees leaves alone: the live structures that are left
are as they were. -/
structure Kept (before after : Heap) : Prop where
  phase : after.gcPhase = before.gcPhase
  allocated : after.allocated ⊆ before.allocated
  same : ∀ p ∈ after.allocated, after.Live p → after.struct p = before.struct p
  types : ∀ p, (after.struct p).gcObjType = (before.struct p).gcObjType
  tmp : after.tmpObjList.Sublist before.tmpObjList
  gc : after.gcObjList.Sublist before.gcObjList

namespace Kept

variable {first second third : Heap}

/-- Nothing is changed by a step that does not happen. -/
theorem refl (heap : Heap) : Kept heap heap :=
  ⟨rfl, Finset.Subset.refl _, fun _ _ _ => rfl, fun _ => rfl, List.Sublist.refl _,
    List.Sublist.refl _⟩

/-- Marks and `gc_zero_ref_count_list` do not matter. -/
theorem relisted (mark : Ptr → Bool) (zero : List Ptr) :
    Kept first { first with mark := mark, gcZeroRefCountList := zero } :=
  ⟨rfl, Finset.Subset.refl _, fun _ _ _ => rfl, fun _ => rfl, List.Sublist.refl _,
    List.Sublist.refl _⟩

/-- What two steps keep, both together keep. -/
theorem trans (left : Kept first second) (right : Kept second third) : Kept first third where
  phase := right.phase.trans left.phase
  allocated := right.allocated.trans left.allocated
  same := by
    intro p stored live
    have middle := right.same p stored live
    have alive : second.Live p := by
      obtain ⟨obj, there⟩ := live
      exact ⟨obj, middle.symm.trans there⟩
    exact middle.trans (left.same p (right.allocated stored) alive)
  types p := (right.types p).trans (left.types p)
  tmp := right.tmp.trans left.tmp
  gc := right.gc.trans left.gc

/-- A structure that is live afterwards was live before. -/
theorem live (kept : Kept first second) {p : Ptr} (stored : p ∈ second.allocated)
    (alive : second.Live p) : first.Live p := by
  obtain ⟨obj, there⟩ := alive
  exact ⟨obj, (kept.same p stored ⟨obj, there⟩).symm.trans there⟩

end Kept

/-- Taking one off a count keeps what the others rely on. -/
theorem kept_decrement (heap : Heap) (p : Ptr) : Kept heap (heap.decrement p) :=
  ⟨rfl, Finset.Subset.refl _, fun _ _ _ => rfl, fun _ => rfl, List.Sublist.refl _,
    List.Sublist.refl _⟩

/-- So does taking a structure off its list. -/
theorem kept_unlink (heap : Heap) (p : Ptr) : Kept heap (heap.unlink p) :=
  ⟨rfl, Finset.Subset.refl _, fun _ _ _ => rfl, fun _ => rfl, List.erase_sublist,
    List.erase_sublist⟩

/-- And giving its memory back. -/
theorem kept_release (heap : Heap) (p : Ptr) : Kept heap (heap.release p) :=
  ⟨rfl, Finset.erase_subset _ _, fun _ _ _ => rfl, fun _ => rfl, List.Sublist.refl _,
    List.Sublist.refl _⟩

/-- And leaving a structure in memory with its fields given up. -/
theorem kept_setFreed (heap : Heap) (p : Ptr) : Kept heap (heap.setFreed p) := by
  refine ⟨rfl, Finset.Subset.refl _, ?_, Balanced.type_setFreed, List.Sublist.refl _,
    List.Sublist.refl _⟩
  intro q _ live
  have other : q ≠ p := by
    rintro rfl
    simp [Memory.Live, Heap.setFreed] at live
  exact Function.update_of_ne other ..

/-- The heap once the last reference on a queued structure was dropped, in the phase in
which queued structures are freed. -/
def Heap.awaiting (heap : Heap) (p : Ptr) (mark : Ptr → Bool) : Heap :=
  { (heap.decrement p).unlink p with
    gcZeroRefCountList := p :: ((heap.decrement p).unlink p).gcZeroRefCountList
    mark := mark
    gcPhase := .decref }

/-- Queueing one structure leaves every other where it was, in phase `DECREF`. -/
theorem view_awaiting {heap : Heap} {p q : Ptr} {mark : Ptr → Bool} (other : q ≠ p)
    (kept : mark q = heap.mark q) :
    (heap.awaiting p mark).view q = { heap.view q with gcPhase := .decref } := by
  simp [Heap.awaiting, Heap.view, Heap.unlink, Heap.decrement, kept, List.mem_erase_of_ne other, other]

/-- A structure that is moved to the queue stands on no list twice. -/
theorem nodup_awaiting {heap : Heap} {p : Ptr} {mark : Ptr → Bool}
    (nodup : (heap.gcObjList ++ heap.tmpObjList ++ heap.gcZeroRefCountList).Nodup) :
    ((heap.awaiting p mark).gcObjList ++ (heap.awaiting p mark).tmpObjList ++
      (heap.awaiting p mark).gcZeroRefCountList).Nodup := by
  have same : ((heap.decrement p).gcObjList ++ (heap.decrement p).tmpObjList ++
      (heap.decrement p).gcZeroRefCountList).Nodup := nodup
  have absent := not_mem_unlink (p := p) same
  have unlinked := nodup_unlink (p := p) same
  change (_ ++ p :: ((heap.decrement p).unlink p).gcZeroRefCountList).Nodup
  rw [List.nodup_middle]
  exact List.nodup_cons.mpr ⟨absent, unlinked⟩

/-- Queueing a structure keeps what the others rely on. -/
theorem kept_awaiting (heap : Heap) (p : Ptr) (mark : Ptr → Bool) :
    Kept { heap with gcPhase := .decref } (heap.awaiting p mark) :=
  ⟨rfl, Finset.Subset.refl _, fun _ _ _ => rfl, fun _ => rfl, List.erase_sublist,
    List.erase_sublist⟩

namespace Inv

variable {needed : Ptr → Prop} {roots pending : Multiset Ref} {overdrawn : Ptr → Nat} {opened : List Ptr} {heap : Heap}
  {p : Ptr} {ref : Ref}

/-! ## One structure changes -/

/-- A count falls, and the structure stays where it is. -/
theorem decrement (inv : Inv needed roots (ref ::ₘ pending) overdrawn opened heap)
    (counted : ref.strong = some p)
    (stays : 1 < heap.refCount p ∨
      heap.gcPhase = .removeCycles ∧ (heap.struct p).gcObjType.inline = false) :
    Inv needed roots pending overdrawn opened (heap.decrement p) := by
  obtain ⟨member, _, none, positive⟩ := inv.target counted
  have placed := inv.placed p
  have value : ((heap.decrement p).view p).refCount = heap.refCount p - 1 := Function.update_self ..
  have survives : p ∈ heap.gcObjList → 1 < heap.refCount p := by
    intro inGc
    rcases stays with many | ⟨removing, _⟩
    · exact many
    · exact inv.target_anchored counted removing inGc
  refine ⟨?_, inv.nodup, ?_, inv.supported, ?_⟩
  · have spelled : ref ::ₘ pending + roots = ref ::ₘ (pending + roots) := Multiset.cons_add ..
    exact (spelled ▸ inv.balanced).decrement counted
  · intro q
    by_cases other : q = p
    · subst other
      have settled : q ∈ opened → (heap.view q).Quiet ∨ (heap.view q).type.inline = true → False := by
        intro isOpen cases
        have zero := placed.open_settled isOpen cases
        simp only [Heap.view, none] at zero
        omega
      exact {
        linked_allocated := placed.linked_allocated
        live_linked := placed.live_linked
        open_linked := placed.open_linked
        open_inline := placed.open_inline
        open_settled := fun isOpen cases => (settled isOpen cases).elim
        counted := by
          intro inGc closed
          have many := survives inGc
          rw [value]
          exact ⟨(placed.counted inGc closed).1, by omega⟩
        unmarked := placed.unmarked
        marked := placed.marked
        inline_counted := by
          intro stored live inline
          rw [value]
          rcases stays with many | ⟨_, queued⟩
          · omega
          · exact absurd inline (by simpa [Heap.view, View.type, Heap.decrement] using queued)
        kept := by
          intro stored dead unlinked
          have zero := (placed.kept stored dead unlinked).2.1
          simp only [Heap.view, none] at zero
          omega
        spent := by
          intro _ drawn
          omega
        quiet := by
          intro quiet
          refine ⟨(placed.quiet quiet).1, fun zero => ⟨((placed.quiet quiet).2 zero).1, ?_⟩⟩
          intro closed
          have waiting := (((placed.quiet quiet).2 zero).2 closed).2
          simp only [Heap.view] at waiting
          omega
        idle := placed.idle
        garbage := placed.garbage
        ordinary := placed.ordinary
        swept := placed.swept
        runs := placed.runs }
    · rw [view_decrement other]
      exact inv.placed q
  · exact fun removing => ⟨(inv.apart removing).anchored, (inv.apart removing).unrooted,
      (inv.apart removing).unreferred, (inv.apart removing).unneeded⟩

/-- What is held outside, with one reference moved in front. -/
theorem balanced_cons (inv : Inv needed roots (ref ::ₘ pending) overdrawn opened heap) :
    Balanced (ref ::ₘ (pending + roots)) overdrawn heap.toMemory := by
  have spelled : ref ::ₘ pending + roots = ref ::ₘ (pending + roots) := Multiset.cons_add ..
  exact spelled ▸ inv.balanced

/-- The last reference on a structure that is queued: it waits to be freed, in the
phase `JS_GC_PHASE_DECREF`. -/
theorem queue (inv : Inv needed roots (ref ::ₘ pending) overdrawn opened heap)
    (counted : ref.strong = some p) (quiet : heap.gcPhase ≠ .removeCycles)
    (last : heap.refCount p = 1) (queued : (heap.struct p).gcObjType.inline = false)
    (mark : Ptr → Bool) (others : ∀ q, q ≠ p → mark q = heap.mark q)
    (marked : (heap.struct p).gcObjType = .jsObject → mark p = true) :
    Inv needed roots pending overdrawn opened (heap.awaiting p mark) := by
  obtain ⟨member, _, none, positive⟩ := inv.target counted
  obtain ⟨live, inGc, closed⟩ := inv.target_quiet counted quiet
  have placed := inv.placed p
  have nodup : ((heap.decrement p).gcObjList ++ (heap.decrement p).tmpObjList ++
      (heap.decrement p).gcZeroRefCountList).Nodup := inv.nodup
  have absent := not_mem_unlink (p := p) nodup
  simp only [List.mem_append, not_or] at absent
  refine ⟨inv.balanced_cons.decrement counted, nodup_awaiting inv.nodup, ?_, inv.supported, ?_⟩
  · intro q
    by_cases other : q = p
    · subst other
      have notGc : ¬ q ∈ ((heap.decrement q).unlink q).gcObjList := absent.1.1
      have notTmp : ¬ q ∈ ((heap.decrement q).unlink q).tmpObjList := absent.1.2
      have zero : ((heap.decrement q).unlink q).refCount q = 0 := by
        simp [Heap.unlink, Heap.decrement, last]
      exact {
        linked_allocated := fun _ => member
        live_linked := fun _ _ => .inr (.inr (List.mem_cons_self ..))
        open_linked := fun isOpen => absurd isOpen closed
        open_inline := fun isOpen => absurd isOpen closed
        open_settled := fun isOpen => absurd isOpen closed
        counted := fun gc => absurd gc notGc
        unmarked := fun gc => absurd gc notGc
        marked := fun _ => marked
        inline_counted := by
          intro _ _ inline
          have same : (heap.struct q).gcObjType.inline = true := inline
          rw [queued] at same
          cases same
        kept := fun _ dead => absurd live dead
        spent := by
          intro _ drawn
          omega
        quiet := fun _ => ⟨notTmp, fun _ => ⟨queued, fun _ => ⟨live, zero⟩⟩⟩
        idle := by
          intro idle
          cases idle
        garbage := fun removing => absurd (by intro same; cases same) removing
        ordinary := fun removing => absurd (by intro same; cases same) removing
        swept := fun removing => absurd (by intro same; cases same) removing
        runs := placed.runs }
    · rw [view_awaiting other (others q other)]
      exact (inv.placed q).decref quiet
  · intro removing
    cases removing

/-- A structure is opened: its references are about to be dropped. -/
theorem opens (balanced : Balanced (pending + roots) overdrawn heap.toMemory)
    (supported : Supported needed roots heap.toMemory) (unneeded : ¬ needed p)
    (nodup : (heap.gcObjList ++ heap.tmpObjList ++ heap.gcZeroRefCountList).Nodup)
    (others : ∀ q, q ≠ p → Placed (needed q) (overdrawn q) (q ∈ opened) (heap.view q))
    (self : Placed (needed p) (overdrawn p) True ((heap.setFreed p).view p))
    (apart : heap.gcPhase = .removeCycles → p ∉ heap.gcObjList ∧ Apart needed roots heap)
    (member : p ∈ heap.allocated) :
    Inv needed roots (heap.refsAt p + pending) overdrawn (p :: opened) (heap.setFreed p) := by
  refine ⟨?_, nodup, ?_, supported.setFreed unneeded, ?_⟩
  · rw [add_assoc]
    exact balanced.setFreed member
  · intro q
    by_cases other : q = p
    · subst other
      simpa using self
    · rw [view_setFreed other]
      simpa [other] using others q other
  · intro removing
    obtain ⟨absent, separate⟩ := apart removing
    have sameRefs : ∀ q ∈ heap.gcObjList, (heap.setFreed p).refsAt q = heap.refsAt q := by
      intro q there
      have other : q ≠ p := fun same => absent (same ▸ there)
      rw [Balanced.refsAt_setFreed, Function.update_of_ne other]
    refine ⟨fun q there => ?_, separate.unrooted, fun q waits holder held ref inside => ?_,
      separate.unneeded⟩
    · rcases separate.anchored q there with rooted | ⟨holder, held, ref, inside, hits⟩
      · exact .inl rooted
      · exact .inr ⟨holder, held, ref, by rwa [sameRefs holder held], hits⟩
    · exact separate.unreferred q waits holder held ref (sameRefs holder held ▸ inside)

/-- A structure whose fields are given up is live no more. -/
theorem dead_setFreed : ¬ ((heap.setFreed p).view p).Live := by
  simp [View.Live, Heap.view, Heap.setFreed]

/-- It keeps its type. -/
theorem type_setFreed : ((heap.setFreed p).view p).type = (heap.struct p).gcObjType :=
  Balanced.type_setFreed p

/-- The last reference on a structure that is freed on the spot. -/
theorem open_inline (inv : Inv needed roots (ref ::ₘ pending) overdrawn opened heap)
    (counted : ref.strong = some p) (last : heap.refCount p = 1)
    (inline : (heap.struct p).gcObjType.inline = true) :
    Inv needed roots (heap.refsAt p + pending) overdrawn (p :: opened)
      ((heap.decrement p).setFreed p) := by
  obtain ⟨member, _, none, _⟩ := inv.target counted
  obtain ⟨live, closed⟩ := inv.target_inline counted inline
  have placed := inv.placed p
  have type : (((heap.decrement p).setFreed p).view p).type = (heap.struct p).gcObjType :=
    type_setFreed
  have zero : (heap.decrement p).refCount p = 0 := by simp [Heap.decrement, last]
  have notObject : (((heap.decrement p).setFreed p).view p).type ≠ .jsObject := by
    intro object
    rw [type] at object
    rw [object] at inline
    cases inline
  have balanced : Balanced (pending + roots) overdrawn (heap.decrement p).toMemory :=
    inv.balanced_cons.decrement counted
  have supported : Supported needed roots (heap.decrement p).toMemory := inv.supported
  have unneeded : ¬ needed p := by
    intro use
    have positive := supported.counted balanced use
    rw [zero, none] at positive
    exact absurd positive (by decide)
  refine opens balanced supported unneeded inv.nodup ?_ ?_ ?_ member
  · intro q other
    rw [view_decrement other]
    exact inv.placed q
  · refine Placed.opened member dead_setFreed (placed.live_linked member live) ?_ ?_ ?_ ?_ ?_
    · exact fun gc => ⟨type ▸ inline, placed.unmarked gc⟩
    · intro _
      change (heap.decrement p).refCount p + (overdrawn p : Int) = 0
      rw [zero, none]
      rfl
    · exact fun _ object => absurd object notObject
    · intro quiet
      refine ⟨(placed.quiet quiet).1, fun waiting => ?_⟩
      have queued := ((placed.quiet quiet).2 waiting).1
      exact absurd inline (by simpa [Heap.view, View.type] using queued)
    · exact fun idle => ⟨(placed.idle idle).1, type ▸ inline⟩
  · intro removing
    have separate := inv.apart removing
    refine ⟨fun survives => ?_, separate.anchored, separate.unrooted, separate.unreferred,
      separate.unneeded⟩
    have many := inv.target_anchored counted removing survives
    omega

/-- A structure that waits to be freed is freed. -/
theorem open_waiting (inv : Inv needed roots pending overdrawn opened heap)
    (waiting : p ∈ heap.tmpObjList ∨ p ∈ heap.gcZeroRefCountList) (closed : p ∉ opened)
    (live : heap.Live p) (phase : heap.gcPhase ≠ .none)
    (queued : (heap.struct p).gcObjType.inline = false) :
    Inv needed roots (heap.refsAt p + pending) overdrawn (p :: opened) (heap.setFreed p) := by
  have placed := inv.placed p
  have linked : (heap.view p).Linked := .inr waiting
  have member : p ∈ heap.allocated := placed.linked_allocated linked
  have none : overdrawn p = 0 := by
    by_contra drawn
    exact (placed.spent member (Nat.pos_of_ne_zero drawn)).1 live
  have notGc : p ∉ heap.gcObjList := by
    intro inGc
    obtain ⟨both, _, apart⟩ := List.nodup_append.mp inv.nodup
    rcases waiting with tmp | zero
    · exact (List.nodup_append.mp both).2.2 p inGc p tmp rfl
    · exact apart p (List.mem_append_left _ inGc) p zero rfl
  have type : ((heap.setFreed p).view p).type = (heap.struct p).gcObjType := type_setFreed
  have unneeded : ¬ needed p := by
    intro use
    have positive := inv.supported.counted inv.balanced use
    by_cases removing : heap.gcPhase = .removeCycles
    · exact (inv.apart removing).unneeded p waiting use
    · have zero := (placed.quiet removing).2 (waiting.resolve_left (placed.quiet removing).1)
      have settled : heap.refCount p = 0 := (zero.2 closed).2
      omega
  refine opens inv.balanced inv.supported unneeded inv.nodup (fun q _ => inv.placed q) ?_ ?_ member
  · refine Placed.opened member dead_setFreed linked (fun gc => absurd gc notGc) ?_ ?_ ?_ ?_
    · rintro (quiet | inline | drawn)
      · rcases waiting with tmp | zero
        · exact absurd tmp (placed.quiet quiet).1
        · have settled := (((placed.quiet quiet).2 zero).2 closed).2
          change heap.refCount p + (overdrawn p : Int) = 0
          simp only [Heap.view] at settled
          omega
      · rw [type, queued] at inline
        cases inline
      · omega
    · intro there object
      exact placed.marked there (type.symm.trans object)
    · intro quiet
      exact ⟨(placed.quiet quiet).1, fun _ => type ▸ queued⟩
    · exact fun idle => absurd idle phase
  · exact fun removing => ⟨notGc, inv.apart removing⟩

/-- A structure that was open is taken out of its list; what is left of it is settled. -/
theorem closes (inv : Inv needed roots pending overdrawn (p :: opened) heap) (closed : p ∉ opened)
    {after : Heap} (memory : Balanced (pending + roots) overdrawn after.toMemory)
    (nodup : (after.gcObjList ++ after.tmpObjList ++ after.gcZeroRefCountList).Nodup)
    (others : ∀ q, q ≠ p → after.view q = heap.view q)
    (self : Placed (needed p) (overdrawn p) False (after.view p))
    (gone : p ∉ after.gcObjList)
    (waited : p ∈ after.tmpObjList ∨ p ∈ after.gcZeroRefCountList →
      p ∈ heap.tmpObjList ∨ p ∈ heap.gcZeroRefCountList)
    (phase : after.gcPhase = heap.gcPhase) :
    Inv needed roots pending overdrawn opened after := by
  have lists : ∀ q, q ≠ p → (q ∈ after.gcObjList ↔ q ∈ heap.gcObjList) ∧
      (q ∈ after.tmpObjList ↔ q ∈ heap.tmpObjList) ∧
      (q ∈ after.gcZeroRefCountList ↔ q ∈ heap.gcZeroRefCountList) ∧
      after.refsAt q = heap.refsAt q := by
    intro q other
    have same := others q other
    simp only [Heap.view, View.mk.injEq, eq_iff_iff] at same
    refine ⟨same.2.2.2.2.2.1, same.2.2.2.2.2.2.1, same.2.2.2.2.2.2.2.1, ?_⟩
    simp [Memory.refsAt, same.2.1]
  have stays : ∀ q, q ∈ after.gcObjList → q ∈ heap.gcObjList ∧ after.refsAt q = heap.refsAt q := by
    intro q there
    have other : q ≠ p := fun same => gone (same ▸ there)
    exact ⟨(lists q other).1.mp there, (lists q other).2.2.2⟩
  have waits : ∀ q, q ∈ after.tmpObjList ∨ q ∈ after.gcZeroRefCountList →
      q ∈ heap.tmpObjList ∨ q ∈ heap.gcZeroRefCountList := by
    intro q there
    by_cases other : q = p
    · subst other
      exact waited there
    · exact there.imp (lists q other).2.1.mp (lists q other).2.2.1.mp
  have alive : ∀ holder, ∀ ref ∈ heap.refsAt holder, holder ≠ p := by
    rintro holder ref inside rfl
    have dead := ((inv.placed holder).open_linked (by simp)).2
    cases fields : heap.struct holder with
    | live obj => exact dead ⟨obj, fields⟩
    | freed type => simp [Memory.refsAt, fields] at inside
  refine ⟨memory, nodup, ?_, ?_, ?_⟩
  · intro q
    by_cases other : q = p
    · subst other
      simpa [closed] using self
    · rw [others q other]
      simpa [other] using inv.placed q
  · intro other use
    refine (inv.supported other use).imp_right ?_
    rintro ⟨holder, stored, useful, ref, inside, hits⟩
    have apart := alive holder ref inside
    have same := others holder apart
    simp only [Heap.view, View.mk.injEq, eq_iff_iff] at same
    refine ⟨holder, same.1.mpr stored, useful, ref, ?_, hits⟩
    rwa [(lists holder apart).2.2.2]
  · intro removing
    have separate := inv.apart (phase ▸ removing)
    refine ⟨fun q there => ?_, fun q there => separate.unrooted q (waits q there), ?_,
      fun q there => separate.unneeded q (waits q there)⟩
    · rcases separate.anchored q (stays q there).1 with rooted | ⟨holder, held, ref, inside, hits⟩
      · exact .inl rooted
      · have other := alive holder ref inside
        refine .inr ⟨holder, (lists holder other).1.mpr held, ref, ?_, hits⟩
        rwa [(lists holder other).2.2.2]
    · intro q there holder held ref inside
      obtain ⟨before, sameRefs⟩ := stays holder held
      exact separate.unreferred q (waits q there) holder before ref (sameRefs ▸ inside)

/-- The lists after an open structure was unlinked. -/
theorem unlinked (inv : Inv needed roots pending overdrawn (p :: opened) heap) :
    ¬ ((heap.unlink p).view p).Linked := by
  rw [view_unlink_self inv.nodup]
  simp [View.Linked]

/-- The memory of an open structure is given back. -/
theorem close_release (inv : Inv needed roots pending overdrawn (p :: opened) heap) (closed : p ∉ opened)
    (settled : heap.refCount p + overdrawn p = 0) (noWeak : heap.weakrefCount p = 0) :
    Inv needed roots pending overdrawn opened ((heap.unlink p).release p) := by
  obtain ⟨linked, dead⟩ := (inv.placed p).open_linked (by simp)
  have member : p ∈ heap.allocated := (inv.placed p).linked_allocated linked
  refine inv.closes closed ?_ (nodup_unlink inv.nodup) ?_ ?_ ?_ ?_ rfl
  · have balanced : Balanced (pending + roots) overdrawn (heap.unlink p).toMemory := inv.balanced
    exact balanced.release dead member settled noWeak
  · intro q other
    rw [view_release other, view_unlink other]
  · refine Placed.gone ?_ inv.unlinked
    simp [Heap.view, Heap.release]
  · exact fun there => inv.unlinked (.inl there)
  · exact fun there => absurd (.inr there) inv.unlinked

/-- An open object is kept for its weak references. -/
theorem close_zombie (inv : Inv needed roots pending overdrawn (p :: opened) heap) (closed : p ∉ opened)
    (settled : heap.refCount p + overdrawn p = 0) (weaklyHeld : heap.weakrefCount p ≠ 0)
    (object : (heap.struct p).gcObjType = .jsObject) :
    Inv needed roots pending overdrawn opened
      { heap.unlink p with mark := Function.update heap.mark p false } := by
  obtain ⟨_, dead⟩ := (inv.placed p).open_linked (by simp)
  refine inv.closes closed inv.balanced (nodup_unlink inv.nodup) ?_ ?_ ?_ ?_ rfl
  · intro q other
    refine Eq.trans ?_ (view_unlink other)
    simp [Heap.view, Function.update_of_ne other, Heap.unlink]
  · refine Placed.zombie dead inv.unlinked object settled ?_ (.inl (Nat.pos_of_ne_zero weaklyHeld))
    exact Function.update_self ..
  · exact fun there => inv.unlinked (.inl there)
  · exact fun there => absurd (.inr there) inv.unlinked

/-- While cycles are removed, an open structure that is still referred to is kept until
the end. -/
theorem close_keep (inv : Inv needed roots pending overdrawn (p :: opened) heap) (closed : p ∉ opened)
    (removing : heap.gcPhase = .removeCycles)
    (queued : (heap.struct p).gcObjType.inline = false) :
    Inv needed roots pending overdrawn opened
      { heap.unlink p with
        gcZeroRefCountList := (heap.unlink p).gcZeroRefCountList ++ [p] } := by
  have placed := inv.placed p
  obtain ⟨linked, dead⟩ := placed.open_linked (by simp)
  have member : p ∈ heap.allocated := placed.linked_allocated linked
  have loose := inv.unlinked
  have notGc : p ∉ (heap.unlink p).gcObjList := fun there => loose (.inl there)
  have notTmp : p ∉ (heap.unlink p).tmpObjList := fun there => loose (.inr (.inl there))
  have notZero : p ∉ (heap.unlink p).gcZeroRefCountList := fun there => loose (.inr (.inr there))
  have waited : (heap.view p).inTmp ∨ (heap.view p).inZero := by
    rcases linked with gc | waiting
    · have inline : (heap.struct p).gcObjType.inline = true := placed.open_inline (by simp) gc
      rw [queued] at inline
      cases inline
    · exact waiting
  have notQuiet : ∀ {claim : Prop}, heap.gcPhase ≠ .removeCycles → claim :=
    fun quiet => absurd removing quiet
  refine inv.closes closed inv.balanced ?_ ?_ ?_ notGc (fun _ => waited) rfl
  · have front := nodup_unlink (p := p) inv.nodup
    change (_ ++ ((heap.unlink p).gcZeroRefCountList ++ [p])).Nodup
    rw [← List.append_assoc]
    refine List.Nodup.append front (List.nodup_singleton p) ?_
    simpa using not_mem_unlink (p := p) inv.nodup
  · intro q other
    refine Eq.trans ?_ (view_unlink other)
    simp [Heap.view, other]
  · exact {
      linked_allocated := fun _ => member
      live_linked := fun _ live => absurd live dead
      open_linked := False.elim
      open_inline := False.elim
      open_settled := False.elim
      counted := fun gc => absurd gc notGc
      unmarked := fun gc => absurd gc notGc
      marked := fun _ => placed.marked waited
      inline_counted := fun _ live => absurd live dead
      kept := fun _ _ unlinked => absurd (.inr (.inr (by simp [Heap.view]))) unlinked
      spent := fun _ drawn => placed.spent member drawn
      quiet := notQuiet
      idle := fun idle => by
        have phase : heap.gcPhase = .none := idle
        rw [removing] at phase
        cases phase
      garbage := fun _ tmp => absurd tmp notTmp
      ordinary := fun _ _ tmp => absurd tmp notTmp
      swept := by
        intro _ _ _
        refine ⟨fun live => absurd live dead, fun inline => ?_⟩
        have same : (heap.struct p).gcObjType.inline = true := inline
        rw [queued] at same
        cases same
      runs := fun _ obj there => absurd ⟨obj, there⟩ dead }

/-- Only objects are referred to weakly. -/
theorem weakless (inv : Inv needed roots pending overdrawn opened heap) (member : p ∈ heap.allocated)
    (other : (heap.struct p).gcObjType ≠ .jsObject) : heap.weakrefCount p = 0 := by
  have fits : ∀ ref, heap.Fits ref → weakly p ref = false := by
    rintro ref ⟨_, type⟩
    by_contra hit
    obtain rfl : ref = .weak p := by simpa [weakly] using hit
    simp only [Ref.target] at type
    cases kind : (heap.struct p).gcObjType <;> simp_all [Ref.fits]
  rw [inv.balanced.weak p member]
  refine tally_eq_zero_iff.mpr ⟨?_, ?_⟩
  · exact fun ref outside => fits ref (inv.balanced.heldFit ref outside)
  · exact fun q there ref inside => fits ref (inv.balanced.fieldsFit q there ref inside)

/-- Dropping a weak reference returns; the memory of an object goes with the last one
when the object was freed before. -/
theorem weaken (inv : Inv needed roots (.weak p ::ₘ pending) overdrawn opened heap) :
    ∃ after, jsWeakrefFree heap p = some after ∧ Inv needed roots pending overdrawn opened after ∧
      Kept heap after ∧ after.struct = heap.struct := by
  have outside : Ref.weak p ∈ .weak p ::ₘ (pending + roots) := Multiset.mem_cons_self ..
  have balanced := inv.balanced_cons
  obtain ⟨member, fits⟩ := balanced.heldFit _ outside
  have positive : 1 ≤ heap.weakrefCount p := by
    rw [balanced.weak p member]
    exact tally_pos_iff.mpr (.inl ⟨_, outside, by simp [weakly]⟩)
  have placed := inv.placed p
  let less : Heap := { heap with
    weakrefCount := Function.update heap.weakrefCount p (heap.weakrefCount p - 1) }
  have others : ∀ q, q ≠ p → less.view q = heap.view q := by
    intro q other
    simp [less, Heap.view, Function.update_of_ne other]
  have alike : Kept heap less :=
    ⟨rfl, Finset.Subset.refl _, fun _ _ _ => rfl, fun _ => rfl, List.Sublist.refl _,
    List.Sublist.refl _⟩
  by_cases last : less.weakrefCount p = 0 ∧ less.refCount p = 0 ∧ less.mark p = false
  · have object : (heap.struct p).gcObjType = .jsObject := by
      simp only [Ref.target] at fits
      cases kind : (heap.struct p).gcObjType <;> simp_all [Ref.fits]
    have loose : ¬ (heap.view p).Linked := by
      rintro (gc | waiting)
      · by_cases isOpen : p ∈ opened
        · have inline : (heap.struct p).gcObjType.inline = true := placed.open_inline isOpen gc
          rw [object] at inline
          cases inline
        · have counted : 0 < heap.refCount p := (placed.counted gc isOpen).2
          have none : heap.refCount p = 0 := last.2.1
          omega
      · have set : heap.mark p = true := placed.marked waiting object
        have clear : heap.mark p = false := last.2.2
        rw [set] at clear
        cases clear
    have dead : ¬ (heap.view p).Live := fun live => loose (placed.live_linked member live)
    have closed : p ∉ opened := fun isOpen => loose (placed.open_linked isOpen).1
    have settled : heap.refCount p + (overdrawn p : Int) = 0 := (placed.kept member dead loose).2.1
    refine ⟨less.release p, ?_, ?_, alike.trans (kept_release less p), rfl⟩
    · rw [jsWeakrefFree, if_pos ⟨member, positive⟩]
      exact if_pos last
    · have supported : Supported needed roots less.toMemory := inv.supported
      refine ⟨?_, inv.nodup, ?_, supported.release dead, fun removing =>
        ⟨(inv.apart removing).anchored, (inv.apart removing).unrooted,
          (inv.apart removing).unreferred, (inv.apart removing).unneeded⟩⟩
      · have weakened : Balanced (pending + roots) overdrawn less.toMemory := balanced.weaken
        exact weakened.release dead member settled last.1
      · intro q
        by_cases other : q = p
        · subst other
          have gone : Placed (needed q) (overdrawn q) False ((less.release q).view q) :=
            Placed.gone (by simp [Heap.view, Heap.release]) loose
          simpa [closed] using gone
        · rw [view_release other, others q other]
          exact inv.placed q
  · refine ⟨less, ?_, ?_, alike, rfl⟩
    · rw [jsWeakrefFree, if_pos ⟨member, positive⟩]
      exact if_neg last
    · refine ⟨balanced.weaken, inv.nodup, ?_, inv.supported, fun removing =>
        ⟨(inv.apart removing).anchored, (inv.apart removing).unrooted,
          (inv.apart removing).unreferred, (inv.apart removing).unneeded⟩⟩
      intro q
      by_cases other : q = p
      · subst other
        exact {
          linked_allocated := placed.linked_allocated
          live_linked := placed.live_linked
          open_linked := placed.open_linked
          open_inline := placed.open_inline
          open_settled := placed.open_settled
          counted := placed.counted
          unmarked := placed.unmarked
          marked := placed.marked
          inline_counted := placed.inline_counted
          kept := by
            intro stored dead loose
            obtain ⟨object, settled, clear, _⟩ := placed.kept stored dead loose
            refine ⟨object, settled, clear, ?_⟩
            by_contra neither
            push Not at neither
            have spent : heap.refCount q + (overdrawn q : Int) = 0 := settled
            refine last ⟨Nat.le_zero.mp neither.1, ?_, clear⟩
            change heap.refCount q = 0
            omega
          spent := placed.spent
          quiet := placed.quiet
          idle := placed.idle
          garbage := placed.garbage
          ordinary := placed.ordinary
          swept := placed.swept
          runs := placed.runs }
      · rw [others q other]
        exact inv.placed q

/-- The finalizer of a Go proxy drops a reference that does not exist: the proxy moves
to the front of the queue, and its count is one too low. -/
theorem overdraw (inv : Inv needed roots pending overdrawn (p :: opened) heap)
    (phase : heap.gcPhase = .decref) (queued : (heap.struct p).gcObjType.inline = false) :
    Inv needed roots pending (Function.update overdrawn p (overdrawn p + 1)) (p :: opened)
      (heap.awaiting p (Function.update heap.mark p true)) := by
  have quiet : heap.gcPhase ≠ .removeCycles := by simp [phase]
  have placed := inv.placed p
  obtain ⟨linked, dead⟩ := placed.open_linked (by simp)
  have member : p ∈ heap.allocated := placed.linked_allocated linked
  have settled : heap.refCount p + (overdrawn p : Int) = 0 := placed.open_settled (by simp) (.inl quiet)
  have nodup : ((heap.decrement p).gcObjList ++ (heap.decrement p).tmpObjList ++
      (heap.decrement p).gcZeroRefCountList).Nodup := inv.nodup
  have absent := not_mem_unlink (p := p) nodup
  simp only [List.mem_append, not_or] at absent
  refine ⟨⟨?_, inv.balanced.weak, inv.balanced.heldFit, inv.balanced.fieldsFit⟩, ?_, ?_,
    inv.supported, ?_⟩
  · intro q there
    refine Eq.trans ?_ (inv.balanced.strong q there)
    change Function.update heap.refCount p (heap.refCount p - 1) q +
      (Function.update overdrawn p (overdrawn p + 1) q : Int) = heap.refCount q + overdrawn q
    by_cases same : q = p
    · subst same
      rw [Function.update_self, Function.update_self]
      push_cast
      omega
    · rw [Function.update_of_ne same, Function.update_of_ne same]
  · exact nodup_awaiting inv.nodup
  · intro q
    by_cases same : q = p
    · subst same
      rw [Function.update_self]
      have isOpen : Placed (needed q) (overdrawn q + 1) True
          ((heap.awaiting q (Function.update heap.mark q true)).view q) := by
        refine Placed.opened member dead (.inr (.inr (List.mem_cons_self ..))) ?_ ?_ ?_ ?_ ?_
        · exact fun gc => absurd gc absent.1.1
        · intro _
          change Function.update heap.refCount q (heap.refCount q - 1) q +
            ((overdrawn q + 1 : Nat) : Int) = 0
          rw [Function.update_self]
          push_cast
          omega
        · exact fun _ _ => Function.update_self ..
        · exact fun _ => ⟨absent.1.2, fun _ => queued⟩
        · intro idle
          cases idle
      simpa using isOpen
    · rw [view_awaiting same (Function.update_of_ne same ..), Function.update_of_ne same]
      exact (inv.placed q).decref quiet
  · intro removing
    cases removing

end Inv

end GoQuickjs.Gc
