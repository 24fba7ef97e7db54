import GoQuickjs.GcBalance

/-!
# Where each structure is

The second half of the invariant: in which list a structure is linked, what its mark
says, and how this goes together with its count. Outside of the removal of cycles a
live structure with references is in `gc_obj_list`, and one without waits in
`gc_zero_ref_count_list`; a freed object that is in no list is kept for its weak
references. While a structure is being freed its fields are gone but it is still
linked: it is open.
-/

namespace GoQuickjs.Gc

open ReferenceCounts

/-- What the heap says about one structure. -/
structure View where
  allocated : Prop
  struct : Struct
  refCount : Int
  weakrefCount : Nat
  mark : Bool
  inGc : Prop
  inTmp : Prop
  inZero : Prop
  gcPhase : GcPhase

namespace View

/-- The structure stands on one of the three lists. -/
def Linked (view : View) : Prop := view.inGc ∨ view.inTmp ∨ view.inZero

/-- The structure is in memory with its fields. -/
def Live (view : View) : Prop := ∃ obj, view.struct = .live obj

/-- The type of the structure, which it keeps when its fields are given up. -/
def type (view : View) : GcObjType := view.struct.gcObjType

/-- The phase is not that of the removal of cycles. -/
def Quiet (view : View) : Prop := view.gcPhase ≠ .removeCycles

end View

/-- The view of one structure. -/
def Heap.view (heap : Heap) (p : Ptr) : View where
  allocated := p ∈ heap.allocated
  struct := heap.struct p
  refCount := heap.refCount p
  weakrefCount := heap.weakrefCount p
  mark := heap.mark p
  inGc := p ∈ heap.gcObjList
  inTmp := p ∈ heap.tmpObjList
  inZero := p ∈ heap.gcZeroRefCountList
  gcPhase := heap.gcPhase

/-- A structure is where it should be. It may be open, or referred to by the running
program, and its count may be overdrawn. -/
structure Placed (needed : Prop) (overdrawn : Nat) (isOpen : Prop) (view : View) : Prop where
  linked_allocated : view.Linked → view.allocated
  live_linked : view.allocated → view.Live → view.Linked
  open_linked : isOpen → view.Linked ∧ ¬ view.Live
  open_inline : isOpen → view.inGc → view.type.inline = true
  open_settled : isOpen → view.Quiet ∨ view.type.inline = true → view.refCount + overdrawn = 0
  counted : view.inGc → ¬ isOpen → view.Live ∧ 0 < view.refCount
  unmarked : view.inGc → view.mark = false
  marked : view.inTmp ∨ view.inZero → view.type = .jsObject → view.mark = true
  inline_counted : view.allocated → view.Live → view.type.inline = true → 0 < view.refCount
  kept : view.allocated → ¬ view.Live → ¬ view.Linked → view.type = .jsObject ∧
    view.refCount + overdrawn = 0 ∧ view.mark = false ∧ (0 < view.weakrefCount ∨ 0 < overdrawn)
  spent : view.allocated → 0 < overdrawn → ¬ view.Live ∧ view.refCount + overdrawn = 0
  quiet : view.Quiet → ¬ view.inTmp ∧ (view.inZero → view.type.inline = false ∧
    (¬ isOpen → view.Live ∧ view.refCount = 0))
  idle : view.gcPhase = .none → ¬ view.inZero ∧ (isOpen → view.type.inline = true)
  garbage : ¬ view.Quiet → view.inTmp → ¬ isOpen → view.Live
  ordinary : ¬ view.Quiet → ∀ obj, view.inTmp → view.struct = .live obj →
    obj.dropsSelf = false ∧ obj.freeable = true
  swept : ¬ view.Quiet → view.inZero → ¬ isOpen → (view.Live ↔ view.type.inline = true)
  runs : view.allocated → ∀ obj, view.struct = .live obj → obj.freeable = false → needed

namespace Placed

variable {needed : Prop} {overdrawn : Nat} {view : View}

/-- Memory that was given back is in no list. -/
theorem gone (absent : ¬ view.allocated) (unlinked : ¬ view.Linked) :
    Placed needed overdrawn False view where
  linked_allocated linked := absurd linked unlinked
  live_linked stored := absurd stored absent
  open_linked := False.elim
  open_inline := False.elim
  open_settled := False.elim
  counted gc := absurd (.inl gc) unlinked
  unmarked gc := absurd (.inl gc) unlinked
  marked waiting := absurd (.inr waiting) unlinked
  inline_counted stored := absurd stored absent
  kept stored := absurd stored absent
  spent stored := absurd stored absent
  quiet _ := ⟨fun tmp => unlinked (.inr (.inl tmp)), fun zero => absurd (.inr (.inr zero)) unlinked⟩
  idle _ := ⟨fun zero => unlinked (.inr (.inr zero)), False.elim⟩
  garbage _ tmp := absurd (.inr (.inl tmp)) unlinked
  ordinary _ _ tmp := absurd (.inr (.inl tmp)) unlinked
  swept _ zero := absurd (.inr (.inr zero)) unlinked
  runs stored := absurd stored absent

/-- A freed object in no list, kept for its weak references. -/
theorem zombie (dead : ¬ view.Live) (unlinked : ¬ view.Linked) (object : view.type = .jsObject)
    (settled : view.refCount + overdrawn = 0) (unmarked : view.mark = false)
    (weaklyHeld : 0 < view.weakrefCount ∨ 0 < overdrawn) : Placed needed overdrawn False view where
  linked_allocated linked := absurd linked unlinked
  live_linked _ live := absurd live dead
  open_linked := False.elim
  open_inline := False.elim
  open_settled := False.elim
  counted gc := absurd (.inl gc) unlinked
  unmarked gc := absurd (.inl gc) unlinked
  marked waiting := absurd (.inr waiting) unlinked
  inline_counted _ live := absurd live dead
  kept _ _ _ := ⟨object, settled, unmarked, weaklyHeld⟩
  spent _ _ := ⟨dead, settled⟩
  quiet _ := ⟨fun tmp => unlinked (.inr (.inl tmp)), fun zero => absurd (.inr (.inr zero)) unlinked⟩
  idle _ := ⟨fun zero => unlinked (.inr (.inr zero)), False.elim⟩
  garbage _ tmp := absurd (.inr (.inl tmp)) unlinked
  ordinary _ _ tmp := absurd (.inr (.inl tmp)) unlinked
  swept _ zero := absurd (.inr (.inr zero)) unlinked
  runs _ obj there := absurd ⟨obj, there⟩ dead

/-- A structure that is being freed. -/
theorem opened (stored : view.allocated) (dead : ¬ view.Live) (linked : view.Linked)
    (inline : view.inGc → view.type.inline = true ∧ view.mark = false)
    (settled : view.Quiet ∨ view.type.inline = true ∨ 0 < overdrawn →
      view.refCount + overdrawn = 0)
    (marked : view.inTmp ∨ view.inZero → view.type = .jsObject → view.mark = true)
    (quiet : view.Quiet → ¬ view.inTmp ∧ (view.inZero → view.type.inline = false))
    (idle : view.gcPhase = .none → ¬ view.inZero ∧ view.type.inline = true) :
    Placed needed overdrawn True view where
  linked_allocated _ := stored
  live_linked _ live := absurd live dead
  open_linked _ := ⟨linked, dead⟩
  open_inline _ gc := (inline gc).1
  open_settled _ cases := settled (cases.imp_right .inl)
  counted _ closed := absurd trivial closed
  unmarked gc := (inline gc).2
  marked := marked
  inline_counted _ live := absurd live dead
  kept _ _ unlinked := absurd linked unlinked
  spent _ drawn := ⟨dead, settled (.inr (.inr drawn))⟩
  quiet still := ⟨(quiet still).1, fun zero => ⟨(quiet still).2 zero, fun closed => absurd trivial closed⟩⟩
  idle none := ⟨(idle none).1, fun _ => (idle none).2⟩
  garbage _ _ closed := absurd trivial closed
  ordinary _ obj _ there := absurd ⟨obj, there⟩ dead
  swept _ _ closed := absurd trivial closed
  runs _ obj there := absurd ⟨obj, there⟩ dead

/-- The phase in which queued structures are freed asks for less than no phase. -/
theorem decref {isOpen : Prop} (placed : Placed needed overdrawn isOpen view)
    (quiet : view.Quiet) : Placed needed overdrawn isOpen { view with gcPhase := .decref } where
  linked_allocated := placed.linked_allocated
  live_linked := placed.live_linked
  open_linked := placed.open_linked
  open_inline := placed.open_inline
  open_settled isOpen _ := placed.open_settled isOpen (.inl quiet)
  counted := placed.counted
  unmarked := placed.unmarked
  marked := placed.marked
  inline_counted := placed.inline_counted
  kept := placed.kept
  spent := placed.spent
  quiet _ := placed.quiet quiet
  idle none := by cases none
  garbage removing := absurd (by intro same; cases same) removing
  ordinary removing := absurd (by intro same; cases same) removing
  swept removing := absurd (by intro same; cases same) removing
  runs := placed.runs

/-- Once nothing is queued the phase can end. -/
theorem idles {isOpen : Prop} (placed : Placed needed overdrawn isOpen view)
    (quiet : view.Quiet) (notQueued : ¬ view.inZero) (inline : isOpen → view.type.inline = true) :
    Placed needed overdrawn isOpen { view with gcPhase := .none } where
  linked_allocated := placed.linked_allocated
  live_linked := placed.live_linked
  open_linked := placed.open_linked
  open_inline := placed.open_inline
  open_settled isOpen _ := placed.open_settled isOpen (.inl quiet)
  counted := placed.counted
  unmarked := placed.unmarked
  marked := placed.marked
  inline_counted := placed.inline_counted
  kept := placed.kept
  spent := placed.spent
  quiet _ := placed.quiet quiet
  idle _ := ⟨notQueued, inline⟩
  garbage removing := absurd (by intro same; cases same) removing
  ordinary removing := absurd (by intro same; cases same) removing
  swept removing := absurd (by intro same; cases same) removing
  runs := placed.runs

/-- What is needed only matters for what runs. -/
theorem regard {other isOpen : Prop} (placed : Placed needed overdrawn isOpen view)
    (runs : view.allocated → ∀ obj, view.struct = .live obj → obj.freeable = false → other) :
    Placed other overdrawn isOpen view :=
  { placed with runs := runs }

end Placed

/-- The references on a structure that the running program holds. -/
def Rooted (roots : Multiset Ref) (p : Ptr) : Prop := ∃ ref ∈ roots, ref.strong = some p

/-- Of the structures that the program needs, each is held by the program or by another
one of them. -/
def Supported (needed : Ptr → Prop) (roots : Multiset Ref) (memory : Memory) : Prop :=
  ∀ p, needed p → Rooted roots p ∨
    ∃ q ∈ memory.allocated, needed q ∧ ∃ ref ∈ memory.refsAt q, ref.strong = some p

/-- While cycles are removed, what is left in `gc_obj_list` is held by the program or by its
own members, neither of these refers to what waits to be freed, and none of that is needed. -/
structure Apart (needed : Ptr → Prop) (roots : Multiset Ref) (heap : Heap) : Prop where
  anchored : ∀ p ∈ heap.gcObjList,
    Rooted roots p ∨ ∃ q ∈ heap.gcObjList, ∃ ref ∈ heap.refsAt q, ref.strong = some p
  unrooted : ∀ p, p ∈ heap.tmpObjList ∨ p ∈ heap.gcZeroRefCountList → ¬ Rooted roots p
  unreferred : ∀ p, p ∈ heap.tmpObjList ∨ p ∈ heap.gcZeroRefCountList →
    ∀ q ∈ heap.gcObjList, ∀ ref ∈ heap.refsAt q, ref.strong ≠ some p
  unneeded : ∀ p, p ∈ heap.tmpObjList ∨ p ∈ heap.gcZeroRefCountList → ¬ needed p

/-- The invariant of the heap. The program holds the references `roots`, by which it needs the
structures `needed`, and those in `pending`, which are about to be dropped; the structures in
`opened` are being freed. What runs is needed. -/
structure Inv (needed : Ptr → Prop) (roots pending : Multiset Ref) (overdrawn : Ptr → Nat)
    (opened : List Ptr) (heap : Heap) : Prop where
  balanced : Balanced (pending + roots) overdrawn heap.toMemory
  nodup : (heap.gcObjList ++ heap.tmpObjList ++ heap.gcZeroRefCountList).Nodup
  placed : ∀ p, Placed (needed p) (overdrawn p) (p ∈ opened) (heap.view p)
  supported : Supported needed roots heap.toMemory
  apart : heap.gcPhase = .removeCycles → Apart needed roots heap

/-! ## Views of other structures -/

section Views

variable {heap : Heap} {p q : Ptr}

/-- Taking one off the count of one structure leaves the others as they were. -/
theorem view_decrement (other : q ≠ p) : (heap.decrement p).view q = heap.view q := by
  simp [Heap.view, Heap.decrement, Function.update_of_ne other]

/-- So does giving up its fields. -/
theorem view_setFreed (other : q ≠ p) : (heap.setFreed p).view q = heap.view q := by
  simp [Heap.view, Heap.setFreed, Function.update_of_ne other]

/-- So does giving back its memory. -/
theorem view_release (other : q ≠ p) : (heap.release p).view q = heap.view q := by
  simp [Heap.view, Heap.release, other]

/-- So does taking it off its list. -/
theorem view_unlink (other : q ≠ p) : (heap.unlink p).view q = heap.view q := by
  simp [Heap.view, Heap.unlink, List.mem_erase_of_ne other]

/-- In lists without repetition nothing is left of what is unlinked. -/
theorem view_unlink_self
    (nodup : (heap.gcObjList ++ heap.tmpObjList ++ heap.gcZeroRefCountList).Nodup) :
    (heap.unlink p).view p = { heap.view p with inGc := False, inTmp := False, inZero := False } := by
  obtain ⟨both, zero, _⟩ := List.nodup_append.mp nodup
  obtain ⟨gc, tmp, _⟩ := List.nodup_append.mp both
  simp [Heap.view, Heap.unlink, gc.mem_erase_iff, tmp.mem_erase_iff, zero.mem_erase_iff]

/-- What is left of the lists after one is taken off has no structure twice. -/
theorem nodup_unlink
    (nodup : (heap.gcObjList ++ heap.tmpObjList ++ heap.gcZeroRefCountList).Nodup) :
    ((heap.unlink p).gcObjList ++ (heap.unlink p).tmpObjList ++
      (heap.unlink p).gcZeroRefCountList).Nodup := by
  refine List.Nodup.sublist ?_ nodup
  exact (List.erase_sublist.append List.erase_sublist).append List.erase_sublist

/-- The structure taken off stands on no list any more. -/
theorem not_mem_unlink
    (nodup : (heap.gcObjList ++ heap.tmpObjList ++ heap.gcZeroRefCountList).Nodup) :
    p ∉ (heap.unlink p).gcObjList ++ (heap.unlink p).tmpObjList ++
      (heap.unlink p).gcZeroRefCountList := by
  have view := view_unlink_self (p := p) nodup
  simp only [Heap.view, View.mk.injEq, eq_iff_iff, iff_false] at view
  simp only [List.mem_append, not_or]
  exact ⟨⟨view.2.2.2.2.2.1, view.2.2.2.2.2.2.1⟩, view.2.2.2.2.2.2.2.1⟩

end Views

/-! ## What the program needs -/

namespace Supported

variable {needed : Ptr → Prop} {roots pending : Multiset Ref} {overdrawn : Ptr → Nat} {heap : Heap}
  {p : Ptr}

/-- A structure that the program needs has a count. -/
theorem counted (supported : Supported needed roots heap.toMemory)
    (balanced : Balanced (pending + roots) overdrawn heap.toMemory) (use : needed p) :
    0 < heap.refCount p + overdrawn p := by
  rcases supported p use with ⟨ref, held, hits⟩ | ⟨q, there, _, ref, inside, hits⟩
  · exact balanced.pos_of_held (Multiset.mem_add.mpr (.inr held)) hits
  · exact balanced.pos_of_field there inside hits

/-- Freeing the fields of a structure that is not needed. -/
theorem setFreed (supported : Supported needed roots heap.toMemory) (unneeded : ¬ needed p) :
    Supported needed roots (heap.setFreed p).toMemory := by
  intro other use
  refine (supported other use).imp_right ?_
  rintro ⟨q, there, useful, ref, inside, hits⟩
  have apart : q ≠ p := fun same => unneeded (same ▸ useful)
  refine ⟨q, there, useful, ref, ?_, hits⟩
  rwa [Balanced.refsAt_setFreed, Function.update_of_ne apart]

/-- What is not live holds nothing, so that its memory supports nothing. -/
theorem release (supported : Supported needed roots heap.toMemory) (dead : ¬ heap.Live p) :
    Supported needed roots (heap.release p).toMemory := by
  intro other use
  refine (supported other use).imp_right ?_
  rintro ⟨q, there, useful, ref, inside, hits⟩
  refine ⟨q, Finset.mem_erase.mpr ⟨?_, there⟩, useful, ref, inside, hits⟩
  rintro rfl
  cases fields : heap.struct q with
  | live obj => exact dead ⟨obj, fields⟩
  | freed type => simp [Memory.refsAt, fields] at inside

end Supported

/-! ## What a reference says about its target -/

namespace Inv

variable {needed : Ptr → Prop} {roots pending : Multiset Ref} {overdrawn : Ptr → Nat}
  {opened : List Ptr} {heap : Heap} {p : Ptr} {ref : Ref}

/-- A structure that is referred to was not overdrawn and has a count. -/
theorem undrawn (inv : Inv needed roots pending overdrawn opened heap) (stored : p ∈ heap.allocated)
    (positive : 0 < heap.refCount p + overdrawn p) : overdrawn p = 0 ∧ 0 < heap.refCount p := by
  have none : overdrawn p = 0 := by
    rcases Nat.eq_zero_or_pos (overdrawn p) with zero | drawn
    · exact zero
    · have settled := ((inv.placed p).spent stored drawn).2
      simp only [Heap.view] at settled
      omega
  refine ⟨none, ?_⟩
  rw [none] at positive
  simpa using positive

/-- Outside of the removal of cycles a structure that is referred to is live and in
`gc_obj_list`. -/
theorem counted_quiet (inv : Inv needed roots pending overdrawn opened heap)
    (stored : p ∈ heap.allocated) (positive : 0 < heap.refCount p + overdrawn p)
    (quiet : heap.gcPhase ≠ .removeCycles) : heap.Live p ∧ p ∈ heap.gcObjList ∧ p ∉ opened := by
  obtain ⟨none, counted⟩ := inv.undrawn stored positive
  have placed := inv.placed p
  have closed : p ∉ opened := by
    intro isOpen
    have settled := placed.open_settled isOpen (.inl quiet)
    simp only [Heap.view, none] at settled
    omega
  have notTmp : ¬ (heap.view p).inTmp := (placed.quiet quiet).1
  have notZero : ¬ (heap.view p).inZero := by
    intro waiting
    have zero := (((placed.quiet quiet).2 waiting).2 closed).2
    simp only [Heap.view] at zero
    omega
  have live : (heap.view p).Live := by
    by_contra dead
    by_cases linked : (heap.view p).Linked
    · exact dead ((placed.counted (by simpa [View.Linked, notTmp, notZero] using linked) closed).1)
    · have settled := (placed.kept stored dead linked).2.1
      simp only [Heap.view, none] at settled
      omega
  have linked := placed.live_linked stored live
  have inGc : (heap.view p).inGc := by simpa [View.Linked, notTmp, notZero] using linked
  exact ⟨live, inGc, closed⟩

/-- The target of a reference is in memory, was not overdrawn and has a count. -/
theorem target (inv : Inv needed roots (ref ::ₘ pending) overdrawn opened heap)
    (counted : ref.strong = some p) :
    p ∈ heap.allocated ∧ ref.fits (heap.struct p).gcObjType = true ∧ overdrawn p = 0 ∧
      0 < heap.refCount p := by
  have outside : ref ∈ ref ::ₘ pending + roots := Multiset.mem_add.mpr (.inl (Multiset.mem_cons_self ..))
  obtain ⟨stored, fits⟩ := inv.balanced.heldFit ref outside
  rw [strong_target counted] at stored fits
  exact ⟨stored, fits, inv.undrawn stored (inv.balanced.pos_of_held outside counted)⟩

/-- Outside of the removal of cycles the target of a reference is live and in
`gc_obj_list`. -/
theorem target_quiet (inv : Inv needed roots (ref ::ₘ pending) overdrawn opened heap)
    (counted : ref.strong = some p) (quiet : heap.gcPhase ≠ .removeCycles) :
    heap.Live p ∧ p ∈ heap.gcObjList ∧ p ∉ opened := by
  obtain ⟨member, _, _, positive⟩ := inv.target counted
  exact inv.counted_quiet member (by omega) quiet

/-- The target of a reference that is freed on the spot is live. -/
theorem target_inline (inv : Inv needed roots (ref ::ₘ pending) overdrawn opened heap)
    (counted : ref.strong = some p) (inline : (heap.struct p).gcObjType.inline = true) :
    heap.Live p ∧ p ∉ opened := by
  obtain ⟨member, _, none, positive⟩ := inv.target counted
  have placed := inv.placed p
  have closed : p ∉ opened := by
    intro isOpen
    have settled := placed.open_settled isOpen (.inr inline)
    simp only [Heap.view, none] at settled
    omega
  refine ⟨?_, closed⟩
  by_cases quiet : heap.gcPhase = .removeCycles
  · by_contra dead
    by_cases linked : (heap.view p).Linked
    · rcases linked with gc | tmp | zero
      · exact dead (placed.counted gc closed).1
      · exact dead (placed.garbage (not_not.mpr quiet) tmp closed)
      · exact dead ((placed.swept (not_not.mpr quiet) zero closed).mpr inline)
    · have settled := (placed.kept member dead linked).2.1
      simp only [Heap.view, none] at settled
      omega
  · exact (inv.target_quiet counted quiet).1

/-- While cycles are removed, dropping a reference leaves a count to what is anchored. -/
theorem target_anchored (inv : Inv needed roots (ref ::ₘ pending) overdrawn opened heap)
    (counted : ref.strong = some p) (removing : heap.gcPhase = .removeCycles)
    (survives : p ∈ heap.gcObjList) : 1 < heap.refCount p := by
  obtain ⟨member, _, none, _⟩ := inv.target counted
  have spelled : ref ::ₘ pending + roots = ref ::ₘ (pending + roots) := Multiset.cons_add ..
  have after : Balanced (pending + roots) overdrawn (heap.decrement p).toMemory :=
    (spelled ▸ inv.balanced).decrement counted
  have positive : 0 < (heap.decrement p).refCount p + overdrawn p := by
    rcases (inv.apart removing).anchored p survives with ⟨root, held, hits⟩ | ⟨q, there, field, inside, hits⟩
    · exact after.pos_of_held (Multiset.mem_add.mpr (.inr held)) hits
    · have stored : q ∈ heap.allocated := (inv.placed q).linked_allocated (.inl there)
      exact after.pos_of_field stored inside hits
  simp only [Heap.decrement, Function.update_self, none] at positive
  omega

end Inv

end GoQuickjs.Gc
