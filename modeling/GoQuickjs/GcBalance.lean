import GoQuickjs.GcHeap

/-!
# Counts that tell the truth

The invariant of the heap: every count is the number of references that exist, in
fields of live structures, in the hands of the running program, or about to be
dropped; and every structure is where its state says, in one list or in none. The
finalizer of a Go proxy drops a reference that does not exist, so that the count of
a freed proxy is one too low for good; the invariant keeps book of these.

What it says about one structure depends on a small view of the heap, so that an
operation on one structure leaves all others alone.
-/

namespace GoQuickjs.Gc

open ReferenceCounts

/-! ## References and memory -/

namespace Ref

/-- The structure the reference points to. -/
def target : Ref → Ptr
  | .value p | .varRef p | .shape p | .asyncFunction p | .context p | .weak p => p

/-- The types of structure the reference can point to. -/
def fits : Ref → GcObjType → Bool
  | .value _, .jsObject | .value _, .functionBytecode | .varRef _, .varRef | .shape _, .shape
  | .asyncFunction _, .asyncFunction | .context _, .jsContext | .weak _, .jsObject => true
  | _, _ => false

/-- How deep the function that drops the reference may call others of its kind. -/
def rank : Ref → Nat
  | .value _ | .asyncFunction _ | .weak _ => 0
  | .varRef _ | .shape _ => 1
  | .context _ => 2

end Ref

/-- The type is freed on the spot, not by way of `gc_zero_ref_count_list`. -/
def GcObjType.inline : GcObjType → Bool
  | .shape | .varRef | .jsContext => true
  | .jsObject | .functionBytecode | .asyncFunction => false

/-- The references counted in `ref_count` of a structure. -/
def strongly (p : Ptr) (ref : Ref) : Bool := ref.strong = some p

/-- The references counted in `weakref_count` of an object. -/
def weakly (p : Ptr) (ref : Ref) : Bool := ref = .weak p

theorem strong_target {ref : Ref} {p : Ptr} (counted : ref.strong = some p) : ref.target = p := by
  cases ref <;> simp_all [Ref.strong, Ref.target]

/-- What a structure holds is what the collector sees of it and what it does not, by count. -/
theorem countP_held (obj : GcObject) (p : Ptr) : (heldRefs obj).countP (strongly p) =
    (markChildren obj).count p + obj.unreported.countP (strongly p) := by
  have held : (heldRefs obj).countP (strongly p) = (strongTargets (heldRefs obj)).count p :=
    countP_strong _ p
  have unseen : obj.unreported.countP (strongly p) = (strongTargets obj.unreported).count p :=
    countP_strong _ p
  rw [held, unseen, (held_perm_marked obj).count_eq p, List.count_append]

namespace Memory

/-- The references held by the structure at an address. -/
def refsAt (memory : Memory) (q : Ptr) : List Ref :=
  match memory.struct q with
  | .live obj => heldRefs obj
  | .freed _ => []

/-- The reference points to a structure in memory, of a type it can point to. -/
def Fits (memory : Memory) (ref : Ref) : Prop :=
  ref.target ∈ memory.allocated ∧ ref.fits (memory.struct ref.target).gcObjType = true

/-- The fields of the structure have not been freed. -/
def Live (memory : Memory) (p : Ptr) : Prop := ∃ obj, memory.struct p = .live obj

end Memory

/-- Every count is the number of references; only the count of a freed Go proxy is less,
by what was overdrawn. References point to structures in memory. -/
structure Balanced (held : Multiset Ref) (overdrawn : Ptr → Nat) (memory : Memory) : Prop where
  strong : ∀ p ∈ memory.allocated, memory.refCount p + overdrawn p =
    tally (strongly p) held memory.allocated memory.refsAt
  weak : ∀ p ∈ memory.allocated, memory.weakrefCount p =
    tally (weakly p) held memory.allocated memory.refsAt
  heldFit : ∀ ref ∈ held, memory.Fits ref
  fieldsFit : ∀ q ∈ memory.allocated, ∀ ref ∈ memory.refsAt q, memory.Fits ref

namespace Balanced

variable {held : Multiset Ref} {overdrawn : Ptr → Nat} {heap : Heap} {p : Ptr} {ref : Ref}

/-- A structure that is pointed to has a count. -/
theorem pos_of_held (balanced : Balanced held overdrawn heap.toMemory) (outside : ref ∈ held)
    (counted : ref.strong = some p) : 0 < heap.refCount p + overdrawn p := by
  have member : p ∈ heap.allocated := strong_target counted ▸ (balanced.heldFit ref outside).1
  have positive : 0 < tally (strongly p) held heap.allocated heap.refsAt :=
    tally_pos_iff.mpr (.inl ⟨ref, outside, by simp [strongly, counted]⟩)
  rw [balanced.strong p member]
  exact_mod_cast positive

theorem pos_of_field (balanced : Balanced held overdrawn heap.toMemory) {q : Ptr}
    (member : q ∈ heap.allocated) (inside : ref ∈ heap.refsAt q) (counted : ref.strong = some p) :
    0 < heap.refCount p + overdrawn p := by
  have there : p ∈ heap.allocated := strong_target counted ▸ (balanced.fieldsFit q member ref inside).1
  have positive : 0 < tally (strongly p) held heap.allocated heap.refsAt :=
    tally_pos_iff.mpr (.inr ⟨q, member, ref, inside, by simp [strongly, counted]⟩)
  rw [balanced.strong p there]
  exact_mod_cast positive

/-- Dropping a reference that is counted. -/
theorem decrement (balanced : Balanced (ref ::ₘ held) overdrawn heap.toMemory)
    (counted : ref.strong = some p) : Balanced held overdrawn (heap.decrement p).toMemory where
  strong := by
    intro q member
    have before := balanced.strong q member
    rw [tally_cons] at before
    by_cases same : q = p
    · subst same
      have hit : strongly q ref = true := by simp [strongly, counted]
      rw [if_pos hit] at before
      have value : (heap.decrement q).refCount q = heap.refCount q - 1 := Function.update_self ..
      rw [value]
      push_cast at before
      exact (by omega : heap.refCount q - 1 + overdrawn q =
        (tally (strongly q) held heap.allocated heap.refsAt : Int))
    · have miss : ¬ strongly q ref = true := by
        simp [strongly, counted, Ne.symm same]
      rw [if_neg miss] at before
      have value : (heap.decrement p).refCount q = heap.refCount q := Function.update_of_ne same ..
      rw [value]
      exact before
  weak := by
    intro q member
    have before := balanced.weak q member
    have miss : ¬ weakly q ref = true := by
      cases ref <;> simp_all [weakly, Ref.strong]
    rwa [tally_cons, if_neg miss] at before
  heldFit := fun other outside => balanced.heldFit other (Multiset.mem_cons_of_mem outside)
  fieldsFit := balanced.fieldsFit

theorem refsAt_setFreed : (heap.setFreed p).refsAt = Function.update heap.refsAt p [] := by
  funext q
  by_cases same : q = p
  · subst same
    simp [Memory.refsAt, Heap.setFreed]
  · simp [Memory.refsAt, Heap.setFreed, Function.update_of_ne same]

theorem type_setFreed (q : Ptr) :
    ((heap.setFreed p).struct q).gcObjType = (heap.struct q).gcObjType := by
  by_cases same : q = p
  · subst same
    simp [Heap.setFreed, Struct.gcObjType]
  · simp [Heap.setFreed, Function.update_of_ne same]

/-- A structure that is freed gives up the references it held. -/
theorem setFreed (balanced : Balanced held overdrawn heap.toMemory) (member : p ∈ heap.allocated) :
    Balanced (heap.refsAt p + held) overdrawn (heap.setFreed p).toMemory := by
  have fits : ∀ other, heap.Fits other → (heap.setFreed p).Fits other := by
    intro other fit
    refine ⟨fit.1, ?_⟩
    rw [type_setFreed]
    exact fit.2
  constructor
  · intro q there
    rw [refsAt_setFreed]
    refine (balanced.strong q there).trans ?_
    exact_mod_cast (tally_open member).symm
  · intro q there
    rw [refsAt_setFreed]
    exact (balanced.weak q there).trans (tally_open member).symm
  · intro other outside
    rcases Multiset.mem_add.mp outside with field | root
    · exact fits other (balanced.fieldsFit p member other (Multiset.mem_coe.mp field))
    · exact fits other (balanced.heldFit other root)
  · intro q there other inside
    rw [refsAt_setFreed] at inside
    by_cases same : q = p
    · subst same
      simp at inside
    · rw [Function.update_of_ne same] at inside
      exact fits other (balanced.fieldsFit q there other inside)

/-- Memory of a freed structure that nothing refers to can be given back. -/
theorem release (balanced : Balanced held overdrawn heap.toMemory) (freed : ¬ heap.Live p)
    (member : p ∈ heap.allocated) (unreferred : heap.refCount p + overdrawn p = 0)
    (noWeak : heap.weakrefCount p = 0) :
    Balanced held overdrawn (heap.release p).toMemory := by
  have empty : heap.refsAt p = [] := by
    cases there : heap.struct p with
    | live obj => exact absurd ⟨obj, there⟩ freed
    | freed type => simp [Memory.refsAt, there]
  have noStrong : tally (strongly p) held heap.allocated heap.refsAt = 0 := by
    have counted := balanced.strong p member
    rw [unreferred] at counted
    exact_mod_cast counted.symm
  have noneWeak : tally (weakly p) held heap.allocated heap.refsAt = 0 := by
    rw [← balanced.weak p member, noWeak]
  obtain ⟨strongHeld, strongFields⟩ := tally_eq_zero_iff.mp noStrong
  obtain ⟨weakHeld, weakFields⟩ := tally_eq_zero_iff.mp noneWeak
  have fits : ∀ other, strongly p other = false → weakly p other = false →
      heap.Fits other → (heap.release p).Fits other := by
    intro other notStrong notWeak fit
    refine ⟨Finset.mem_erase.mpr ⟨?_, fit.1⟩, fit.2⟩
    intro same
    cases other <;> simp_all [strongly, weakly, Ref.strong, Ref.target]
  constructor
  · intro q there
    have before := balanced.strong q (Finset.mem_of_mem_erase there)
    rwa [← tally_erase empty] at before
  · intro q there
    have before := balanced.weak q (Finset.mem_of_mem_erase there)
    rwa [← tally_erase empty] at before
  · intro other outside
    exact fits other (strongHeld other outside) (weakHeld other outside)
      (balanced.heldFit other outside)
  · intro q there other inside
    have stored := Finset.mem_of_mem_erase there
    exact fits other (strongFields q stored other inside) (weakFields q stored other inside)
      (balanced.fieldsFit q stored other inside)

/-- Dropping a weak reference. -/
theorem weaken (balanced : Balanced (.weak p ::ₘ held) overdrawn heap.toMemory) :
    Balanced held overdrawn { heap.toMemory with
      weakrefCount := Function.update heap.weakrefCount p (heap.weakrefCount p - 1) } where
  strong := by
    intro q member
    have before := balanced.strong q member
    have miss : ¬ strongly q (.weak p) = true := by simp [strongly, Ref.strong]
    rwa [tally_cons, if_neg miss] at before
  weak := by
    intro q member
    have before := balanced.weak q member
    rw [tally_cons] at before
    by_cases same : q = p
    · subst same
      rw [if_pos (by simp [weakly])] at before
      simp only [Function.update_self]
      exact (by omega : heap.weakrefCount q - 1 =
        tally (weakly q) held heap.allocated heap.refsAt)
    · rw [if_neg (by simp [weakly, Ne.symm same])] at before
      simp only [Function.update_of_ne same]
      exact before
  heldFit := fun other outside => balanced.heldFit other (Multiset.mem_cons_of_mem outside)
  fieldsFit := balanced.fieldsFit

end Balanced

end GoQuickjs.Gc
