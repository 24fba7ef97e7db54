import GoQuickjs.GcPlaces
import GoQuickjs.Library.TrialDeletion

/-!
# Taking references away

The first pass of the cycle collector. `gc_decref` takes from every count the
references that other structures hold, and moves what is left without references to
`tmp_obj_list`. What then remains of a count are the references from outside.

The loop walks over a list that changes under it, and takes the next entry before
its body, as the macro `list_for_each_safe` does.
-/

namespace GoQuickjs.Gc

open ReferenceCounts TrialDeletion

/-- `mark_children` with a function that is called on each child. -/
def markChildrenWith (visit : Heap → Ptr → Option Heap) (heap : Heap) (p : Ptr) : Option Heap :=
  match heap.struct p with
  | .live obj => (markChildren obj).foldlM visit heap
  | .freed _ => none

/-- `list_del`, then `list_add_tail` to `tmp_obj_list`. -/
def Heap.moveToTmp (heap : Heap) (p : Ptr) : Option Heap :=
  (heap.listDel p).map fun heap => { heap with tmpObjList := heap.tmpObjList ++ [p] }

/-- `gc_decref_child`. -/
def gcDecrefChild (heap : Heap) (p : Ptr) : Option Heap :=
  if p ∈ heap.allocated ∧ 0 < heap.refCount p then
    let heap := heap.decrement p
    if heap.refCount p = 0 ∧ heap.mark p = true then heap.moveToTmp p else some heap
  else none

/-- The loop of `gc_decref` from an entry on, for a bounded number of rounds. -/
def gcDecrefLoop : Nat → Heap → Option Ptr → Option Heap
  | _, heap, none => some heap
  | 0, _, some _ => none
  | rounds + 1, heap, some p =>
    let following := next heap.gcObjList p
    if p ∈ heap.allocated ∧ heap.mark p = false then
      (markChildrenWith gcDecrefChild heap p).bind fun heap =>
        let heap := { heap with mark := Function.update heap.mark p true }
        (if heap.refCount p = 0 then heap.moveToTmp p else some heap).bind fun heap =>
          gcDecrefLoop rounds heap following
    else none

/-- `gc_decref`. -/
def gcDecref (heap : Heap) : Option Heap :=
  gcDecrefLoop heap.gcObjList.length { heap with tmpObjList := [] } heap.gcObjList.head?

/-! ## The graph the passes see -/

/-- The children of the structure at an address. -/
def Memory.children (memory : Memory) (q : Ptr) : List Ptr :=
  match memory.struct q with
  | .live obj => markChildren obj
  | .freed _ => []

/-- The references that the structure at an address holds and the passes do not see. -/
def Memory.unreported (memory : Memory) (q : Ptr) : List Ref :=
  match memory.struct q with
  | .live obj => obj.unreported
  | .freed _ => []

/-- The references that the passes take for references from outside: those of the program, and
the message handlers of all Workers. -/
def Memory.external (memory : Memory) (roots : Multiset Ref) : Multiset Ref :=
  roots + ∑ q ∈ memory.allocated, (memory.unreported q : Multiset Ref)

/-- What a structure holds is what the passes see of it and what they do not. -/
theorem count_held (memory : Memory) (q p : Ptr) : (memory.refsAt q).countP (strongly p) =
    (memory.children q).count p + (memory.unreported q).countP (strongly p) := by
  cases there : memory.struct q with
  | live obj => simp [Memory.children, Memory.unreported, Memory.refsAt, there, countP_held]
  | freed type => simp [Memory.children, Memory.unreported, Memory.refsAt, there]

/-- A child of a structure is referred to by one of its fields. -/
theorem child_held {memory : Memory} {q p : Ptr} (child : p ∈ memory.children q) :
    ∃ ref ∈ memory.refsAt q, ref.strong = some p := by
  have positive : 0 < (memory.refsAt q).countP (strongly p) := by
    have seen : 0 < (memory.children q).count p := List.count_pos_iff.mpr child
    rw [count_held]
    omega
  simpa [strongly] using List.countP_pos_iff.mp positive

/-- What the passes do not see of a structure is held by one of its fields. -/
theorem unreported_held {memory : Memory} {q p : Ptr} {ref : Ref}
    (unseen : ref ∈ memory.unreported q) (counted : ref.strong = some p) :
    ∃ ref ∈ memory.refsAt q, ref.strong = some p := by
  have positive : 0 < (memory.refsAt q).countP (strongly p) := by
    have hidden : 0 < (memory.unreported q).countP (strongly p) :=
      List.countP_pos_iff.mpr ⟨ref, unseen, by simp [strongly, counted]⟩
    rw [count_held]
    omega
  simpa [strongly] using List.countP_pos_iff.mp positive

/-- The references to a structure that are held outside of all structures. -/
def outside (roots : Multiset Ref) (p : Ptr) : Nat := roots.countP (strongly p · = true)

/-- A structure is referred to from outside exactly if it is a root. -/
theorem outside_pos {roots : Multiset Ref} {p : Ptr} : 0 < outside roots p ↔ Rooted roots p := by
  rw [outside, Multiset.countP_pos]
  simp [Rooted, strongly]

/-- The references the collector does not see are those of the program and the unreported ones. -/
theorem outside_external (memory : Memory) (roots : Multiset Ref) (p : Ptr) :
    outside (memory.external roots) p =
      outside roots p + ∑ q ∈ memory.allocated, (memory.unreported q).countP (strongly p) := by
  have hidden := map_sum (Multiset.countPAddMonoidHom (strongly p · = true))
    (fun q => (memory.unreported q : Multiset Ref)) memory.allocated
  simp only [Multiset.coe_countPAddMonoidHom] at hidden
  rw [outside, Memory.external, Multiset.countP_add, hidden, outside]
  simp

/-- A structure is held from outside, as the passes see it, when the program holds it or it is
the message handler of a Worker. -/
theorem rooted_external {memory : Memory} {roots : Multiset Ref} {p : Ptr} :
    Rooted (memory.external roots) p ↔ Rooted roots p ∨
      ∃ q ∈ memory.allocated, ∃ ref ∈ memory.unreported q, ref.strong = some p := by
  simp only [Rooted, Memory.external, Multiset.mem_add, Multiset.mem_sum, Multiset.mem_coe]
  constructor
  · rintro ⟨ref, held | ⟨q, there, inside⟩, hits⟩
    · exact .inl ⟨ref, held, hits⟩
    · exact .inr ⟨q, there, ref, inside, hits⟩
  · rintro (⟨ref, held, hits⟩ | ⟨q, there, ref, inside, hits⟩)
    · exact ⟨ref, .inl held, hits⟩
    · exact ⟨ref, .inr ⟨q, there, inside⟩, hits⟩

/-! ## What can be reached -/

/-- The structures that the fields of the one at an address refer to. -/
def Memory.referred (memory : Memory) (q : Ptr) : List Ptr := strongTargets (memory.refsAt q)

/-- The program can reach the structure, through any fields. -/
def Memory.Reachable (memory : Memory) (roots : Multiset Ref) (p : Ptr) : Prop :=
  Reached memory.referred (outside roots) p

/-- The passes can reach the structure: from the program or from the message handler of a
Worker, through the fields that they see. -/
def Memory.Traced (memory : Memory) (roots : Multiset Ref) (p : Ptr) : Prop :=
  Reached memory.children (outside (memory.external roots)) p

/-- A structure is referred to by another exactly through one of its strong references. -/
theorem mem_referred {memory : Memory} {q p : Ptr} :
    p ∈ memory.referred q ↔ ∃ ref ∈ memory.refsAt q, ref.strong = some p := by
  simp [Memory.referred, strongTargets]

/-- The passes see a reference of a structure, or it is the message handler of a Worker. -/
theorem seen_or_hidden {memory : Memory} {q p : Ptr} (refers : p ∈ memory.referred q) :
    p ∈ memory.children q ∨ ∃ ref ∈ memory.unreported q, ref.strong = some p := by
  obtain ⟨ref, inside, hits⟩ := mem_referred.mp refers
  have positive : 0 < (memory.refsAt q).countP (strongly p) :=
    List.countP_pos_iff.mpr ⟨ref, inside, by simp [strongly, hits]⟩
  rw [count_held] at positive
  refine (Nat.add_pos_iff_pos_or_pos.mp positive).imp List.count_pos_iff.mp fun unseen => ?_
  simpa [strongly] using List.countP_pos_iff.mp unseen

section Reach

variable {roots pending : Multiset Ref} {overdrawn : Ptr → Nat} {memory : Memory} {p q : Ptr}

/-- With one reference more the program reaches no less. -/
theorem Memory.Reachable.grows (reached : memory.Reachable roots p) (ref : Ref) :
    memory.Reachable (ref ::ₘ roots) p := by
  refine Reached.mono (fun q held => ?_) reached
  obtain ⟨root, there, hits⟩ := outside_pos.mp held
  exact outside_pos.mpr ⟨root, Multiset.mem_cons_of_mem there, hits⟩

/-- What a structure in memory refers to is traced with it. -/
theorem Memory.Traced.held (traced : memory.Traced roots q) (stored : q ∈ memory.allocated)
    (refers : p ∈ memory.referred q) : memory.Traced roots p := by
  rcases seen_or_hidden refers with child | hidden
  · exact .step traced child
  · exact .root (outside_pos.mpr (rooted_external.mpr (.inr ⟨q, stored, hidden⟩)))

/-- What the program can reach is in memory. -/
theorem Memory.Reachable.stored (balanced : Balanced (pending + roots) overdrawn memory)
    (reached : memory.Reachable roots p) : p ∈ memory.allocated := by
  induction reached with
  | root held =>
    obtain ⟨ref, root, hits⟩ := outside_pos.mp held
    exact strong_target hits ▸ (balanced.heldFit ref (Multiset.mem_add.mpr (.inr root))).1
  | @step q p earlier refers inductionHypothesis =>
    obtain ⟨ref, inside, hits⟩ := mem_referred.mp refers
    exact strong_target hits ▸ (balanced.fieldsFit q inductionHypothesis ref inside).1

/-- What the program can reach is traced. -/
theorem Memory.Reachable.traced (balanced : Balanced (pending + roots) overdrawn memory)
    (reached : memory.Reachable roots p) : memory.Traced roots p := by
  induction reached with
  | root held => exact .root (outside_pos.mpr (rooted_external.mpr (.inl (outside_pos.mp held))))
  | @step q p earlier refers inductionHypothesis =>
    have there : q ∈ memory.allocated := Memory.Reachable.stored balanced earlier
    exact inductionHypothesis.held there refers

/-- What the program can reach is held by the program or by something it can reach. -/
theorem supported_reachable (balanced : Balanced (pending + roots) overdrawn memory) :
    Supported (memory.Reachable roots) roots memory := by
  intro p reached
  cases reached with
  | root held => exact .inl (outside_pos.mp held)
  | @step q _ earlier refers =>
    obtain ⟨ref, inside, hits⟩ := mem_referred.mp refers
    exact .inr ⟨q, Memory.Reachable.stored balanced earlier, earlier, ref, inside, hits⟩

end Reach

/-- The input of the collector: the structures of `gc_obj_list`, all of them live and
unmarked, whose counts are the references from outside and from each other. -/
structure Collectable (roots : Multiset Ref) (heap : Heap) : Prop where
  nodup : heap.gcObjList.Nodup
  allocated : ∀ p ∈ heap.gcObjList, p ∈ heap.allocated
  live : ∀ p ∈ heap.gcObjList, heap.Live p
  unmarked : ∀ p ∈ heap.gcObjList, heap.mark p = false
  inside : ∀ q ∈ heap.gcObjList, ∀ p ∈ heap.children q, p ∈ heap.gcObjList
  rooted : ∀ p, 0 < outside roots p → p ∈ heap.gcObjList
  counted : ∀ p ∈ heap.gcObjList,
    heap.refCount p = outside roots p + edges heap.children heap.gcObjList p

/-- Between operations the heap can be collected. -/
theorem Inv.collectable {needed : Ptr → Prop} {roots : Multiset Ref} {overdrawn : Ptr → Nat}
    {heap : Heap} (inv : Inv needed roots 0 overdrawn [] heap) (idle : heap.gcPhase = .none) :
    Collectable (heap.external roots) heap := by
  have quiet : heap.gcPhase ≠ .removeCycles := by simp [idle]
  have onlyGc : ∀ p, p ∈ heap.allocated → heap.Live p → p ∈ heap.gcObjList := by
    intro p stored live
    have placed := inv.placed p
    rcases placed.live_linked stored live with gc | tmp | zero
    · exact gc
    · exact absurd tmp (placed.quiet quiet).1
    · exact absurd zero (placed.idle idle).1
  have counts : ∀ p ∈ heap.gcObjList, heap.Live p ∧ 0 < heap.refCount p :=
    fun p member => (inv.placed p).counted member (by simp)
  have stored : ∀ p ∈ heap.gcObjList, p ∈ heap.allocated :=
    fun p member => (inv.placed p).linked_allocated (.inl member)
  have nodup : heap.gcObjList.Nodup := (List.nodup_append.mp (List.nodup_append.mp inv.nodup).1).1
  have undrawn : ∀ p ∈ heap.allocated, 0 < heap.refCount p → overdrawn p = 0 := by
    intro p member positive
    rcases Nat.eq_zero_or_pos (overdrawn p) with none | drawn
    · exact none
    · have settled : heap.refCount p + (overdrawn p : Int) = 0 := ((inv.placed p).spent member drawn).2
      omega
  have referred : ∀ p ∈ heap.allocated, 0 < heap.refCount p + overdrawn p → p ∈ heap.gcObjList := by
    intro p member positive
    refine onlyGc p member ?_
    by_contra dead
    by_cases linked : (heap.view p).Linked
    · rcases linked with gc | tmp | zero
      · exact dead (counts p gc).1
      · exact ((inv.placed p).quiet quiet).1 tmp
      · exact ((inv.placed p).idle idle).1 zero
    · have settled : heap.refCount p + (overdrawn p : Int) = 0 :=
        ((inv.placed p).kept member dead linked).2.1
      omega
  refine ⟨nodup, stored, fun p member => (counts p member).1, ?_, ?_, ?_, ?_⟩
  · exact fun p member => (inv.placed p).unmarked member
  · intro q there p refers
    obtain ⟨ref, held, counted⟩ := child_held refers
    have member : p ∈ heap.allocated :=
      strong_target counted ▸ (inv.balanced.fieldsFit q (stored q there) ref held).1
    exact referred p member (inv.balanced.pos_of_field (stored q there) held counted)
  · intro p held
    rcases rooted_external.mp (outside_pos.mp held) with
      ⟨ref, root, hits⟩ | ⟨q, there, _, unseen, hidden⟩
    · have inHand : ref ∈ (0 : Multiset Ref) + roots := by simpa using root
      have member : p ∈ heap.allocated := strong_target hits ▸ (inv.balanced.heldFit ref inHand).1
      exact referred p member (inv.balanced.pos_of_held inHand hits)
    · obtain ⟨ref, inside, hits⟩ := unreported_held unseen hidden
      have member : p ∈ heap.allocated :=
        strong_target hits ▸ (inv.balanced.fieldsFit q there ref inside).1
      exact referred p member (inv.balanced.pos_of_field there inside hits)
  · intro p member
    have total := inv.balanced.strong p (stored p member)
    rw [undrawn p (stored p member) (counts p member).2] at total
    have inGraph : ∑ q ∈ heap.allocated, (heap.children q).count p =
        edges heap.children heap.gcObjList p := by
      have subset : heap.gcObjList.toFinset ⊆ heap.allocated :=
        fun q listed => stored q (List.mem_toFinset.mp listed)
      have elsewhere : ∀ q ∈ heap.allocated, q ∉ heap.gcObjList.toFinset →
          (heap.children q).count p = 0 := by
        intro q there unlisted
        have dead : ¬ heap.Live q := fun live => unlisted (List.mem_toFinset.mpr (onlyGc q there live))
        cases fields : heap.struct q with
        | live obj => exact absurd ⟨obj, fields⟩ dead
        | freed type => simp [Memory.children, fields]
      rw [← Finset.sum_subset subset elsewhere, List.sum_toFinset _ nodup, edges]
    have parts : ∑ q ∈ heap.allocated, (heap.refsAt q).countP (strongly p) =
        edges heap.children heap.gcObjList p +
          ∑ q ∈ heap.allocated, (heap.unreported q).countP (strongly p) := by
      simp only [count_held, Finset.sum_add_distrib, inGraph]
    have held : outside roots p = (0 + roots).countP (strongly p · = true) := by
      rw [zero_add]
      rfl
    rw [tally, parts, ← held] at total
    rw [outside_external]
    push_cast at total ⊢
    omega

namespace Inv

variable {needed : Ptr → Prop} {roots pending : Multiset Ref} {overdrawn : Ptr → Nat}
  {opened : List Ptr} {heap : Heap} {q p : Ptr}

/-- Outside of any phase the live structures are those of `gc_obj_list`. -/
theorem live_iff (inv : Inv needed roots pending overdrawn [] heap) (idle : heap.gcPhase = .none) :
    p ∈ heap.gcObjList ↔ p ∈ heap.allocated ∧ heap.Live p := by
  have quiet : heap.gcPhase ≠ .removeCycles := by simp [idle]
  have placed := inv.placed p
  constructor
  · intro gc
    exact ⟨placed.linked_allocated (.inl gc), (placed.counted gc (by simp)).1⟩
  · rintro ⟨stored, live⟩
    rcases placed.live_linked stored live with gc | tmp | zero
    · exact gc
    · exact absurd tmp (placed.quiet quiet).1
    · exact absurd zero (placed.idle idle).1

/-- Outside of any phase a structure that holds something is live. -/
theorem holder_listed (inv : Inv needed roots pending overdrawn [] heap)
    (idle : heap.gcPhase = .none) (stored : q ∈ heap.allocated) {ref : Ref}
    (inside : ref ∈ heap.refsAt q) : q ∈ heap.gcObjList := by
  refine (inv.live_iff idle).mpr ⟨stored, ?_⟩
  cases fields : heap.struct q with
  | live obj => exact ⟨obj, fields⟩
  | freed type => simp [Memory.refsAt, fields] at inside

/-- Between operations what a live structure refers to is live. -/
theorem referred_listed (inv : Inv needed roots 0 overdrawn [] heap) (idle : heap.gcPhase = .none)
    (listed : q ∈ heap.gcObjList) (refers : p ∈ heap.referred q) : p ∈ heap.gcObjList := by
  have collectable := inv.collectable idle
  have stored : q ∈ heap.allocated := collectable.allocated q listed
  rcases seen_or_hidden refers with child | hidden
  · exact collectable.inside q listed p child
  · exact collectable.rooted p (outside_pos.mpr (rooted_external.mpr (.inr ⟨q, stored, hidden⟩)))

/-- Between operations what the program needs is live. -/
theorem needed_listed (inv : Inv needed roots 0 overdrawn [] heap) (idle : heap.gcPhase = .none)
    (use : needed p) : p ∈ heap.gcObjList := by
  rcases inv.supported p use with rooted | ⟨q, stored, _, ref, inside, hits⟩
  · exact (inv.collectable idle).rooted p (outside_pos.mpr (rooted_external.mpr (.inl rooted)))
  · exact inv.referred_listed idle (inv.holder_listed idle stored inside)
      (mem_referred.mpr ⟨ref, inside, hits⟩)

/-- Between operations what is traced is live. -/
theorem traced_listed (inv : Inv needed roots 0 overdrawn [] heap) (idle : heap.gcPhase = .none)
    (traced : heap.Traced roots p) : p ∈ heap.gcObjList := by
  have collectable := inv.collectable idle
  induction traced with
  | root held => exact collectable.rooted _ held
  | @step q p earlier refers inductionHypothesis =>
    exact collectable.inside q inductionHypothesis p refers

/-- Outside of any phase other structures can be taken for the needed ones, with what runs
among them. -/
theorem regard {other : Ptr → Prop} (inv : Inv needed roots pending overdrawn opened heap)
    (idle : heap.gcPhase = .none) (supported : Supported other roots heap.toMemory)
    (runs : ∀ q ∈ heap.allocated, ∀ obj, heap.struct q = .live obj → obj.freeable = false → other q) :
    Inv other roots pending overdrawn opened heap :=
  ⟨inv.balanced, inv.nodup, fun q => (inv.placed q).regard (runs q), supported,
    fun removing => by simp [idle] at removing⟩

end Inv

/-! ## Taking the references away -/

/-- The heap while `gc_decref` has visited the structures `done` and has the others
still before it. -/
structure Decreased (start : Heap) (done rest : List Ptr) (counts : Ptr → Int) (heap : Heap) :
    Prop where
  allocated : heap.allocated = start.allocated
  struct : heap.struct = start.struct
  weakrefCount : heap.weakrefCount = start.weakrefCount
  refCount : heap.refCount = counts
  mark : heap.mark = fun p => if p ∈ done then true else start.mark p
  gc : heap.gcObjList = done.filter (counts · ≠ 0) ++ rest
  tmp : heap.tmpObjList.Perm (done.filter (counts · = 0))
  zero : heap.gcZeroRefCountList = start.gcZeroRefCountList
  phase : heap.gcPhase = start.gcPhase

/-- A count that falls to zero takes one entry out of the ones that are not zero. -/
theorem filter_update_zero {done : List Ptr} {counts : Ptr → Int} {p : Ptr} (nodup : done.Nodup)
    (positive : counts p ≠ 0) :
    done.filter (Function.update counts p 0 · ≠ 0) = (done.filter (counts · ≠ 0)).erase p := by
  rw [(nodup.filter _).erase_eq_filter, List.filter_filter]
  refine List.filter_congr fun q _ => ?_
  by_cases same : q = p
  · subst same
    simp
  · simp [same]

/-- A change of one count that keeps whether it is zero keeps which structures stay. -/
theorem filter_update_ne {done : List Ptr} {counts : Ptr → Int} {p : Ptr} {value : Int}
    (kept : p ∈ done → (value = 0 ↔ counts p = 0)) :
    done.filter (Function.update counts p value · ≠ 0) = done.filter (counts · ≠ 0) ∧
      done.filter (Function.update counts p value · = 0) = done.filter (counts · = 0) := by
  constructor <;> refine List.filter_congr fun q member => ?_
  all_goals
    by_cases same : q = p
    · subst same
      simp [kept member]
    · simp [same]

/-- A count that becomes zero moves its structure from those that stay to those that go. -/
theorem filter_update_perm {done : List Ptr} {counts : Ptr → Int} {p : Ptr} (nodup : done.Nodup)
    (member : p ∈ done) (positive : counts p ≠ 0) :
    (done.filter (counts · = 0) ++ [p]).Perm (done.filter (Function.update counts p 0 · = 0)) := by
  rw [List.perm_ext_iff_of_nodup]
  · intro q
    by_cases same : q = p
    · subst same
      simp [member]
    · simp [same]
  · refine List.Nodup.append (nodup.filter _) (List.nodup_singleton p) ?_
    simp [positive]
  · exact nodup.filter _

section Decref

variable {start heap : Heap} {done rest : List Ptr} {counts : Ptr → Int} {p : Ptr}

/-- `gc_decref_child` on a structure with a count. -/
theorem gcDecrefChild_step (state : Decreased start done rest counts heap)
    (nodup : (done ++ rest).Nodup) (loose : ∀ q ∈ done ++ rest, q ∉ start.gcZeroRefCountList)
    (unmarked : ∀ q ∈ rest, start.mark q = false) (member : p ∈ done ++ rest)
    (stored : p ∈ start.allocated) (positive : 0 < counts p) :
    ∃ after, gcDecrefChild heap p = some after ∧
      Decreased start done rest (Function.update counts p (counts p - 1)) after := by
  have count : heap.refCount p = counts p := congrFun state.refCount p
  have value : (heap.decrement p).refCount = Function.update counts p (counts p - 1) := by
    rw [← state.refCount]
    rfl
  have guard : p ∈ heap.allocated ∧ 0 < heap.refCount p := ⟨state.allocated ▸ stored, count ▸ positive⟩
  obtain ⟨nodupDone, nodupRest, apart⟩ := List.nodup_append.mp nodup
  have marked : heap.mark p = true ↔ p ∈ done := by
    rw [state.mark]
    by_cases visited : p ∈ done
    · simp [visited]
    · have later : p ∈ rest := (List.mem_append.mp member).resolve_left visited
      simp [visited, unmarked p later]
  rw [gcDecrefChild, if_pos guard]
  simp only [value, Function.update_self]
  by_cases moves : counts p - 1 = 0 ∧ (heap.decrement p).mark p = true
  · have visited : p ∈ done := marked.mp moves.2
    have inGc : p ∈ heap.gcObjList := by
      rw [state.gc]
      exact List.mem_append_left _ (List.mem_filter.mpr ⟨visited, by simpa using positive.ne'⟩)
    have linked : (heap.decrement p).Linked p := .inl inGc
    have notRest : p ∉ rest := fun later => apart p visited p later rfl
    have nonzero : counts p ≠ 0 := positive.ne'
    rw [if_pos moves, Heap.moveToTmp, Heap.listDel, if_pos linked]
    refine ⟨_, rfl, ?_⟩
    exact {
      allocated := state.allocated
      struct := state.struct
      weakrefCount := state.weakrefCount
      refCount := value
      mark := state.mark
      gc := by
        change heap.gcObjList.erase p = _
        rw [state.gc, List.erase_append_left, moves.1, filter_update_zero nodupDone nonzero]
        exact List.mem_filter.mpr ⟨visited, by simpa using nonzero⟩
      tmp := by
        change (heap.tmpObjList.erase p ++ [p]).Perm _
        have absent : p ∉ heap.tmpObjList := by
          rw [state.tmp.mem_iff]
          simp [nonzero]
        rw [List.erase_of_not_mem absent, moves.1]
        exact (state.tmp.append_right [p]).trans (filter_update_perm nodupDone visited nonzero)
      zero := by
        change heap.gcZeroRefCountList.erase p = _
        rw [state.zero]
        exact List.erase_of_not_mem (loose p member)
      phase := state.phase }
  · have still : p ∈ done → (counts p - 1 = 0 ↔ counts p = 0) := by
      intro visited
      have notZero : ¬ counts p - 1 = 0 := fun zero => moves ⟨zero, marked.mpr visited⟩
      omega
    rw [if_neg moves]
    exact ⟨_, rfl, {
      allocated := state.allocated
      struct := state.struct
      weakrefCount := state.weakrefCount
      refCount := value
      mark := state.mark
      gc := by rw [(filter_update_ne still).1]; exact state.gc
      tmp := by rw [(filter_update_ne still).2]; exact state.tmp
      zero := state.zero
      phase := state.phase }⟩

/-- All children of one structure, when their counts suffice. -/
theorem gcDecrefChild_fold (cs : List Ptr) (state : Decreased start done rest counts heap)
    (nodup : (done ++ rest).Nodup) (loose : ∀ q ∈ done ++ rest, q ∉ start.gcZeroRefCountList)
    (unmarked : ∀ q ∈ rest, start.mark q = false)
    (inside : ∀ q ∈ cs, q ∈ done ++ rest ∧ q ∈ start.allocated)
    (enough : ∀ q ∈ cs, (cs.count q : Int) ≤ counts q) :
    ∃ after, cs.foldlM gcDecrefChild heap = some after ∧
      Decreased start done rest (fun q => counts q - cs.count q) after := by
  induction cs generalizing heap counts with
  | nil => exact ⟨heap, rfl, by simpa using state⟩
  | cons c cs inductionHypothesis =>
    have positive : 0 < counts c := by
      have bound := enough c (by simp)
      rw [List.count_cons_self] at bound
      push_cast at bound
      omega
    obtain ⟨member, stored⟩ := inside c (by simp)
    obtain ⟨middle, stepped, between⟩ :=
      gcDecrefChild_step state nodup loose unmarked member stored positive
    have remaining : ∀ q ∈ cs, (cs.count q : Int) ≤ Function.update counts c (counts c - 1) q := by
      intro q later
      have bound := enough q (List.mem_cons_of_mem _ later)
      by_cases same : q = c
      · subst same
        rw [List.count_cons_self] at bound
        rw [Function.update_self]
        push_cast at bound
        omega
      · rw [Function.update_of_ne same]
        rwa [List.count_cons_of_ne (Ne.symm same)] at bound
    obtain ⟨after, others, final⟩ := inductionHypothesis between
      (fun q later => inside q (List.mem_cons_of_mem _ later)) remaining
    refine ⟨after, ?_, ?_⟩
    · rw [List.foldlM_cons, stepped]
      exact others
    · have same : (fun q => Function.update counts c (counts c - 1) q - (cs.count q : Int)) =
          fun q => counts q - ((c :: cs).count q : Int) := by
        funext q
        by_cases equal : q = c
        · subst equal
          rw [Function.update_self, List.count_cons_self]
          push_cast
          ring
        · rw [Function.update_of_ne equal, List.count_cons_of_ne (Ne.symm equal)]
      exact same ▸ final

/-- The end of one round: the structure is marked, and leaves the list when nothing is
left of its count. -/
theorem gcDecref_marks (state : Decreased start done (p :: rest) counts heap)
    (nodup : (done ++ p :: rest).Nodup) (loose : p ∉ start.gcZeroRefCountList) :
    ∃ after, (if heap.refCount p = 0 then
        ({ heap with mark := Function.update heap.mark p true } : Heap).moveToTmp p
      else some { heap with mark := Function.update heap.mark p true }) = some after ∧
      Decreased start (done ++ [p]) rest counts after := by
  have count : heap.refCount p = counts p := congrFun state.refCount p
  obtain ⟨nodupDone, nodupRest, apart⟩ := List.nodup_append.mp nodup
  have unvisited : p ∉ done := fun visited => apart p visited p (by simp) rfl
  have mark : Function.update heap.mark p true =
      fun q => if q ∈ done ++ [p] then true else start.mark q := by
    funext q
    rw [state.mark]
    by_cases same : q = p
    · subst same
      simp
    · simp [same]
  by_cases empty : counts p = 0
  · have linked : ({ heap with mark := Function.update heap.mark p true } : Heap).Linked p := by
      refine .inl ?_
      simp [state.gc]
    have absent : p ∉ done.filter (counts · ≠ 0) := fun there => unvisited (List.mem_of_mem_filter there)
    rw [if_pos (count.trans empty), Heap.moveToTmp, Heap.listDel, if_pos linked]
    exact ⟨_, rfl, {
      allocated := state.allocated
      struct := state.struct
      weakrefCount := state.weakrefCount
      refCount := state.refCount
      mark := mark
      gc := by
        change heap.gcObjList.erase p = _
        rw [state.gc, List.erase_append_right _ absent, List.erase_cons_head, List.filter_append]
        simp [empty]
      tmp := by
        change (heap.tmpObjList.erase p ++ [p]).Perm _
        have notThere : p ∉ heap.tmpObjList := by
          rw [state.tmp.mem_iff]
          simp [unvisited]
        rw [List.erase_of_not_mem notThere, List.filter_append]
        simpa [empty] using state.tmp.append_right [p]
      zero := by
        change heap.gcZeroRefCountList.erase p = _
        rw [state.zero]
        exact List.erase_of_not_mem loose
      phase := state.phase }⟩
  · rw [if_neg (count ▸ empty)]
    exact ⟨_, rfl, {
      allocated := state.allocated
      struct := state.struct
      weakrefCount := state.weakrefCount
      refCount := state.refCount
      mark := mark
      gc := by
        rw [List.filter_append]
        simpa [empty] using state.gc
      tmp := by
        rw [List.filter_append]
        simpa [empty] using state.tmp
      zero := state.zero
      phase := state.phase }⟩

end Decref

/-- Marking the children of a structure visits them one after another. -/
theorem markChildrenWith_eq {heap : Heap} {p : Ptr} (visit : Heap → Ptr → Option Heap)
    (live : heap.Live p) :
    markChildrenWith visit heap p = (heap.children p).foldlM visit heap := by
  obtain ⟨obj, there⟩ := live
  simp [markChildrenWith, Memory.children, there]

section Passes

variable {roots : Multiset Ref} {start : Heap}

/-- What is left of the counts when the references of some structures are taken away. -/
def lessEdges (start : Heap) (done : List Ptr) (p : Ptr) : Int :=
  start.refCount p - edges start.children done p

/-- The loop of `gc_decref` visits every structure of the list once, with all assertions
holding.

Proof: induction on the structures still to be visited. The count of a child is at
least the number of references that were not taken away yet, and among these are the
ones of the structure that is visited. -/
theorem gcDecrefLoop_visits (collectable : Collectable roots start)
    (loose : ∀ q ∈ start.gcObjList, q ∉ start.gcZeroRefCountList) {done rest : List Ptr}
    (split : start.gcObjList = done ++ rest) {heap : Heap}
    (state : Decreased start done rest (lessEdges start done) heap) :
    ∃ after, gcDecrefLoop rest.length heap rest.head? = some after ∧
      Decreased start start.gcObjList [] (lessEdges start start.gcObjList) after := by
  induction rest generalizing done heap with
  | nil =>
    rw [List.append_nil] at split
    exact ⟨heap, rfl, split ▸ state⟩
  | cons p rest inductionHypothesis =>
    have nodup : (done ++ p :: rest).Nodup := split ▸ collectable.nodup
    have listed : p ∈ start.gcObjList := by simp [split]
    obtain ⟨nodupDone, nodupRest, apart⟩ := List.nodup_append.mp nodup
    have unvisited : p ∉ done := fun visited => apart p visited p (by simp) rfl
    have live : heap.Live p := by
      obtain ⟨obj, there⟩ := collectable.live p listed
      exact ⟨obj, (congrFun state.struct p).trans there⟩
    have sameChildren : heap.children p = start.children p := by
      simp [Memory.children, state.struct]
    have guard : p ∈ heap.allocated ∧ heap.mark p = false := by
      refine ⟨state.allocated ▸ collectable.allocated p listed, ?_⟩
      rw [state.mark]
      simp [unvisited, collectable.unmarked p listed]
    have following : next heap.gcObjList p = rest.head? := by
      rw [state.gc]
      exact next_append fun there => unvisited (List.mem_of_mem_filter there)
    have inside : ∀ q ∈ start.children p, q ∈ done ++ p :: rest ∧ q ∈ start.allocated := by
      intro q refers
      have member := collectable.inside p listed q refers
      exact ⟨split ▸ member, collectable.allocated q member⟩
    have enough : ∀ q ∈ start.children p,
        ((start.children p).count q : Int) ≤ lessEdges start done q := by
      intro q refers
      have total := collectable.counted q (collectable.inside p listed q refers)
      rw [split, edges_append, edges_cons] at total
      rw [lessEdges]
      push_cast at total
      omega
    obtain ⟨middle, visited, between⟩ := gcDecrefChild_fold (start.children p) state nodup
      (fun q member => loose q (split ▸ member))
      (fun q later => collectable.unmarked q (by rw [split]; exact List.mem_append_right _ later))
      inside enough
    have counts : (fun q => lessEdges start done q - ((start.children p).count q : Int)) =
        lessEdges start (done ++ [p]) := by
      funext q
      simp only [lessEdges, edges_append, edges_cons, edges_nil]
      push_cast
      ring
    rw [counts] at between
    obtain ⟨marked, moved, ready⟩ := gcDecref_marks between nodup (loose p listed)
    obtain ⟨after, others, final⟩ := inductionHypothesis (by simp [split]) ready
    refine ⟨after, ?_, final⟩
    rw [List.head?_cons, List.length_cons, gcDecrefLoop]
    simp only
    rw [if_pos guard, markChildrenWith_eq _ live, sameChildren, visited, following]
    exact (congrArg (Option.bind · _) moved).trans others

/-- `gc_decref` returns. What is left of each count are the references from outside; the
structures without any are in `tmp_obj_list`. -/
theorem gcDecref_returns (collectable : Collectable roots start)
    (loose : ∀ q ∈ start.gcObjList, q ∉ start.gcZeroRefCountList) :
    ∃ after, gcDecref start = some after ∧
      Decreased start start.gcObjList [] (lessEdges start start.gcObjList) after := by
  have ready : Decreased start [] start.gcObjList (lessEdges start [])
      { start with tmpObjList := [] } := by
    refine ⟨rfl, rfl, rfl, ?_, ?_, rfl, .refl _, rfl, rfl⟩
    · funext q
      simp [lessEdges]
    · funext q
      simp
  exact gcDecrefLoop_visits collectable loose (by simp) ready

end Passes

end GoQuickjs.Gc
