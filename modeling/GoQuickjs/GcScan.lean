import GoQuickjs.GcDecref

/-!
# Finding what is unreachable

The second pass of the cycle collector. `gc_scan` starts from what still has
references: it gives back the references each of these structures holds, and a
structure that becomes referred to again goes to the end of the list the loop is
walking over. What then stays behind is unreachable, and gets its references back as
well.

The loop takes the next entry after its body, as the macro `list_for_each` does, so
that it also visits what its body appends.
-/

namespace GoQuickjs.Gc

open ReferenceCounts TrialDeletion

/-- `++ref_count`. -/
def Heap.increment (heap : Heap) (p : Ptr) : Heap :=
  { heap with refCount := Function.update heap.refCount p (heap.refCount p + 1) }

/-- `gc_scan_incref_child`. -/
def gcScanIncrefChild (heap : Heap) (p : Ptr) : Option Heap :=
  if p ∈ heap.allocated then
    let heap := heap.increment p
    if heap.refCount p = 1 then
      (heap.listDel p).map fun heap =>
        { heap with
          gcObjList := heap.gcObjList ++ [p]
          mark := Function.update heap.mark p false }
    else some heap
  else none

/-- `gc_scan_incref_child2`. -/
def gcScanIncrefChild2 (heap : Heap) (p : Ptr) : Option Heap :=
  if p ∈ heap.allocated then some (heap.increment p) else none

/-- The first loop of `gc_scan` from an entry on, for a bounded number of rounds. -/
def gcScanLoop : Nat → Heap → Option Ptr → Option Heap
  | _, heap, none => some heap
  | 0, _, some _ => none
  | rounds + 1, heap, some p =>
    if p ∈ heap.allocated ∧ 0 < heap.refCount p then
      (markChildrenWith gcScanIncrefChild
        { heap with mark := Function.update heap.mark p false } p).bind fun heap =>
          gcScanLoop rounds heap (next heap.gcObjList p)
    else none

/-- `gc_scan`. Its second loop changes no list. -/
def gcScan (heap : Heap) : Option Heap :=
  (gcScanLoop heap.allocated.card heap heap.gcObjList.head?).bind fun heap =>
    heap.tmpObjList.foldlM (markChildrenWith gcScanIncrefChild2) heap

/-! ## Giving references back -/

/-- The heap while `gc_scan` has visited the structures `front`, will visit `rest`, and has
left the others in `tmp_obj_list`. -/
structure Scanned (roots : Multiset Ref) (start : Heap) (front rest : List Ptr)
    (counts : Ptr → Int) (heap : Heap) : Prop where
  allocated : heap.allocated = start.allocated
  struct : heap.struct = start.struct
  weakrefCount : heap.weakrefCount = start.weakrefCount
  refCount : heap.refCount = counts
  gc : heap.gcObjList = front ++ rest
  members : (front ++ rest ++ heap.tmpObjList).Perm start.gcObjList
  kept : ∀ q ∈ front ++ rest, 0 < counts q
  left : ∀ q ∈ heap.tmpObjList, counts q = 0 ∧ heap.mark q = true
  reached : ∀ q ∈ front ++ rest, Reached start.children (outside roots) q
  visited : ∀ q ∈ front, heap.mark q = false
  others : ∀ q, q ∉ start.gcObjList → heap.mark q = start.mark q
  zero : heap.gcZeroRefCountList = start.gcZeroRefCountList
  phase : heap.gcPhase = start.gcPhase

section Scan

variable {roots : Multiset Ref} {start heap : Heap} {front rest : List Ptr} {counts : Ptr → Int}
  {p : Ptr}

/-- `gc_scan_incref_child` on a child of a reached structure. -/
theorem gcScanIncrefChild_step (collectable : Collectable roots start)
    (loose : ∀ q ∈ start.gcObjList, q ∉ start.gcZeroRefCountList)
    (state : Scanned roots start front rest counts heap) (member : p ∈ start.gcObjList)
    (refers : Reached start.children (outside roots) p) :
    ∃ after more, gcScanIncrefChild heap p = some after ∧
      Scanned roots start front (rest ++ more) (Function.update counts p (counts p + 1)) after := by
  have stored : p ∈ heap.allocated := state.allocated ▸ collectable.allocated p member
  have value : (heap.increment p).refCount = Function.update counts p (counts p + 1) := by
    rw [← state.refCount]
    rfl
  have nodup : (front ++ rest ++ heap.tmpObjList).Nodup :=
    state.members.nodup_iff.mpr collectable.nodup
  obtain ⟨nodupList, nodupTmp, apart⟩ := List.nodup_append.mp nodup
  have still : ∀ q ∈ heap.tmpObjList, q ≠ p →
      Function.update counts p (counts p + 1) q = 0 ∧ heap.mark q = true := by
    intro q there other
    rw [Function.update_of_ne other]
    exact state.left q there
  rw [gcScanIncrefChild, if_pos stored]
  simp only [value, Function.update_self]
  by_cases back : counts p + 1 = 1
  · have zero : counts p = 0 := by omega
    have notKept : p ∉ front ++ rest := fun there => absurd (state.kept p there) (by omega)
    have inTmp : p ∈ heap.tmpObjList :=
      (List.mem_append.mp (state.members.mem_iff.mpr member)).resolve_left notKept
    have linked : (heap.increment p).Linked p := .inr (.inl inTmp)
    have notGc : p ∉ heap.gcObjList := state.gc ▸ notKept
    rw [if_pos back, Heap.listDel, if_pos linked]
    refine ⟨_, [p], rfl, ?_⟩
    exact {
      allocated := state.allocated
      struct := state.struct
      weakrefCount := state.weakrefCount
      refCount := value
      gc := by
        change heap.gcObjList.erase p ++ [p] = _
        rw [List.erase_of_not_mem notGc, state.gc, List.append_assoc]
      members := by
        change (front ++ (rest ++ [p]) ++ heap.tmpObjList.erase p).Perm start.gcObjList
        have moved := (List.perm_cons_erase inTmp).append_left (front ++ rest)
        refine List.Perm.trans ?_ (moved.symm.trans state.members)
        simp
      kept := by
        intro q there
        by_cases same : q = p
        · subst same
          rw [Function.update_self]
          omega
        · rw [Function.update_of_ne same]
          refine state.kept q ?_
          simpa [same] using there
      left := by
        intro q there
        have remains := nodupTmp.mem_erase_iff.mp there
        obtain ⟨empty, set⟩ := still q remains.2 remains.1
        exact ⟨empty, (Function.update_of_ne remains.1 ..).trans set⟩
      reached := by
        intro q there
        by_cases same : q = p
        · exact same ▸ refers
        · refine state.reached q ?_
          simpa [same] using there
      visited := by
        intro q there
        by_cases same : q = p
        · subst same
          exact Function.update_self ..
        · exact (Function.update_of_ne same ..).trans (state.visited q there)
      others := by
        intro q elsewhere
        have same : q ≠ p := fun same => elsewhere (same ▸ member)
        exact (Function.update_of_ne same ..).trans (state.others q elsewhere)
      zero := by
        change heap.gcZeroRefCountList.erase p = _
        rw [state.zero]
        exact List.erase_of_not_mem (loose p member)
      phase := state.phase }
  · have notTmp : p ∉ heap.tmpObjList := fun there => absurd (state.left p there).1 (by omega)
    rw [if_neg back]
    exact ⟨_, [], rfl, {
      allocated := state.allocated
      struct := state.struct
      weakrefCount := state.weakrefCount
      refCount := value
      gc := by rw [List.append_nil]; exact state.gc
      members := by rw [List.append_nil]; exact state.members
      kept := by
        intro q there
        rw [List.append_nil] at there
        by_cases same : q = p
        · subst same
          have positive := state.kept q there
          rw [Function.update_self]
          omega
        · rw [Function.update_of_ne same]
          exact state.kept q there
      left := fun q there => still q there fun same => notTmp (same ▸ there)
      reached := by rw [List.append_nil]; exact state.reached
      visited := state.visited
      others := state.others
      zero := state.zero
      phase := state.phase }⟩

/-- All children of a reached structure. -/
theorem gcScanIncrefChild_fold (collectable : Collectable roots start)
    (loose : ∀ q ∈ start.gcObjList, q ∉ start.gcZeroRefCountList) (cs : List Ptr)
    (state : Scanned roots start front rest counts heap)
    (inside : ∀ q ∈ cs, q ∈ start.gcObjList ∧ Reached start.children (outside roots) q) :
    ∃ after more, cs.foldlM gcScanIncrefChild heap = some after ∧
      Scanned roots start front (rest ++ more) (fun q => counts q + cs.count q) after := by
  induction cs generalizing heap rest counts with
  | nil => exact ⟨heap, [], rfl, by simpa using state⟩
  | cons c cs inductionHypothesis =>
    obtain ⟨member, refers⟩ := inside c (by simp)
    obtain ⟨middle, first, stepped, between⟩ :=
      gcScanIncrefChild_step collectable loose state member refers
    obtain ⟨after, later, others, final⟩ := inductionHypothesis between
      (fun q there => inside q (List.mem_cons_of_mem _ there))
    refine ⟨after, first ++ later, ?_, ?_⟩
    · rw [List.foldlM_cons, stepped]
      exact others
    · have same : (fun q => Function.update counts c (counts c + 1) q + (cs.count q : Int)) =
          fun q => counts q + ((c :: cs).count q : Int) := by
        funext q
        by_cases equal : q = c
        · subst equal
          rw [Function.update_self, List.count_cons_self]
          push_cast
          ring
        · rw [Function.update_of_ne equal, List.count_cons_of_ne (Ne.symm equal)]
      rw [← List.append_assoc]
      exact same ▸ final

/-- The counts when some structures got back the references they hold. -/
def givenBack (start : Heap) (done : List Ptr) (p : Ptr) : Int :=
  lessEdges start start.gcObjList p + edges start.children done p

/-- The first loop of `gc_scan` returns when no structure is left to visit, with all
assertions holding.

Proof: induction on the rounds. Every round visits one more structure of the list, and
a structure is in only one place of it. -/
theorem gcScanLoop_visits (collectable : Collectable roots start)
    (loose : ∀ q ∈ start.gcObjList, q ∉ start.gcZeroRefCountList) (rounds : Nat)
    (enough : start.gcObjList.length ≤ rounds + front.length)
    (state : Scanned roots start front rest (givenBack start front) heap) :
    ∃ after kept, gcScanLoop rounds heap rest.head? = some after ∧
      Scanned roots start kept [] (givenBack start kept) after := by
  induction rounds generalizing heap front rest with
  | zero =>
    have size := state.members.length_eq
    simp only [List.length_append] at size
    obtain rfl : rest = [] := List.eq_nil_of_length_eq_zero (by omega)
    exact ⟨heap, front, rfl, state⟩
  | succ rounds inductionHypothesis =>
    cases rest with
    | nil => exact ⟨heap, front, rfl, state⟩
    | cons p rest =>
      have listed : p ∈ front ++ p :: rest := by simp
      have member : p ∈ start.gcObjList :=
        state.members.mem_iff.mp (List.mem_append_left _ listed)
      have live : heap.Live p := by
        obtain ⟨obj, there⟩ := collectable.live p member
        exact ⟨obj, (congrFun state.struct p).trans there⟩
      have sameChildren : heap.children p = start.children p := by
        simp [Memory.children, state.struct]
      have guard : p ∈ heap.allocated ∧ 0 < heap.refCount p := by
        refine ⟨state.allocated ▸ collectable.allocated p member, ?_⟩
        rw [state.refCount]
        exact state.kept p listed
      have nodup : (front ++ p :: rest ++ heap.tmpObjList).Nodup :=
        state.members.nodup_iff.mpr collectable.nodup
      have notTmp : p ∉ heap.tmpObjList := by
        intro there
        exact (List.nodup_append.mp nodup).2.2 p listed p there rfl
      have unmarked : Scanned roots start (front ++ [p]) rest (givenBack start front)
          { heap with mark := Function.update heap.mark p false } := {
        allocated := state.allocated
        struct := state.struct
        weakrefCount := state.weakrefCount
        refCount := state.refCount
        gc := by simpa using state.gc
        members := by simpa using state.members
        kept := by simpa using state.kept
        left := by
          intro q there
          have other : q ≠ p := fun same => notTmp (same ▸ there)
          exact ⟨(state.left q there).1, (Function.update_of_ne other ..).trans (state.left q there).2⟩
        reached := by simpa using state.reached
        visited := by
          intro q there
          by_cases same : q = p
          · subst same
            exact Function.update_self ..
          · refine (Function.update_of_ne same ..).trans (state.visited q ?_)
            simpa [same] using there
        others := by
          intro q elsewhere
          have other : q ≠ p := fun same => elsewhere (same ▸ member)
          exact (Function.update_of_ne other ..).trans (state.others q elsewhere)
        zero := state.zero
        phase := state.phase }
      have inside : ∀ q ∈ start.children p, q ∈ start.gcObjList ∧
          Reached start.children (outside roots) q :=
        fun q refers => ⟨collectable.inside p member q refers,
          .step (state.reached p listed) refers⟩
      obtain ⟨middle, more, visited, between⟩ :=
        gcScanIncrefChild_fold collectable loose (start.children p) unmarked inside
      have counts : (fun q => givenBack start front q + ((start.children p).count q : Int)) =
          givenBack start (front ++ [p]) := by
        funext q
        simp only [givenBack, edges_append, edges_cons, edges_nil]
        push_cast
        ring
      rw [counts] at between
      have following : next middle.gcObjList p = (rest ++ more).head? := by
        have notFront : p ∉ front := by
          intro there
          exact (List.nodup_append.mp (List.nodup_append.mp nodup).1).2.2 p there p (by simp) rfl
        rw [between.gc, List.append_assoc, List.singleton_append]
        exact next_append notFront
      obtain ⟨after, kept, others, final⟩ := inductionHypothesis
        (by rw [List.length_append, List.length_singleton]; omega) between
      refine ⟨after, kept, ?_, final⟩
      rw [List.head?_cons, gcScanLoop, if_pos guard]
      have sameLive : ({ heap with mark := Function.update heap.mark p false } : Heap).Live p := live
      rw [markChildrenWith_eq _ sameLive]
      have walked : ({ heap with mark := Function.update heap.mark p false } : Heap).children p =
          start.children p := sameChildren
      rw [walked, visited]
      simp only [Option.bind_some]
      rw [following]
      exact others

/-- `gc_scan_incref_child2` on the children of one structure. -/
theorem gcScanIncrefChild2_fold (cs : List Ptr) (stored : ∀ q ∈ cs, q ∈ heap.allocated) :
    cs.foldlM gcScanIncrefChild2 heap =
      some { heap with refCount := fun q => heap.refCount q + cs.count q } := by
  induction cs generalizing heap with
  | nil => simp
  | cons c cs inductionHypothesis =>
    have stepped : gcScanIncrefChild2 heap c = some (heap.increment c) := if_pos (stored c (by simp))
    have inMemory : ∀ q ∈ cs, q ∈ (heap.increment c).allocated :=
      fun q there => stored q (List.mem_cons_of_mem _ there)
    have others := inductionHypothesis inMemory
    have same : (fun q => (heap.increment c).refCount q + (cs.count q : Int)) =
        fun q => heap.refCount q + ((c :: cs).count q : Int) := by
      funext q
      by_cases equal : q = c
      · subst equal
        simp only [Heap.increment, Function.update_self, List.count_cons_self]
        push_cast
        ring
      · simp [Heap.increment, Function.update_of_ne equal, List.count_cons_of_ne (Ne.symm equal)]
    rw [List.foldlM_cons, stepped]
    refine Eq.trans others ?_
    rw [same]
    rfl

/-- The second loop of `gc_scan` gives back the references of the structures it walks over. -/
theorem gcScan_restores (tmp : List Ptr) (live : ∀ q ∈ tmp, heap.Live q)
    (inside : ∀ q ∈ tmp, ∀ c ∈ heap.children q, c ∈ heap.allocated) :
    tmp.foldlM (markChildrenWith gcScanIncrefChild2) heap =
      some { heap with refCount := fun q => heap.refCount q + edges heap.children tmp q } := by
  induction tmp generalizing heap with
  | nil => simp
  | cons p tmp inductionHypothesis =>
    let middle : Heap :=
      { heap with refCount := fun q => heap.refCount q + (heap.children p).count q }
    have first : markChildrenWith gcScanIncrefChild2 heap p = some middle := by
      rw [markChildrenWith_eq _ (live p (by simp))]
      exact gcScanIncrefChild2_fold _ (inside p (by simp))
    have liveLater : ∀ q ∈ tmp, middle.Live q :=
      fun q there => live q (List.mem_cons_of_mem _ there)
    have insideLater : ∀ q ∈ tmp, ∀ c ∈ middle.children q, c ∈ middle.allocated :=
      fun q there => inside q (List.mem_cons_of_mem _ there)
    have counts : (fun q => middle.refCount q + (edges middle.children tmp q : Int)) =
        fun q => heap.refCount q + (edges heap.children (p :: tmp) q : Int) := by
      funext q
      have sameChildren : middle.children = heap.children := rfl
      simp only [middle, sameChildren, edges_cons]
      push_cast
      ring
    rw [List.foldlM_cons, first]
    refine (inductionHypothesis liveLater insideLater).trans ?_
    rw [counts]

/-- The heap when `gc_scan` returns: the memory is as before the collection, what can be
reached from outside is in `gc_obj_list`, unmarked, and the rest is in `tmp_obj_list`,
marked. -/
structure Partitioned (roots : Multiset Ref) (start after : Heap) : Prop where
  memory : after.toMemory = start.toMemory
  reached : ∀ p, p ∈ after.gcObjList ↔ Reached start.children (outside roots) p
  members : (after.gcObjList ++ after.tmpObjList).Perm start.gcObjList
  unmarked : ∀ p ∈ after.gcObjList, after.mark p = false
  marked : ∀ p ∈ after.tmpObjList, after.mark p = true
  others : ∀ p, p ∉ start.gcObjList → after.mark p = start.mark p
  zero : after.gcZeroRefCountList = start.gcZeroRefCountList
  phase : after.gcPhase = start.gcPhase

/-- The lists hold together what `gc_obj_list` held. -/
theorem Partitioned.listed (partitioned : Partitioned roots start after) :
    p ∈ after.gcObjList ∨ p ∈ after.tmpObjList ↔ p ∈ start.gcObjList := by
  rw [← List.mem_append]
  exact partitioned.members.mem_iff

/-- No structure is in both. -/
theorem Partitioned.apart (partitioned : Partitioned roots start after)
    (nodup : start.gcObjList.Nodup) (gc : p ∈ after.gcObjList) : p ∉ after.tmpObjList := by
  have both := partitioned.members.nodup_iff.mpr nodup
  exact fun tmp => (List.nodup_append.mp both).2.2 p gc p tmp rfl

/-- What is left of a count are the references from outside. -/
theorem lessEdges_outside (collectable : Collectable roots start) (member : p ∈ start.gcObjList) :
    lessEdges start start.gcObjList p = outside roots p := by
  rw [lessEdges, collectable.counted p member]
  omega

/-- The first two passes of the collector return, with all their assertions holding. They
leave the memory and all counts as they were and divide the structures exactly into
those that can be reached from outside and the others.

Proof: by the loops. In the end the kept structures are those that have references
from outside or from a kept structure. -/
theorem gcScan_partitions (collectable : Collectable roots start)
    (loose : ∀ q ∈ start.gcObjList, q ∉ start.gcZeroRefCountList) :
    ∃ middle after, gcDecref start = some middle ∧ gcScan middle = some after ∧
      Partitioned roots start after := by
  obtain ⟨middle, decreased, state⟩ := gcDecref_returns collectable loose
  have left : ∀ q ∈ middle.tmpObjList, q ∈ start.gcObjList ∧ lessEdges start start.gcObjList q = 0 := by
    intro q there
    simpa using state.tmp.mem_iff.mp there
  have ready : Scanned roots start [] middle.gcObjList (givenBack start []) middle := {
    allocated := state.allocated
    struct := state.struct
    weakrefCount := state.weakrefCount
    refCount := by
      rw [state.refCount]
      funext q
      simp [givenBack]
    gc := rfl
    members := by
      rw [state.gc]
      refine List.Perm.trans (List.Perm.append_left _ state.tmp) ?_
      have divided := List.filter_append_perm (lessEdges start start.gcObjList · ≠ 0) start.gcObjList
      simpa using divided
    kept := by
      intro q there
      rw [state.gc] at there
      obtain ⟨member, nonzero⟩ : q ∈ start.gcObjList ∧ lessEdges start start.gcObjList q ≠ 0 := by
        simpa using there
      have value := lessEdges_outside collectable member
      simp only [givenBack, edges_nil]
      omega
    left := by
      intro q there
      obtain ⟨member, zero⟩ := left q there
      refine ⟨by simp [givenBack, zero], ?_⟩
      rw [state.mark]
      exact if_pos member
    reached := by
      intro q there
      rw [state.gc] at there
      obtain ⟨member, nonzero⟩ : q ∈ start.gcObjList ∧ lessEdges start start.gcObjList q ≠ 0 := by
        simpa using there
      have value := lessEdges_outside collectable member
      exact .root (by omega)
    visited := by simp
    others := by
      intro q elsewhere
      rw [state.mark]
      exact if_neg elsewhere
    zero := state.zero
    phase := state.phase }
  have rounds : start.gcObjList.length ≤ middle.allocated.card + ([] : List Ptr).length := by
    rw [List.length_nil, Nat.add_zero, ← List.toFinset_card_of_nodup collectable.nodup,
      state.allocated]
    exact Finset.card_le_card fun q listed => collectable.allocated q (List.mem_toFinset.mp listed)
  obtain ⟨scanned, kept, looped, final⟩ := gcScanLoop_visits collectable loose _ rounds ready
  have members : (kept ++ scanned.tmpObjList).Perm start.gcObjList := by simpa using final.members
  have inTmp : ∀ q ∈ scanned.tmpObjList, q ∈ start.gcObjList :=
    fun q there => members.mem_iff.mp (List.mem_append_right _ there)
  have sameChildren : scanned.children = start.children := by
    funext q
    simp [Memory.children, final.struct]
  have live : ∀ q ∈ scanned.tmpObjList, scanned.Live q := by
    intro q there
    obtain ⟨obj, fields⟩ := collectable.live q (inTmp q there)
    exact ⟨obj, (congrFun final.struct q).trans fields⟩
  have inside : ∀ q ∈ scanned.tmpObjList, ∀ c ∈ scanned.children q, c ∈ scanned.allocated := by
    intro q there c refers
    rw [sameChildren] at refers
    rw [final.allocated]
    exact collectable.allocated c (collectable.inside q (inTmp q there) c refers)
  have restored := gcScan_restores scanned.tmpObjList live inside
  have counts : (fun q => scanned.refCount q + (edges scanned.children scanned.tmpObjList q : Int)) =
      start.refCount := by
    funext q
    have whole : edges start.children (kept ++ scanned.tmpObjList) q =
        edges start.children start.gcObjList q := edges_perm members
    rw [edges_append] at whole
    rw [final.refCount, sameChildren]
    simp only [givenBack, lessEdges]
    omega
  refine ⟨middle, { scanned with refCount := start.refCount }, decreased, ?_, ?_⟩
  · rw [gcScan, looped, ← counts]
    exact restored
  · have gc : scanned.gcObjList = kept := by simpa using final.gc
    refine ⟨?_, ?_, ?_, ?_, fun q there => (final.left q there).2, final.others, final.zero,
      final.phase⟩
    · simp only [final.allocated, final.struct, final.weakrefCount]
    · intro q
      rw [gc]
      refine mem_iff_reached (fun q there => final.reached q (by simpa using there)) ?_
      intro q positive
      have member : q ∈ start.gcObjList := by
        rcases Nat.add_pos_iff_pos_or_pos.mp positive with held | referred
        · exact collectable.rooted q held
        · obtain ⟨holder, there, refers⟩ := edges_pos_iff.mp referred
          exact collectable.inside holder (members.mem_iff.mp (List.mem_append_left _ there)) q refers
      rcases List.mem_append.mp (members.mem_iff.mpr member) with there | there
      · exact there
      · have zero := (final.left q there).1
        have value := lessEdges_outside collectable member
        simp only [givenBack] at zero
        omega
    · rw [gc]
      exact members
    · rw [gc]
      exact final.visited

end Scan

end GoQuickjs.Gc
