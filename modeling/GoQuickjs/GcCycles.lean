import GoQuickjs.GcFree
import GoQuickjs.GcScan

/-!
# Removing cycles

The last pass of the cycle collector frees what the first two found unreachable:
objects, bytecodes and async functions by their own functions, one after the other.
Shapes, variable references and contexts are only put aside, and are expected to go
with the last structure that refers to them; an assertion at the end checks that none
of them is left. The collection as a whole leaves exactly what can be reached.

Go proxies and Workers are the exception. The finalizer of a proxy drops one reference
too many, which in this pass may hit a count that others still rely on; that of a
Worker drops a handler that the passes took for one held from outside, and in this
pass nothing frees it. Here none of them is lost.
-/

namespace GoQuickjs.Gc

open ReferenceCounts TrialDeletion

/-- The loop of `gc_free_cycles`, for a bounded number of rounds. -/
def gcFreeCyclesLoop : Nat → Heap → Option Heap
  | rounds, heap =>
    match heap.tmpObjList, rounds with
    | [], _ => some heap
    | _ :: _, 0 => none
    | p :: _, rounds + 1 =>
      if p ∈ heap.allocated then
        match (heap.struct p).gcObjType with
        | .jsObject | .functionBytecode | .asyncFunction =>
          (freeGcObject (freeRef (fun _ => none) freeDepth) heap p).bind (gcFreeCyclesLoop rounds)
        | .shape | .varRef | .jsContext =>
          (heap.listDel p).bind fun heap =>
            gcFreeCyclesLoop rounds
              { heap with gcZeroRefCountList := heap.gcZeroRefCountList ++ [p] }
      else none

/-- The last loop of `gc_free_cycles`, for one structure that was kept. -/
def gcReleaseEntry (heap : Heap) (p : Ptr) : Option Heap :=
  if p ∈ heap.allocated ∧ (heap.struct p).gcObjType.inline = false then
    if (heap.struct p).gcObjType = .jsObject ∧ heap.weakrefCount p ≠ 0 then
      some { heap with mark := Function.update heap.mark p false }
    else some (heap.release p)
  else none

/-- `gc_free_cycles`. -/
def gcFreeCycles (heap : Heap) : Option Heap :=
  (gcFreeCyclesLoop heap.tmpObjList.length { heap with gcPhase := .removeCycles }).bind fun heap =>
    (heap.gcZeroRefCountList.foldlM gcReleaseEntry { heap with gcPhase := .none }).map fun heap =>
      { heap with gcZeroRefCountList := [] }

/-- The three passes of `JS_RunGCInternal`. -/
def gcCollect (heap : Heap) : Option Heap :=
  ((gcDecref heap).bind gcScan).bind gcFreeCycles

variable {needed : Ptr → Prop} {roots pending : Multiset Ref} {overdrawn : Ptr → Nat} {opened : List Ptr}
  {start heap after : Heap} {p : Ptr}

/-- Of the structures that the passes do not reach none is a Go proxy, or a Worker with a
message handler. -/
def OnlyPlainLost (roots : Multiset Ref) (heap : Heap) : Prop :=
  ∀ p ∈ heap.gcObjList, ¬ heap.Traced roots p →
    ∀ obj, heap.struct p = .live obj → obj.dropsSelf = false ∧ obj.unreported = []

/-! ## From the scan to the removal -/

/-- What is traced is held by the program or by something that is traced: the Workers with a
message handler are traced themselves. -/
theorem Inv.supported_traced (inv : Inv needed roots 0 overdrawn [] heap)
    (idle : heap.gcPhase = .none) (plain : OnlyPlainLost roots heap) :
    Supported (heap.Traced roots) roots heap.toMemory := by
  intro p traced
  cases traced with
  | root held =>
    rcases rooted_external.mp (outside_pos.mp held) with rooted | ⟨q, stored, ref, unseen, hits⟩
    · exact .inl rooted
    · obtain ⟨seen, inside, meets⟩ := unreported_held unseen hits
      have listed : q ∈ heap.gcObjList := inv.holder_listed idle stored inside
      refine .inr ⟨q, stored, ?_, seen, inside, meets⟩
      by_contra lost
      cases fields : heap.struct q with
      | live obj => simp [Memory.unreported, fields, (plain q listed lost obj fields).2] at unseen
      | freed type => simp [Memory.unreported, fields] at unseen
  | @step q _ earlier refers =>
    have listed : q ∈ heap.gcObjList := inv.traced_listed idle earlier
    exact .inr ⟨q, ((inv.live_iff idle).mp listed).1, earlier, child_held refers⟩

namespace Partitioned

section

variable (partitioned : Partitioned (start.external roots) start after)
  (inv : Inv (start.Traced roots) roots 0 overdrawn [] start) (idle : start.gcPhase = .none)

include partitioned inv idle

/-- Nothing waits to be freed. -/
theorem nothing_waits : p ∉ after.gcZeroRefCountList := by
  rw [partitioned.zero]
  exact ((inv.placed p).idle idle).1

/-- What waits to be collected is not traced. -/
theorem waiting_lost (waits : p ∈ after.tmpObjList ∨ p ∈ after.gcZeroRefCountList) :
    ¬ start.Traced roots p := by
  intro traced
  have tmp : p ∈ after.tmpObjList := waits.resolve_right (partitioned.nothing_waits inv idle)
  exact partitioned.apart (inv.collectable idle).nodup ((partitioned.reached p).mpr traced) tmp

/-- A structure that was listed is in its place for the last pass. -/
theorem placed_listed (plain : OnlyPlainLost roots start) (inStart : p ∈ start.gcObjList) :
    Placed (start.Traced roots p) (overdrawn p) (p ∈ ([] : List Ptr))
      (({ after with gcPhase := .removeCycles } : Heap).view p) := by
  have placed := inv.placed p
  have memory : after.toMemory = start.toMemory := partitioned.memory
  have struct : after.struct p = start.struct p := congrFun (congrArg Memory.struct memory) p
  obtain ⟨live, positive⟩ := placed.counted inStart (by simp)
  have stored : p ∈ start.allocated := (inv.collectable idle).allocated p inStart
  have undrawn : overdrawn p = 0 := by
    by_contra drawn
    exact (placed.spent stored (Nat.pos_of_ne_zero drawn)).1 live
  have counted : 0 < after.refCount p := by
    rw [memory]
    exact positive
  have liveAfter : (({ after with gcPhase := .removeCycles } : Heap).view p).Live := by
    obtain ⟨obj, fields⟩ := live
    exact ⟨obj, struct.trans fields⟩
  have zero : p ∉ after.gcZeroRefCountList := partitioned.nothing_waits inv idle
  exact {
    linked_allocated := fun _ => by
      change p ∈ after.allocated
      rwa [memory]
    live_linked := fun _ _ => (partitioned.listed.mpr inStart).imp id .inl
    open_linked := by simp
    open_inline := by simp
    open_settled := by simp
    counted := fun _ _ => ⟨liveAfter, counted⟩
    unmarked := fun gc => partitioned.unmarked p gc
    marked := fun waits _ => partitioned.marked p (waits.resolve_right zero)
    inline_counted := fun _ _ _ => counted
    kept := fun _ dead => absurd liveAfter dead
    spent := fun _ drawn => absurd undrawn (Nat.pos_iff_ne_zero.mp drawn)
    quiet := fun still => absurd rfl still
    idle := fun idle => by cases idle
    garbage := fun _ _ _ => liveAfter
    ordinary := by
      intro _ obj tmp fields
      have lost : ¬ start.Traced roots p := partitioned.waiting_lost inv idle (.inl tmp)
      have fields' : start.struct p = .live obj := struct.symm.trans fields
      refine ⟨(plain p inStart lost obj fields').1, ?_⟩
      by_contra running
      exact lost (placed.runs stored obj fields' (by simpa using running))
    swept := fun _ waits => absurd waits zero
    runs := by
      intro _ obj fields
      exact placed.runs stored obj (struct.symm.trans fields) }

/-- So is a structure that was not. -/
theorem placed_loose (inStart : p ∉ start.gcObjList) :
    Placed (start.Traced roots p) (overdrawn p) (p ∈ ([] : List Ptr))
      (({ after with gcPhase := .removeCycles } : Heap).view p) := by
  have placed := inv.placed p
  have memory : after.toMemory = start.toMemory := partitioned.memory
  have struct : after.struct p = start.struct p := congrFun (congrArg Memory.struct memory) p
  have quiet : start.gcPhase ≠ .removeCycles := by simp [idle]
  have loose : ¬ (({ after with gcPhase := .removeCycles } : Heap).view p).Linked := by
    rintro (gc | tmp | waits)
    · exact inStart (partitioned.listed.mp (.inl gc))
    · exact inStart (partitioned.listed.mp (.inr tmp))
    · exact partitioned.nothing_waits inv idle waits
  have looseBefore : ¬ (start.view p).Linked := by
    rintro (gc | tmp | waits)
    · exact inStart gc
    · exact (placed.quiet quiet).1 tmp
    · exact (placed.idle idle).1 waits
  have notOpen : p ∈ ([] : List Ptr) ↔ False := by simp
  rw [notOpen]
  by_cases stored : p ∈ start.allocated
  · have dead : ¬ start.Live p := fun live => looseBefore (placed.live_linked stored live)
    obtain ⟨object, settled, clear, weaklyHeld⟩ := placed.kept stored dead looseBefore
    refine Placed.zombie ?_ loose ?_ ?_ ?_ ?_
    · rintro ⟨obj, fields⟩
      exact dead ⟨obj, struct.symm.trans fields⟩
    · exact (congrArg Struct.gcObjType struct).trans object
    · change after.refCount p + (overdrawn p : Int) = 0
      rw [memory]
      exact settled
    · exact (partitioned.others p inStart).trans clear
    · change 0 < after.weakrefCount p ∨ 0 < overdrawn p
      rw [memory]
      exact weaklyHeld
  · refine Placed.gone (fun there => stored ?_) loose
    change p ∈ after.allocated at there
    rwa [memory] at there

/-- What is kept refers to nothing that waits to be collected. -/
theorem separates :
    Apart (start.Traced roots) roots { after with gcPhase := .removeCycles } := by
  have sameRefs : after.refsAt = start.refsAt := by
    rw [show after.toMemory = start.toMemory from partitioned.memory]
  have kept : ∀ q, q ∈ after.gcObjList ↔ start.Traced roots q := partitioned.reached
  refine ⟨?_, ?_, ?_, fun q => partitioned.waiting_lost inv idle⟩
  · intro q gc
    refine (inv.supported q ((kept q).mp gc)).imp_right ?_
    rintro ⟨holder, _, traced, ref, inside, hits⟩
    exact ⟨holder, (kept holder).mpr traced, ref, sameRefs ▸ inside, hits⟩
  · intro q waits rooted
    refine partitioned.waiting_lost inv idle waits (.root ?_)
    exact outside_pos.mpr (rooted_external.mpr (.inl rooted))
  · intro q waits holder gc ref inside hits
    have traced := (kept holder).mp gc
    have stored : holder ∈ start.allocated :=
      (inv.collectable idle).allocated holder (inv.traced_listed idle traced)
    have refers : q ∈ start.referred holder := mem_referred.mpr ⟨ref, sameRefs ▸ inside, hits⟩
    exact partitioned.waiting_lost inv idle waits (traced.held stored refers)

/-- What the first two passes leave satisfies the invariant of the last one. -/
theorem removing (plain : OnlyPlainLost roots start) :
    Inv (start.Traced roots) roots 0 overdrawn [] { after with gcPhase := .removeCycles } := by
  have memory : ({ after with gcPhase := GcPhase.removeCycles } : Heap).toMemory = start.toMemory :=
    partitioned.memory
  have zero : ({ after with gcPhase := GcPhase.removeCycles } : Heap).gcZeroRefCountList = [] :=
    List.eq_nil_iff_forall_not_mem.mpr fun q => partitioned.nothing_waits inv idle
  refine ⟨?_, ?_, fun q => ?_, ?_, fun _ => partitioned.separates inv idle⟩
  · rw [memory]
    exact inv.balanced
  · rw [zero, List.append_nil]
    exact partitioned.members.nodup_iff.mpr (inv.collectable idle).nodup
  · by_cases inStart : q ∈ start.gcObjList
    · exact partitioned.placed_listed inv idle plain inStart
    · exact partitioned.placed_loose inv idle inStart
  · rw [memory]
    exact inv.supported

end

end Partitioned

/-! ## The loop over the unreachable structures -/

/-- A shape, a variable reference or a context is only put aside. -/
theorem Inv.putAside (inv : Inv needed roots pending overdrawn [] heap)
    (removing : heap.gcPhase = .removeCycles) (waiting : p ∈ heap.tmpObjList)
    (inline : (heap.struct p).gcObjType.inline = true) :
    Inv needed roots pending overdrawn [] { heap.unlink p with
      gcZeroRefCountList := (heap.unlink p).gcZeroRefCountList ++ [p] } := by
  have placed := inv.placed p
  have member : p ∈ heap.allocated := placed.linked_allocated (.inr (.inl waiting))
  have live : heap.Live p := placed.garbage (not_not.mpr removing) waiting (by simp)
  have absent := not_mem_unlink (p := p) inv.nodup
  simp only [List.mem_append, not_or] at absent
  obtain ⟨⟨notGc, notTmp⟩, _⟩ := absent
  have waits : ∀ q, q ∈ (heap.unlink p).tmpObjList ∨
      q ∈ (heap.unlink p).gcZeroRefCountList ++ [p] →
      q ∈ heap.tmpObjList ∨ q ∈ heap.gcZeroRefCountList := by
    rintro q (tmp | zero)
    · exact .inl (List.mem_of_mem_erase tmp)
    · rcases List.mem_append.mp zero with before | here
      · exact .inr (List.mem_of_mem_erase before)
      · rw [List.mem_singleton.mp here]
        exact .inl waiting
  have inGc : p ∉ heap.gcObjList := by
    obtain ⟨both, _, _⟩ := List.nodup_append.mp inv.nodup
    exact fun gc => (List.nodup_append.mp both).2.2 p gc p waiting rfl
  have sameGc : (heap.unlink p).gcObjList = heap.gcObjList := List.erase_of_not_mem inGc
  refine ⟨inv.balanced, ?_, ?_, inv.supported, ?_⟩
  · have front := nodup_unlink (p := p) inv.nodup
    change (_ ++ ((heap.unlink p).gcZeroRefCountList ++ [p])).Nodup
    rw [← List.append_assoc]
    refine List.Nodup.append front (List.nodup_singleton p) ?_
    simpa using not_mem_unlink (p := p) inv.nodup
  · intro q
    by_cases other : q = p
    · subst other
      exact {
        linked_allocated := fun _ => member
        live_linked := fun _ _ => .inr (.inr (by simp [Heap.view]))
        open_linked := by simp
        open_inline := by simp
        open_settled := by simp
        counted := fun gc => absurd gc notGc
        unmarked := fun gc => absurd gc notGc
        marked := fun _ => placed.marked (.inl waiting)
        inline_counted := placed.inline_counted
        kept := fun _ dead => absurd live dead
        spent := placed.spent
        quiet := fun quiet => absurd removing quiet
        idle := fun idle => by
          have phase : heap.gcPhase = .none := idle
          rw [removing] at phase
          cases phase
        garbage := fun _ tmp => absurd tmp notTmp
        ordinary := fun _ _ tmp => absurd tmp notTmp
        swept := fun _ _ _ => ⟨fun _ => inline, fun _ => live⟩
        runs := placed.runs }
    · have same : ({ heap.unlink p with
          gcZeroRefCountList := (heap.unlink p).gcZeroRefCountList ++ [p] } : Heap).view q =
          heap.view q := by
        refine Eq.trans ?_ (view_unlink other)
        simp [Heap.view, other]
      rw [same]
      exact inv.placed q
  · intro _
    have separate := inv.apart removing
    refine ⟨?_, fun q there => separate.unrooted q (waits q there), ?_,
      fun q there => separate.unneeded q (waits q there)⟩
    · change ∀ q ∈ (heap.unlink p).gcObjList, Rooted roots q ∨
        ∃ holder ∈ (heap.unlink p).gcObjList, ∃ ref ∈ heap.refsAt holder, ref.strong = some q
      rw [sameGc]
      exact separate.anchored
    · intro q there holder held
      exact separate.unreferred q (waits q there) holder (List.mem_of_mem_erase held)

theorem kept_putAside (heap : Heap) (p : Ptr) : Kept heap { heap.unlink p with
    gcZeroRefCountList := (heap.unlink p).gcZeroRefCountList ++ [p] } :=
  (kept_unlink heap p).trans (Kept.relisted _ _)

theorem gcFreeCyclesLoop_cons (rounds : Nat) {rest : List Ptr}
    (waiting : heap.tmpObjList = p :: rest) (stored : p ∈ heap.allocated) :
    gcFreeCyclesLoop (rounds + 1) heap =
      if (heap.struct p).gcObjType.inline then
        (heap.listDel p).bind fun heap =>
          gcFreeCyclesLoop rounds
            { heap with gcZeroRefCountList := heap.gcZeroRefCountList ++ [p] }
      else (freeGcObject (freeRef (fun _ => none) freeDepth) heap p).bind (gcFreeCyclesLoop rounds) := by
  rw [gcFreeCyclesLoop.eq_def]
  simp only
  rw [waiting]
  simp only
  rw [if_pos stored]
  cases (heap.struct p).gcObjType <;> rfl

/-- The loop of `gc_free_cycles` empties `tmp_obj_list`.

Proof: induction on the rounds; each takes the structure at the front out of the list. -/
theorem gcFreeCyclesLoop_empties (rounds : Nat) (enough : heap.tmpObjList.length ≤ rounds)
    (removing : heap.gcPhase = .removeCycles) (inv : Inv needed roots 0 overdrawn [] heap) :
    ∃ after drawn, gcFreeCyclesLoop rounds heap = some after ∧ Inv needed roots 0 drawn [] after ∧
      Settled heap overdrawn after drawn ∧ after.tmpObjList = [] := by
  induction rounds generalizing heap overdrawn with
  | zero =>
    have empty : heap.tmpObjList = [] := List.eq_nil_of_length_eq_zero (Nat.le_zero.mp enough)
    refine ⟨heap, overdrawn, ?_, inv, .refl heap overdrawn, empty⟩
    simp [gcFreeCyclesLoop, empty]
  | succ rounds inductionHypothesis =>
    cases waiting : heap.tmpObjList with
    | nil =>
      refine ⟨heap, overdrawn, ?_, inv, .refl heap overdrawn, waiting⟩
      simp [gcFreeCyclesLoop, waiting]
    | cons p rest =>
      have member : p ∈ heap.tmpObjList := by simp [waiting]
      have placed := inv.placed p
      have stored : p ∈ heap.allocated := placed.linked_allocated (.inr (.inl member))
      have shorter : ∀ {middle : Heap}, Kept heap middle → p ∉ middle.tmpObjList →
          middle.tmpObjList.length ≤ rounds := by
        intro middle kept gone
        have sublist := kept.tmp
        rw [waiting] at sublist
        rcases List.sublist_cons_iff.mp sublist with within | ⟨list, same, _⟩
        · have bound := within.length_le
          rw [waiting, List.length_cons] at enough
          omega
        · exact absurd (same ▸ List.mem_cons_self ..) gone
      rw [gcFreeCyclesLoop_cons rounds waiting stored]
      by_cases inline : (heap.struct p).gcObjType.inline = true
      · rw [if_pos inline, listDel_linked (.inr (.inl member))]
        have aside := inv.putAside removing member inline
        have kept := kept_putAside heap p
        have absent := not_mem_unlink (p := p) inv.nodup
        simp only [List.mem_append, not_or] at absent
        obtain ⟨after, drawn, others, final, further, empty⟩ :=
          inductionHypothesis (shorter kept absent.1.2) removing aside
        exact ⟨after, drawn, others, final, (kept.settled rfl overdrawn).trans further, empty⟩
      · rw [if_neg inline]
        obtain ⟨obj, there⟩ := placed.garbage (not_not.mpr removing) member (by simp)
        obtain ⟨ownDrop, freeable⟩ := placed.ordinary (not_not.mpr removing) obj member there
        have fields : heap.struct p = .live obj := there
        have queued : obj.gcObjType.inline = false := by
          rw [fields] at inline
          simpa [Struct.gcObjType] using inline
        have drops : Drops freeDepth .removeCycles (freeRef (fun _ => none) freeDepth) :=
          freeRef_drops (fun idle => by cases idle) freeDepth
        obtain ⟨middle, drawn, freed, settled, kept, _, gone⟩ :=
          freeGcObject_frees drops ⟨fun _ => none, fun _ _ => rfl⟩ removing (by simp) inv
            (.inl member) (by simp) fields queued freeable
            (fun self => by rw [ownDrop] at self; cases self)
        obtain ⟨after, more, others, final, further, empty⟩ :=
          inductionHypothesis (shorter kept.toKept gone) (kept.phase.trans removing) settled
        refine ⟨after, more, ?_, final, kept.trans further, empty⟩
        rw [freed]
        exact others

/-! ## What was put aside is gone -/

theorem rank_fits {ref : Ref} {type : GcObjType} (fits : ref.fits type = true)
    (inline : type.inline = true) : ref.rank = type.rank := by
  cases ref <;> cases type <;> simp_all [Ref.fits, GcObjType.inline, Ref.rank, GcObjType.rank]

/-- What is still live in the queue is held by something in the queue that is freed
later. -/
theorem held_by_greater (inv : Inv needed roots 0 overdrawn [] heap)
    (removing : heap.gcPhase = .removeCycles) (empty : heap.tmpObjList = [])
    (waiting : p ∈ heap.gcZeroRefCountList) (live : heap.Live p) :
    ∃ q ∈ heap.gcZeroRefCountList, heap.Live q ∧
      (heap.struct p).gcObjType.rank < (heap.struct q).gcObjType.rank := by
  have placed := inv.placed p
  have separate := inv.apart removing
  have stored : p ∈ heap.allocated := placed.linked_allocated (.inr (.inr waiting))
  have inline : (heap.struct p).gcObjType.inline = true :=
    (placed.swept (not_not.mpr removing) waiting (by simp)).mp live
  have counted : 0 < heap.refCount p := placed.inline_counted stored live inline
  have positive : 0 < tally (strongly p) (0 + roots) heap.allocated heap.refsAt := by
    have total := inv.balanced.strong p stored
    omega
  rcases tally_pos_iff.mp positive with ⟨ref, held, hits⟩ | ⟨q, there, ref, inside, hits⟩
  · have rooted : Rooted roots p := ⟨ref, by simpa using held, by simpa [strongly] using hits⟩
    exact absurd rooted (separate.unrooted p (.inr waiting))
  · have target : ref.strong = some p := by simpa [strongly] using hits
    cases fields : heap.struct q with
    | freed type => simp [Memory.refsAt, fields] at inside
    | live obj =>
      have queued : q ∈ heap.gcZeroRefCountList := by
        rcases (inv.placed q).live_linked there ⟨obj, fields⟩ with gc | tmp | zero
        · exact absurd target (separate.unreferred p (.inr waiting) q gc ref inside)
        · have tmp : q ∈ heap.tmpObjList := tmp
          rw [empty] at tmp
          cases tmp
        · exact zero
      have inFields : ref ∈ heldRefs obj := by simpa [Memory.refsAt, fields] using inside
      have fits := (inv.balanced.fieldsFit q there ref inside).2
      rw [strong_target target] at fits
      refine ⟨q, queued, ⟨obj, fields⟩, ?_⟩
      rw [← rank_fits fits inline, fields]
      exact rank_heldRefs inFields

theorem rank_inline {type : GcObjType} (inline : type.inline = true) :
    1 ≤ type.rank ∧ type.rank ≤ 2 := by
  cases type <;> simp_all [GcObjType.inline, GcObjType.rank]

/-- Once `tmp_obj_list` is empty no structure in the queue is live: shapes, variable
references and contexts went with the last structure that referred to them. -/
theorem swept_dead (inv : Inv needed roots 0 overdrawn [] heap)
    (removing : heap.gcPhase = .removeCycles) (empty : heap.tmpObjList = [])
    (waiting : p ∈ heap.gcZeroRefCountList) : ¬ heap.Live p := by
  intro live
  have ranks : ∀ q ∈ heap.gcZeroRefCountList, heap.Live q →
      1 ≤ (heap.struct q).gcObjType.rank ∧ (heap.struct q).gcObjType.rank ≤ 2 := by
    intro q queued alive
    exact rank_inline (((inv.placed q).swept (not_not.mpr removing) queued (by simp)).mp alive)
  obtain ⟨q, queued, alive, above⟩ := held_by_greater inv removing empty waiting live
  obtain ⟨r, further, lively, higher⟩ := held_by_greater inv removing empty queued alive
  have low := ranks p waiting live
  have high := ranks r further lively
  omega

/-- Nothing refers to what is left in the queue. -/
theorem swept_settled (inv : Inv needed roots 0 overdrawn [] heap)
    (removing : heap.gcPhase = .removeCycles) (empty : heap.tmpObjList = [])
    (waiting : p ∈ heap.gcZeroRefCountList) : heap.refCount p + (overdrawn p : Int) = 0 := by
  have separate := inv.apart removing
  have stored : p ∈ heap.allocated := (inv.placed p).linked_allocated (.inr (.inr waiting))
  have none : tally (strongly p) (0 + roots) heap.allocated heap.refsAt = 0 := by
    by_contra referred
    rcases tally_pos_iff.mp (Nat.pos_of_ne_zero referred) with
      ⟨ref, held, hits⟩ | ⟨q, there, ref, inside, hits⟩
    · have rooted : Rooted roots p := ⟨ref, by simpa using held, by simpa [strongly] using hits⟩
      exact separate.unrooted p (.inr waiting) rooted
    · have target : ref.strong = some p := by simpa [strongly] using hits
      cases fields : heap.struct q with
      | freed type => simp [Memory.refsAt, fields] at inside
      | live obj =>
        rcases (inv.placed q).live_linked there ⟨obj, fields⟩ with gc | tmp | zero
        · exact separate.unreferred p (.inr waiting) q gc ref inside target
        · have tmp : q ∈ heap.tmpObjList := tmp
          rw [empty] at tmp
          cases tmp
        · exact swept_dead inv removing empty zero ⟨obj, fields⟩
  rw [inv.balanced.strong p stored, none]
  rfl

/-! ## Giving back the memory -/

/-- A freed structure in the queue can be taken for one that is being freed. -/
theorem Inv.reopen (inv : Inv needed roots pending overdrawn [] heap)
    (removing : heap.gcPhase = .removeCycles) (waiting : p ∈ heap.gcZeroRefCountList)
    (dead : ¬ heap.Live p) : Inv needed roots pending overdrawn [p] heap := by
  refine ⟨inv.balanced, inv.nodup, ?_, inv.supported, inv.apart⟩
  intro q
  have placed := inv.placed q
  by_cases other : q = p
  · subst other
    have inline : (heap.view q).type.inline ≠ true := fun inline =>
      dead ((placed.swept (not_not.mpr removing) waiting (by simp)).mpr inline)
    have notGc : q ∉ heap.gcObjList :=
      fun gc => (List.nodup_append.mp inv.nodup).2.2 q (List.mem_append_left _ gc) q waiting rfl
    have isOpen : q ∈ [q] ↔ True := by simp
    rw [isOpen]
    refine Placed.opened (placed.linked_allocated (.inr (.inr waiting))) dead (.inr (.inr waiting))
      (fun gc => absurd gc notGc) ?_ placed.marked ?_ ?_
    · rintro (quiet | inlined | drawn)
      · exact absurd removing quiet
      · exact absurd inlined inline
      · exact (placed.spent (placed.linked_allocated (.inr (.inr waiting))) drawn).2
    · exact fun quiet => absurd removing quiet
    · intro idle
      have phase : heap.gcPhase = .none := idle
      rw [removing] at phase
      cases phase
  · simpa [other] using placed

/-- The heap of the removal, with the rest of the queue still before it. -/
def Heap.sweeping (heap : Heap) (rest : List Ptr) : Heap :=
  { heap with gcPhase := .removeCycles, gcZeroRefCountList := rest }

/-- The last loop of `gc_free_cycles` finds in the queue only what was freed, and gives back
its memory or keeps it for its weak references.

Proof: induction on the rest of the queue. -/
theorem gcReleaseEntry_fold (rest : List Ptr) (empty : heap.tmpObjList = [])
    (inv : Inv needed roots 0 overdrawn [] (heap.sweeping rest)) :
    ∃ after, rest.foldlM gcReleaseEntry heap = some after ∧
      Inv needed roots 0 overdrawn [] (after.sweeping []) ∧ Kept heap after ∧
      after.struct = heap.struct := by
  induction rest generalizing heap with
  | nil => exact ⟨heap, rfl, inv, .refl heap, rfl⟩
  | cons p rest inductionHypothesis =>
    have waiting : p ∈ (heap.sweeping (p :: rest)).gcZeroRefCountList := List.mem_cons_self ..
    have dead := swept_dead inv rfl empty waiting
    have settled := swept_settled inv rfl empty waiting
    have placed := inv.placed p
    have stored : p ∈ heap.allocated := placed.linked_allocated (.inr (.inr waiting))
    have queued : (heap.struct p).gcObjType.inline = false := by
      by_contra inline
      have same : (heap.struct p).gcObjType.inline = true := by simpa using inline
      exact dead ((placed.swept (not_not.mpr rfl) waiting (by simp)).mpr same)
    have notGc : p ∉ heap.gcObjList :=
      fun gc => (List.nodup_append.mp inv.nodup).2.2 p (List.mem_append_left _ gc) p waiting rfl
    have isOpen := inv.reopen rfl waiting dead
    have unlinked : (heap.sweeping (p :: rest)).unlink p = heap.sweeping rest := by
      simp [Heap.sweeping, Heap.unlink, List.erase_of_not_mem notGc, empty]
    rw [List.foldlM_cons, gcReleaseEntry, if_pos ⟨stored, queued⟩]
    by_cases weaklyHeld : (heap.struct p).gcObjType = .jsObject ∧ heap.weakrefCount p ≠ 0
    · rw [if_pos weaklyHeld]
      let unmarked : Heap := { heap with mark := Function.update heap.mark p false }
      have alike : Kept heap unmarked := Kept.relisted _ _
      have zombie : Inv needed roots 0 overdrawn [] (unmarked.sweeping rest) := by
        have closed := isOpen.close_zombie (by simp) settled weaklyHeld.2 weaklyHeld.1
        rw [unlinked] at closed
        exact closed
      obtain ⟨after, others, final, kept, same⟩ := inductionHypothesis (by exact empty) zombie
      exact ⟨after, others, final, alike.trans kept, same⟩
    · rw [if_neg weaklyHeld]
      have noWeak : heap.weakrefCount p = 0 := by
        by_cases object : (heap.struct p).gcObjType = .jsObject
        · by_contra some
          exact weaklyHeld ⟨object, some⟩
        · exact inv.weakless stored object
      have released : Inv needed roots 0 overdrawn [] ((heap.release p).sweeping rest) := by
        have closed := isOpen.close_release (by simp) settled noWeak
        rw [unlinked] at closed
        exact closed
      obtain ⟨after, others, final, kept, same⟩ := inductionHypothesis (by exact empty) released
      exact ⟨after, others, final, (kept_release heap p).trans kept, same⟩

/-- The end of the collection. -/
theorem Inv.rests (inv : Inv needed roots pending overdrawn [] (heap.sweeping []))
    (empty : heap.tmpObjList = []) (phase : heap.gcPhase = .none) :
    Inv needed roots pending overdrawn [] { heap with gcZeroRefCountList := [] } := by
  refine ⟨inv.balanced, inv.nodup, ?_, inv.supported, fun removing => by simp [phase] at removing⟩
  intro q
  have placed := inv.placed q
  have notTmp : q ∉ heap.tmpObjList := by simp [empty]
  have quiet : heap.gcPhase ≠ .removeCycles := by simp [phase]
  exact {
    linked_allocated := placed.linked_allocated
    live_linked := placed.live_linked
    open_linked := placed.open_linked
    open_inline := placed.open_inline
    open_settled := by simp
    counted := placed.counted
    unmarked := placed.unmarked
    marked := placed.marked
    inline_counted := placed.inline_counted
    kept := placed.kept
    spent := placed.spent
    quiet := fun _ => ⟨notTmp, fun zero => by cases zero⟩
    idle := fun _ => ⟨by simp [Heap.view], by simp⟩
    garbage := fun removing => absurd quiet removing
    ordinary := fun removing => absurd quiet removing
    swept := fun removing => absurd quiet removing
    runs := placed.runs }

/-- `gc_free_cycles` returns, with its assertion holding. -/
theorem gcFreeCycles_returns (inv : Inv needed roots 0 overdrawn [] { heap with gcPhase := .removeCycles }) :
    ∃ after drawn, gcFreeCycles heap = some after ∧ Inv needed roots 0 drawn [] after ∧
      Settled { heap with gcPhase := .none } overdrawn after drawn := by
  obtain ⟨middle, drawn, looped, swept, kept, empty⟩ :=
    gcFreeCyclesLoop_empties heap.tmpObjList.length (by exact Nat.le_refl _) (by rfl) inv
  have removing : middle.gcPhase = .removeCycles := kept.phase
  have same : middle.sweeping middle.gcZeroRefCountList = middle := by
    rw [Heap.sweeping, ← removing]
  let quiet : Heap := { middle with gcPhase := .none }
  have queued : Inv needed roots 0 drawn [] (quiet.sweeping middle.gcZeroRefCountList) := same.symm ▸ swept
  obtain ⟨after, released, final, further, unchanged⟩ :=
    gcReleaseEntry_fold middle.gcZeroRefCountList (by exact empty) queued
  have still : after.tmpObjList = [] := List.sublist_nil.mp (empty ▸ further.tmp)
  have quieter : Kept { heap with gcPhase := .none } quiet :=
    ⟨rfl, kept.allocated, kept.same, kept.types, kept.tmp, kept.gc⟩
  have emptied : Kept after { after with gcZeroRefCountList := [] } :=
    Kept.relisted _ _
  refine ⟨_, drawn, ?_, final.rests still further.phase,
    (quieter.trans further).trans emptied, fun q => ?_⟩
  · rw [gcFreeCycles, looped]
    exact congrArg (Option.map fun heap : Heap => { heap with gcZeroRefCountList := [] }) released
  · rw [← kept.paid q]
    exact congrArg (fun struct => drawn q + (struct q).debt) unchanged

/-! ## The whole collection -/

/-- The program can reach every function that runs. -/
def RunningReachable (roots : Multiset Ref) (heap : Heap) : Prop :=
  ∀ p ∈ heap.allocated, ∀ obj, heap.struct p = .live obj → obj.freeable = false →
    heap.Reachable roots p

/-- What the program can reach survives every operation that only frees, with its fields as
they were, and the program can still reach it.

Proof: induction on the path. -/
theorem Inv.survives (inv : Inv needed roots 0 overdrawn [] after) (idle : after.gcPhase = .none)
    (same : ∀ q ∈ after.gcObjList, after.struct q = heap.struct q)
    (reached : heap.Reachable roots p) : p ∈ after.gcObjList ∧ after.Reachable roots p := by
  induction reached with
  | root held =>
    have rooted : Rooted (after.external roots) _ := rooted_external.mpr (.inl (outside_pos.mp held))
    exact ⟨(inv.collectable idle).rooted _ (outside_pos.mpr rooted), .root held⟩
  | @step q p earlier refers inductionHypothesis =>
    obtain ⟨listed, still⟩ := inductionHypothesis
    have unchanged : after.referred q = heap.referred q := by
      simp [Memory.referred, Memory.refsAt, same q listed]
    rw [← unchanged] at refers
    exact ⟨inv.referred_listed idle listed refers, .step still refers⟩

/-- After an operation that only frees, what the program can reach is what it needs. -/
theorem Inv.rest (inv : Inv needed roots 0 overdrawn [] after) (idle : after.gcPhase = .none)
    (within : after.allocated ⊆ heap.allocated)
    (same : ∀ q ∈ after.gcObjList, after.struct q = heap.struct q)
    (running : RunningReachable roots heap) :
    Inv (after.Reachable roots) roots 0 overdrawn [] after := by
  refine inv.regard idle (supported_reachable inv.balanced) ?_
  intro q stored obj fields runs
  have listed : q ∈ after.gcObjList := (inv.live_iff idle).mpr ⟨stored, obj, fields⟩
  have before : heap.struct q = .live obj := (same q listed).symm.trans fields
  exact (inv.survives idle same (running q (within stored) obj before runs)).2

/-- A collection leaves the structures that are traced, with their fields as they were, and no
others. -/
structure Collected (roots : Multiset Ref) (heap : Heap) (overdrawn : Ptr → Nat) (after : Heap)
    (drawn : Ptr → Nat) : Prop where
  phase : after.gcPhase = .none
  allocated : after.allocated ⊆ heap.allocated
  survivors : ∀ p, p ∈ after.gcObjList ↔ heap.Traced roots p
  same : ∀ p ∈ after.gcObjList, after.struct p = heap.struct p
  paid : ∀ q, drawn q + (after.struct q).debt = overdrawn q + (heap.struct q).debt

/-- The collector returns and keeps the invariant of the heap.

Proof: during the removal everything that is traced counts as needed. -/
theorem gcCollect_returns (inv : Inv (heap.Reachable roots) roots 0 overdrawn [] heap)
    (idle : heap.gcPhase = .none) (plain : OnlyPlainLost roots heap) :
    ∃ after drawn, gcCollect heap = some after ∧ Inv (after.Reachable roots) roots 0 drawn [] after ∧
      Collected roots heap overdrawn after drawn := by
  have loose : ∀ q ∈ heap.gcObjList, q ∉ heap.gcZeroRefCountList :=
    fun q _ => ((inv.placed q).idle idle).1
  obtain ⟨decreased, scanned, first, second, partitioned⟩ :=
    gcScan_partitions (inv.collectable idle) loose
  have running : RunningReachable roots heap := fun q => (inv.placed q).runs
  have traced : Inv (heap.Traced roots) roots 0 overdrawn [] heap :=
    inv.regard idle (inv.supported_traced idle plain) fun q stored obj fields runs =>
      Memory.Reachable.traced inv.balanced (running q stored obj fields runs)
  obtain ⟨after, drawn, freed, final, kept⟩ :=
    gcFreeCycles_returns (partitioned.removing traced idle plain)
  have memory : scanned.toMemory = heap.toMemory := partitioned.memory
  have same : ∀ q ∈ after.gcObjList, after.struct q = heap.struct q := by
    intro q gc
    obtain ⟨stored, live⟩ := (final.live_iff kept.phase).mp gc
    refine (kept.same q stored live).trans ?_
    exact congrFun (congrArg Memory.struct memory) q
  have structs : scanned.struct = heap.struct := congrArg Memory.struct memory
  have within : after.allocated ⊆ heap.allocated := by
    refine kept.allocated.trans ?_
    exact (congrArg Memory.allocated memory).subset
  refine ⟨after, drawn, ?_, final.rest kept.phase within same running, kept.phase, within, ?_, same,
    fun q => structs ▸ kept.paid q⟩
  · rw [gcCollect, first, Option.bind_some, second, Option.bind_some, freed]
  · intro p
    refine ⟨fun gc => ?_, final.needed_listed kept.phase⟩
    exact (partitioned.reached p).mp (kept.gc.subset gc)

end GoQuickjs.Gc
