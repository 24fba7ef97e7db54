import GoQuickjs.GcWeak
import GoQuickjs.Library.Runs

/-!
# The heap of a running program

The system as a whole: a program that creates structures, takes references, assigns
fields and drops references, and the collector, in any order. The program gives away
only references that it has, and does not lose sight of its functions that run; the
collector runs while no Go proxy and no Worker is lost. Every such step is possible
and keeps the invariant of the heap.

A collection of `JS_RunGC` is two steps, the removal of weak objects and the three
passes; that at the end of the runtime is the second one alone.
-/

namespace GoQuickjs.Gc

open ReferenceCounts TrialDeletion Runs

/-- What can happen next. -/
inductive Action where
  | create : Ptr → GcObject → Action
  | dup : Ref → Action
  | weakrefNew : Ptr → Action
  | assign : Ptr → GcObject → Action
  | free : Ref → Action
  | removeWeak : List Ptr → (Ptr → Nat → Outside) → Action
  | collect : Action

/-- The program can reach every function that runs for good. -/
def RunningSecure (roots : Multiset Ref) (heap : Heap) : Prop :=
  ∀ p ∈ heap.allocated, ∀ obj, heap.struct p = .live obj → obj.freeable = false →
    Secure roots heap.toMemory p

namespace Engine

/-- Before anything was created. -/
def initial : Engine where
  heap := {
    allocated := ∅
    struct := fun _ => .freed .jsObject
    refCount := fun _ => 0
    weakrefCount := fun _ => 0
    mark := fun _ => false
    gcObjList := []
    tmpObjList := []
    gcZeroRefCountList := []
    gcPhase := .none }
  roots := 0

/-- One step of the program or of the collector. -/
def step (engine : Engine) : Action → Option Engine
  | .create p obj => some {
      heap := engine.heap.addGcObject p obj
      roots := obj.gcObjType.reference p ::ₘ (engine.roots - heldRefs obj) }
  | .dup ref => some {
      heap := engine.heap.increment ref.target
      roots := ref ::ₘ engine.roots }
  | .weakrefNew p => some {
      heap := engine.heap.jsWeakrefNew p
      roots := .weak p ::ₘ engine.roots }
  | .assign p obj => some {
      heap := engine.heap.assign p obj
      roots := engine.heap.refsAt p + engine.roots - heldRefs obj }
  | .free ref => (jsFree engine.heap ref).map fun heap => { heap, roots := engine.roots.erase ref }
  | .removeWeak weakrefList outside => engine.gcRemoveWeakObjects weakrefList outside
  | .collect => (gcCollect engine.heap).map fun heap => { heap, roots := engine.roots }

/-- What the program keeps to: it gives away only references it has, takes them on live
structures only, and can still reach what runs, for good when weak objects are removed. The
list of weak structures is complete, in any order. No Go proxy and no Worker with a message
handler is lost when the collector runs. -/
def Permitted (engine : Engine) : Action → Prop
  | .create p obj => p ∉ engine.heap.allocated ∧ (heldRefs obj : Multiset Ref) ≤ engine.roots
  | .dup ref => ref.target ∈ engine.heap.gcObjList ∧ ref.strong = some ref.target ∧
      ref.fits (engine.heap.struct ref.target).gcObjType = true
  | .weakrefNew p => p ∈ engine.heap.gcObjList ∧ (engine.heap.struct p).gcObjType = .jsObject
  | .assign p obj => p ∈ engine.heap.gcObjList ∧
      obj.gcObjType = (engine.heap.struct p).gcObjType ∧
      (heldRefs obj : Multiset Ref) ≤ engine.heap.refsAt p + engine.roots ∧
      RunningReachable (engine.heap.refsAt p + engine.roots - heldRefs obj)
        (engine.heap.assign p obj)
  | .free ref => ref ∈ engine.roots ∧ RunningReachable (engine.roots.erase ref) engine.heap
  | .removeWeak weakrefList _ => weakrefList.Nodup ∧
      (∀ p, p ∈ weakrefList ↔ p ∈ engine.heap.gcObjList ∧ (engine.heap.struct p).isWeak = true) ∧
      RunningSecure engine.roots engine.heap
  | .collect => OnlyPlainLost engine.roots engine.heap

/-- A reference is held by the program or in a field of a live structure. -/
def Held (engine : Engine) (ref : Ref) : Prop :=
  ref ∈ engine.roots ∨ ∃ q ∈ engine.heap.allocated, ref ∈ engine.heap.refsAt q

/-- The program can reach the structure. -/
def Reachable (engine : Engine) (p : Ptr) : Prop := engine.heap.Reachable engine.roots p

/-- The collector can reach the structure, from the program or from the message handler of a
Worker. -/
def Traced (engine : Engine) (p : Ptr) : Prop := engine.heap.Traced engine.roots p

/-- The invariant between two steps. -/
structure Sound (overdrawn : Ptr → Nat) (engine : Engine) : Prop where
  inv : Inv engine.Reachable engine.roots 0 overdrawn [] engine.heap
  idle : engine.heap.gcPhase = .none

end Engine

open Engine

variable {engine next : Engine} {overdrawn : Ptr → Nat} {actions : List Action} {action : Action}
  {p : Ptr}

/-! ## Steps and runs -/

/-- The empty heap satisfies the invariant. -/
theorem initial_sound : Sound (fun _ => 0) Engine.initial := by
  have empty : Balanced (0 + 0) (fun _ => 0) Engine.initial.heap.toMemory := by
    refine ⟨?_, ?_, ?_, ?_⟩
    · intro q there
      cases there
    · intro q there
      cases there
    · intro ref outside
      simp at outside
    · intro q there
      cases there
  refine ⟨⟨empty, List.nodup_nil, ?_, supported_reachable empty, ?_⟩, rfl⟩
  · intro q
    have notOpen : q ∈ ([] : List Ptr) ↔ False := by simp
    rw [notOpen]
    refine Placed.gone ?_ ?_
    · simp [Heap.view, Engine.initial]
    · simp [Heap.view, View.Linked, Engine.initial]
  · intro removing
    cases removing

/-- What a step does to the book of overdrawn proxies: it is kept where nothing new is
created. -/
def Booked (engine next : Engine) (overdrawn drawn : Ptr → Nat) : Action → Prop
  | .create p _ => drawn = Function.update overdrawn p 0
  | .dup _ | .weakrefNew _ | .assign _ _ => drawn = overdrawn
  | .free _ | .removeWeak _ _ | .collect => ∀ q, drawn q + (next.heap.struct q).debt =
      overdrawn q + (engine.heap.struct q).debt

/-- The program drops a reference that it holds. -/
theorem free_sound (sound : Sound overdrawn engine) {ref : Ref} (root : ref ∈ engine.roots)
    (running : RunningReachable (engine.roots.erase ref) engine.heap) :
    ∃ after drawn, jsFree engine.heap ref = some after ∧
      Sound drawn ⟨after, engine.roots.erase ref⟩ ∧ Settled engine.heap overdrawn after drawn := by
  obtain ⟨inv, idle⟩ := sound
  have handed : Inv (engine.heap.Reachable (engine.roots.erase ref)) (engine.roots.erase ref)
      (ref ::ₘ 0) overdrawn [] engine.heap := by
    refine inv.handOver idle ?_ running
    rw [Multiset.cons_add, zero_add, zero_add, Multiset.cons_erase root]
  obtain ⟨after, drawn, freed, final, kept⟩ := jsFree_drops idle handed
  have rests : after.gcPhase = .none := kept.phase.trans idle
  have same : ∀ q ∈ after.gcObjList, after.struct q = engine.heap.struct q := by
    intro q gc
    obtain ⟨stored, live⟩ := (final.live_iff rests).mp gc
    exact kept.same q stored live
  exact ⟨after, drawn, freed, ⟨final.rest rests kept.allocated same running, rests⟩, kept⟩

/-- Weak objects are removed. -/
theorem removeWeak_sound (sound : Sound overdrawn engine) {weakrefList : List Ptr}
    {outside : Ptr → Nat → Outside} (permitted : engine.Permitted (.removeWeak weakrefList outside)) :
    ∃ next drawn, engine.gcRemoveWeakObjects weakrefList outside = some next ∧ Sound drawn next ∧
      Inv (Secure engine.roots engine.heap.toMemory) next.roots 0 drawn [] next.heap ∧
      Cleared engine overdrawn next drawn := by
  obtain ⟨inv, idle⟩ := sound
  obtain ⟨_, complete, running⟩ := permitted
  have steady : Steady (Secure engine.roots engine.heap.toMemory) engine.roots engine.heap.toMemory :=
    Secure.steady inv.balanced
  obtain ⟨next, drawn, removed, final, cleared⟩ := gcRemoveWeakObjects_returns
    (inv.regard idle steady.supported running) idle steady (fun p => (complete p).mp) outside
  refine ⟨next, drawn, removed, ⟨?_, cleared.phase⟩, final, cleared⟩
  refine final.regard cleared.phase (supported_reachable final.balanced) fun q stored obj there runs => ?_
  exact (((final.placed q).runs stored obj there runs).survives final cleared).2

/-- Every permitted step is possible and keeps the invariant. -/
theorem step_sound (sound : Sound overdrawn engine) (permitted : engine.Permitted action) :
    ∃ next drawn, engine.step action = some next ∧ Sound drawn next ∧
      Booked engine next overdrawn drawn action := by
  cases action with
  | create p obj =>
    obtain ⟨inv, idle⟩ := sound
    obtain ⟨fresh, given⟩ := permitted
    have spelled : engine.roots = heldRefs obj + (engine.roots - heldRefs obj) :=
      (add_tsub_cancel_of_le given).symm
    have handed : Inv (engine.heap.Reachable (heldRefs obj + (engine.roots - heldRefs obj)))
        (heldRefs obj + (engine.roots - heldRefs obj)) 0 overdrawn [] engine.heap := spelled ▸ inv
    exact ⟨_, _, rfl, ⟨handed.addGcObject idle fresh, idle⟩, rfl⟩
  | dup ref =>
    obtain ⟨inv, idle⟩ := sound
    obtain ⟨gc, counted, fits⟩ := permitted
    exact ⟨_, _, rfl, ⟨inv.dup idle gc counted fits, idle⟩, rfl⟩
  | weakrefNew p =>
    obtain ⟨inv, idle⟩ := sound
    obtain ⟨gc, object⟩ := permitted
    exact ⟨_, _, rfl, ⟨inv.weakrefNew idle gc object, idle⟩, rfl⟩
  | assign p obj =>
    obtain ⟨inv, idle⟩ := sound
    obtain ⟨gc, type, given, running⟩ := permitted
    have exchanged := (add_tsub_cancel_of_le given).symm
    exact ⟨_, _, rfl, ⟨inv.assign idle gc type exchanged running, idle⟩, rfl⟩
  | free ref =>
    obtain ⟨root, running⟩ := permitted
    obtain ⟨after, drawn, freed, rests, kept⟩ := free_sound sound root running
    refine ⟨⟨after, engine.roots.erase ref⟩, drawn, ?_, rests, kept.paid⟩
    rw [step, freed]
    rfl
  | removeWeak weakrefList outside =>
    obtain ⟨next, drawn, removed, final, _, cleared⟩ := removeWeak_sound sound permitted
    exact ⟨next, drawn, removed, final, cleared.paid⟩
  | collect =>
    obtain ⟨after, drawn, collected, final, result⟩ :=
      gcCollect_returns sound.inv sound.idle permitted
    refine ⟨⟨after, engine.roots⟩, drawn, ?_, ⟨final, result.phase⟩, result.paid⟩
    rw [step, collected]
    rfl

/-- Every permitted run is possible and keeps the invariant. -/
theorem run_sound (allowed : Allowed Engine.step Permitted initial actions) :
    ∃ engine, run Engine.step initial actions = some engine ∧ ∃ drawn, Sound drawn engine := by
  refine allowed_completes (motive := fun engine => ∃ drawn, Sound drawn engine)
    ⟨_, initial_sound⟩ ?_ allowed
  rintro engine action ⟨drawn, sound⟩ permitted
  obtain ⟨next, more, taken, kept, _⟩ := step_sound sound permitted
  exact ⟨next, taken, more, kept⟩

/-- The invariant holds in every state that a permitted run reaches. -/
theorem sound_of_run (allowed : Allowed Engine.step Permitted initial actions)
    (reached : run Engine.step initial actions = some engine) : ∃ drawn, Sound drawn engine := by
  obtain ⟨other, same, sound⟩ := run_sound allowed
  obtain rfl : engine = other := Option.some.inj (reached.symm.trans same)
  exact sound

/-! ## What the invariant says between two steps -/

namespace Engine.Sound

end Engine.Sound

end GoQuickjs.Gc
