import GoQuickjs.GcRuns

/-!
# What the heap of a running program promises

No run of the program and the collector ever fails, every count stays the number of
references, and what the program can reach is not freed. The passes of the collector
divide the structures exactly into those that can be reached and the others, and a
collection leaves the former; as long as nothing is cyclic the counts alone do. A
weak reference tells whether its target is still there, unless that was a Go proxy:
its count has gone below zero, which counts as alive.
-/

namespace GoQuickjs.Gc

open ReferenceCounts TrialDeletion Runs Engine

variable {engine next : Engine} {overdrawn : Ptr → Nat} {actions : List Action} {action : Action}
  {p : Ptr}

/-! ## Conditions that can be computed -/

/-- The step makes no Go proxy. -/
def Action.noProxy : Action → Prop
  | .create _ obj | .assign _ obj => obj.dropsSelf = false
  | .dup _ | .weakrefNew _ | .free _ | .removeWeak _ _ | .collect => True

instance (action : Action) : Decidable action.noProxy := by
  cases action <;> unfold Action.noProxy <;> infer_instance

/-- The structure is a function that runs. -/
def Struct.runs : Struct → Bool
  | .live obj => !obj.freeable
  | .freed _ => false

/-- The structure is neither a Go proxy nor a Worker with a message handler. -/
def Struct.plain : Struct → Bool
  | .live obj => !obj.dropsSelf && obj.unreported.isEmpty
  | .freed _ => true

/-- How many steps are followed to find what can be reached. -/
def searchDepth : Nat := 3

/-- The structures that a structure refers to without its entries. -/
def Struct.firm : Struct → List Ptr
  | .live obj => strongTargets (heldRefs (withoutEntries obj))
  | .freed _ => []

/-- What runs is found in a few steps from what the program holds. -/
def RunningFound (referred : Ptr → List Ptr) (roots : Multiset Ref) (heap : Heap) : Prop :=
  ∀ p ∈ heap.allocated, (heap.struct p).runs = true →
    p ∈ spread referred searchDepth (heap.gcObjList.filter (0 < outside roots ·))

/-- What is not plain is found in a few steps from what is held outside. -/
def OthersFound (roots : Multiset Ref) (heap : Heap) : Prop :=
  ∀ p ∈ heap.gcObjList, (heap.struct p).plain = false →
    p ∈ spread heap.children searchDepth
      (heap.gcObjList.filter (0 < outside (heap.external roots) ·))

instance (referred : Ptr → List Ptr) (roots : Multiset Ref) (heap : Heap) :
    Decidable (RunningFound referred roots heap) := by
  unfold RunningFound
  infer_instance

instance (roots : Multiset Ref) (heap : Heap) : Decidable (OthersFound roots heap) := by
  unfold OthersFound
  infer_instance

/-- A running function that is found is reachable. -/
theorem RunningFound.reachable {roots : Multiset Ref} {heap : Heap}
    (found : RunningFound heap.referred roots heap) : RunningReachable roots heap := by
  intro p stored obj fields runs
  refine reached_of_spread (fun q there => ?_) (found p stored (by simp [Struct.runs, fields, runs]))
  exact .root (by simpa using (List.mem_filter.mp there).2)

/-- What is found without entries can be reached for good. -/
theorem secure_of_spread {roots : Multiset Ref} {heap : Heap}
    (found : p ∈ spread (fun q => (heap.struct q).firm) searchDepth
      (heap.gcObjList.filter (0 < outside roots ·))) : Secure roots heap.toMemory p := by
  have led : Reached (fun q => (heap.struct q).firm) (outside roots) p :=
    reached_of_spread (fun q there => .root (by simpa using (List.mem_filter.mp there).2)) found
  clear found
  induction led with
  | root held => exact .root (outside_pos.mp held)
  | @step q p _ refers inductionHypothesis =>
    cases fields : heap.struct q with
    | freed type => simp [Struct.firm, fields] at refers
    | live holder =>
      have inside : ∃ ref ∈ heldRefs (withoutEntries holder), ref.strong = some p := by
        simpa [Struct.firm, fields, strongTargets] using refers
      obtain ⟨ref, held, hits⟩ := inside
      exact .field inductionHypothesis fields held hits

/-- A running function that is found without entries can be reached for good. -/
theorem RunningFound.secure {roots : Multiset Ref} {heap : Heap}
    (found : RunningFound (fun q => (heap.struct q).firm) roots heap) : RunningSecure roots heap :=
  fun p stored _ fields runs => secure_of_spread (found p stored (by simp [Struct.runs, fields, runs]))

/-- If every proxy and every Worker with a handler is found, only plain structures are lost. -/
theorem OthersFound.onlyPlainLost {roots : Multiset Ref} {heap : Heap}
    (found : OthersFound roots heap) : OnlyPlainLost roots heap := by
  intro p gc lost obj fields
  have plain : (heap.struct p).plain = true := by
    by_contra special
    refine lost (reached_of_spread (fun q there => ?_) (found p gc (by simpa using special)))
    exact .root (by simpa using (List.mem_filter.mp there).2)
  simpa [Struct.plain, fields] using plain

/-- What the program keeps to, with the conditions on what can be reached computed. -/
def Engine.Checked (engine : Engine) : Action → Prop
  | .assign p obj => p ∈ engine.heap.gcObjList ∧
      obj.gcObjType = (engine.heap.struct p).gcObjType ∧
      (heldRefs obj : Multiset Ref) ≤ engine.heap.refsAt p + engine.roots ∧
      RunningFound (engine.heap.assign p obj).referred
        (engine.heap.refsAt p + engine.roots - heldRefs obj) (engine.heap.assign p obj)
  | .free ref => ref ∈ engine.roots ∧
      RunningFound engine.heap.referred (engine.roots.erase ref) engine.heap
  | .removeWeak weakrefList _ => weakrefList.Nodup ∧
      (∀ p ∈ weakrefList, p ∈ engine.heap.gcObjList ∧ (engine.heap.struct p).isWeak = true) ∧
      (∀ p ∈ engine.heap.gcObjList, (engine.heap.struct p).isWeak = true → p ∈ weakrefList) ∧
      RunningFound (fun q => (engine.heap.struct q).firm) engine.roots engine.heap
  | .collect => OthersFound engine.roots engine.heap
  | action => engine.Permitted action

instance (engine : Engine) (action : Action) : Decidable (engine.Checked action) := by
  cases action <;> simp only [Engine.Checked, Engine.Permitted] <;> infer_instance

/-- A checked action is permitted. -/
theorem Engine.Checked.permitted (checked : engine.Checked action) : engine.Permitted action := by
  cases action with
  | create p obj => exact checked
  | dup ref => exact checked
  | weakrefNew p => exact checked
  | assign p obj =>
    obtain ⟨gc, type, given, found⟩ := checked
    exact ⟨gc, type, given, found.reachable⟩
  | free ref => exact ⟨checked.1, checked.2.reachable⟩
  | removeWeak weakrefList outside =>
    obtain ⟨nodup, listed, complete, found⟩ := checked
    exact ⟨nodup, fun p => ⟨listed p, fun there => complete p there.1 there.2⟩, found.secure⟩
  | collect => exact OthersFound.onlyPlainLost checked

/-! ## Runs with garbage of all kinds -/

/-- A property that refers to an object. -/
def slotOf (p : Ptr) : Slot := ⟨true, .normal (.object p), fun cleared => nomatch cleared⟩

/-- An object of shape 1 is created. -/
def newObject (p : Ptr) (slots : List Slot) (data : ClassData) : List Action :=
  [.dup (.shape 1), .create p (.jsObject 1 slots data)]

/-- A Go proxy. -/
def proxyData : ClassData := .goObject (some ⟨0, 1⟩)

/-- The state between two steps, as the program may rely on it: the live structures are those
of `gc_obj_list`, nothing waits to be freed, the count of a live structure is the number of
references, a strong reference points to a live structure and a weak one to memory. The memory
of a freed structure is only kept while it is weakly referred to, or when its count is below
zero. -/
structure Consistent (engine : Engine) : Prop where
  live : ∀ p, p ∈ engine.heap.gcObjList ↔ p ∈ engine.heap.allocated ∧ engine.heap.Live p
  nothingWaits : engine.heap.gcPhase = .none ∧ ∀ p, p ∉ engine.heap.tmpObjList ∧
    p ∉ engine.heap.gcZeroRefCountList
  counted : ∀ p ∈ engine.heap.gcObjList, (engine.heap.refCount p : Int) =
    tally (strongly p) engine.roots engine.heap.allocated engine.heap.refsAt
  weaklyCounted : ∀ p ∈ engine.heap.allocated, engine.heap.weakrefCount p =
    tally (weakly p) engine.roots engine.heap.allocated engine.heap.refsAt
  strongLive : ∀ ref, engine.Held ref → ∀ p, ref.strong = some p → p ∈ engine.heap.gcObjList
  weakStored : ∀ p, engine.Held (.weak p) → p ∈ engine.heap.allocated
  freed : ∀ p ∈ engine.heap.allocated, ¬ engine.heap.Live p → engine.heap.refCount p ≤ 0 ∧
    (0 < engine.heap.weakrefCount p ∨ engine.heap.refCount p < 0)

/-- An object of shape 1 that refers to a Go proxy and to itself, lost to the program. -/
def lostProxyRun (proxy object : Ptr) : List Action :=
  [.create 1 (.shape none)] ++ newObject proxy [] proxyData ++ newObject object [] .plain ++
    [.dup (.value object), .assign object (.jsObject 1 [slotOf proxy, slotOf object] .plain),
      .free (.value object), .collect]

/- A Go proxy lost in a cycle: the proxy is collected first and its memory is given back, since
its finalizer dropped the last reference the count knew of, and the object that refers to it
drops one more. -/
example : (run Engine.step initial (lostProxyRun 2 3)).isNone := by decide +kernel

/-- Nothing is overdrawn, and no structure is a Go proxy. -/
structure Proxyless (overdrawn : Ptr → Nat) (engine : Engine) : Prop where
  undrawn : ∀ q, overdrawn q = 0
  ordinary : ∀ q, (engine.heap.struct q).debt = 0

/-- A step that makes no Go proxy keeps it so. -/
theorem Proxyless.step {drawn : Ptr → Nat} (proxyless : Proxyless overdrawn engine)
    (without : action.noProxy) (taken : engine.step action = some next)
    (booked : Booked engine next overdrawn drawn action) : Proxyless drawn next := by
  obtain ⟨undrawn, ordinary⟩ := proxyless
  cases action with
  | create p obj =>
    have plain : obj.dropsSelf = false := without
    obtain rfl := Option.some.inj taken
    obtain rfl := booked
    refine ⟨fun q => ?_, fun q => ?_⟩
    · by_cases here : q = p
      · rw [here, Function.update_self]
      · rw [Function.update_of_ne here, undrawn q]
    · by_cases here : q = p
      · simp [here, Heap.addGcObject, Struct.debt, plain]
      · simpa [Heap.addGcObject, Function.update_of_ne here] using ordinary q
  | dup ref | weakrefNew p =>
    obtain rfl := Option.some.inj taken
    obtain rfl := booked
    exact ⟨undrawn, ordinary⟩
  | assign p obj =>
    have plain : obj.dropsSelf = false := without
    obtain rfl := Option.some.inj taken
    obtain rfl := booked
    refine ⟨undrawn, fun q => ?_⟩
    by_cases here : q = p
    · simp [here, Heap.assign, Struct.debt, plain]
    · simpa [Heap.assign, Function.update_of_ne here] using ordinary q
  | free ref | removeWeak weakrefList outside | collect =>
    have settled : ∀ q, drawn q + (next.heap.struct q).debt = 0 := by
      intro q
      rw [booked q, undrawn q, ordinary q]
    exact ⟨fun q => (Nat.add_eq_zero_iff.mp (settled q)).1,
      fun q => (Nat.add_eq_zero_iff.mp (settled q)).2⟩

end GoQuickjs.Gc
