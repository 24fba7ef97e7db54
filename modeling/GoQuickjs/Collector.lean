import GoQuickjs.Encode

/-!
# Freeing a cycle that contains Go proxies

`gc_free_cycles` of `quickjs.c` frees the unreachable objects one after the other.
Freeing an object drops one reference on each object its properties refer to and
runs its finalizer; its memory is then given back at once when its count is zero
and no weak reference exists, and otherwise kept until the end of the pass. In
this phase a count that falls to zero, or below, frees nothing by itself.

The finalizer of a Go proxy, `free_obj_id_opaque`, also drops a reference on the
proxy itself. The model follows the counts through a whole pass over an arbitrary
finite graph in an arbitrary order, and settles exactly when that extra drop gives
memory back too early.
-/

namespace GoQuickjs.Collector

/-- The classes that matter to the pass: `GoObjHandler`, whose opaque part may be
missing, and every other class. -/
inductive ObjClass where
  | goObject : Option GoOpaque → ObjClass
  | ordinary : ObjClass
deriving DecidableEq

/-- An object of the engine: the objects its properties refer to, as often as they
do, and the number of weak references to it. -/
structure Obj where
  props : List Ptr
  objClass : ObjClass
  weakrefCount : Nat
deriving DecidableEq

/-- A finite object graph. -/
abbrev Graph := Finmap fun _ : Ptr => Obj

/-- The references from one object; none from an address without object. -/
def propsOf (graph : Graph) (p : Ptr) : List Ptr := (graph.lookup p).elim [] Obj.props

/-- The references to `p` from a list of objects, counted. -/
def refsFrom (graph : Graph) (sources : List Ptr) (p : Ptr) : Nat :=
  (sources.map fun q => (propsOf graph q).count p).sum

theorem refsFrom_cons (graph : Graph) (q : Ptr) (rest : List Ptr) (p : Ptr) :
    refsFrom graph (q :: rest) p = (propsOf graph q).count p + refsFrom graph rest p := by
  simp [refsFrom]

/-- No reference is counted exactly when no object in the list refers. -/
theorem refsFrom_eq_zero {graph : Graph} {sources : List Ptr} {p : Ptr} :
    refsFrom graph sources p = 0 ↔ ∀ q ∈ sources, p ∉ propsOf graph q := by
  induction sources with
  | nil => simp [refsFrom]
  | cons head rest inductionHypothesis =>
    rw [refsFrom_cons, Nat.add_eq_zero_iff, inductionHypothesis, List.count_eq_zero]
    simp

/-- What the pass changes: reference counts, the objects freed so far, the memory
given back, the list `gc_zero_ref_count_list`, and the stores of the contexts. -/
structure Heap where
  refCount : Ptr → Int
  freed : List Ptr
  released : List Ptr
  zeroRefCountList : List Ptr
  stores : Stores

/-- `JS_FreeValueRT` on an object in this phase: one reference less. -/
def freeValueRT (heap : Heap) (p : Ptr) : Heap :=
  { heap with refCount := Function.update heap.refCount p (heap.refCount p - 1) }

/-- The finalizer `free_obj_id_opaque`: give the id back, then drop a reference on
the object that is being finalized. -/
def freeObjIdOpaque (heap : Heap) (p : Ptr) : Option GoOpaque → Heap
  | none => heap
  | some o => freeValueRT { heap with stores := heap.stores.goFreeId o.ctx o.idx } p

/-- The finalizer of a class. -/
def finalizer (heap : Heap) (p : Ptr) : ObjClass → Heap
  | .goObject opaquePart => freeObjIdOpaque heap p opaquePart
  | .ordinary => heap

/-- `free_object` in the phase `JS_GC_PHASE_REMOVE_CYCLES`. -/
def freeObject (heap : Heap) (p : Ptr) (obj : Obj) : Heap :=
  let heap := { heap with freed := p :: heap.freed }
  let heap := obj.props.foldl freeValueRT heap
  let heap := finalizer heap p obj.objClass
  if heap.refCount p = 0 ∧ obj.weakrefCount = 0 then
    { heap with released := p :: heap.released }
  else { heap with zeroRefCountList := p :: heap.zeroRefCountList }

/-- The loop of `gc_free_cycles` over the objects still to be freed. -/
def freeAll (graph : Graph) (heap : Heap) (order : List Ptr) : Heap :=
  order.foldl (fun heap p => (graph.lookup p).elim heap (freeObject heap p)) heap

/-- The end of `gc_free_cycles`: the kept memory is given back, except that of
objects with weak references. -/
def releaseKept (graph : Graph) (heap : Heap) : Heap :=
  { heap with
    released := heap.zeroRefCountList.filter
      (fun p => (graph.lookup p).elim true fun obj => obj.weakrefCount = 0) ++ heap.released
    zeroRefCountList := [] }

/-- The input of a pass: a graph with the references held from outside of it, and
an order of a set of objects that nothing else refers to. -/
structure Pass where
  graph : Graph
  roots : Ptr → Nat
  order : List Ptr
  stores : Stores
  distinct : order.Nodup
  present : ∀ p ∈ order, p ∈ graph
  unreachable : ∀ p ∈ order, roots p = 0 ∧ ∀ q ∈ graph, q ∉ order → p ∉ propsOf graph q

namespace Pass

/-- The heap as `gc_scan` leaves it: each count is the number of references. -/
def start (pass : Pass) : Heap where
  refCount p := pass.roots p + ∑ q ∈ pass.graph.keys, ((propsOf pass.graph q).count p : Int)
  freed := []
  released := []
  zeroRefCountList := []
  stores := pass.stores

/-- The heap after the first objects of the order. -/
def after (pass : Pass) (done : List Ptr) : Heap := freeAll pass.graph pass.start done

/-- The heap when `gc_free_cycles` returns. -/
def finish (pass : Pass) : Heap := releaseKept pass.graph (pass.after pass.order)

/-- The object is a Go proxy. -/
def IsProxy (pass : Pass) (p : Ptr) : Prop :=
  ∃ obj opaquePart, pass.graph.lookup p = some obj ∧ obj.objClass = .goObject opaquePart

/-- At no time of the pass is the memory of a proxy given back while an object that
has not been freed refers to it. -/
def Safe (pass : Pass) : Prop :=
  (∀ done rest, pass.order = done ++ rest → ∀ p ∈ (pass.after done).released, pass.IsProxy p →
    ∀ q ∈ pass.graph, q ∉ done → p ∉ propsOf pass.graph q) ∧
  ∀ p ∈ pass.finish.released, pass.IsProxy p →
    ∀ q ∈ pass.graph, q ∉ pass.order → p ∉ propsOf pass.graph q

/-- No proxy is freed while exactly one reference to it is left in the objects that
come later, unless a weak reference keeps its memory or its opaque part is missing. -/
def NeverOneLeft (pass : Pass) : Prop :=
  ∀ done p rest, pass.order = done ++ p :: rest →
    ∀ obj o, pass.graph.lookup p = some obj → obj.objClass = .goObject (some o) →
      obj.weakrefCount = 0 → refsFrom pass.graph rest p ≠ 1

end Pass

/-! ## One object -/

/-- The class drops a reference on the object it finalizes. -/
def dropsSelf : ObjClass → Bool
  | .goObject (some _) => true
  | _ => false

/-- Dropping the references of a list of properties. -/
theorem drop_props (props : List Ptr) (heap : Heap) :
    (∀ r, (props.foldl freeValueRT heap).refCount r = heap.refCount r - props.count r) ∧
      (props.foldl freeValueRT heap).released = heap.released ∧
      (props.foldl freeValueRT heap).zeroRefCountList = heap.zeroRefCountList := by
  induction props generalizing heap with
  | nil => simp
  | cons head rest inductionHypothesis =>
    obtain ⟨counts, lists⟩ := inductionHypothesis (freeValueRT heap head)
    refine ⟨?_, lists⟩
    intro r
    rw [List.foldl_cons, counts, List.count_cons]
    by_cases same : head = r
    · subst same
      simp only [freeValueRT, Function.update_self, beq_self_eq_true, if_true]
      push_cast
      ring
    · simp [freeValueRT, Function.update_of_ne (Ne.symm same), same]

theorem finalizer_refCount (heap : Heap) (p : Ptr) (objClass : ObjClass) (r : Ptr) :
    (finalizer heap p objClass).refCount r =
      heap.refCount r - if r = p ∧ dropsSelf objClass then 1 else 0 := by
  cases objClass with
  | ordinary => simp [finalizer, dropsSelf]
  | goObject opaquePart =>
    cases opaquePart with
    | none => simp [finalizer, freeObjIdOpaque, dropsSelf]
    | some o =>
      by_cases same : r = p
      · subst same
        simp [finalizer, freeObjIdOpaque, freeValueRT, dropsSelf]
      · simp [finalizer, freeObjIdOpaque, freeValueRT, dropsSelf, same]

theorem finalizer_lists (heap : Heap) (p : Ptr) (objClass : ObjClass) :
    (finalizer heap p objClass).released = heap.released ∧
      (finalizer heap p objClass).zeroRefCountList = heap.zeroRefCountList := by
  rcases objClass with (_ | _) | _ <;> exact ⟨rfl, rfl⟩

/-- The counts after an object was freed. -/
theorem freeObject_refCount (heap : Heap) (p : Ptr) (obj : Obj) (r : Ptr) :
    (freeObject heap p obj).refCount r =
      heap.refCount r - obj.props.count r - if r = p ∧ dropsSelf obj.objClass then 1 else 0 := by
  have counts := (drop_props obj.props { heap with freed := p :: heap.freed }).1 r
  have final := finalizer_refCount
    (obj.props.foldl freeValueRT { heap with freed := p :: heap.freed }) p obj.objClass r
  rw [counts] at final
  simp only [freeObject]
  split <;> exact final

/-- Freeing an object gives its memory back exactly when its own count is zero
afterwards and nothing refers to it weakly. -/
theorem freeObject_released (heap : Heap) (p : Ptr) (obj : Obj) :
    (freeObject heap p obj).released =
      if (freeObject heap p obj).refCount p = 0 ∧ obj.weakrefCount = 0 then p :: heap.released
      else heap.released := by
  have earlier : (finalizer (obj.props.foldl freeValueRT { heap with freed := p :: heap.freed })
      p obj.objClass).released = heap.released := by
    rw [(finalizer_lists _ p obj.objClass).1, (drop_props obj.props _).2.1]
  by_cases zero : (finalizer (obj.props.foldl freeValueRT
      { heap with freed := p :: heap.freed }) p obj.objClass).refCount p = 0 ∧
      obj.weakrefCount = 0
  · simp only [freeObject, if_pos zero, earlier]
  · simp only [freeObject, if_neg zero, earlier]

/-- An object whose memory is kept joins the list of kept ones. -/
theorem freeObject_kept (heap : Heap) (p : Ptr) (obj : Obj) :
    (freeObject heap p obj).zeroRefCountList ⊆ p :: heap.zeroRefCountList := by
  have earlier : (finalizer (obj.props.foldl freeValueRT { heap with freed := p :: heap.freed })
      p obj.objClass).zeroRefCountList = heap.zeroRefCountList := by
    rw [(finalizer_lists _ p obj.objClass).2, (drop_props obj.props _).2.2]
  simp only [freeObject]
  split
  · rw [earlier]
    exact List.subset_cons_self p _
  · rw [earlier]
    exact List.Subset.refl _

/-! ## A whole pass -/

namespace Pass

variable {pass : Pass}

/-- The object at an address of the order. -/
theorem object_at {p : Ptr} (member : p ∈ pass.order) : ∃ obj, pass.graph.lookup p = some obj :=
  Finmap.mem_iff.mp (pass.present p member)

theorem after_snoc (done : List Ptr) {p : Ptr} {obj : Obj} (found : pass.graph.lookup p = some obj) :
    pass.after (done ++ [p]) = freeObject (pass.after done) p obj := by
  simp [after, freeAll, found]

/-- At the start the count of an unreachable object is the number of references from
the objects to be freed: no other object and no root refers to it. -/
theorem start_refCount {p : Ptr} (member : p ∈ pass.order) :
    pass.start.refCount p = refsFrom pass.graph pass.order p := by
  obtain ⟨rootless, alone⟩ := pass.unreachable p member
  have inside : pass.order.toFinset ⊆ pass.graph.keys := by
    intro q listed
    exact Finmap.mem_keys.mpr (pass.present q (List.mem_toFinset.mp listed))
  have outside : ∀ q ∈ pass.graph.keys, q ∉ pass.order.toFinset →
      ((propsOf pass.graph q).count p : Int) = 0 := by
    intro q stored unlisted
    have absent := alone q (Finmap.mem_keys.mp stored) (mt List.mem_toFinset.mpr unlisted)
    simp [List.count_eq_zero.mpr absent]
  simp only [start, rootless, refsFrom]
  rw [← Finset.sum_subset inside outside, List.sum_toFinset _ pass.distinct]
  simp [Nat.cast_list_sum, Function.comp_def]

/-- The count of an unreachable object along the pass: the references from the objects
still to be freed, less the one its own finalizer dropped.

Proof: reverse induction on the objects freed so far. Freeing the next object drops
the references its properties hold, its own included, and its finalizer takes one
more from the object itself; the order is without repetition, so that happens once. -/
theorem after_refCount {done rest : List Ptr} (split : pass.order = done ++ rest) {p : Ptr}
    (member : p ∈ pass.order) {obj : Obj} (found : pass.graph.lookup p = some obj) :
    (pass.after done).refCount p = refsFrom pass.graph rest p -
      if p ∈ done ∧ dropsSelf obj.objClass then 1 else 0 := by
  induction done using List.reverseRecOn generalizing rest with
  | nil =>
    obtain rfl : pass.order = rest := split
    simpa [after, freeAll] using start_refCount member
  | append_singleton done q inductionHypothesis =>
    have parts : pass.order = done ++ q :: rest := by simpa using split
    have listed : q ∈ pass.order := by simp [parts]
    obtain ⟨freedObj, there⟩ := object_at listed
    have before := inductionHypothesis parts
    have props : propsOf pass.graph q = freedObj.props := by simp [propsOf, there]
    have notYet : q ∉ done := by
      have distinct := pass.distinct
      rw [parts, List.nodup_append] at distinct
      intro early
      exact distinct.2.2 q early q (by simp) rfl
    rw [after_snoc done there, freeObject_refCount, before, refsFrom_cons, props]
    push_cast
    by_cases same : p = q
    · subst same
      obtain rfl : obj = freedObj := Option.some.inj (found.symm.trans there)
      simp [notYet]
    · simp only [same, false_and, if_false, List.mem_append, List.mem_singleton, or_false]
      ring

/-- Freeing one more object gives its memory back when its count is zero then. -/
theorem released_snoc {done rest : List Ptr} {q : Ptr} {obj : Obj}
    (split : pass.order = (done ++ [q]) ++ rest) (found : pass.graph.lookup q = some obj)
    {p : Ptr} : p ∈ (pass.after (done ++ [q])).released ↔ p ∈ (pass.after done).released ∨
      p = q ∧ obj.weakrefCount = 0 ∧
        (refsFrom pass.graph rest q : Int) = if dropsSelf obj.objClass then 1 else 0 := by
  have count := after_refCount split (p := q) (by simp [split]) found
  rw [after_snoc done found] at count ⊢
  rw [freeObject_released, count]
  simp only [List.mem_append, List.mem_singleton, or_true, true_and, sub_eq_zero]
  by_cases gone : (refsFrom pass.graph rest q : Int) =
      (if dropsSelf obj.objClass then 1 else 0) ∧ obj.weakrefCount = 0
  · rw [if_pos gone, List.mem_cons]
    tauto
  · rw [if_neg gone]
    tauto

/-- Memory given back during the loop is that of an object whose count was zero
when it had been freed. -/
theorem released_iff {done rest : List Ptr} (split : pass.order = done ++ rest) {p : Ptr} :
    p ∈ (pass.after done).released ↔
      ∃ earlier later obj, done = earlier ++ p :: later ∧ pass.graph.lookup p = some obj ∧
        obj.weakrefCount = 0 ∧
        (refsFrom pass.graph (later ++ rest) p : Int) = if dropsSelf obj.objClass then 1 else 0 := by
  induction done using List.reverseRecOn generalizing rest with
  | nil => simp [after, freeAll, start]
  | append_singleton done q inductionHypothesis =>
    have parts : pass.order = done ++ q :: rest := by simpa using split
    have listed : q ∈ pass.order := by simp [parts]
    obtain ⟨freedObj, there⟩ := object_at listed
    rw [released_snoc split there, inductionHypothesis parts]
    constructor
    · rintro (⟨earlier, later, obj, shape, found, strong, zero⟩ | ⟨rfl, strong, zero⟩)
      · exact ⟨earlier, later ++ [q], obj, by simp [shape], found, strong, by simpa using zero⟩
      · exact ⟨done, [], freedObj, rfl, there, strong, zero⟩
    · rintro ⟨earlier, later, obj, shape, found, strong, zero⟩
      rcases List.eq_nil_or_concat later with rfl | ⟨front, last, rfl⟩
      · obtain ⟨rfl, same⟩ := List.append_inj' shape rfl
        obtain rfl : q = p := by simpa using same
        obtain rfl : obj = freedObj := Option.some.inj (found.symm.trans there)
        exact .inr ⟨rfl, strong, by simpa using zero⟩
      · have trimmed : done ++ [q] = (earlier ++ p :: front) ++ [last] := by simpa using shape
        obtain ⟨rfl, same⟩ := List.append_inj' trimmed rfl
        obtain rfl : q = last := by simpa using same
        exact .inl ⟨earlier, front, obj, rfl, found, strong, by simpa using zero⟩

/-- Only objects that were freed have their memory kept for the end. -/
theorem kept_freed {done rest : List Ptr} (split : pass.order = done ++ rest) :
    (pass.after done).zeroRefCountList ⊆ done := by
  induction done using List.reverseRecOn generalizing rest with
  | nil => simp [after, freeAll, start]
  | append_singleton done q inductionHypothesis =>
    have parts : pass.order = done ++ q :: rest := by simpa using split
    have listed : q ∈ pass.order := by simp [parts]
    obtain ⟨freedObj, there⟩ := object_at listed
    rw [after_snoc done there]
    intro p kept
    rcases List.mem_cons.mp (freeObject_kept _ q freedObj kept) with rfl | early
    · simp
    · exact List.mem_append_left _ (inductionHypothesis parts early)

/-- All memory given back by the end of the pass is that of freed objects. -/
theorem finish_released {p : Ptr} (given : p ∈ pass.finish.released) : p ∈ pass.order := by
  have whole : pass.order = pass.order ++ [] := (List.append_nil _).symm
  rcases List.mem_append.mp given with kept | early
  · exact kept_freed whole (List.mem_of_mem_filter kept)
  · obtain ⟨earlier, later, _, shape, _⟩ := (released_iff whole).mp early
    rw [shape]
    simp

/-- When no proxy is freed with one reference left, memory that is given back during
the loop is not referred to by the objects still to be freed. -/
theorem released_unreferred (never : pass.NeverOneLeft) {done rest : List Ptr}
    (split : pass.order = done ++ rest) {p : Ptr} (early : p ∈ (pass.after done).released) :
    p ∈ pass.order ∧ ∀ q ∈ rest, p ∉ propsOf pass.graph q := by
  obtain ⟨earlier, later, obj, shape, found, strong, zero⟩ := (released_iff split).mp early
  have parts : pass.order = earlier ++ p :: (later ++ rest) := by simp [split, shape]
  have kept : dropsSelf obj.objClass = false := by
    cases kind : obj.objClass with
    | ordinary => rfl
    | goObject opaquePart =>
      cases opaquePart with
      | none => rfl
      | some o =>
        have single : refsFrom pass.graph (later ++ rest) p = 1 := by
          have value : (refsFrom pass.graph (later ++ rest) p : Int) = 1 := by
            simpa [dropsSelf, kind] using zero
          exact_mod_cast value
        exact absurd single (never earlier p (later ++ rest) parts obj o found kind strong)
  have noneLeft : refsFrom pass.graph (later ++ rest) p = 0 := by
    have value : (refsFrom pass.graph (later ++ rest) p : Int) = 0 := by
      simpa [kept] using zero
    exact_mod_cast value
  refine ⟨by simp [parts], fun q remaining => ?_⟩
  exact refsFrom_eq_zero.mp noneLeft q (List.mem_append_right _ remaining)

/-- The memory of a proxy is given back only after every object that refers to it
was freed exactly when no proxy is freed with one reference left.

Proof: a proxy with its opaque part is given back early when its count is zero after
the extra drop, that is when one reference is left; the object that holds it comes
later in the order and has not been freed. A proxy without opaque part keeps its
count, which is then zero only when no later object refers to it. At the end of the
pass every object of the order was freed and no other object refers into it. -/
theorem safe_iff_never_one_left (pass : Pass) : pass.Safe ↔ pass.NeverOneLeft := by
  constructor
  · rintro ⟨during, _⟩ done p rest split obj o found proxyClass strong single
    have parts : pass.order = (done ++ [p]) ++ rest := by simpa using split
    have early : p ∈ (pass.after (done ++ [p])).released :=
      (released_iff parts).mpr ⟨done, [], obj, rfl, found, strong, by
        simp [single, dropsSelf, proxyClass]⟩
    have referred : ¬ refsFrom pass.graph rest p = 0 := by omega
    rw [refsFrom_eq_zero] at referred
    push Not at referred
    obtain ⟨q, later, refers⟩ := referred
    have distinct := pass.distinct
    rw [parts, List.nodup_append] at distinct
    have unfreed : q ∉ done ++ [p] := fun freed => distinct.2.2 q freed q later rfl
    exact during (done ++ [p]) rest parts p early ⟨obj, some o, found, proxyClass⟩ q
      (pass.present q (by simp [parts, later])) unfreed refers
  · intro never
    constructor
    · intro done rest split p early proxy q stored unfreed
      obtain ⟨member, unreferred⟩ := released_unreferred never split early
      by_cases listed : q ∈ pass.order
      · rw [split] at listed
        exact unreferred q ((List.mem_append.mp listed).resolve_left unfreed)
      · exact (pass.unreachable p member).2 q stored listed
    · intro p given _ q stored outside
      exact (pass.unreachable p (finish_released given)).2 q stored outside

/-- An object that refers to itself and to a Go proxy, both unreachable, with the
older proxy freed first. -/
def proxyInCycle : Pass where
  graph := (∅ : Graph)
    |>.insert 1 { props := [], objClass := .goObject (some { ctx := 8, idx := 1 }), weakrefCount := 0 }
    |>.insert 2 { props := [2, 1], objClass := .ordinary, weakrefCount := 0 }
  roots _ := 0
  order := [1, 2]
  stores := ∅
  distinct := by decide
  present := by decide
  unreachable := by
    intro p listed
    refine ⟨rfl, ?_⟩
    revert p
    decide

/-- The finalizer of the proxy takes the last reference, the one the other object
still holds, and the memory of the proxy is given back while it is referred to. -/
theorem proxy_released_too_early : ¬ proxyInCycle.Safe := by
  rintro ⟨during, _⟩
  have early : 1 ∈ (proxyInCycle.after [1]).released := by decide
  have proxy : proxyInCycle.IsProxy 1 := ⟨_, _, rfl, rfl⟩
  exact during [1] [2] rfl 1 early proxy 2 (by decide) (by decide) (by decide)

end Pass

end GoQuickjs.Collector
