import GoQuickjs.Decode
import GoQuickjs.Library.Runs

/-!
# Closures over engine functions

`fromJsFunc` gives Go a closure that captures the `JSValue` of an engine function
and does not duplicate the reference. The caller of `fromJsValue` frees the value
right after the conversion, so from then on the function lives by the references
that scripts hold. The model follows the reference count of every function object
through any interleaving of what scripts, API calls and Go code do to it, one
reference at a time: a script makes a function, copies or drops a reference; an API
call reads a function from a property, or receives one as the result of a call or a
getter, makes a closure over it and frees it; Go calls closures and forgets them.
Collecting a cycle is the dropping of the references inside it.

A function object is named by a number of its own, which is not given to another
object when its memory is reused.
-/

namespace GoQuickjs.Closures

open Runs Tracing

/-- Function objects with their counts, who holds the references, the closures that Go
code can reach, and the objects made so far. -/
structure Heap where
  refCount : Finmap fun _ : Ptr => Nat
  script : Ptr → Nat
  api : Ptr → Nat
  closures : Finmap fun _ : Nat => Ptr
  made : Finset Ptr

/-- One step of a script, of an API call or of Go code. -/
inductive Action where
  | create (f : Ptr)
  | copy (f : Ptr)
  | drop (f : Ptr)
  | read (f : Ptr)
  | receive (f : Ptr)
  | fromJsFunc (closure : Nat) (f : Ptr)
  | freeValue (f : Ptr)
  | call (closure : Nat)
  | forget (closure : Nat)
deriving DecidableEq

/-- `JS_DupValue`. -/
def dupValue (counts : Finmap fun _ : Ptr => Nat) (f : Ptr) : Finmap fun _ : Ptr => Nat :=
  match counts.lookup f with
  | some n => counts.insert f (n + 1)
  | none => counts

/-- `JS_FreeValue`: one reference less, and the object is freed with the last one. -/
def freeValue (counts : Finmap fun _ : Ptr => Nat) (f : Ptr) : Finmap fun _ : Ptr => Nat :=
  match counts.lookup f with
  | some n => if n - 1 = 0 then counts.erase f else counts.insert f (n - 1)
  | none => counts

/-- One more reference in the hands of a holder. -/
def gain (held : Ptr → Nat) (f : Ptr) : Ptr → Nat := Function.update held f (held f + 1)

/-- One reference less in the hands of a holder. -/
def lose (held : Ptr → Nat) (f : Ptr) : Ptr → Nat := Function.update held f (held f - 1)

/-- The effect of a step. A reference can be copied, dropped, handed over or freed only
by its holder, and a closure is made over a value that the conversion holds. -/
def step (heap : Heap) : Action → Option Heap
  | .create f =>
    if f ∈ heap.made then none
    else some { heap with
      refCount := heap.refCount.insert f 1
      script := gain heap.script f
      made := insert f heap.made }
  | .copy f =>
    if heap.script f = 0 then none
    else some { heap with refCount := dupValue heap.refCount f, script := gain heap.script f }
  | .drop f =>
    if heap.script f = 0 then none
    else some { heap with refCount := freeValue heap.refCount f, script := lose heap.script f }
  | .read f =>
    if heap.script f = 0 then none
    else some { heap with refCount := dupValue heap.refCount f, api := gain heap.api f }
  | .receive f =>
    if heap.script f = 0 then none
    else some { heap with script := lose heap.script f, api := gain heap.api f }
  | .fromJsFunc closure f =>
    if heap.api f = 0 ∨ closure ∈ heap.closures then none
    else some { heap with closures := heap.closures.insert closure f }
  | .freeValue f =>
    if heap.api f = 0 then none
    else some { heap with refCount := freeValue heap.refCount f, api := lose heap.api f }
  | .call closure => if closure ∈ heap.closures then some heap else none
  | .forget closure => some { heap with closures := heap.closures.erase closure }

/-- No function, no closure. -/
def initial : Heap := ⟨∅, fun _ => 0, fun _ => 0, ∅, ∅⟩

/-- Every closure that Go code can reach captures a function object that exists. -/
def Alive (heap : Heap) : Prop :=
  ∀ closure f, heap.closures.lookup closure = some f → f ∈ heap.refCount

/-- The step gives up a reference to a function. -/
def GivesUp (f : Ptr) : Action → Prop
  | .drop g | .freeValue g => g = f
  | _ => False

/-- A step that gives up a reference to a captured function leaves another one, with a
script or with an API call. -/
def LeavesOne (heap : Heap) (action : Action) : Prop :=
  ∀ closure f, heap.closures.lookup closure = some f → GivesUp f action →
    2 ≤ heap.script f + heap.api f

/-! ## Counts -/

/-- The count of an object is the number of references held, and an object without
references is freed. -/
structure Counted (heap : Heap) : Prop where
  counts : ∀ f, heap.refCount.lookup f =
    if heap.script f + heap.api f = 0 then none else some (heap.script f + heap.api f)
  unmade : ∀ f, f ∉ heap.made → heap.script f + heap.api f = 0

theorem initial_counted : Counted initial := ⟨fun _ => rfl, fun _ _ => rfl⟩

/-- An object exists exactly when a reference to it is held. -/
theorem Counted.mem_iff {heap : Heap} (counted : Counted heap) {f : Ptr} :
    f ∈ heap.refCount ↔ heap.script f + heap.api f ≠ 0 := by
  rw [Finmap.mem_iff, counted.counts f]
  by_cases zero : heap.script f + heap.api f = 0
  · simp [zero]
  · rw [if_neg zero]
    exact iff_of_true ⟨_, rfl⟩ zero

theorem gain_apply (held : Ptr → Nat) (f g : Ptr) :
    gain held f g = if g = f then held f + 1 else held g := by
  simp [gain, Function.update_apply]

theorem lose_apply (held : Ptr → Nat) (f g : Ptr) :
    lose held f g = if g = f then held f - 1 else held g := by
  simp [lose, Function.update_apply]

theorem lookup_dupValue (counts : Finmap fun _ : Ptr => Nat) (f g : Ptr) :
    (dupValue counts f).lookup g =
      if g = f then (counts.lookup f).map (· + 1) else counts.lookup g := by
  simp only [dupValue]
  by_cases same : g = f
  · subst same
    cases found : counts.lookup g with
    | none => simp [found]
    | some n => simp [Finmap.lookup_insert]
  · rw [if_neg same]
    cases counts.lookup f with
    | none => rfl
    | some n => exact Finmap.lookup_insert_of_ne _ same

theorem lookup_freeValue (counts : Finmap fun _ : Ptr => Nat) (f g : Ptr) :
    (freeValue counts f).lookup g =
      if g = f then (counts.lookup f).bind fun n => if n - 1 = 0 then none else some (n - 1)
      else counts.lookup g := by
  simp only [freeValue]
  by_cases same : g = f
  · subst same
    cases found : counts.lookup g with
    | none => simp [found]
    | some n =>
      by_cases last : n - 1 = 0
      · simp [last, Finmap.lookup_erase]
      · simp [last, Finmap.lookup_insert]
  · rw [if_neg same]
    cases counts.lookup f with
    | none => rfl
    | some n =>
      by_cases last : n - 1 = 0
      · simp only [if_pos last, Finmap.lookup_erase_ne same]
      · simp only [if_neg last, Finmap.lookup_insert_of_ne _ same]

section steps

variable {heap next : Heap} {action : Action}

/-- Counts follow a step that concerns one object to which a reference is held. -/
theorem Counted.moved (counted : Counted heap) {f : Ptr} (held : heap.script f + heap.api f ≠ 0)
    (made : next.made = heap.made)
    (here : next.refCount.lookup f =
      if next.script f + next.api f = 0 then none else some (next.script f + next.api f))
    (elsewhere : ∀ g, g ≠ f → next.refCount.lookup g = heap.refCount.lookup g ∧
      next.script g = heap.script g ∧ next.api g = heap.api g) : Counted next := by
  refine ⟨fun g => ?_, fun g unmade => ?_⟩
  · by_cases same : g = f
    · subst same
      exact here
    · obtain ⟨counts, script, api⟩ := elsewhere g same
      rw [counts, script, api]
      exact counted.counts g
  · rw [made] at unmade
    have unheld := counted.unmade g unmade
    by_cases same : g = f
    · subst same
      exact absurd unheld held
    · obtain ⟨-, script, api⟩ := elsewhere g same
      rw [script, api]
      exact unheld

/-- One more reference to an object is held, and counted by `JS_DupValue`. -/
theorem Counted.duplicated (counted : Counted heap) {f : Ptr}
    (held : heap.script f + heap.api f ≠ 0) (made : next.made = heap.made)
    (counts : next.refCount = dupValue heap.refCount f)
    (more : next.script f + next.api f = heap.script f + heap.api f + 1)
    (others : ∀ g, g ≠ f → next.script g = heap.script g ∧ next.api g = heap.api g) :
    Counted next := by
  refine counted.moved held made ?_ fun g other => ⟨?_, others g other⟩
  · rw [counts, lookup_dupValue, if_pos rfl, counted.counts f, if_neg held, more]
    rw [if_neg (Nat.succ_ne_zero _)]
    rfl
  · rw [counts, lookup_dupValue, if_neg other]

/-- One reference to an object is given up through `JS_FreeValue`. -/
theorem Counted.released (counted : Counted heap) {f : Ptr}
    (held : heap.script f + heap.api f ≠ 0) (made : next.made = heap.made)
    (counts : next.refCount = freeValue heap.refCount f)
    (fewer : next.script f + next.api f = heap.script f + heap.api f - 1)
    (others : ∀ g, g ≠ f → next.script g = heap.script g ∧ next.api g = heap.api g) :
    Counted next := by
  refine counted.moved held made ?_ fun g other => ⟨?_, others g other⟩
  · rw [counts, lookup_freeValue, if_pos rfl, counted.counts f, if_neg held, fewer]
    rfl
  · rw [counts, lookup_freeValue, if_neg other]

/-- A new object has one reference, and it is not one that was made before. -/
theorem Counted.created (counted : Counted heap) {f : Ptr} (fresh : f ∉ heap.made) :
    Counted { heap with
      refCount := heap.refCount.insert f 1
      script := gain heap.script f
      made := insert f heap.made } := by
  have unheld := counted.unmade f fresh
  refine ⟨fun g => ?_, fun g unmade => ?_⟩
  · have before := counted.counts g
    by_cases same : g = f
    · subst same
      simp only [gain_apply, if_true, Finmap.lookup_insert]
      rw [if_neg (by omega)]
      exact congrArg some (by omega)
    · simpa only [gain_apply, if_neg same, Finmap.lookup_insert_of_ne _ same] using before
  · have other : g ≠ f := fun same => unmade (by simp [same])
    have before := counted.unmade g fun old => unmade (by simp [old])
    simpa only [gain_apply, if_neg other] using before

/-- Every step keeps the counts equal to the references held.

Proof: a case for each action. Only the count and the holders of one object change,
by the same number, and an object is freed exactly when its last reference goes. -/
theorem step_counted (counted : Counted heap) (taken : step heap action = some next) :
    Counted next := by
  cases action with
  | create f =>
    simp only [step, Option.ite_none_left_eq_some, Option.some.injEq] at taken
    obtain ⟨fresh, rfl⟩ := taken
    exact counted.created fresh
  | copy f =>
    simp only [step, Option.ite_none_left_eq_some, Option.some.injEq] at taken
    obtain ⟨holds, rfl⟩ := taken
    refine counted.duplicated (f := f) (by omega) rfl rfl ?_ fun g other => ?_
    · simp only [gain_apply, if_true]
      omega
    · simp [gain_apply, other]
  | drop f =>
    simp only [step, Option.ite_none_left_eq_some, Option.some.injEq] at taken
    obtain ⟨holds, rfl⟩ := taken
    refine counted.released (f := f) (by omega) rfl rfl ?_ fun g other => ?_
    · simp only [lose_apply, if_true]
      omega
    · simp [lose_apply, other]
  | read f =>
    simp only [step, Option.ite_none_left_eq_some, Option.some.injEq] at taken
    obtain ⟨holds, rfl⟩ := taken
    refine counted.duplicated (f := f) (by omega) rfl rfl ?_ fun g other => ?_
    · simp only [gain_apply, if_true]
      omega
    · simp [gain_apply, other]
  | receive f =>
    simp only [step, Option.ite_none_left_eq_some, Option.some.injEq] at taken
    obtain ⟨holds, rfl⟩ := taken
    refine counted.moved (f := f) (by omega) rfl ?_ fun g other => ?_
    · simp only [lose_apply, gain_apply, if_true, counted.counts f]
      rw [show heap.script f - 1 + (heap.api f + 1) = heap.script f + heap.api f by omega]
    · simp [lose_apply, gain_apply, other]
  | freeValue f =>
    simp only [step, Option.ite_none_left_eq_some, Option.some.injEq] at taken
    obtain ⟨holds, rfl⟩ := taken
    refine counted.released (f := f) (by omega) rfl rfl ?_ fun g other => ?_
    · simp only [lose_apply, if_true]
      omega
    · simp [lose_apply, other]
  | fromJsFunc closure f =>
    simp only [step, Option.ite_none_left_eq_some, Option.some.injEq] at taken
    obtain ⟨-, rfl⟩ := taken
    exact ⟨counted.counts, counted.unmade⟩
  | call closure =>
    simp only [step, Option.ite_none_right_eq_some, Option.some.injEq] at taken
    obtain ⟨-, rfl⟩ := taken
    exact counted
  | forget closure =>
    obtain rfl := Option.some.inj taken
    exact ⟨counted.counts, counted.unmade⟩

theorem reached_counted {actions : List Action} (reached : run step initial actions = some heap) :
    Counted heap :=
  run_invariant initial_counted (fun _ _ _ => step_counted) reached

/-! ## Captured functions -/

/-- Only giving a reference up makes the references to a function fewer. -/
theorem step_held (taken : step heap action = some next) {f : Ptr} (kept : ¬ GivesUp f action) :
    heap.script f + heap.api f ≤ next.script f + next.api f := by
  cases action with
  | create g | copy g | read g | receive g =>
    simp only [step, Option.ite_none_left_eq_some, Option.some.injEq] at taken
    obtain ⟨holds, rfl⟩ := taken
    by_cases same : f = g
    · subst same
      simp only [gain_apply, lose_apply, if_true]
      omega
    · simp [gain_apply, lose_apply, same]
  | drop g | freeValue g =>
    simp only [step, Option.ite_none_left_eq_some, Option.some.injEq] at taken
    obtain ⟨holds, rfl⟩ := taken
    have other : f ≠ g := fun same => kept same.symm
    simp [lose_apply, other]
  | fromJsFunc closure g =>
    simp only [step, Option.ite_none_left_eq_some, Option.some.injEq] at taken
    obtain ⟨-, rfl⟩ := taken
    exact le_rfl
  | call closure =>
    simp only [step, Option.ite_none_right_eq_some, Option.some.injEq] at taken
    obtain ⟨-, rfl⟩ := taken
    exact le_rfl
  | forget closure =>
    obtain rfl := Option.some.inj taken
    exact le_rfl

/-- Giving a reference up makes them fewer by one and leaves the closures alone. -/
theorem step_gives_up (taken : step heap action = some next) {f : Ptr}
    (gives : GivesUp f action) :
    next.script f + next.api f + 1 = heap.script f + heap.api f ∧ next.closures = heap.closures := by
  cases action with
  | drop g | freeValue g =>
    obtain rfl : g = f := gives
    simp only [step, Option.ite_none_left_eq_some, Option.some.injEq] at taken
    obtain ⟨holds, rfl⟩ := taken
    refine ⟨?_, rfl⟩
    simp only [lose_apply, if_true]
    omega
  | _ => exact absurd gives id

/-- A closure after a step was there before, or was made over a function held by the
API call that converts it. -/
theorem step_closures (taken : step heap action = some next) {closure : Nat} {f : Ptr}
    (captured : next.closures.lookup closure = some f) :
    heap.closures.lookup closure = some f ∨
      next.script f + next.api f ≠ 0 := by
  cases action with
  | create g | copy g | read g | receive g | drop g | freeValue g =>
    simp only [step, Option.ite_none_left_eq_some, Option.some.injEq] at taken
    obtain ⟨holds, rfl⟩ := taken
    exact Or.inl captured
  | fromJsFunc made g =>
    simp only [step, Option.ite_none_left_eq_some, Option.some.injEq, not_or] at taken
    obtain ⟨⟨holds, -⟩, rfl⟩ := taken
    by_cases same : closure = made
    · subst same
      obtain rfl : g = f := by simpa [Finmap.lookup_insert] using captured
      exact Or.inr (by simp only; omega)
    · exact Or.inl (by simpa [Finmap.lookup_insert_of_ne _ same] using captured)
  | call made =>
    simp only [step, Option.ite_none_right_eq_some, Option.some.injEq] at taken
    obtain ⟨-, rfl⟩ := taken
    exact Or.inl captured
  | forget made =>
    obtain rfl := Option.some.inj taken
    by_cases same : closure = made
    · subst same
      simp [Finmap.lookup_erase] at captured
    · exact Or.inl (by simpa [Finmap.lookup_erase_ne same] using captured)

/-- A step that leaves a reference to every captured function keeps them alive. -/
theorem step_alive (counted : Counted heap) (alive : Alive heap) (leaves : LeavesOne heap action)
    (taken : step heap action = some next) : Alive next := by
  intro closure f captured
  rw [(step_counted counted taken).mem_iff]
  rcases step_closures taken captured with before | held
  · have lived := counted.mem_iff.mp (alive closure f before)
    by_cases gives : GivesUp f action
    · have two := leaves closure f before gives
      have fewer := (step_gives_up taken gives).1
      omega
    · have more := step_held taken gives
      omega
  · exact held

/-- A step that does not leave one frees a function that a closure captured. -/
theorem step_dead (counted : Counted heap) (last : ¬ LeavesOne heap action)
    (taken : step heap action = some next) : ¬ Alive next := by
  intro alive
  simp only [LeavesOne, not_forall, not_le] at last
  obtain ⟨closure, f, captured, gives, single⟩ := last
  obtain ⟨fewer, closures⟩ := step_gives_up taken gives
  have lives := (step_counted counted taken).mem_iff.mp (alive closure f (closures ▸ captured))
  omega

end steps

/-- The function captured by a reachable closure exists in every state along a run
exactly when every step of the run that gives up a reference to a captured function
leaves another one.

Proof: counts equal the references held in every reached state. A step that leaves a
reference keeps the captured functions alive; one that does not frees such a
function, and the state after it is on the run. -/
theorem captured_alive_iff (actions : List Action) (final : Heap)
    (reached : run step initial actions = some final) :
    (∀ before after heap, actions = before ++ after → run step initial before = some heap →
      Alive heap) ↔ Allowed step LeavesOne initial actions := by
  constructor
  · intro alive before action after split heap earlier
    by_contra last
    rw [split] at reached
    obtain ⟨middle, there, onward⟩ := run_split.mp reached
    obtain rfl : heap = middle := Option.some.inj (earlier.symm.trans there)
    simp only [run, Option.bind_eq_some_iff] at onward
    obtain ⟨next, taken, -⟩ := onward
    have along : run step initial (before ++ [action]) = some next :=
      run_snoc.mpr ⟨heap, earlier, taken⟩
    exact step_dead (reached_counted earlier) last taken
      (alive (before ++ [action]) after next (by simp [split]) along)
  · intro allowed before after heap split earlier
    rw [split] at allowed
    have start : Counted initial ∧ Alive initial :=
      ⟨initial_counted, fun closure f captured => by simp [initial] at captured⟩
    exact (allowed_invariant (motive := fun heap => Counted heap ∧ Alive heap) start
      (fun _ _ _ holds leaves taken =>
        ⟨step_counted holds.1 taken, step_alive holds.1 holds.2 leaves taken⟩)
      allowed.earlier earlier).2

/-! ## The conversion of a function -/

/-- What the events about one converted function mean for its references: taking it is
the given fetch, after which the closure is made, and giving it back frees it. -/
def moves (fetch : Action) (closure : Nat) (f : Ptr) (ref : Resource) : Event Resource → List Action
  | .take x => if x = ref then [fetch, .fromJsFunc closure f] else []
  | .use _ => []
  | .give x => if x = ref then [.freeValue f] else []

/-- Converting a function, wherever it is met, returns a closure over it and keeps no
reference to it. -/
theorem conversion_moves {r : Reading} {p : Path} {f : Ptr} (read : r p = .function f) (depth : Nat)
    (fetch : Action) (closure : Nat) :
    (Traced.holding (valueRef r p) (fromJsValue r (depth + 1) p)).ending =
        .returns (.ok (.bindGoFunc f)) ∧
      (Traced.holding (valueRef r p) (fromJsValue r (depth + 1) p)).trace.flatMap
        (moves fetch closure f ⟨.node p, .value⟩) =
          [fetch, .fromJsFunc closure f, .freeValue f] := by
  have ref : valueRef r p = some ⟨.node p, .value⟩ := by simp [valueRef, owned, read, Answer.hasRefCount]
  have converted : fromJsValue r (depth + 1) p =
      ⟨.returns (.ok (.bindGoFunc f)), [.use ⟨.node p, .value⟩]⟩ := by
    simp only [fromJsValue, read, uses, ref]
    rfl
  rw [converted, ref]
  simp [Traced.holding_eq, moves]

/-- `GetGlobal` of a function that stays in its variable, and a call of the closure. -/
theorem global_function_stays : ∃ heap,
    run step initial [.create 1, .read 1, .fromJsFunc 0 1, .freeValue 1, .call 0] = some heap ∧
      ((∀ before after heap, [.create 1, .read 1, .fromJsFunc 0 1, .freeValue 1, .call 0] =
          before ++ after → run step initial before = some heap → Alive heap) ↔
        Allowed step LeavesOne initial
          [.create 1, .read 1, .fromJsFunc 0 1, .freeValue 1, .call 0]) :=
  ⟨_, rfl, captured_alive_iff _ _ rfl⟩

/-- `CallFunc` of a function that returns a new function: the result is freed when
`CallFunc` returns, and the closure that it returned captures a freed object. -/
theorem returned_function_freed : ∃ heap, run step initial (.create 1 ::
      (JsContext.callFunc 1 "f" (.function 8) [] fun _ => .function 1).trace.flatMap
        (moves (.receive 1) 0 1 ⟨.node [], .value⟩)) = some heap ∧
    heap.closures.lookup 0 = some 1 ∧ 1 ∉ heap.refCount ∧ ¬ Alive heap := by
  obtain ⟨heap, reached, captured, freed⟩ : ∃ heap, run step initial (.create 1 ::
        (JsContext.callFunc 1 "f" (.function 8) [] fun _ => .function 1).trace.flatMap
          (moves (.receive 1) 0 1 ⟨.node [], .value⟩)) = some heap ∧
      heap.closures.lookup 0 = some 1 ∧ 1 ∉ heap.refCount := ⟨_, rfl, by decide, by decide⟩
  exact ⟨heap, reached, captured, freed, fun alive => freed (alive 0 1 captured)⟩

end GoQuickjs.Closures
