import GoQuickjs.Library.Batches
import GoQuickjs.Environment

/-!
# All or nothing

Go iterates a map in any order, so that a call of `setEnv` has as many possible ends as the
environment has orders. It is all or nothing when every order ends in the same way: without an
error and with every entry installed, or with an error and every property as it was.

Where no name meets a setter or the handler of a proxy, the entries are a batch of writes, and
their names and values decide. Elsewhere what the scripts do decides, and the condition speaks
of the calls of `JS_SetPropertyStr` alone.
-/

namespace GoQuickjs.Environment

open World Relation Batches

variable {Heap : Type}

/-! ## Ends -/

/-- The properties of the global object are the same, and so is what is read from them. -/
structure Same (engine : Engine Heap) (g g' : Global Heap) : Prop where
  own : g'.own = g.own
  inherited : g'.inherited = g.inherited
  read : ∀ atom, g'.read engine atom = g.read engine atom

section

variable (engine : Engine Heap) (ctx : Ptr) (memory : GoMemory) (fresh : Key → Fresh)

/-- The property of exactly the name that the key spells reads as what the value is converted
to. -/
def Installed (w : World) (g : Global Heap) (entry : Key × GoVal) : Prop :=
  ∃ depth js after,
    makeJsValue ctx memory (fresh entry.1) depth entry.2 w = some (.value js, after) ∧
    g.read engine (some (unitsOf entry.1)) = some (seen (chainEnd memory depth entry.2) js)

/-- The call returns in every order, and ends in one way in all of them: without an error and
with every entry installed, or with an error and every property as it was. -/
def AllOrNothing (env : List (Key × GoVal)) (s : State Heap) : Prop :=
  ∃ outcome ending, (∀ order, order.Perm env → ∃ depth s',
      setEnv engine ctx memory fresh depth order s = some (outcome, s') ∧ Same engine ending s'.global) ∧
    ((outcome = .value () ∧ ∀ entry ∈ env, entry.2 ≠ .nil →
        Installed engine ctx memory fresh s.world ending entry) ∨
      ((∃ e, outcome = .failed e) ∧ Same engine s.global ending))

end

/-! ## The calls of an environment -/

/-- The calls of `JS_SetPropertyStr` alone, one after the other. -/
def setAll (engine : Engine Heap) : List Call → Global Heap → Option (Global Heap)
  | [], g => some g
  | .nothing :: rest, g | .fails _ :: rest, g => setAll engine rest g
  | .set prop val :: rest, g => (setPropertyStr engine g prop val).bind (setAll engine rest)

/-- No name takes the process down or meets a setter or a handler. -/
def Quiet (engine : Engine Heap) (g : Global Heap) (calls : List Call) : Prop :=
  ∀ prop val, .set prop val ∈ calls → ∃ atom, newAtom engine prop = some atom ∧ g.way atom ≠ .script

/-- What a call asks of the own properties, where it meets no script. -/
def item (engine : Engine Heap) (g : Global Heap) : Call → Item Atom (Option Property) String
  | .nothing => .idle
  | .fails e => .stop e
  | .set prop val =>
    match newAtom engine prop with
    | some atom => if g.way atom = .store then .write atom (some (.data true val)) else .idle
    | none => .idle

/-- The property of exactly the name that the key spells is written with this value, or it is not
written and reads as the value in the end. -/
def Holds (engine : Engine Heap) (g : Global Heap)
    (items : List (Item Atom (Option Property) String)) (key : Key) (val : Seen) : Prop :=
  .write (some (unitsOf key)) (some (.data true val)) ∈ items ∨
    (∀ value, .write (some (unitsOf key)) value ∉ items) ∧
      Global.read engine { g with own := (runBatch items g.own).2 } (some (unitsOf key)) = some val

variable {engine : Engine Heap} {ctx : Ptr} {memory : GoMemory} {fresh : Key → Fresh}
  {env order : List (Key × GoVal)} {s : State Heap} {g g' g'' : Global Heap}
  {last : GoVal → GoVal} {calls before : List Call} {outcome : Outcome Unit}

/-- A global is the same as itself. -/
theorem Same.refl (g : Global Heap) : Same engine g g := ⟨rfl, rfl, fun _ => rfl⟩

/-- Which global of the two comes first does not matter. -/
theorem Same.symm (same : Same engine g g') : Same engine g' g :=
  ⟨same.own.symm, same.inherited.symm, fun atom => (same.read atom).symm⟩

/-- Two steps that change nothing are one that changes nothing. -/
theorem Same.trans (same : Same engine g g') (onward : Same engine g' g'') : Same engine g g'' :=
  ⟨onward.own.trans same.own, onward.inherited.trans same.inherited,
    fun atom => (onward.read atom).trans (same.read atom)⟩

/-! ## With and without errors -/

/-- The end of a call, after it has run as a batch on the own properties. -/
def ended (g : Global Heap) (run : Option String × (Atom → Option Property)) :
    Outcome Unit × Global Heap :=
  (match run.1 with
    | none => .value ()
    | some e => .failed e, { g with own := run.2 })

/-- The calls after the first are quiet if all are. -/
theorem Quiet.tail {call : Call} (quiet : Quiet engine g (call :: calls)) : Quiet engine g calls :=
  fun prop val inside => quiet prop val (List.mem_cons_of_mem _ inside)

/-- Calls are quiet in whatever order they are made. -/
theorem Quiet.perm {order : List Call} (quiet : Quiet engine g calls) (perm : order.Perm calls) :
    Quiet engine g order := fun prop val inside => quiet prop val (perm.mem_iff.mp inside)

variable {entry : Key × GoVal}

/-- Where a call is all or nothing, each value leads to one whose conversion returns. -/
theorem AllOrNothing.ends (unused : ∀ k, Wrappers.Unused ctx s.world (fresh k))
    (whole : AllOrNothing engine ctx memory fresh env s) (inside : entry ∈ env)
    (given : entry.2 ≠ .nil) : ∃ u, Ends memory entry.2 u := by
  obtain ⟨outcome, ending, every, regular⟩ := whole
  obtain ⟨rest, perm⟩ := exists_first inside
  obtain ⟨depth, s', returned, _⟩ := every _ perm
  rw [setEnv, if_neg given] at returned
  obtain ⟨⟨made, after⟩, converted, onward⟩ := Option.bind_eq_some_iff.mp returned
  refine Ends.of_returns (unused entry.1) converted ?_
  rintro rfl
  obtain ⟨rfl, _⟩ := Prod.mk.inj (Option.some.inj onward)
  obtain ⟨same, _⟩ | ⟨⟨e, same⟩, _⟩ := regular <;> cases same

/-- An entry whose wrapper takes an id. -/
def wraps (memory : GoMemory) (last : GoVal → GoVal) (entry : Key × GoVal) : Bool :=
  entry.2 ≠ .nil && takesId memory (last entry.2)

/-- A global object without properties. -/
def empty : Global Unit := ⟨fun _ => none, fun _ => .absent, true, ()⟩

end GoQuickjs.Environment
