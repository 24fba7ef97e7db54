import GoQuickjs.Conversions

/-!
# The environment of an evaluation

`setEnv` installs the entries of a Go map as properties of the global object, one by one in the
order in which the map is iterated. It returns at the first value that is not converted, and it
drops the answer of `JS_SetPropertyStr`. Each value is converted in the state that the entries
before it have left, where their wrappers have taken ids.

The global object is what the engine looks at when it sets a property: its own properties, what
is inherited under each name, and whether it is extensible. The rest of the engine's heap is
there for the setters and the handlers of proxies, which may change all of it, or never come
back. Go memory stays as it is meanwhile. A name reaches the engine as a C string.

What is converted to a string is told from other values by its units, not by its address.
-/

namespace GoQuickjs.Environment

open World Relation

/-- A key of the map: a Go string, as its bytes. -/
abbrev Key := List UInt8

/-- A property name as its units. `none` is `JS_ATOM_NULL`. -/
abbrev Atom := Option (List Nat)

/-- What a script can tell of a value: the units of a string, and any other value as it is. -/
inductive Seen where
  | text (units : List Nat)
  | other (value : JSValue)
deriving DecidableEq

/-- A property. Of an accessor the setter counts when it is set. -/
inductive Property where
  | data (writable : Bool) (value : Seen)
  | accessor (setter : Option Ptr)
deriving DecidableEq

/-- What the chain of prototypes has under a name. A proxy in the chain answers for itself. -/
inductive Inherited where
  | absent
  | property (found : Property)
  | exotic
deriving DecidableEq

/-- The global object, with the rest of the heap. -/
structure Global (Heap : Type) where
  own : Atom → Option Property
  inherited : Atom → Inherited
  extensible : Bool
  heap : Heap

/-- What the engine does to set a property: it stores the value in an own property, refuses, or
runs a script. -/
inductive Way where
  | store
  | refuse
  | script
deriving DecidableEq

/-- The way that a property asks for. -/
def Property.way : Property → Way
  | .data writable _ => if writable then .store else .refuse
  | .accessor setter => if setter.isSome then .script else .refuse

variable {Heap : Type}

/-- The search of `JS_SetPropertyInternal`: an own property decides, then an inherited one, and a
new property needs an extensible object. -/
def Global.way (g : Global Heap) (atom : Atom) : Way :=
  match g.own atom with
  | some found => found.way
  | none =>
    match g.inherited atom with
    | .exotic => .script
    | .absent => if g.extensible then .store else .refuse
    | .property found =>
      match found.way with
      | .store => if g.extensible then .store else .refuse
      | other => other

/-- What the properties alone do not decide: how the engine answers when it needs room for a
name; what a setter or a handler leaves, if it comes back; what a getter or a handler answers;
and what is left of the wrappers once a property has been set. By then the value that was
overwritten or refused is freed, and scripts may have made wrappers of their own. -/
structure Engine (Heap : Type) where
  room : List UInt8 → Allocation
  setter : Atom → Seen → Global Heap → Option (Global Heap)
  getter : Atom → Global Heap → Option Seen
  settle : Key → Seen → Global Heap → World → World

/-- The global object and what the context has handed out. -/
structure State (Heap : Type) where
  global : Global Heap
  world : World

section

variable (engine : Engine Heap)

/-- What reading a property of the global object gives. -/
def Global.read (g : Global Heap) (atom : Atom) : Option Seen :=
  match g.own atom with
  | some (.data _ value) => some value
  | some (.accessor _) => engine.getter atom g
  | none =>
    match g.inherited atom with
    | .absent => none
    | .property (.data _ value) => some value
    | .property (.accessor _) | .exotic => engine.getter atom g

/-- `JS_NewAtomLen`. -/
def newAtomLen (str : List UInt8) : Option Atom :=
  match engine.room str with
  | .made => some (some (unitsOf str))
  | .refused => some none
  | .crashed => none

/-- `C.CString` with `JS_NewAtom`: the name ends at the first NUL. -/
def newAtom (key : Key) : Option Atom := newAtomLen engine (key.takeWhile (· ≠ 0))

/-- `JS_SetPropertyInternal` on the global object. -/
def setPropertyInternal (g : Global Heap) (prop : Atom) (val : Seen) : Option (Global Heap) :=
  match g.way prop with
  | .store => some { g with own := Function.update g.own prop (some (.data true val)) }
  | .refuse => some g
  | .script => engine.setter prop val g

/-- `JS_SetPropertyStr`, without its answer. -/
def setPropertyStr (g : Global Heap) (prop : Key) (val : Seen) : Option (Global Heap) :=
  (newAtom engine prop).bind fun atom => setPropertyInternal engine g atom val

/-- The units of the string that the engine makes of some bytes. A length that reaches it as a
negative one is that of the empty string. -/
def madeUnits (bytes : List UInt8) : List Nat :=
  if cutLength bytes < 2 ^ 31 then unitsOf (bytes.take (cutLength bytes)) else []

/-- What a script can tell of the engine value that was made for a Go value. -/
def seen (u : GoVal) : JSValue → Seen
  | .string address =>
    match text u with
    | some bytes => .text (madeUnits bytes)
    | none => .other (.string address)
  | js => .other js

/-- The value at the end of a chain of pointers. -/
def chainEnd (memory : GoMemory) : Nat → GoVal → GoVal
  | 0, v => v
  | depth + 1, v =>
    match pointsTo memory v with
    | some u => chainEnd memory depth u
    | none => v

/-- The function `setEnv` for one order of the entries. -/
def setEnv (ctx : Ptr) (memory : GoMemory) (fresh : Key → Fresh) (depth : Nat) :
    List (Key × GoVal) → State Heap → Option (Outcome Unit × State Heap)
  | [], s => some (.value (), s)
  | (k, v) :: rest, s =>
    if v = .nil then setEnv ctx memory fresh depth rest s
    else
      (makeJsValue ctx memory (fresh k) depth v s.world).bind fun made =>
        match made.1 with
        | .value jsVal =>
          let val := seen (chainEnd memory depth v) jsVal
          (setPropertyStr engine s.global k val).bind fun g =>
            setEnv ctx memory fresh depth rest ⟨g, engine.settle k val s.global made.2⟩
        | .failed err => some (.failed err, ⟨s.global, made.2⟩)
        | .panicked => some (.panicked, ⟨s.global, made.2⟩)

end

/-! ## One entry -/

/-- The value leads to the given end of a chain of pointers, and the case of the switch for that
end returns wherever an id is left for its wrapper. -/
structure Ends (memory : GoMemory) (v u : GoVal) : Prop where
  chain : ReflTransGen (fun a b => pointsTo memory a = some b) v u
  regular : Regular memory u
  survived : ∀ bytes, text u = some bytes → ¬ Fatal bytes

/-- What an entry asks of the engine. -/
inductive Call where
  | nothing
  | set (prop : Key) (val : Seen)
  | fails (error : String)

/-- What an entry asks for, when its value leads to the given end of a chain of pointers. -/
def call (fresh : Key → Fresh) (last : GoVal → GoVal) (entry : Key × GoVal) : Call :=
  if entry.2 = .nil then .nothing
  else
    match answer (fresh entry.1) (last entry.2) with
    | .value js => .set entry.1 (seen (last entry.2) js)
    | .failed e => .fails e
    | .panicked => .nothing

variable {engine : Engine Heap} {ctx : Ptr} {memory : GoMemory} {address : Fresh}
  {fresh : Key → Fresh} {w after : World} {v u : GoVal} {depth : Nat} {last : GoVal → GoVal}

namespace Ends

/-- A conversion returns exactly if the id it takes, should it take one, is still free. -/
theorem finishes_iff (ends : Ends memory v u) {store : PtrStore GoAddr} :
    Finishes store memory u ↔ (takesId memory u = true → store.live < 2 ^ 32) :=
  ⟨fun finishes => finishes.room, fun room => ⟨ends.regular, room, ends.survived⟩⟩

/-- The end leads nowhere. -/
theorem final (ends : Ends memory v u) : pointsTo memory u = none := by
  have finishes : Finishes PtrStore.newPtrStore memory u :=
    ends.finishes_iff.mpr fun _ => by decide
  exact finishes.last

/-- A value that returns leads to such an end. -/
theorem of_returns (unused : Wrappers.Unused ctx w address) {outcome : Outcome JSValue}
    (returned : makeJsValue ctx memory address depth v w = some (outcome, after))
    (regular : outcome ≠ .panicked) : ∃ u, Ends memory v u := by
  obtain ⟨u, chain, finishes⟩ := (returns_iff unused).mp ⟨depth, outcome, after, returned, regular⟩
  exact ⟨u, chain, finishes.regular, finishes.survived⟩

end Ends

/-! ## One order -/

/-- The entries in order, once it is known what each of them asks for. -/
def run (engine : Engine Heap) : List Call → Global Heap → Option (Outcome Unit × Global Heap)
  | [], g => some (.value (), g)
  | .nothing :: rest, g => run engine rest g
  | .fails e :: _, g => some (.failed e, g)
  | .set prop val :: rest, g => (setPropertyStr engine g prop val).bind (run engine rest)

/-- What the engine does after an entry leaves the addresses of the others alone. -/
def Kept (engine : Engine Heap) (ctx : Ptr) (fresh : Key → Fresh) : Prop :=
  ∀ key val g w k, Wrappers.Unused ctx w (fresh k) →
    Wrappers.Unused ctx (engine.settle key val g w) (fresh k)

/-- Each key has addresses of its own for what its value is converted to, and they are given to
nothing else. -/
structure Reserved (engine : Engine Heap) (ctx : Ptr) (fresh : Key → Fresh) (w : World) : Prop where
  unused : ∀ k, Wrappers.Unused ctx w (fresh k)
  apart : ∀ j k, j ≠ k →
    (fresh j).goVar ≠ (fresh k).goVar ∧ (fresh j).object ≠ (fresh k).object
  kept : Kept engine ctx fresh

/-- The addresses of these entries are not yet in use. -/
def Pending (ctx : Ptr) (fresh : Key → Fresh) (order : List (Key × GoVal)) (w : World) : Prop :=
  (order.map Prod.fst).Nodup ∧ Supply ctx w fresh (· ∈ order.map Prod.fst)

variable {s : State Heap} {g : Global Heap} {outcome : Outcome Unit} {order rest : List (Key × GoVal)}
  {entry : Key × GoVal} {k : Key}

/-- Addresses reserved for a whole run are pending at its start. -/
theorem Reserved.pending (reserved : Reserved engine ctx fresh w)
    (distinct : (order.map Prod.fst).Nodup) : Pending ctx fresh order w :=
  ⟨distinct, fun k _ => reserved.unused k, reserved.apart⟩

/-- The address of the next entry is not used yet. -/
theorem Pending.unused (pending : Pending ctx fresh (entry :: rest) w) :
    Wrappers.Unused ctx w (fresh entry.1) :=
  pending.2.unused entry.1 (by simp)

/-- What is left of the entries stays pending. -/
theorem Pending.tail (pending : Pending ctx fresh (entry :: rest) w) : Pending ctx fresh rest w :=
  ⟨(List.nodup_cons.mp pending.1).2,
    fun k inside => pending.2.unused k (List.mem_cons_of_mem _ inside), pending.2.apart⟩

/-- A conversion and what the engine does after it leave the other addresses alone. -/
theorem Pending.next {key : Key} {val : Seen} {result : Outcome JSValue}
    (pending : Pending ctx fresh (entry :: rest) w)
    (kept : Kept engine ctx fresh)
    (returned : makeJsValue ctx memory (fresh entry.1) depth entry.2 w = some (result, after)) :
    Pending ctx fresh rest (engine.settle key val g after) := by
  obtain ⟨absent, distinct⟩ := List.nodup_cons.mp pending.1
  have others : ∀ k, k ∈ rest.map Prod.fst → k ∈ (entry :: rest).map Prod.fst ∧ k ≠ entry.1 := by
    intro k inside
    refine ⟨List.mem_cons_of_mem _ inside, ?_⟩
    rintro rfl
    exact absent inside
  have supply := pending.2.next (by simp) others returned
  exact ⟨distinct, fun k inside => kept _ _ _ _ k (supply.unused k inside), supply.apart⟩

/-- The values of the entries lead to these ends. -/
def AllEnd (memory : GoMemory) (last : GoVal → GoVal) (order : List (Key × GoVal)) : Prop :=
  ∀ entry ∈ order, entry.2 ≠ .nil → Ends memory entry.2 (last entry.2)

/-- The entries after the first end if all do. -/
theorem AllEnd.tail (ends : AllEnd memory last (entry :: rest)) : AllEnd memory last rest :=
  fun entry inside => ends entry (List.mem_cons_of_mem _ inside)

end GoQuickjs.Environment
