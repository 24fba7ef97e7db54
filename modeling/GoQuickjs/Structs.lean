import GoQuickjs.GoValue
import GoQuickjs.Library.LevelSearch
import Mathlib.Logic.Function.Basic

/-!
# The parts of composites

The elements of slices and arrays, the entries of maps and the fields of structs, and how
`reflect` finds a field by its name: the field of that name that is embedded least deeply, if
there is only one. A promoted field is reached through embedded structs and pointers to structs,
and a nil pointer on the way is a panic.

A composite that is held by value in a part of another is named there by the address of its
contents, so that such a part is replaced as a whole. No pointer leads into a part.
-/

namespace GoQuickjs

/-- A Go identifier, or a property key as a Go string. -/
abbrev Name := List UInt8

/-! ## Memory -/

/-- The key of a map entry: a string, or a value of another type. -/
inductive MapKey where
  | string : Name → MapKey
  | other : Nat → MapKey
deriving DecidableEq

/-- A part of a composite. A field belongs to a struct type and has an index in it. -/
inductive Component where
  | element (base : GoAddr) (index : Nat) : Component
  | entry (base : GoAddr) (key : MapKey) : Component
  | field (type : Nat) (base : GoAddr) (index : Nat) : Component
deriving DecidableEq

/-- The variables of a Go program and what the parts of its composites hold; a key that a map
does not have holds nothing. -/
structure GoHeap where
  vars : GoMemory
  contents : Component → Option GoVal

/-- Store a value in a part. -/
def GoHeap.store (heap : GoHeap) (c : Component) (v : GoVal) : GoHeap :=
  { heap with contents := Function.update heap.contents c (some v) }

/-- A component holds what is stored there. -/
@[simp] theorem GoHeap.store_same (heap : GoHeap) (c : Component) (v : GoVal) :
    (heap.store c v).contents c = some v := by
  simp [GoHeap.store]

/-- The other components keep what they held. -/
theorem GoHeap.store_other {heap : GoHeap} {c other : Component} {v : GoVal} (apart : other ≠ c) :
    (heap.store c v).contents other = heap.contents other := by
  simp [GoHeap.store, Function.update_of_ne apart]

/-! ## Types -/

/-- A field of a struct type, with the struct type it embeds, by itself or by a pointer. -/
structure Field where
  name : Name
  exported : Bool
  embedded : Option Nat

/-- A struct type with the method set of the type and that of pointers to it. -/
structure StructType where
  fields : List Field
  methods : Name → Option Nat
  pointerMethods : Name → Option Nat

/-- What `reflect` asks about the key type of a map: whether a string can be assigned to it. -/
inductive KeyType where
  | string | emptyInterface | other
deriving DecidableEq

/-- `AssignableTo` for a value of type `string`. -/
def KeyType.takesString : KeyType → Bool
  | .string | .emptyInterface => true
  | .other => false

/-- The types of a Go program: its struct types, and the key types of its maps. -/
structure GoTypes where
  structs : List StructType
  keyType : Option GoAddr → KeyType

namespace GoTypes

variable (types : GoTypes)

/-- The fields of a struct type. -/
def fields (t : Nat) : List Field := types.structs[t]?.elim [] StructType.fields

/-- The method set of a struct type. -/
def methods (t : Nat) (name : Name) : Option Nat :=
  types.structs[t]?.bind fun type => type.methods name

/-- The method set of pointers to a struct type. -/
def pointerMethods (t : Nat) (name : Name) : Option Nat :=
  types.structs[t]?.bind fun type => type.pointerMethods name

end GoTypes

/-- The way to a field: the embedded fields that lead to the struct that declares it, and the
field there, each by type and index. -/
structure FieldPath where
  through : List (Nat × Nat)
  type : Nat
  index : Nat
  exported : Bool
deriving DecidableEq

/-- A struct type that the search has got to, and the embedded fields it was reached by. -/
structure FieldScan where
  typ : Nat
  index : List (Nat × Nat)

namespace GoTypes

variable (types : GoTypes)

/-- The fields of the name that the type itself declares. -/
def declared (name : Name) (scan : FieldScan) : List FieldPath :=
  (types.fields scan.typ).zipIdx.filterMap fun f =>
    if f.1.name = name then some ⟨scan.index, scan.typ, f.2, f.1.exported⟩ else none

/-- The struct types that the type embeds. -/
def embeds (scan : FieldScan) : List FieldScan :=
  (types.fields scan.typ).zipIdx.filterMap fun f =>
    f.1.embedded.map fun t => ⟨t, scan.index ++ [(scan.typ, f.2)]⟩

/-- `FieldByName` of a struct type. Of blank fields the first is found; a promoted field is found
when it is the only one at the shallowest depth. No field lies deeper than there are types. -/
def fieldByName (t : Nat) (name : Name) : Option FieldPath :=
  match types.declared name ⟨t, []⟩ with
  | own :: _ => some own
  | [] =>
    LevelSearch.search types.embeds (types.declared name) types.structs.length
      (types.embeds ⟨t, []⟩)

end GoTypes

/-! ## Fields of a struct value -/

namespace GoHeap

/-- The struct that an embedded field holds or points to, and whether a pointer was followed. -/
def embedded (heap : GoHeap) : Option GoVal → Option (GoAddr × Bool)
  | some (.struct _ base) => some (base, false)
  | some (.ptr false (some target)) =>
    match heap.vars target with
    | .struct _ base => some (base, true)
    | _ => none
  | _ => none

/-- `FieldByIndex`: go through the embedded fields. A nil pointer panics, and what lies behind a
pointer is addressable. -/
def fieldByIndex (heap : GoHeap) (type index : Nat) :
    GoAddr → Bool → List (Nat × Nat) → Option (Component × Bool)
  | base, addressable, [] => some (.field type base index, addressable)
  | base, addressable, step :: rest =>
    match heap.embedded (heap.contents (.field step.1 base step.2)) with
    | none => none
    | some inner => heap.fieldByIndex type index inner.1 (addressable || inner.2) rest

end GoHeap

/-- A `reflect.Value` of kind struct. It is addressable when it was reached by a pointer. -/
structure StructValue where
  type : Nat
  base : GoAddr
  addressable : Bool

/-- What `FieldByName` of a struct value gives: the zero `Value`, a panic, or a field. -/
inductive FieldValue where
  | invalid : FieldValue
  | panics : FieldValue
  | valid (c : Component) (addressable exported : Bool) : FieldValue
deriving DecidableEq

/-- `FieldByName` of a struct value. -/
def StructValue.fieldByName (types : GoTypes) (heap : GoHeap) (s : StructValue) (name : Name) :
    FieldValue :=
  match types.fieldByName s.type name with
  | none => .invalid
  | some path =>
    match heap.fieldByIndex path.type path.index s.base s.addressable path.through with
    | none => .panics
    | some found => .valid found.1 found.2 path.exported

/-! ## What a name leads to -/

section names

variable {types : GoTypes} {heap : GoHeap} {name : Name} {scan : FieldScan} {path : FieldPath}
  {t : Nat}

/-- The path ends at a field of that name. -/
def FieldPath.Names (types : GoTypes) (name : Name) (path : FieldPath) : Prop :=
  ∃ f, (types.fields path.type)[path.index]? = some f ∧ f.name = name

/-- No embedded field on the path is of that name. -/
def Misses (types : GoTypes) (name : Name) (steps : List (Nat × Nat)) : Prop :=
  ∀ step ∈ steps, ∀ f, (types.fields step.1)[step.2]? = some f → f.name ≠ name

/-- The fields found at one level have the name, and the path and type they are found with. -/
theorem declared_spec (inside : path ∈ types.declared name scan) :
    path.Names types name ∧ path.through = scan.index ∧ path.type = scan.typ := by
  obtain ⟨f, entry, same⟩ := List.mem_filterMap.mp inside
  split at same
  · rename_i named
    obtain rfl := Option.some.inj same
    exact ⟨⟨f.1, List.mem_zipIdx_iff_getElem?.mp entry, named⟩, rfl, rfl⟩
  · cases same

/-- If none is found no field of the type has the name. -/
theorem declared_nil (nothing : types.declared name scan = []) {i : Nat} {f : Field}
    (here : (types.fields scan.typ)[i]? = some f) : f.name ≠ name := by
  intro named
  have entry : (f, i) ∈ (types.fields scan.typ).zipIdx := List.mem_zipIdx_iff_getElem?.mpr here
  have inside : (⟨scan.index, scan.typ, i, f.exported⟩ : FieldPath) ∈ types.declared name scan :=
    List.mem_filterMap.mpr ⟨(f, i), entry, if_pos named⟩
  rw [nothing] at inside
  cases inside

/-- Going deeper where the type declares no field of the name. -/
theorem embeds_misses (misses : Misses types name scan.index)
    (nothing : types.declared name scan = []) {deeper : FieldScan}
    (inside : deeper ∈ types.embeds scan) : Misses types name deeper.index := by
  obtain ⟨f, _, same⟩ := List.mem_filterMap.mp inside
  obtain ⟨u, _, rfl⟩ := Option.map_eq_some_iff.mp same
  intro step onPath
  rcases List.mem_append.mp onPath with earlier | last
  · exact misses step earlier
  · obtain rfl := List.mem_singleton.mp last
    intro field here
    exact declared_nil nothing here

/-- The field that is found has the name, and no embedded field on the way to it has. -/
theorem fieldByName_spec (found : types.fieldByName t name = some path) :
    path.Names types name ∧ Misses types name path.through := by
  rw [GoTypes.fieldByName] at found
  split at found
  · rename_i own _ here
    obtain rfl := Option.some.inj found
    have inside : own ∈ types.declared name ⟨t, []⟩ := by
      rw [here]
      exact List.mem_cons_self
    obtain ⟨named, direct, _⟩ := declared_spec inside
    rw [direct]
    exact ⟨named, fun step onPath => absurd onPath List.not_mem_nil⟩
  · rename_i nothing
    have start : ∀ scan ∈ types.embeds ⟨t, []⟩, Misses types name scan.index := fun scan =>
      embeds_misses (fun step onPath => absurd onPath List.not_mem_nil) nothing
    obtain ⟨scan, misses, inside⟩ := LevelSearch.search_invariant
      (fun scan => Misses types name scan.index) start
      (fun scan misses nothing deeper => embeds_misses misses nothing) found
    obtain ⟨named, way, _⟩ := declared_spec inside
    rw [way]
    exact ⟨named, misses⟩

/-- Only a type of the program has fields. -/
theorem mem_fields_lt {f : Field} (inside : f ∈ types.fields t) : t < types.structs.length := by
  by_contra beyond
  rw [GoTypes.fields, List.getElem?_eq_none (by omega)] at inside
  cases inside

/-- The next level consists of the types embedded here. -/
theorem embeds_iff (scan : FieldScan) (t : Nat) : (∃ deeper ∈ types.embeds scan, deeper.typ = t) ↔
    ∃ f ∈ types.fields scan.typ, f.embedded = some t := by
  constructor
  · rintro ⟨deeper, inside, rfl⟩
    obtain ⟨f, entry, same⟩ := List.mem_filterMap.mp inside
    obtain ⟨u, embedded, rfl⟩ := Option.map_eq_some_iff.mp same
    exact ⟨f.1, List.mem_of_getElem? (List.mem_zipIdx_iff_getElem?.mp entry), embedded⟩
  · rintro ⟨f, inside, embedded⟩
    obtain ⟨i, here⟩ := List.mem_iff_getElem?.mp inside
    refine ⟨⟨t, scan.index ++ [(scan.typ, i)]⟩, List.mem_filterMap.mpr ?_, rfl⟩
    exact ⟨(f, i), List.mem_zipIdx_iff_getElem?.mpr here, by rw [embedded]; rfl⟩

/-- Fields are found exactly if the type has one of the name. -/
theorem declared_iff (scan : FieldScan) :
    types.declared name scan ≠ [] ↔ ∃ f ∈ types.fields scan.typ, f.name = name := by
  constructor
  · intro something
    obtain ⟨path, inside⟩ := List.exists_mem_of_ne_nil _ something
    obtain ⟨⟨f, here, named⟩, _, own⟩ := declared_spec inside
    rw [own] at here
    exact ⟨f, List.mem_of_getElem? here, named⟩
  · rintro ⟨f, inside, named⟩ nothing
    obtain ⟨i, here⟩ := List.mem_iff_getElem?.mp inside
    exact declared_nil nothing here named

/-- A search that went deeper than there are types would find the same. -/
theorem fieldByName_deep {deeper : Nat} (more : types.structs.length ≤ deeper) :
    types.fieldByName t name =
      match types.declared name ⟨t, []⟩ with
      | own :: _ => some own
      | [] =>
        LevelSearch.search types.embeds (types.declared name) deeper (types.embeds ⟨t, []⟩) := by
  have enough : LevelSearch.search types.embeds (types.declared name) deeper (types.embeds ⟨t, []⟩) =
      LevelSearch.search types.embeds (types.declared name) types.structs.length
        (types.embeds ⟨t, []⟩) :=
    LevelSearch.search_enough FieldScan.typ (fun a b => ∃ f ∈ types.fields a, f.embedded = some b)
      (fun a => ∃ f ∈ types.fields a, f.name = name) embeds_iff
      (fun a b ⟨f, inside, _⟩ => mem_fields_lt inside) declared_iff
      (fun a ⟨f, inside, _⟩ => mem_fields_lt inside) more
  rw [GoTypes.fieldByName, enough]

/-- A field has one name. -/
theorem FieldPath.Names.unique {other : Name} {otherPath : FieldPath}
    (named : path.Names types name) (otherNamed : otherPath.Names types other)
    (sameType : path.type = otherPath.type) (sameIndex : path.index = otherPath.index) :
    name = other := by
  obtain ⟨f, here, rfl⟩ := named
  obtain ⟨g, there, rfl⟩ := otherNamed
  rw [sameType, sameIndex, there] at here
  exact congrArg Field.name (Option.some.inj here).symm

/-! ## What a store changes -/

variable {type index : Nat} {base : GoAddr} {addressable : Bool} {steps : List (Nat × Nat)}

/-- A path of fields ends at a field. -/
theorem fieldByIndex_component {found : Component × Bool}
    (resolved : heap.fieldByIndex type index base addressable steps = some found) :
    ∃ inner, found.1 = .field type inner index := by
  induction steps generalizing base addressable with
  | nil =>
    obtain rfl := Option.some.inj resolved
    exact ⟨base, rfl⟩
  | cons step rest inductionHypothesis =>
    simp only [GoHeap.fieldByIndex] at resolved
    split at resolved
    · cases resolved
    · exact inductionHypothesis resolved

/-- A store in a part that is not on the way leaves the way as it is. -/
theorem fieldByIndex_store {c : Component} {v : GoVal}
    (apart : ∀ step ∈ steps, ∀ inner, .field step.1 inner step.2 ≠ c) :
    (heap.store c v).fieldByIndex type index base addressable steps =
      heap.fieldByIndex type index base addressable steps := by
  induction steps generalizing base addressable with
  | nil => rfl
  | cons step rest inductionHypothesis =>
    have unchanged : (heap.store c v).embedded
        ((heap.store c v).contents (.field step.1 base step.2)) =
        heap.embedded (heap.contents (.field step.1 base step.2)) := by
      rw [GoHeap.store_other (apart step List.mem_cons_self base)]
      rfl
    simp only [GoHeap.fieldByIndex]
    rw [unchanged]
    split
    · rfl
    · exact inductionHypothesis fun step later => apart step (List.mem_cons_of_mem _ later)

/-- A field is found in the same place after a value was stored in it. -/
theorem StructValue.fieldByName_store {s : StructValue} {c : Component} {exported : Bool}
    {v : GoVal} (found : s.fieldByName types heap name = .valid c addressable exported) :
    s.fieldByName types (heap.store c v) name = .valid c addressable exported := by
  rw [StructValue.fieldByName] at found ⊢
  cases way : types.fieldByName s.type name with
  | none =>
    rw [way] at found
    cases found
  | some path =>
    rw [way] at found
    obtain ⟨named, misses⟩ := fieldByName_spec way
    simp only at found ⊢
    have apart : ∀ step ∈ path.through, ∀ inner, .field step.1 inner step.2 ≠ c := by
      intro step onPath inner same
      split at found
      · cases found
      · rename_i place resolved
        obtain ⟨rfl, _, _⟩ := FieldValue.valid.inj found
        obtain ⟨inside, here⟩ := fieldByIndex_component resolved
        obtain ⟨sameType, _, sameIndex⟩ := Component.field.inj (same.trans here)
        obtain ⟨f, declared, hasName⟩ := named
        rw [← sameType, ← sameIndex] at declared
        exact misses step onPath f declared hasName
    rw [fieldByIndex_store apart]
    exact found

end names

end GoQuickjs
