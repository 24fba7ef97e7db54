import GoQuickjs.Reached
import GoQuickjs.Library.Ownership

/-!
# What the events of a conversion are about

Every reference that a conversion takes, uses or gives back belongs to the value it
converts or to a part of it: the events of the conversion at a path concern
resources at that path or below. What an exception needs is settled and in order
for `Error` objects; any other exception that carries a reference is fetched and
never given back.
-/

namespace GoQuickjs

open Tracing Traced

/-- A thrown value that carries a reference and is not an `Error` object. -/
def Answer.CountedOther : Answer → Prop
  | .thrown (.other v) => v.hasRefCount = true
  | _ => False

/-! ## What the events are about -/

/-- A reference of the value at a path or of a part of it. -/
def Resource.Below (p : Path) (x : Resource) : Prop := ∃ q, x.place = .node q ∧ p <:+ q

/-- What is below a child is below its parent. -/
theorem Resource.Below.parent {i : Nat} {p : Path} {x : Resource} (below : x.Below (i :: p)) :
    x.Below p := by
  obtain ⟨q, place, suffix⟩ := below
  exact ⟨q, place, (List.suffix_cons i p).trans suffix⟩

/-- Parts of different elements are different. -/
theorem Resource.Below.unique {i j : Nat} {p : Path} {x : Resource} (first : x.Below (i :: p))
    (second : x.Below (j :: p)) : i = j := by
  obtain ⟨q, place, suffix⟩ := first
  obtain ⟨q', place', suffix'⟩ := second
  obtain rfl : q = q' := by
    rw [place] at place'
    exact Place.node.inj place'
  have same : i :: p = j :: p :=
    (List.suffix_of_suffix_length_le suffix suffix' (by simp)).eq_of_length (by simp)
  exact (List.cons.inj same).1

/-- A value is not a part of one of its elements. -/
theorem not_below_child {i : Nat} {p : Path} {part : Part} :
    ¬ Resource.Below (i :: p) ⟨.node p, part⟩ := by
  rintro ⟨q, place, suffix⟩
  obtain rfl : p = q := Place.node.inj place
  have longer := suffix.length_le
  simp at longer

/-- A place owns at most the one resource. -/
theorem mem_owned {counted : Bool} {place : Place} {part : Part} {x : Resource}
    (held : x ∈ owned counted place part) : x = ⟨place, part⟩ := by
  cases counted with
  | false => simp [owned] at held
  | true => simpa [owned] using held.symm

/-! ## Fetching an exception -/

section exceptions

variable (place : Place)

/-- Events with a property of an exception. -/
theorem mem_propertyText {part textPart : Part} {skip : JSValue → Bool} {property : Fetched}
    {e : Event Resource} (listed : e ∈ (propertyText place part textPart skip property).trace) :
    e = .use ⟨place, .exception⟩ ∨ e.subject = ⟨place, part⟩ ∨ e.subject = ⟨place, textPart⟩ := by
  rcases List.mem_append.mp listed with first | held
  · exact Or.inl (by simpa using first)
  rcases mem_holdingDeferred held with inner | ⟨x, owner, acted⟩
  · split at inner
    · simp at inner
    · rcases List.mem_append.mp inner with used | text
      · obtain ⟨x, owner, rfl⟩ := List.mem_map.mp used
        exact Or.inr (Or.inl (mem_owned (Option.mem_toList.mp owner)))
      · cases found : property.text with
        | none => simp [found] at text
        | some str =>
          rw [found] at text
          rcases mem_holding text with nothing | ⟨x, owner, acted⟩
          · simp at nothing
          · obtain rfl : _ = x := by simpa using owner
            rcases acted with rfl | rfl <;> exact Or.inr (Or.inr rfl)
  · obtain rfl := mem_owned owner
    rcases acted with rfl | rfl <;> exact Or.inr (Or.inl rfl)

/-- The text of a property is given back whatever the lookup answered. -/
theorem propertyText_settles (part textPart : Part) (skip : JSValue → Bool) (property : Fetched) :
    (propertyText place part textPart skip property).Settles [] := by
  apply (used_carries _ _ _).settles
  have ended := propertyText_ending place part textPart skip property
  refine (holdingDeferred_wraps _ _).settles ended ?_
  split
  · exact pure_settles _
  · apply (used_carries _ _ _).settles
    cases property.text with
    | none => exact pure_settles _
    | some str => exact (holding_wraps _ _).settles rfl (pure_settles _)

/-- The text of a property is used before it is given back. -/
theorem propertyText_orderly {part textPart : Part} (different : part ≠ textPart)
    (skip : JSValue → Bool) (property : Fetched) :
    Orderly (propertyText place part textPart skip property).trace := by
  apply orderly_before (by simp)
  refine holdingDeferred_orderly ?_ ?_
  · split
    · exact List.Pairwise.nil
    · apply orderly_before (by simp)
      cases property.text with
      | none => exact List.Pairwise.nil
      | some str => exact holding_orderly List.Pairwise.nil (by simp)
  · intro x owner gave
    obtain rfl := mem_owned owner
    split at gave
    · simp at gave
    · rcases List.mem_append.mp gave with used | text
      · simp at used
      · cases found : property.text with
        | none => simp [found] at text
        | some str => simp [found, holding_eq, different] at text

/-- What `DumpException` touches: the exception, the stack and the text of the stack. -/
theorem mem_dumpException {stack : Fetched} {e : Event Resource}
    (listed : e ∈ (dumpException place stack).trace) :
    e = .use ⟨place, .exception⟩ ∨ e.subject = ⟨place, .stack⟩ ∨
      e.subject = ⟨place, .stackText⟩ := by
  rcases mem_bind listed with read | ⟨text, -, nothing⟩
  · exact mem_propertyText place read
  · simp at nothing

/-- What `getExceptionStr` touches: the exception, its name and the text of that. -/
theorem mem_getExceptionStr {name : Fetched} {e : Event Resource}
    (listed : e ∈ (getExceptionStr place name).trace) :
    e = .use ⟨place, .exception⟩ ∨ e.subject = ⟨place, .name⟩ ∨ e.subject = ⟨place, .nameText⟩ := by
  rcases mem_bind listed with read | ⟨text, -, nothing⟩
  · exact mem_propertyText place read
  · simp at nothing

/-- Fetching an `Error` object settles all its references. -/
theorem error_settles (stack name : Fetched) :
    (fromJsException place (some (.error stack name))).Settles [] := by
  have message := fromJsException_ending place (.error stack name)
  have dumped : (dumpException place stack).Settles [] :=
    bind_settles (propertyText_ending ..) (propertyText_settles place _ _ _ _) (pure_settles _)
  have named : (getExceptionStr place name).Settles [] :=
    bind_settles (propertyText_ending ..) (propertyText_settles place _ _ _ _) (pure_settles _)
  refine (holdingDeferred_wraps _ _).settles message ?_
  apply (used_carries _ _ _).settles
  exact bind_settles (dumpException_ending place stack) dumped
    (bind_settles (getExceptionStr_ending place name) named (pure_settles _))

/-- `DumpException` uses what it took before giving it back. -/
theorem dumpException_orderly (stack : Fetched) : Orderly (dumpException place stack).trace := by
  apply bind_orderly (propertyText_orderly place (by decide) _ stack)
  exact fun _ _ => ⟨List.Pairwise.nil, fun _ _ e listed => absurd listed List.not_mem_nil⟩

/-- `getExceptionStr` uses what it took before giving it back. -/
theorem getExceptionStr_orderly (name : Fetched) : Orderly (getExceptionStr place name).trace := by
  apply bind_orderly (propertyText_orderly place (by decide) _ name)
  exact fun _ _ => ⟨List.Pairwise.nil, fun _ _ e listed => absurd listed List.not_mem_nil⟩

/-- Events while an `Error` object is read: it is used, and everything else is about
its properties. -/
theorem mem_error {stack name : Fetched} {e : Event Resource}
    (listed : e ∈ (fromJsException place (some (.error stack name))).trace) :
    e.subject = ⟨place, .exception⟩ ∨ e.subject = ⟨place, .stack⟩ ∨
      e.subject = ⟨place, .stackText⟩ ∨ e.subject = ⟨place, .name⟩ ∨
      e.subject = ⟨place, .nameText⟩ := by
  rcases mem_holdingDeferred listed with inner | ⟨x, owner, acted⟩
  · rcases List.mem_append.mp inner with used | later
    · obtain rfl : e = .use ⟨place, .exception⟩ := by simpa using used
      exact Or.inl rfl
    rcases mem_bind later with dumped | ⟨-, -, later⟩
    · rcases mem_dumpException place dumped with rfl | about | about
      · exact Or.inl rfl
      · simp [about]
      · simp [about]
    rcases mem_bind later with named | ⟨text, -, nothing⟩
    · rcases mem_getExceptionStr place named with rfl | about | about
      · exact Or.inl rfl
      · simp [about]
      · simp [about]
    · simp at nothing
  · obtain rfl : _ = x := by simpa using owner
    rcases acted with rfl | rfl <;> exact Or.inl rfl

/-- What printing the stack gives back is not touched when the name is read. -/
theorem error_orderly (stack name : Fetched) :
    Orderly (fromJsException place (some (.error stack name))).trace := by
  have read_name : Orderly (getExceptionStr place name >>= fun str =>
      (pure (some str) : Owning (Option String))).trace :=
    bind_orderly (getExceptionStr_orderly place name)
      fun _ _ => ⟨List.Pairwise.nil, fun _ _ e listed => absurd listed List.not_mem_nil⟩
  have name_event : ∀ e ∈ (getExceptionStr place name >>= fun str =>
      (pure (some str) : Owning (Option String))).trace, e = .use ⟨place, .exception⟩ ∨
        e.subject = ⟨place, .name⟩ ∨ e.subject = ⟨place, .nameText⟩ := by
    intro e listed
    rcases mem_bind listed with named | ⟨text, -, nothing⟩
    · exact mem_getExceptionStr place named
    · simp at nothing
  refine holdingDeferred_orderly (orderly_before (by simp) ?_) ?_
  · refine bind_orderly (dumpException_orderly place stack) fun _ _ => ⟨read_name, ?_⟩
    intro x gave e listed same
    rcases mem_dumpException place gave with never | rfl | rfl
    · simp at never
    · rcases name_event e listed with rfl | about | about <;> simp_all [Event.subject]
    · rcases name_event e listed with rfl | about | about <;> simp_all [Event.subject]
  · intro x owner gave
    obtain rfl : _ = x := by simpa using owner
    rcases List.mem_append.mp gave with used | later
    · simp at used
    rcases mem_bind later with dumped | ⟨-, -, named⟩
    · rcases mem_dumpException place dumped with never | about | about
      · simp at never
      · simp [Event.subject] at about
      · simp [Event.subject] at about
    · rcases name_event _ named with never | about | about
      · simp at never
      · simp [Event.subject] at about
      · simp [Event.subject] at about

/-- Fetching any other value settles when it carries no reference. -/
theorem other_settles {v : JSValue} (plain : v.hasRefCount = false) :
    (fromJsException place (some (.other v))).Settles [] := by
  simp only [fromJsException, owned, plain]
  exact pure_settles _

/-- A fetched value that carries a reference and is not an `Error` object is left. -/
theorem other_leaves {v : JSValue} (counted : v.hasRefCount = true) :
    (fromJsException place (some (.other v))).Leaves [] := by
  refine ⟨⟨place, .exception⟩, ?_⟩
  simp [fromJsException, owned, counted, uses_bind, taken, given]

/-- `fromJsException` gives back nothing that it did not take. -/
theorem exception_owes (pending : Option Thrown) : (fromJsException place pending).Owes [] := by
  match pending with
  | none => exact (pure_settles _).owes
  | some (.error stack name) => exact (error_settles place stack name).owes
  | some (.other v) => exact owes_of_none (by simp [fromJsException]) []

/-- Fetching an exception touches nothing after it was given back. -/
theorem exception_orderly (x : Thrown) : Orderly (fromJsException place (some x)).trace := by
  cases x with
  | error stack name => exact error_orderly place stack name
  | other v => exact orderly_before (by simp) (orderly_before (by simp) List.Pairwise.nil)

/-- Everything about a fetched exception stays at its place. -/
theorem mem_exception {x : Thrown} {e : Event Resource}
    (listed : e ∈ (fromJsException place (some x)).trace) :
    e.subject.place = place ∧ e.subject.part ≠ .value := by
  cases x with
  | error stack name =>
    rcases mem_error place listed with about | about | about | about | about <;> simp [about]
  | other v =>
    have about : e.subject = ⟨place, .exception⟩ := by
      rcases List.mem_append.mp listed with took | used
      · obtain ⟨x, owner, rfl⟩ := List.mem_map.mp took
        exact mem_owned (Option.mem_toList.mp owner)
      · rcases List.mem_append.mp used with used | nothing
        · obtain ⟨x, owner, rfl⟩ := List.mem_map.mp used
          exact mem_owned (Option.mem_toList.mp owner)
        · simp at nothing
    simp [about]

end exceptions

/-! ## Where the events of a conversion are -/

section located

variable {r : Reading} {p : Path} {convert : Path → Owning GoResult}

/-- The resources of a node are below it. -/
theorem below_here (p : Path) (part : Part) : Resource.Below p ⟨.node p, part⟩ :=
  ⟨p, rfl, List.suffix_refl p⟩

/-- A use of an optional resource is a use of that resource. -/
theorem mem_uses {ref : Option Resource} {e : Event Resource} (listed : e ∈ (uses ref).trace) :
    ∃ x ∈ ref, e = .use x := by
  obtain ⟨x, owner, rfl⟩ := List.mem_map.mp listed
  exact ⟨x, Option.mem_toList.mp owner, rfl⟩

/-- Every event of the conversion of a value is about it or about a part of it, and
its own reference is not given back. -/
def Located (convert : Path → Owning GoResult) : Prop :=
  ∀ q, ∀ e ∈ (convert q).trace, e.subject.Below q ∧ e ≠ .give ⟨.node q, .value⟩

/-- The conversion of an element touches the array and what is below the element. -/
theorem mem_arrayElement (located : Located convert) {i : Nat} {res : List Decoded}
    {e : Event Resource} (listed : e ∈ (arrayElement r p convert i res).trace) :
    e = .use ⟨.node p, .value⟩ ∨ e.subject.Below (i :: p) := by
  rcases List.mem_append.mp listed with used | later
  · obtain ⟨x, owner, rfl⟩ := mem_uses used
    exact Or.inl (congrArg Event.use (mem_owned owner))
  by_cases thrown : (r (i :: p)).IsThrown
  · cases read : r (i :: p) with
    | thrown x =>
      simp only [read] at later
      rcases mem_bind later with fetched | ⟨err, -, nothing⟩
      · exact Or.inr ⟨i :: p, (mem_exception _ fetched).1, List.suffix_refl _⟩
      · simp at nothing
    | _ => simp [read, Answer.IsThrown] at thrown
  · rw [arrayElement_read thrown] at listed
    rcases List.mem_append.mp listed with used | later
    · obtain ⟨x, owner, rfl⟩ := mem_uses used
      exact Or.inl (congrArg Event.use (mem_owned owner))
    rcases mem_bind later with held | ⟨result, -, nothing⟩
    · rcases mem_holding held with inner | ⟨x, owner, acted⟩
      · exact Or.inr (located _ e inner).1
      · obtain rfl := mem_owned owner
        rcases acted with rfl | rfl <;> exact Or.inr (below_here _ _)
    · cases result <;> simp at nothing

/-- The conversion of a property touches the object, the atom and the text of its key, and what
is below the property. -/
theorem mem_objectProperty (located : Located convert) {atoms : List JSAtom} {i : Nat}
    {res : List (List UInt8 × Decoded)} {e : Event Resource}
    (listed : e ∈ (objectProperty r p convert atoms i res).trace) :
    e = .use ⟨.node p, .value⟩ ∨ e.subject = ⟨.node p, .atom i⟩ ∨
      e.subject = ⟨.node p, .key i⟩ ∨ e.subject.Below (i :: p) := by
  rcases List.mem_append.mp listed with used | later
  · obtain ⟨x, owner, rfl⟩ := mem_uses used
    exact Or.inl (congrArg Event.use (mem_owned owner))
  rcases List.mem_append.mp later with used | later
  · obtain ⟨x, owner, rfl⟩ := mem_uses used
    exact Or.inr (Or.inl (mem_owned owner))
  rcases mem_bind later with held | ⟨result, -, stored⟩
  · rcases mem_holding held with inner | ⟨x, owner, acted⟩
    · rcases List.mem_append.mp inner with gave | converted
      · obtain ⟨x, owner, rfl⟩ := List.mem_map.mp gave
        exact Or.inr (Or.inl (mem_owned (Option.mem_toList.mp owner)))
      · exact Or.inr (Or.inr (Or.inr (located _ e converted).1))
    · obtain rfl := mem_owned owner
      rcases acted with rfl | rfl <;> exact Or.inr (Or.inr (Or.inr (below_here _ _)))
  · cases result with
    | error err => simp at stored
    | ok ev =>
      rcases List.mem_append.mp stored with used | keyed
      · obtain ⟨x, owner, rfl⟩ := mem_uses used
        exact Or.inr (Or.inl (mem_owned owner))
      · rcases mem_bind keyed with held | ⟨-, -, nothing⟩
        · rcases mem_holding held with nothing | ⟨x, owner, acted⟩
          · simp at nothing
          · obtain rfl : _ = x := by simpa using owner
            rcases acted with rfl | rfl <;> exact Or.inr (Or.inr (Or.inl rfl))
        · simp at nothing

/-- An event at a value: a use of the value, an event about something else that was
taken there, or an event of one of its parts. -/
def AtValue (p : Path) (e : Event Resource) : Prop :=
  e = .use ⟨.node p, .value⟩ ∨ e.subject.place = .node p ∧ e.subject.part ≠ .value ∨
    ∃ i, e.subject.Below (i :: p)

/-- What touches a value stays below it and does not give the value back. -/
theorem AtValue.located {e : Event Resource} (at_value : AtValue p e) :
    e.subject.Below p ∧ e ≠ .give ⟨.node p, .value⟩ := by
  rcases at_value with rfl | ⟨place, part⟩ | ⟨i, below⟩
  · exact ⟨below_here p _, by simp⟩
  · refine ⟨⟨p, place, List.suffix_refl p⟩, ?_⟩
    rintro rfl
    exact part rfl
  · refine ⟨below.parent, ?_⟩
    rintro rfl
    exact not_below_child below

/-- A use of the value touches the value. -/
theorem mem_uses_value {e : Event Resource} (listed : e ∈ (uses (valueRef r p)).trace) :
    AtValue p e := by
  obtain ⟨x, owner, rfl⟩ := mem_uses listed
  exact Or.inl (congrArg Event.use (mem_owned owner))

/-- The conversion of an array touches the array and what is below it. -/
theorem mem_fromJsArray (located : Located convert) {length : Except Thrown JSValue}
    {e : Event Resource} (listed : e ∈ (fromJsArray r p convert length).trace) : AtValue p e := by
  rcases List.mem_append.mp listed with used | held
  · exact mem_uses_value used
  rcases mem_holdingDeferred held with inner | ⟨x, owner, acted⟩
  · split at inner
    · simp [panicking] at inner
    · rcases mem_bind inner with looped | ⟨result, -, nothing⟩
      · obtain ⟨i, res, -, -, inside⟩ := mem_each looped
        rcases mem_arrayElement located inside with used | below
        · exact Or.inl used
        · exact Or.inr (Or.inr ⟨i, below⟩)
      · cases result <;> simp at nothing
  · obtain rfl : x = ⟨.node p, .length⟩ := by
      cases length with
      | error thrown => simp [lengthRef] at owner
      | ok arrLen => exact mem_owned owner
    rcases acted with rfl | rfl <;> exact Or.inr (Or.inl ⟨rfl, by simp [Event.subject]⟩)

/-- The conversion of an object touches the object and what is below it. -/
theorem mem_fromJsObject (located : Located convert) {names : Except Thrown (List JSAtom)}
    {e : Event Resource} (listed : e ∈ (fromJsObject r p convert names).trace) : AtValue p e := by
  rcases List.mem_append.mp listed with used | later
  · exact mem_uses_value used
  cases names with
  | error thrown => simp at later
  | ok atoms =>
    rcases List.mem_append.mp later with table | later
    · obtain rfl : e = .take ⟨.node p, .table⟩ := by simpa using table
      exact Or.inr (Or.inl ⟨rfl, by simp [Event.subject]⟩)
    rcases List.mem_append.mp later with keys | later
    · obtain ⟨x, owner, rfl⟩ := List.mem_map.mp keys
      obtain ⟨i, -, owner⟩ := List.mem_flatMap.mp owner
      obtain rfl := mem_owned (Option.mem_toList.mp owner)
      exact Or.inr (Or.inl ⟨rfl, by simp [Event.subject]⟩)
    rcases mem_bind later with looped | ⟨result, -, ended⟩
    · obtain ⟨i, res, -, -, inside⟩ := mem_each looped
      rcases mem_objectProperty located inside with used | about | about | below
      · exact Or.inl used
      · exact Or.inr (Or.inl (by simp [about]))
      · exact Or.inr (Or.inl (by simp [about]))
      · exact Or.inr (Or.inr ⟨i, below⟩)
    · cases result with
      | error err => simp at ended
      | ok res =>
        obtain rfl : e = .give ⟨.node p, .table⟩ := by simpa using ended
        exact Or.inr (Or.inl ⟨rfl, by simp [Event.subject]⟩)

/-- Conversions of every depth keep to the value and its parts.

Proof: induction on the depth; the loops over elements and properties convert at
the paths one longer. -/
theorem fromJsValue_located (r : Reading) (depth : Nat) : Located (fromJsValue r depth) := by
  induction depth with
  | zero =>
    intro p e listed
    simp [fromJsValue, unfinished] at listed
  | succ depth inductionHypothesis =>
    intro p e listed
    apply AtValue.located
    cases read : r p with
    | thrown x =>
      simp only [fromJsValue, read] at listed
      rcases mem_bind listed with fetched | ⟨err, -, nothing⟩
      · exact Or.inr (Or.inl (mem_exception _ fetched))
      · simp at nothing
    | string bytes =>
      simp only [fromJsValue, read] at listed
      rcases List.mem_append.mp listed with used | held
      · exact mem_uses_value used
      rcases mem_holding held with inner | ⟨x, owner, acted⟩
      · simp only [goStringN] at inner
        split at inner <;> simp [panicking] at inner
      · obtain rfl : _ = x := by simpa using owner
        rcases acted with rfl | rfl <;> exact Or.inr (Or.inl ⟨rfl, by simp [Event.subject]⟩)
    | array length =>
      simp only [fromJsValue, read] at listed
      rcases List.mem_append.mp listed with used | later
      · exact mem_uses_value used
      · exact mem_fromJsArray inductionHypothesis later
    | object names =>
      simp only [fromJsValue, read] at listed
      rcases List.mem_append.mp listed with used | later
      · exact mem_uses_value used
      · exact mem_fromJsObject inductionHypothesis later
    | function f =>
      simp only [fromJsValue, read] at listed
      rcases List.mem_append.mp listed with used | nothing
      · exact mem_uses_value used
      · simp at nothing
    | other v =>
      simp only [fromJsValue, read] at listed
      rcases List.mem_append.mp listed with used | nothing
      · exact mem_uses_value used
      · simp at nothing
    | _ => simp [fromJsValue, read] at listed

end located

end GoQuickjs
