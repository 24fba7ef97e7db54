import GoQuickjs.Wrappers
import GoQuickjs.Keys
import GoQuickjs.Integers

/-!
# Go composites on their way through a script

A proxy names its Go value by an id, and `getTargetValue` finds the value again.
`fromJsValue` does not ask for it. A proxy is neither an array nor a function, and the
class `GoObjHandler` has no `get_own_property_names`, so that `fromJsObject` sees the
properties that scripts have defined on the proxy itself and nothing else. Where there
are none the result is a nil map.

What a composite holds is given by its members: the elements of a slice or an array under
their indices, the entries of a map, the fields of a struct. It is a parameter, as `reflect`
reads it from the Go memory of the moment.
-/

namespace GoQuickjs

open Runs Wrappers

/-! ## The same contents -/

/-- The members of Go composites, with their names. -/
abbrev Members := GoVal → List (List UInt8 × GoVal)

/-- The value has members: a slice other than a byte slice, an array, a map, a struct or a
pointer. -/
def GoVal.isComposite : GoVal → Bool
  | .slice _ _ | .array _ _ | .map _ | .struct _ _ | .ptr _ (some _) => true
  | _ => false

/-- The number of a Go value. -/
def GoVal.number : GoVal → Option ℚ
  | .int _ n => some n
  | .uint _ n => some n
  | .float word => some (Binary64.value word)
  | _ => none

namespace Decoded

/-- The number of a converted value. -/
def number : Decoded → Option ℚ
  | .int64 n => some n
  | .float64 word => some (Binary64.value word)
  | _ => none

/-- The digits of an index. -/
def indexText (i : Nat) : List UInt8 := (Nat.toDigits 10 i).map fun c => UInt8.ofNat c.toNat

/-- The members of a converted composite. -/
def members : Decoded → Option (List (List UInt8 × Decoded))
  | .slice vs => some (vs.zipIdx.map fun (v, i) => (indexText i, v))
  | .map entries => some (entries.getD [])
  | _ => none

end Decoded

/-- A converted value has the contents of a Go value: it is equal to it, or has members of
the same names with the same contents. Functions are not compared. -/
inductive SameContents (members : Members) : GoVal → Decoded → Prop
  | nil : SameContents members .nil .nil
  | bool (named value : Bool) : SameContents members (.bool named value) (.bool value)
  | number {x : GoVal} {d : Decoded} {q : ℚ} : x.number = some q → d.number = some q →
      SameContents members x d
  | text (named : Bool) (value : List UInt8) :
      SameContents members (.string named value) (.string value)
  | bytes (named : Bool) (value : List UInt8) :
      SameContents members (.bytes named value) (.string value)
  | composite {x : GoVal} {d : Decoded} {ds : List (List UInt8 × Decoded)} :
      x.isComposite = true → d.members = some ds →
      (∀ name, name ∈ (members x).map Prod.fst ↔ name ∈ ds.map Prod.fst) →
      (∀ name y e, (name, y) ∈ members x → (name, e) ∈ ds → SameContents members y e) →
      SameContents members x d

/-- The members of a composite have the names and the contents of these. -/
def SameMembers (members : Members) (x : GoVal) (ds : List (List UInt8 × Decoded)) : Prop :=
  (∀ name, name ∈ (members x).map Prod.fst ↔ name ∈ ds.map Prod.fst) ∧
    ∀ name y e, (name, y) ∈ members x → (name, e) ∈ ds → SameContents members y e

theorem sameMembers_nil {members : Members} {v : GoVal} :
    SameMembers members v [] ↔ members v = [] := by
  constructor
  · rintro ⟨names, _⟩
    rw [← List.map_eq_nil_iff (f := Prod.fst), List.eq_nil_iff_forall_not_mem]
    exact fun name found => List.not_mem_nil ((names name).mp found)
  · intro empty
    simp [SameMembers, empty]

/-! ## Decoding a wrapper -/

/-- What the engine answers about a wrapper, with the enumerable own properties that
scripts have given it. -/
def wrapperAnswer (obj : Ptr) (own : OwnKeys) : Wrapper → Answer
  | .proxy _ => .object (.ok own.atoms)
  | .goFunc _ => .function obj

/-- The value that is read at the path is converted to a composite with the members of the
composite `v`. -/
def Survives (members : Members) (v : GoVal) (r : Reading) (p : Path) : Prop :=
  ∃ d ds, Gives r p (.ok d) ∧ d.members = some ds ∧ SameMembers members v ds

/-- The value has no members and scripts have defined no enumerable property on its proxy;
or they have defined such properties, and what these hold are the members of the value. -/
def Restored (members : Members) (v : GoVal) (own : OwnKeys) (r : Reading) (p : Path) : Prop :=
  if own.keys = [] then members v = []
  else
    ∃ ds : List Decoded, ds.length = own.keys.length ∧
      (∀ i d, ds[i]? = some d → Describes r (i :: p) d) ∧
      SameMembers members v (entries own.atoms ds)

variable {members : Members} {v : GoVal} {own : OwnKeys} {r : Reading} {p : Path}

/-- An object is converted to the map of its own properties. -/
theorem gives_own {d : Decoded} (read : r p = .object (.ok own.atoms)) :
    Gives r p (.ok d) ↔ ∃ ds : List Decoded, ds.length = own.keys.length ∧
      (∀ i d, ds[i]? = some d → Describes r (i :: p) d) ∧
      d = .map (if own.keys.length = 0 then none else some (entries own.atoms ds)) := by
  have count : own.atoms.length = own.keys.length := List.length_map _
  rw [gives_object read, fromJsObject_gives]
  simp only [count, gives_iff_describes]
  constructor
  · rintro (⟨e, -, same⟩ | ⟨ds, length, parts, same⟩)
    · cases same
    · exact ⟨ds, length, parts, Except.ok.inj same⟩
  · rintro ⟨ds, length, parts, rfl⟩
    exact Or.inr ⟨ds, length, parts, rfl⟩

/-- Whatever its members are, a composite survives behind a proxy when what scripts have
defined on the proxy restores them. -/
theorem survives_object (read : r p = .object (.ok own.atoms)) :
    Survives members v r p ↔ Restored members v own r p := by
  rw [Restored]
  split
  · rename_i none_own
    rw [← sameMembers_nil]
    constructor
    · rintro ⟨d, ds, gives, held, same⟩
      obtain ⟨vs, -, -, rfl⟩ := (gives_own read).mp gives
      obtain rfl : [] = ds := by simpa [Decoded.members, none_own] using held
      exact same
    · intro same
      exact ⟨.map none, [], (gives_own read).mpr ⟨[], by simp [none_own], by simp, by simp [none_own]⟩,
        rfl, same⟩
  · rename_i some_own
    have positive : own.keys.length ≠ 0 := mt List.length_eq_zero_iff.mp some_own
    constructor
    · rintro ⟨d, ds, gives, held, same⟩
      obtain ⟨vs, length, parts, rfl⟩ := (gives_own read).mp gives
      rw [if_neg positive] at held
      obtain rfl : entries own.atoms vs = ds := Option.some.inj held
      exact ⟨vs, length, parts, same⟩
    · rintro ⟨vs, length, parts, same⟩
      refine ⟨_, _, (gives_own read).mpr ⟨vs, length, parts, rfl⟩, ?_, same⟩
      rw [if_neg positive]
      rfl

/-- In every reachable state of a context, a Go composite survives its way through a
script, that is, the conversion of its live proxy gives a value with the same contents,
exactly when it has no members and scripts have defined nothing on the proxy, or what they
have defined there are its members. -/
theorem survives_iff (ctx : Ptr) (actions : List Action) (w : World)
    (reached : run (step ctx) World.initial actions = some w) (obj : Ptr) (o : GoOpaque)
    (live : w.wrappers.lookup obj = some (.proxy o)) (members : Members) (own : OwnKeys)
    (r : Reading) (p : Path) (answered : r p = wrapperAnswer obj own (.proxy o)) :
    ∃ v, w.origin.lookup obj = some v ∧
      (Survives members v r p ↔ Restored members v own r p) := by
  obtain ⟨_, v, _, _, made, _⟩ := (reached_sound reached).resolves obj _ live
  exact ⟨v, made, survives_object answered⟩

/-- No enumerable property was defined. -/
def OwnKeys.none : OwnKeys := ⟨[], List.nodup_nil⟩

/-- A nil map comes back as a nil map. -/
theorem nilMap_survives : ∃ w, run (step 100) World.initial
      [.make (fun _ => .nil) ⟨1, 10⟩ 1 (.map .none)] = some w ∧
    w.wrappers.lookup 10 = some (.proxy ⟨100, 1⟩) ∧
    ∃ v, w.origin.lookup 10 = some v ∧
      (Survives (fun _ => []) v (fun _ => wrapperAnswer 10 .none (.proxy ⟨100, 1⟩)) [] ↔
        Restored (fun _ => []) v .none (fun _ => wrapperAnswer 10 .none (.proxy ⟨100, 1⟩)) []) :=
  ⟨_, rfl, rfl, survives_iff 100 [.make (fun _ => .nil) ⟨1, 10⟩ 1 (.map .none)] _ rfl 10
    ⟨100, 1⟩ rfl (fun _ => []) .none _ [] rfl⟩

/-- A slice of one element becomes a nil map, although its proxy still names it. -/
theorem slice_lost : ∃ w, run (step 100) World.initial
      [.make (fun _ => .nil) ⟨1, 10⟩ 1 (.slice 5 1)] = some w ∧
    w.wrappers.lookup 10 = some (.proxy ⟨100, 1⟩) ∧
    (w.getTargetValue 100 10).1 = some (.slice 5 1) ∧
    Gives (fun _ => wrapperAnswer 10 .none (.proxy ⟨100, 1⟩)) [] (.ok (.map .none)) ∧
    ¬ Survives (fun _ => [([0x30], .bool false true)]) (.slice 5 1)
      (fun _ => wrapperAnswer 10 .none (.proxy ⟨100, 1⟩)) [] := by
  refine ⟨_, rfl, rfl, rfl, (gives_own rfl).mpr ⟨[], rfl, by simp, rfl⟩, ?_⟩
  intro survives
  have restored : Restored _ _ OwnKeys.none _ _ := (survives_object rfl).mp survives
  simp [Restored, OwnKeys.none] at restored

end GoQuickjs
