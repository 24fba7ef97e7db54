import GoQuickjs.ExactWrites
import GoQuickjs.Results
import GoQuickjs.Totality

/-!
# Accesses that panic

What a proxy may ask of `reflect` depends on the type of its target, and the accessors do not ask
for it. A map whose keys are no strings cannot be asked for a string, a nil map takes no entry,
the elements of an array and the fields of a struct that were put into an interface cannot be
set, nor can a field that is not exported, and a promoted field is not there behind a nil pointer.
All of these panic, and so does `makeJsValue` on some values that are read; on some texts it takes
the process down. An access returns exactly when it asks for none of this.
-/

namespace GoQuickjs.Proxies

open Tracing World Relation

/-! ## What may be asked for -/

/-- The read asks nothing that panics: the key type of a map takes strings, and no embedded pointer
on the way to a field is nil. -/
def Askable (types : GoTypes) (heap : GoHeap) (v : GoVal) (name : Name) : Prop :=
  match v with
  | .map base => (types.keyType base).takesString = true
  | .struct _ _ | .ptr _ _ => ∀ s path, structE heap v = some s →
      types.fieldByName s.type (upperFirst name) = some path →
      ∃ found, heap.fieldByIndex path.type path.index s.base s.addressable path.through = some found
  | _ => True

/-- What was found can be handed to the engine: the chain of pointers that begins with a value ends
in one that `makeJsValue` can finish, with a text that the process survives if it is one, and an id
is left for a method. -/
def Showable (store : PtrStore GoAddr) (memory : GoMemory) : Member → Prop
  | .absent => True
  | .method _ => store.live < 2 ^ 32
  | .value v => ∃ u, ReflTransGen (fun a b => pointsTo memory a = some b) v u ∧
      Finishes store memory u

/-- The conversion of the engine value returns, with an error or with an accepted value. -/
def Converts (x : Written) (accepted : Decoded → Prop) : Prop :=
  ∃ result, Gives x.reading [] result ∧ ∀ goVal, result = .ok goVal → accepted goVal

/-- The field of the name, if there is one, is exported and lies behind a pointer, and no embedded
pointer on the way to it is nil. -/
def Settable (types : GoTypes) (heap : GoHeap) (v : GoVal) (name : Name) : Prop :=
  ∀ s path, structE heap v = some s → types.fieldByName s.type (upperFirst name) = some path →
    path.exported = true ∧ ∃ c,
      heap.fieldByIndex path.type path.index s.base s.addressable path.through = some (c, true)

/-- The write asks nothing that panics. -/
def Writable (types : GoTypes) (coerce : Coercion) (heap : GoHeap) (v : GoVal) (name : Name)
    (x : Written) : Prop :=
  match v with
  | .slice _ len => (∃ i < len, atoi name = some (i : Int)) → Converts x fun _ => True
  | .array _ len => (∃ i < len, atoi name = some (i : Int)) → Converts x fun _ => False
  | .map base => Converts x fun goVal => ∀ u, coerce (.made base) goVal (x.ran heap) = .ok u →
      base ≠ none ∧ (types.keyType base).takesString = true
  | .struct _ _ | .ptr _ _ => Converts x fun _ => Settable types (x.ran heap) v name
  | _ => True

variable {types : GoTypes} {coerce : Coercion} {depth : Nat} {v : GoVal} {name : Name}
  {key : PropertyKey} {x : Written} {heap : GoHeap} {ctx obj : Ptr} {fresh : Fresh} {w : World}

/-! ## Reading -/

/-- `goStructGet` panics on an embedded pointer that is nil. -/
theorem goStructGet_panics_iff : goStructGet types heap v name = .panics ↔
    ∃ s path, structE heap v = some s ∧ types.fieldByName s.type (upperFirst name) = some path ∧
      heap.fieldByIndex path.type path.index s.base s.addressable path.through = none := by
  simp only [goStructGet]
  cases target : structE heap v with
  | none => simp
  | some s =>
    simp only [StructValue.fieldByName, Option.some.injEq, exists_and_left, exists_eq_left']
    cases way : types.fieldByName s.type (upperFirst name) with
    | none =>
      cases method : methodByName types s (upperFirst name) with
      | none => simp
      | some code => simp
    | some path =>
      cases place : heap.fieldByIndex path.type path.index s.base s.addressable path.through with
      | none => simp [place]
      | some found =>
        cases exported : path.exported with
        | true => simp [place, exported]
        | false => simp [place, exported]

/-- The choice of the member panics exactly when the key must not be asked for. -/
theorem select_panics_iff : select types heap v name = .panics ↔ ¬ Askable types heap v name := by
  have structural : goStructGet types heap v name = .panics ↔
      ¬ ∀ s path, structE heap v = some s →
        types.fieldByName s.type (upperFirst name) = some path → ∃ found,
          heap.fieldByIndex path.type path.index s.base s.addressable path.through = some found := by
    rw [goStructGet_panics_iff]
    push Not
    simp only [Option.eq_none_iff_forall_ne_some]
  have sequence : ∀ base len, goArrGet base len name ≠ .panics := by
    intro base len
    rw [goArrGet]
    split
    · simp
    · split
      · simp
      · split <;> simp
  cases v with
  | slice base len => exact iff_of_false (sequence base len) (not_not.mpr trivial)
  | array base len => exact iff_of_false (sequence base len) (not_not.mpr trivial)
  | map base =>
    simp only [select, goMapGet, Askable]
    split
    · cases base <;> simp_all
    · simp_all
  | struct type base => exact structural
  | ptr toInterface target => exact structural
  | nil | bool | int | uint | float | string | bytes | func | other =>
    exact iff_of_false (by simp [select]) (not_not.mpr trivial)

/-- A value that was read is encoded exactly when `makeJsValue` returns. -/
theorem encoded_returns_iff {memory : GoMemory} (unused : Wrappers.Unused ctx w fresh) :
    (∃ depth outcome after, encoded ctx memory fresh depth v w = some (outcome, after) ∧
      outcome ≠ .panicked) ↔
    ∃ u, ReflTransGen (fun a b => pointsTo memory a = some b) v u ∧
      Finishes (w.stores.seen ctx) memory u := by
  rw [← returns_iff unused]
  constructor
  · rintro ⟨depth, outcome, after, returned, regular⟩
    obtain ⟨⟨made, found⟩, converted, same⟩ := Option.map_eq_some_iff.mp returned
    refine ⟨depth, made, found, converted, ?_⟩
    rintro rfl
    exact regular (Prod.mk.inj same).1.symm
  · rintro ⟨depth, outcome, after, converted, regular⟩
    refine ⟨depth, _, after, Option.map_eq_some_iff.mpr ⟨_, converted, rfl⟩, ?_⟩
    cases outcome with
    | value js => simp
    | failed e => simp
    | panicked => exact absurd rfl regular

/-- A method is handed out as long as an id is left. -/
theorem method_returns_iff {code : Option Nat} (unused : Wrappers.Unused ctx w fresh) :
    (∃ outcome after, produced (bindGoFunc ctx fresh (.func code) w) = some (outcome, after) ∧
      outcome ≠ .panicked) ↔ (w.stores.seen ctx).live < 2 ^ 32 := by
  have answered : (∃ outcome after, produced (bindGoFunc ctx fresh (.func code) w) =
      some (outcome, after) ∧ Answers outcome) ↔ (w.stores.seen ctx).live < 2 ^ 32 :=
    produced_iff unused (by simp)
  rw [← answered]
  constructor
  · rintro ⟨outcome, after, returned, _⟩
    obtain ⟨_, made, same⟩ := Option.map_eq_some_iff.mp returned
    obtain ⟨_, _, rfl⟩ := Option.map_eq_some_iff.mp made
    obtain ⟨rfl, _⟩ := Prod.mk.inj same
    exact ⟨_, after, returned, by simp [Answers]⟩
  · rintro ⟨outcome, after, returned, answers⟩
    refine ⟨outcome, after, returned, ?_⟩
    rintro rfl
    exact answers

/-- What was selected is handed to the engine unless it was a panic or cannot be encoded. -/
theorem readAs_returns_iff {selection : Selection} (unused : Wrappers.Unused ctx w fresh) :
    (∃ depth outcome after, readAs ctx heap fresh depth selection w = some (outcome, after) ∧
      outcome ≠ .panicked) ↔
    selection ≠ .panics ∧ Showable (w.stores.seen ctx) heap.vars (member heap selection) := by
  by_cases panics : selection = .panics
  · subst panics
    simp [readAs]
  · have regular : ∀ depth, readAs ctx heap fresh depth selection w =
        match member heap selection with
        | .absent => some (.value .undefined, w)
        | .method code => produced (bindGoFunc ctx fresh (.func code) w)
        | .value v => encoded ctx heap.vars fresh depth v w := by
      intro depth
      cases selection with
      | panics => exact absurd rfl panics
      | absent | length | component | method => rfl
    simp only [regular, panics, not_false_eq_true, ne_eq, true_and]
    cases member heap selection with
    | absent => simp [Showable]
    | method code => simpa [Showable] using method_returns_iff unused
    | value v => exact encoded_returns_iff unused

/-! ## Writing -/

/-- Conditions that agree on each converted value. -/
theorem Converts.congr {accepted other : Decoded → Prop}
    (same : ∀ goVal, accepted goVal ↔ other goVal) : Converts x accepted ↔ Converts x other := by
  simp only [Converts, same]

/-- A write returns when the value converts and the rest returns. -/
theorem converted_returns_iff {next : Decoded → GoHeap → SetResult} :
    (∃ depth code after, converted depth x heap next = (.returns code, after)) ↔
      Converts x fun goVal => ∃ code after, next goVal (x.ran heap) = (.returns code, after) := by
  constructor
  · rintro ⟨depth, code, after, returned⟩
    rw [converted] at returned
    split at returned
    · rename_i goVal ended
      refine ⟨_, ⟨depth, ended⟩, ?_⟩
      intro other same
      obtain rfl := Except.ok.inj same
      exact ⟨code, after, returned⟩
    · rename_i e ended
      exact ⟨_, ⟨depth, ended⟩, fun goVal same => by cases same⟩
    · cases returned
    · cases returned
  · rintro ⟨result, ⟨depth, ended⟩, accepted⟩
    refine ⟨depth, ?_⟩
    simp only [converted, ended]
    cases result with
    | error e => exact ⟨0, x.ran heap, rfl⟩
    | ok goVal => exact accepted goVal rfl

/-- `setValue` returns when the destination can be set. -/
theorem setValue_returns_iff {c : Component} {settable : Bool} {goVal : Decoded} :
    (∃ code after, setValue coerce c settable goVal heap = (.returns code, after)) ↔
      settable = true := by
  rw [setValue]
  split
  · rename_i isSettable
    refine iff_of_true ?_ isSettable
    split
    · exact ⟨0, heap, rfl⟩
    · rename_i u _
      exact ⟨1, heap.store c u, rfl⟩
  · rename_i fixed
    exact iff_of_false (by simp) fixed

/-- A member can be set when the field of its name is exported and found. -/
theorem settable_iff {s : StructValue} (target : structE heap v = some s) :
    Settable types heap v name ↔
      ∀ path, types.fieldByName s.type (upperFirst name) = some path → path.exported = true ∧ ∃ c,
        heap.fieldByIndex path.type path.index s.base s.addressable path.through = some (c, true) := by
  constructor
  · intro settable path
    exact settable s path target
  · intro settable other path same
    obtain rfl := Option.some.inj (target.symm.trans same)
    exact settable path

/-- Setting a field returns when the member can be set. -/
theorem setField_returns_iff {goVal : Decoded} :
    (∃ code after, setField types coerce v (upperFirst name) goVal heap = (.returns code, after)) ↔
      Settable types heap v name := by
  cases target : structE heap v with
  | none => simp [setField, Settable, target]
  | some s =>
    rw [settable_iff target]
    simp only [setField, target, StructValue.fieldByName]
    cases way : types.fieldByName s.type (upperFirst name) with
    | none => simp
    | some path =>
      cases place : heap.fieldByIndex path.type path.index s.base s.addressable path.through with
      | none => simp [place]
      | some found =>
        simp only [setValue_returns_iff, Bool.and_eq_true, Option.some.injEq, forall_eq', place]
        constructor
        · rintro ⟨addressable, exported⟩
          exact ⟨exported, found.1, by rw [← addressable]⟩
        · rintro ⟨exported, c, rfl⟩
          exact ⟨rfl, exported⟩

/-- `goArrSet` returns on each key but the indices of an array, and of a slice when the value
converts. -/
theorem goArrSet_returns_iff {isSlice : Bool} {base : GoAddr} {len : Nat} :
    (∃ depth code after,
      goArrSet coerce depth isSlice base len name x heap = (.returns code, after)) ↔
    ((∃ i < len, atoi name = some (i : Int)) → Converts x fun _ => isSlice = true) := by
  by_cases index : ∃ i < len, atoi name = some (i : Int)
  · obtain ⟨i, inside, read⟩ := index
    simp only [goArrSet_index inside read]
    have set : (∃ depth code after, converted depth x heap
        (setValue coerce (.element base i) isSlice) = (.returns code, after)) ↔
          Converts x fun _ => isSlice = true :=
      converted_returns_iff.trans (Converts.congr fun _ => setValue_returns_iff)
    rw [set]
    exact ⟨fun converts _ => converts, fun converts => converts ⟨i, inside, read⟩⟩
  · have outside : ∀ i < len, atoi name ≠ some (i : Int) := fun i inside read =>
      index ⟨i, inside, read⟩
    simp only [goArrSet_outside outside]
    exact iff_of_true ⟨0, 0, heap, rfl⟩ fun found => absurd found index

/-- `SetMapIndex` returns on a map that was made, with keys of the kind string. -/
theorem setMapIndex_returns_iff {base : Option GoAddr} {dest : GoVal} :
    (∃ code after, setMapIndex types base name dest heap = (.returns code, after)) ↔
      base ≠ none ∧ (types.keyType base).takesString = true := by
  cases base with
  | none => simp [setMapIndex]
  | some addr =>
    simp only [setMapIndex]
    split
    · rename_i accepts
      exact iff_of_true ⟨1, _, rfl⟩ ⟨by simp, accepts⟩
    · rename_i refuses
      exact iff_of_false (by simp) fun both => refuses both.2

/-- Setting an entry returns unless there is a value to set and no place for it. -/
theorem setEntry_returns_iff {base : Option GoAddr} {goVal : Decoded} :
    (∃ code after, setEntry types coerce base name goVal heap = (.returns code, after)) ↔
      ∀ u, coerce (.made base) goVal heap = .ok u →
        base ≠ none ∧ (types.keyType base).takesString = true := by
  simp only [setEntry]
  cases coerce (.made base) goVal heap with
  | error e => simp
  | ok u => simp [setMapIndex_returns_iff]

/-- A write to a target returns exactly when it asks nothing that panics. -/
theorem write_returns_iff :
    (∃ depth code after, write types coerce depth v name x heap = (.returns code, after)) ↔
      Writable types coerce heap v name x := by
  have structural : (∃ depth code after,
      goStructSet types coerce depth v name x heap = (.returns code, after)) ↔
        Converts x fun _ => Settable types (x.ran heap) v name := by
    exact converted_returns_iff.trans (Converts.congr fun _ => setField_returns_iff)
  cases v with
  | slice base len =>
    refine goArrSet_returns_iff.trans ?_
    simp [Writable]
  | array base len =>
    refine goArrSet_returns_iff.trans ?_
    simp [Writable]
  | map base => exact converted_returns_iff.trans (Converts.congr fun _ => setEntry_returns_iff)
  | struct type base => exact structural
  | ptr toInterface target => exact structural
  | nil | bool | int | uint | float | string | bytes | func | other =>
    exact iff_of_true ⟨0, 0, heap, rfl⟩ trivial

/-! ## Every access -/

/-- `makeJsValue` wraps the value in a proxy. -/
def Proxied (memory : GoMemory) (v : GoVal) : Prop :=
  takesId memory v = true ∧ v.isFunc = false

/-- Both accessors return. Where nothing is selected the read gives `undefined`, and the write
gives 0. -/
structure AccessReturns (ctx : Ptr) (types : GoTypes) (coerce : Coercion) (heap : GoHeap)
    (fresh : Fresh) (obj : Ptr) (key : PropertyKey) (x : Written) (v : GoVal) (w : World) :
    Prop where
  get : ∃ depth outcome after,
    goObjGet ctx types heap fresh depth obj key w = some (outcome, after) ∧ outcome ≠ .panicked ∧
      (selects types heap v key = .absent → outcome = .value .undefined)
  set : ∃ depth code after,
    goObjSet ctx types coerce depth obj key x heap w = (.returns code, after) ∧
      ((∀ c, selects types (leftBy v key x heap) v key ≠ .component c) → code = 0)

/-- Unless the key is empty, neither the read nor the write asks anything that panics. -/
structure Permitted (store : PtrStore GoAddr) (types : GoTypes) (coerce : Coercion) (heap : GoHeap)
    (key : PropertyKey) (x : Written) (v : GoVal) : Prop where
  askable : key.bytes ≠ [] → Askable types heap v key.bytes
  showable : key.bytes ≠ [] → Showable store heap.vars (member heap (select types heap v key.bytes))
  writable : key.bytes ≠ [] → Writable types coerce heap v key.bytes x

/-- What has a proxy is not nil. -/
theorem Proxied.notNil {memory : GoMemory} (proxied : Proxied memory v) : v ≠ .nil := by
  rintro rfl
  cases proxied.1

/-- A read through a property key returns exactly when it asks nothing that panics. -/
theorem selects_returns_iff (unused : Wrappers.Unused ctx w fresh) :
    (∃ depth outcome after,
      readAs ctx heap fresh depth (selects types heap v key) w = some (outcome, after) ∧
        outcome ≠ .panicked) ↔
    (key.bytes ≠ [] → Askable types heap v key.bytes ∧
      Showable (w.stores.seen ctx) heap.vars (member heap (select types heap v key.bytes))) := by
  rw [readAs_returns_iff unused, selects_eq]
  split
  · rename_i empty
    simp [empty, member, Showable]
  · rename_i nonempty
    rw [ne_eq, select_panics_iff, not_not]
    exact ⟨fun both _ => both, fun both => both nonempty⟩

/-- A write returns when the key and the value are permitted. -/
theorem writes_returns_iff :
    (∃ depth code after, writes types coerce depth v key x heap = (.returns code, after)) ↔
      (key.bytes ≠ [] → Writable types coerce heap v key.bytes x) := by
  simp only [writes_eq]
  split
  · rename_i empty
    exact iff_of_true ⟨0, 0, heap, rfl⟩ fun nonempty => absurd empty nonempty
  · rename_i nonempty
    rw [write_returns_iff]
    exact ⟨fun writable _ => writable, fun both => both nonempty⟩

/-- Looking the target up takes no address. -/
theorem unused_found (obj : Ptr) (unused : Wrappers.Unused ctx w fresh) :
    Wrappers.Unused ctx (w.getTargetValue ctx obj).2 fresh ∧
      (w.getTargetValue ctx obj).2.stores.seen ctx = w.stores.seen ctx := by
  have seen : (w.getTargetValue ctx obj).2.stores.seen ctx = w.stores.seen ctx :=
    Stores.seen_getPtrStore w.stores ctx ctx
  refine ⟨?_, seen⟩
  rw [Wrappers.Unused, seen]
  exact unused

/-- An access that returns was permitted. -/
theorem AccessReturns.permitted (returns : AccessReturns ctx types coerce heap fresh obj key x v w)
    (target : (w.getTargetValue ctx obj).1 = some v) (proxied : Proxied heap.vars v)
    (unused : Wrappers.Unused ctx w fresh) :
    Permitted (w.stores.seen ctx) types coerce heap key x v := by
  obtain ⟨stillUnused, seen⟩ := unused_found obj unused
  obtain ⟨depth, outcome, after, read, regular, _⟩ := returns.get
  obtain ⟨depth', code, after', written, _⟩ := returns.set
  rw [goObjGet_target target proxied.notNil] at read
  rw [goObjSet_target target proxied.notNil] at written
  have readable := (selects_returns_iff stillUnused).mp ⟨depth, outcome, after, read, regular⟩
  have writable := writes_returns_iff.mp ⟨depth', code, after', written⟩
  rw [seen] at readable
  exact ⟨fun nonempty => (readable nonempty).1, fun nonempty => (readable nonempty).2, writable⟩

/-- A permitted access returns. -/
theorem Permitted.returns (permitted : Permitted (w.stores.seen ctx) types coerce heap key x v)
    (target : (w.getTargetValue ctx obj).1 = some v) (proxied : Proxied heap.vars v)
    (unused : Wrappers.Unused ctx w fresh) :
    AccessReturns ctx types coerce heap fresh obj key x v w := by
  obtain ⟨stillUnused, seen⟩ := unused_found obj unused
  have readable : key.bytes ≠ [] → Askable types heap v key.bytes ∧
      Showable ((w.getTargetValue ctx obj).2.stores.seen ctx) heap.vars
        (member heap (select types heap v key.bytes)) := by
    intro nonempty
    rw [seen]
    exact ⟨permitted.askable nonempty, permitted.showable nonempty⟩
  obtain ⟨depth, outcome, after, read, regular⟩ :=
    (selects_returns_iff stillUnused).mpr readable
  obtain ⟨depth', code, after', written⟩ := writes_returns_iff.mpr permitted.writable
  constructor
  case get =>
    refine ⟨depth, outcome, after, ?_, regular, ?_⟩
    · rw [goObjGet_target target proxied.notNil]
      exact read
    · intro absent
      rw [absent] at read
      exact (Prod.mk.inj (Option.some.inj read)).1.symm
  case set =>
    refine ⟨depth', code, after', ?_, ?_⟩
    · rw [goObjSet_target target proxied.notNil]
      exact written
    · intro nowhere
      have exactly := writes_exact proxied.notNil written
      rcases exactly.codes with zero | one
      · exact zero
      · obtain ⟨c, _, selected, _⟩ := exactly.stored one
        exact absurd selected (nowhere c)

/-- An access to a value behind a proxy returns exactly when neither the read nor the write asks
`reflect` or `makeJsValue` for anything that panics. -/
theorem accessReturns_iff (ctx obj : Ptr) (types : GoTypes) (coerce : Coercion) (heap : GoHeap)
    (fresh : Fresh) (key : PropertyKey) (x : Written) (v : GoVal) (w : World)
    (target : (w.getTargetValue ctx obj).1 = some v) (proxied : Proxied heap.vars v)
    (unused : Wrappers.Unused ctx w fresh) :
    AccessReturns ctx types coerce heap fresh obj key x v w ↔
      Permitted (w.stores.seen ctx) types coerce heap key x v :=
  ⟨fun returns => returns.permitted target proxied unused,
    fun permitted => permitted.returns target proxied unused⟩

/-- `SetValue` that stores the number 1. -/
def storesOne : Coercion := fun _ _ _ => .ok (.int .int 1)

/-- The key `a`. -/
def letterKey : PropertyKey := .text (.ofChar 97 (by decide))

/-- The first element of a slice is read and written. -/
theorem element_returns :
    AccessReturns 100 noStructs storesOne emptyHeap ⟨2, 11⟩ 10 zeroKey plainNumber (.slice 5 2)
      (proxyWorld (.slice 5 2)) :=
  (accessReturns_iff 100 10 noStructs storesOne emptyHeap ⟨2, 11⟩ zeroKey plainNumber (.slice 5 2)
    (proxyWorld (.slice 5 2)) rfl ⟨rfl, rfl⟩ ⟨rfl, rfl⟩).mpr
    ⟨fun _ => trivial,
      fun _ => ⟨.nil, .refl, trivial, by simp [takesId], by simp [text]⟩,
      fun _ _ => ⟨_, ⟨1, rfl⟩, fun _ _ => trivial⟩⟩

/-- The number is converted. -/
theorem plainNumber_gives {result : GoResult} (gives : Gives plainNumber.reading [] result) :
    result = .ok (.int64 1) :=
  gives.unique ⟨1, rfl⟩

/-- A nil map takes no entry, an array and a struct in an interface cannot be written, a map with
keys of type `int` cannot be asked for a string, and a nil pointer cannot be encoded. -/
theorem accesses_panic :
    ¬ AccessReturns 100 noStructs storesOne emptyHeap ⟨2, 11⟩ 10 letterKey plainNumber (.map none)
        (proxyWorld (.map none)) ∧
      ¬ AccessReturns 100 noStructs storesOne emptyHeap ⟨2, 11⟩ 10 zeroKey plainNumber (.array 5 1)
        (proxyWorld (.array 5 1)) ∧
      ¬ AccessReturns 100 ⟨[⟨[⟨[65], true, none⟩], fun _ => none, fun _ => none⟩], fun _ => .string⟩
        storesOne emptyHeap ⟨2, 11⟩ 10 letterKey plainNumber (.struct 0 5)
        (proxyWorld (.struct 0 5)) ∧
      ¬ AccessReturns 100 ⟨[], fun _ => .other⟩ storesOne emptyHeap ⟨2, 11⟩ 10 letterKey plainNumber
        (.map (some 5)) (proxyWorld (.map (some 5))) ∧
      ¬ AccessReturns 100 noStructs storesOne ⟨fun _ => .nil, fun _ => some (.ptr false none)⟩
        ⟨2, 11⟩ 10 zeroKey plainNumber (.slice 5 1) (proxyWorld (.slice 5 1)) := by
  refine ⟨?_, ?_, ?_, ?_, ?_⟩
  · intro returns
    obtain ⟨result, gives, accepted⟩ :=
      (returns.permitted rfl ⟨rfl, rfl⟩ ⟨rfl, rfl⟩).writable (by decide)
    obtain rfl := plainNumber_gives gives
    exact (accepted _ rfl _ rfl).1 rfl
  · intro returns
    obtain ⟨result, gives, accepted⟩ :=
      (returns.permitted rfl ⟨rfl, rfl⟩ ⟨rfl, rfl⟩).writable (by decide) ⟨0, by decide, by decide⟩
    obtain rfl := plainNumber_gives gives
    exact accepted _ rfl
  · intro returns
    obtain ⟨result, gives, accepted⟩ :=
      (returns.permitted rfl ⟨rfl, rfl⟩ ⟨rfl, rfl⟩).writable (by decide)
    obtain rfl := plainNumber_gives gives
    obtain ⟨_, c, place⟩ := accepted _ rfl ⟨0, 5, false⟩ ⟨[], 0, 0, true⟩ rfl (by decide)
    cases place
  · intro returns
    cases (returns.permitted rfl ⟨rfl, rfl⟩ ⟨rfl, rfl⟩).askable (by decide)
  · intro returns
    obtain ⟨u, chain, finishes⟩ := (returns.permitted rfl ⟨rfl, rfl⟩ ⟨rfl, rfl⟩).showable (by decide)
    obtain rfl | ⟨next, leads, _⟩ := ReflTransGen.cases_head chain
    · cases finishes.1
    · cases leads

end GoQuickjs.Proxies
