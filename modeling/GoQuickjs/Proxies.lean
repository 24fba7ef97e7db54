import GoQuickjs.Structs
import GoQuickjs.Texts
import GoQuickjs.Library.Numerals

/-!
# Reading and writing through a proxy

`goObjGet` and `goObjSet` get a property key from the engine, which reaches Go as its C string, or
as the empty string where the engine makes none. Both look up the Go value behind the proxy and
switch on its kind. Slices and arrays take an index as `strconv.Atoi` reads it,
maps take the key itself, and structs take the key with its first byte in upper case. What
`reflect` is asked for may not exist, and some questions make it panic.

A write first converts the engine value, which may run scripts that write themselves. The
conversion is that of `fromJsValue`, and what these scripts leave in Go memory is a parameter. So
is what `elutils.SetValue` makes of a converted value; it stores the result or reports an error,
and panics where the destination cannot be set.

No proxy is made for a byte slice or a nil pointer, and a value in an `interface{}` is never of
kind interface.
-/

namespace GoQuickjs.Proxies

open Tracing World

/-! ## Keys -/

/-- A property key: a symbol, or a string of the engine. -/
inductive PropertyKey where
  | symbol : PropertyKey
  | text : JSString → PropertyKey

/-- How a key is spelled in UTF-8; a symbol is not. -/
def PropertyKey.spelling : PropertyKey → Name
  | .symbol => []
  | .text s => s.text

/-- The bytes of the C string of a key: none for a symbol, and none where the engine answers
`NULL`. -/
def PropertyKey.bytes : PropertyKey → Name
  | .symbol => []
  | .text s => s.toCStringLen.getD []

/-- `getKeyName`. -/
def getKeyName : PropertyKey → Option Name
  | .symbol => some []
  | .text s => s.goStringNCall.result

/-- `strings.ToUpper(name[:1]) + name[1:]`. The first byte of a letter that is not ASCII is no
text by itself and becomes U+FFFD. -/
def upperFirst : Name → Name
  | [] => []
  | c :: rest =>
    if c < 0x80 then (if 97 ≤ c && c ≤ 122 then c - 32 else c) :: rest
    else 0xef :: 0xbf :: 0xbd :: rest

/-- The digits that `strconv.Atoi` takes after the sign. -/
def digits (s : Name) : Option Nat :=
  if s ≠ [] ∧ s.all Numerals.isDigit then some (Numerals.value s) else none

/-- `strconv.Atoi`: an optional sign and digits, within the range of `int`. -/
def atoi : Name → Option Int
  | 43 :: rest => ((digits rest).filter (· < 2 ^ 63)).map Int.ofNat
  | 45 :: rest => ((digits rest).filter (· ≤ 2 ^ 63)).map fun n => -n
  | s => ((digits s).filter (· < 2 ^ 63)).map Int.ofNat

/-- The key `length`. -/
def lengthKey : Name := [108, 101, 110, 103, 116, 104]

/-! ## Reading -/

/-- What a key selects: nothing, the length of a slice or array, a part of the target, a method,
or a panic. -/
inductive Selection where
  | absent : Selection
  | length (n : Nat) : Selection
  | component (c : Component) : Selection
  | method (name : Name) (code : Nat) : Selection
  | panics : Selection
deriving DecidableEq

/-- What `go_arr_get` selects. -/
def goArrGet (base : GoAddr) (len : Nat) (key : Name) : Selection :=
  if key = lengthKey then .length len
  else
    match atoi key with
    | none => .absent
    | some idx => if idx < 0 ∨ len ≤ idx then .absent else .component (.element base idx.toNat)

/-- What `go_map_get` selects. `MapIndex` panics when the key cannot be a string, also on a nil
map. -/
def goMapGet (types : GoTypes) (base : Option GoAddr) (key : Name) : Selection :=
  if (types.keyType base).takesString then
    match base with
    | none => .absent
    | some base => .component (.entry base (.string key))
  else .panics

/-- The variable `structE`: the struct itself, or the struct behind a pointer. -/
def structE (heap : GoHeap) : GoVal → Option StructValue
  | .struct type base => some ⟨type, base, false⟩
  | .ptr false (some target) =>
    match heap.vars target with
    | .struct type base => some ⟨type, base, true⟩
    | _ => none
  | _ => none

/-- `MethodByName` on the struct and then, if there is one, on the pointer to it. -/
def methodByName (types : GoTypes) (s : StructValue) (name : Name) : Option Nat :=
  match types.methods s.type name with
  | some code => some code
  | none => if s.addressable then types.pointerMethods s.type name else none

/-- What `go_struct_get` selects. -/
def goStructGet (types : GoTypes) (heap : GoHeap) (structVar : GoVal) (key : Name) : Selection :=
  match structE heap structVar with
  | none => .absent
  | some s =>
    match s.fieldByName types heap (upperFirst key) with
    | .panics => .panics
    | .valid c _ exported => if exported then .component c else .absent
    | .invalid => (methodByName types s (upperFirst key)).elim .absent (.method (upperFirst key))

/-- What a key that is not empty selects in a target. -/
def select (types : GoTypes) (heap : GoHeap) (v : GoVal) (key : Name) : Selection :=
  match v with
  | .slice base len | .array base len => goArrGet base len key
  | .map base => goMapGet types base key
  | .struct _ _ | .ptr _ _ => goStructGet types heap v key
  | _ => .absent

/-- What a property key selects in a target. -/
def selects (types : GoTypes) (heap : GoHeap) (v : GoVal) (key : PropertyKey) : Selection :=
  match getKeyName key with
  | none => .panics
  | some name => if name = [] then .absent else select types heap v name

/-- The value or method that is selected. -/
def member (heap : GoHeap) : Selection → Member
  | .length n => .value (.int .int n)
  | .component c => (heap.contents c).elim .absent .value
  | .method _ code => .method (some code)
  | .absent | .panics => .absent

/-- Encode a value that was read. The error of `makeJsValue` is dropped. -/
def encoded (ctx : Ptr) (memory : GoMemory) (fresh : Fresh) (depth : Nat) (v : GoVal) (w : World) :
    Option (Outcome JSValue × World) :=
  (makeJsValue ctx memory fresh depth v w).map fun made =>
    (match made.1 with
      | .failed _ => .value .undefined
      | other => other, made.2)

/-- Hand what was selected to the engine. -/
def readAs (ctx : Ptr) (heap : GoHeap) (fresh : Fresh) (depth : Nat) (selection : Selection)
    (w : World) : Option (Outcome JSValue × World) :=
  match selection with
  | .panics => some (.panicked, w)
  | selection =>
    match member heap selection with
    | .absent => some (.value .undefined, w)
    | .method code => produced (bindGoFunc ctx fresh (.func code) w)
    | .value v => encoded ctx heap.vars fresh depth v w

/-- The exported function `goObjGet`. -/
def goObjGet (ctx : Ptr) (types : GoTypes) (heap : GoHeap) (fresh : Fresh) (depth : Nat)
    (obj : Ptr) (key : PropertyKey) (w : World) : Option (Outcome JSValue × World) :=
  let found := w.getTargetValue ctx obj
  match found.1 with
  | none | some .nil => some (.value .undefined, found.2)
  | some v => readAs ctx heap fresh depth (selects types heap v key) found.2

/-! ## Writing -/

/-- The engine value that is written: what the engine answers while it is converted, and what the
scripts that run meanwhile make of Go memory. -/
structure Written where
  reading : Reading
  ran : GoHeap → GoHeap

/-- Where `elutils.SetValue` stores a value: in a part of the target, or in a new variable of the
element type of a map. -/
inductive Destination where
  | component : Component → Destination
  | made : Option GoAddr → Destination

/-- What `elutils.SetValue` stores in a destination for a converted value, or its error. -/
abbrev Coercion := Destination → Decoded → GoHeap → Except String GoVal

/-- How a write ended, and Go memory after it. -/
abbrev SetResult := Ending Nat × GoHeap

/-- Convert the engine value and go on with the Go value. -/
def converted (depth : Nat) (x : Written) (heap : GoHeap) (next : Decoded → GoHeap → SetResult) :
    SetResult :=
  match (fromJsValue x.reading depth []).ending with
  | .returns (.ok goVal) => next goVal (x.ran heap)
  | .returns (.error _) => (.returns 0, x.ran heap)
  | .panics => (.panics, x.ran heap)
  | .running => (.running, x.ran heap)

/-- `elutils.SetValue` on a part of the target, with the code that is returned for its error. -/
def setValue (coerce : Coercion) (c : Component) (settable : Bool) (goVal : Decoded)
    (heap : GoHeap) : SetResult :=
  if settable then
    match coerce (.component c) goVal heap with
    | .error _ => (.returns 0, heap)
    | .ok v => (.returns 1, heap.store c v)
  else (.panics, heap)

/-- `go_arr_set`. The elements of an array in an interface cannot be set. -/
def goArrSet (coerce : Coercion) (depth : Nat) (isSlice : Bool) (base : GoAddr) (len : Nat)
    (key : Name) (x : Written) (heap : GoHeap) : SetResult :=
  match atoi key with
  | none => (.returns 0, heap)
  | some idx =>
    if idx < 0 ∨ len ≤ idx then (.returns 0, heap)
    else converted depth x heap (setValue coerce (.element base idx.toNat) isSlice)

/-- `SetMapIndex` panics when the key cannot be a string, and on a nil map. -/
def setMapIndex (types : GoTypes) (base : Option GoAddr) (key : Name) (dest : GoVal)
    (heap : GoHeap) : SetResult :=
  match base with
  | none => (.panics, heap)
  | some addr =>
    if (types.keyType base).takesString then
      (.returns 1, heap.store (.entry addr (.string key)) dest)
    else (.panics, heap)

/-- What `go_map_set` does with the converted value: make a value of the element type from it and
set the entry. -/
def setEntry (types : GoTypes) (coerce : Coercion) (base : Option GoAddr) (key : Name)
    (goVal : Decoded) (heap : GoHeap) : SetResult :=
  match coerce (.made base) goVal heap with
  | .error _ => (.returns 0, heap)
  | .ok dest => setMapIndex types base key dest heap

/-- `go_map_set`. -/
def goMapSet (types : GoTypes) (coerce : Coercion) (depth : Nat) (base : Option GoAddr)
    (key : Name) (x : Written) (heap : GoHeap) : SetResult :=
  converted depth x heap (setEntry types coerce base key)

/-- What `go_struct_set` does with the converted value for a field name. -/
def setField (types : GoTypes) (coerce : Coercion) (v : GoVal) (name : Name) (goVal : Decoded)
    (heap : GoHeap) : SetResult :=
  match structE heap v with
  | none => (.returns 0, heap)
  | some s =>
    match s.fieldByName types heap name with
    | .invalid => (.returns 0, heap)
    | .panics => (.panics, heap)
    | .valid c addressable exported => setValue coerce c (addressable && exported) goVal heap

/-- `go_struct_set`. -/
def goStructSet (types : GoTypes) (coerce : Coercion) (depth : Nat) (v : GoVal) (key : Name)
    (x : Written) (heap : GoHeap) : SetResult :=
  converted depth x heap (setField types coerce v (upperFirst key))

/-- Write to a target under a key that is not empty. -/
def write (types : GoTypes) (coerce : Coercion) (depth : Nat) (v : GoVal) (key : Name)
    (x : Written) (heap : GoHeap) : SetResult :=
  match v with
  | .slice base len => goArrSet coerce depth true base len key x heap
  | .array base len => goArrSet coerce depth false base len key x heap
  | .map base => goMapSet types coerce depth base key x heap
  | .struct _ _ | .ptr _ _ => goStructSet types coerce depth v key x heap
  | _ => (.returns 0, heap)

/-- Write to a target under a property key. -/
def writes (types : GoTypes) (coerce : Coercion) (depth : Nat) (v : GoVal) (key : PropertyKey)
    (x : Written) (heap : GoHeap) : SetResult :=
  match getKeyName key with
  | none => (.panics, heap)
  | some name =>
    if name = [] then (.returns 0, heap) else write types coerce depth v name x heap

/-- The exported function `goObjSet`. -/
def goObjSet (ctx : Ptr) (types : GoTypes) (coerce : Coercion) (depth : Nat) (obj : Ptr)
    (key : PropertyKey) (x : Written) (heap : GoHeap) (w : World) : SetResult :=
  match (w.getTargetValue ctx obj).1 with
  | none | some .nil => (.returns 0, heap)
  | some v => writes types coerce depth v key x heap

/-! ## Lemmas on keys and targets -/

/-- The C string of a key is handed over as it is. -/
theorem getKeyName_bytes (key : PropertyKey) : getKeyName key = some key.bytes := by
  cases key with
  | symbol => rfl
  | text s => exact s.goStringNCall_result

/-- A key that is not too long for a C string is spelled out. -/
theorem PropertyKey.bytes_eq (key : PropertyKey) :
    key.bytes = key.spelling ∨ key.bytes = [] ∧ 2 ^ 29 ≤ key.spelling.length := by
  cases key with
  | symbol => exact .inl rfl
  | text s =>
    simp only [PropertyKey.bytes, PropertyKey.spelling, s.toCStringLen_eq]
    split
    · rename_i long
      exact .inr ⟨rfl, long.le_text⟩
    · exact .inl rfl

section index

variable {base : GoAddr} {len i : Nat} {name : Name} {coerce : Coercion} {depth : Nat}
  {isSlice : Bool} {x : Written} {heap : GoHeap}

theorem atoi_lengthKey : atoi lengthKey = none := by
  decide

/-- What is read is no index in range. -/
theorem out_of_range (outside : ∀ i < len, atoi name ≠ some (i : Int)) {idx : Int}
    (read : atoi name = some idx) : idx < 0 ∨ len ≤ idx := by
  by_contra inside
  have below : idx.toNat < len := by omega
  have same : idx = idx.toNat := by omega
  exact outside idx.toNat below (same ▸ read)

theorem goArrGet_index (inside : i < len) (read : atoi name = some (i : Int)) :
    goArrGet base len name = .component (.element base i) := by
  have notLength : name ≠ lengthKey := by
    rintro rfl
    rw [atoi_lengthKey] at read
    cases read
  simp only [goArrGet, read]
  rw [if_neg notLength, if_neg (by omega)]
  rfl

theorem goArrGet_outside (notLength : name ≠ lengthKey)
    (outside : ∀ i < len, atoi name ≠ some (i : Int)) : goArrGet base len name = .absent := by
  rw [goArrGet, if_neg notLength]
  split
  · rfl
  · rename_i idx read
    rw [if_pos (out_of_range outside read)]

theorem goArrSet_index (inside : i < len) (read : atoi name = some (i : Int)) :
    goArrSet coerce depth isSlice base len name x heap =
      converted depth x heap (setValue coerce (.element base i) isSlice) := by
  simp only [goArrSet, read]
  rw [if_neg (by omega)]
  rfl

theorem goArrSet_outside (outside : ∀ i < len, atoi name ≠ some (i : Int)) :
    goArrSet coerce depth isSlice base len name x heap = (.returns 0, heap) := by
  rw [goArrSet]
  split
  · rfl
  · rename_i idx read
    rw [if_pos (out_of_range outside read)]

end index

section target

variable {ctx obj : Ptr} {types : GoTypes} {heap : GoHeap} {fresh : Fresh} {depth : Nat}
  {key : PropertyKey} {w : World} {v : GoVal}

/-- A key selects in the target by its C string. -/
theorem selects_eq :
    selects types heap v key = if key.bytes = [] then .absent else select types heap v key.bytes := by
  simp only [selects, getKeyName_bytes]

/-- A key is written in the target by its C string. -/
theorem writes_eq {coerce : Coercion} {x : Written} :
    writes types coerce depth v key x heap =
      if key.bytes = [] then (.returns 0, heap)
      else write types coerce depth v key.bytes x heap := by
  simp only [writes, getKeyName_bytes]

/-- A proxy reads in its target. -/
theorem goObjGet_target (target : (w.getTargetValue ctx obj).1 = some v) (notNil : v ≠ .nil) :
    goObjGet ctx types heap fresh depth obj key w =
      readAs ctx heap fresh depth (selects types heap v key) (w.getTargetValue ctx obj).2 := by
  simp only [goObjGet, target]

/-- A proxy writes in its target. -/
theorem goObjSet_target {coerce : Coercion} {x : Written}
    (target : (w.getTargetValue ctx obj).1 = some v) (notNil : v ≠ .nil) :
    goObjSet ctx types coerce depth obj key x heap w =
      writes types coerce depth v key x heap := by
  simp only [goObjSet, target]

/-- Where nothing panics, a context reads from its proxies what is selected. -/
theorem goObjGet_selects
    (regular : ∀ v, (w.getTargetValue ctx obj).1 = some v → selects types heap v key ≠ .panics) :
    goObjGet ctx types heap fresh depth obj key w =
      World.goObjGet ctx heap.vars fresh depth (fun v name => member heap (select types heap v name))
        obj key.bytes w := by
  cases target : (w.getTargetValue ctx obj).1 with
  | none => simp only [goObjGet, World.goObjGet, target]
  | some v =>
    by_cases isNil : v = .nil
    · subst isNil
      simp only [goObjGet, World.goObjGet, target]
    · have noPanic := regular v target
      rw [goObjGet_target target isNil]
      simp only [selects_eq] at noPanic ⊢
      simp only [World.goObjGet, target]
      split
      · rfl
      · rename_i nonempty
        rw [if_neg nonempty] at noPanic
        cases chosen : select types heap v key.bytes with
        | panics => exact absurd chosen noPanic
        | absent | length | component | method => rfl

end target

end GoQuickjs.Proxies
