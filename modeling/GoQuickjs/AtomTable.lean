import GoQuickjs.Strings
import GoQuickjs.Library.Numerals
import Mathlib.Logic.Function.Basic

/-!
# The table of atoms

Property keys and symbols of the engine are atoms: 32-bit numbers, so that keys are
compared by comparing numbers. A number with the highest bit set stands for the decimal
numeral of its other bits. Every other number is an index into `atom_array`, which
points to a `JSString` of its own; such a string is found again through a hash table
whose chains run through the strings themselves. Unused entries of the array form a
list of free entries.

A string and its atom share one structure and one reference count. Strings are structures
by address; their counts and the links of their chains are kept in functions of their
own. A function yields nothing where the engine would fail an assertion, compute an
`int` that does not fit, or use memory that it does not have.
-/

namespace GoQuickjs.Atoms

/-! ## Atoms as numbers -/

/-- `JS_ATOM_TAG_INT`. -/
def jsAtomTagInt : Nat := 2 ^ 31

/-- `JS_ATOM_MAX_INT`. -/
def jsAtomMaxInt : Nat := jsAtomTagInt - 1

/-- `JS_ATOM_MAX`. -/
def jsAtomMax : Nat := 2 ^ 30 - 1

/-- `JS_ATOM_END`: the number after the last predefined atom. -/
def jsAtomEnd : Nat := 223

/-- `__JS_AtomIsConst`: the number is negative as an `int32_t`, or predefined. -/
def isConst (v : Nat) : Bool := v < jsAtomEnd || jsAtomTagInt ≤ v

/-- `__JS_AtomIsTaggedInt`. -/
def isTaggedInt (v : Nat) : Bool := v &&& jsAtomTagInt != 0

/-- `__JS_AtomFromUInt32`. -/
def atomFromUInt32 (v : Nat) : Nat := v ||| jsAtomTagInt

/-- `__JS_AtomToUInt32`. -/
def atomToUInt32 (atom : Nat) : Nat := atom &&& jsAtomMaxInt

/-! ## Strings -/

/-- The characters of a `JSString`. -/
structure Characters where
  units : List UInt16
  isWideChar : Bool
  narrow : isWideChar = false → ∀ c ∈ units, c < 0x100
deriving DecidableEq

/-- Without characters there is no wide one. -/
theorem narrow_nil {isWideChar : Bool} :
    isWideChar = false → ∀ c ∈ ([] : List UInt16), c < 0x100 :=
  fun _ _ member => absurd member List.not_mem_nil

/-- The 8-bit string of some bytes. -/
def Characters.ofBytes (bytes : List UInt8) : Characters where
  units := bytes.map UInt8.toUInt16
  isWideChar := false
  narrow := by
    intro _ c member
    obtain ⟨b, _, rfl⟩ := List.mem_map.mp member
    have bound : b.toNat < 256 := b.toNat_lt
    rw [UInt16.lt_iff_toNat_lt, UInt8.toNat_toUInt16]
    exact bound

/-- The characters of another string behind those of a string, which has units as wide. -/
def Characters.append (s r : Characters) (wide : r.isWideChar = true → s.isWideChar = true) :
    Characters where
  units := s.units ++ r.units
  isWideChar := s.isWideChar
  narrow := by
    intro short c member
    have also : r.isWideChar = false := by
      rw [Bool.eq_false_iff]
      intro long
      rw [wide long] at short
      cases short
    exact (List.mem_append.mp member).elim (s.narrow short c) (r.narrow also c)

/-- `JS_ATOM_TYPE_STRING`, `JS_ATOM_TYPE_GLOBAL_SYMBOL`, `JS_ATOM_TYPE_SYMBOL` and
`JS_ATOM_TYPE_PRIVATE`. -/
inductive AtomType where
  | string
  | globalSymbol
  | symbol
  | privateSymbol
deriving DecidableEq

/-- The number of a type. -/
def AtomType.code : AtomType → UInt32
  | .string => 1
  | .globalSymbol => 2
  | .symbol => 3
  | .privateSymbol => 4

/-- The structure `JSAtomStruct`, which is `JSString`, without its count and its link. The type
is that of an atom, or nothing for a string that is no atom. -/
structure JSAtomStruct extends Characters where
  hash : UInt32
  atomType : Option AtomType
deriving DecidableEq

/-- `JS_ATOM_HASH_MASK` and `JS_ATOM_HASH_PRIVATE`. -/
def jsAtomHashMask : UInt32 := 0x3fffffff

/-- `hash_string`, `hash_string8` and `hash_string16`. -/
def hashString (units : List UInt16) (h : UInt32) : UInt32 :=
  units.foldl (fun h c => h * 263 + c.toUInt32) h

/-- `is_num`. -/
def isNum (c : UInt16) : Bool := 48 ≤ c && c ≤ 57

/-- The loop of `is_num_string` over the digits after the first one. -/
def numLoop (n : Nat) : List UInt16 → Option Nat
  | [] => some n
  | c :: rest =>
    if !isNum c then none
    else
      let n64 := n * 10 + (c.toNat - 48)
      if n64 >>> 32 ≠ 0 then none else numLoop n64 rest

/-- `is_num_string`: the number below `2 ^ 32` that a string is the numeral of. -/
def isNumString (units : List UInt16) : Option Nat :=
  if units.length = 0 ∨ 10 < units.length then none
  else
    match units with
    | [] => none
    | c :: rest =>
      if isNum c then
        if c = 48 then (if rest.length ≠ 0 then none else some 0)
        else numLoop (c.toNat - 48) rest
      else none

/-! ## The runtime -/

/-- An entry of `atom_array`: `atom_set_free` of the next free entry, or a pointer. -/
inductive AtomEntry where
  | free (next : Nat)
  | atom (p : Ptr)
deriving DecidableEq

/-- The fields of `JSRuntime` that hold the atoms, and the strings in memory. -/
structure Runtime where
  memory : Ptr → Option JSAtomStruct
  refCount : Ptr → Int
  hashNext : Ptr → Nat
  atomHash : Nat → Nat
  atomHashSize : Nat
  atomCount : Int
  atomCountResize : Int
  atomArray : Nat → AtomEntry
  atomSize : Nat
  atomFreeIndex : Nat

/-- What the allocator answers while an atom is made: for the longer `atom_array`, for its entry
0, for a structure of the atom's own, and for a larger hash table. -/
structure Room where
  array : Bool
  nullEntry : Option Ptr
  copy : Option Ptr
  hash : Bool

namespace Runtime

/-- The structure that an entry of `atom_array` points to. -/
def entry (rt : Runtime) (i : Nat) : Option (Ptr × JSAtomStruct) :=
  if i < rt.atomSize then
    match rt.atomArray i with
    | .free _ => none
    | .atom p => (rt.memory p).map fun s => (p, s)
  else none

/-- The bucket of a hash. -/
def slot (rt : Runtime) (hash : UInt32) : Nat := hash.toNat &&& (rt.atomHashSize - 1)

/-- The loops along a chain, until the end or a string they look for. -/
def follow (rt : Runtime) (stop : Ptr → JSAtomStruct → Bool) : Nat → Nat → Option Nat
  | 0, _ => none
  | fuel + 1, i =>
    if i = 0 then some 0
    else
      (rt.entry i).bind fun found =>
        if stop found.1 found.2 then some i else rt.follow stop fuel (rt.hashNext found.1)

def setRefCount (rt : Runtime) (p : Ptr) (count : Int) : Runtime :=
  { rt with refCount := Function.update rt.refCount p count }

def store (rt : Runtime) (p : Ptr) (s : Option JSAtomStruct) : Runtime :=
  { rt with memory := Function.update rt.memory p s }

def setNext (rt : Runtime) (p : Ptr) (i : Nat) : Runtime :=
  { rt with hashNext := Function.update rt.hashNext p i }

/-! ## The hash table -/

/-- The inner loop of `JS_ResizeAtomHash`: a chain is moved into the new table. -/
def rehashChain (mask : Nat) : Nat → Nat → Runtime → (Nat → Nat) → Option (Runtime × (Nat → Nat))
  | 0, _, _, _ => none
  | fuel + 1, h, rt, newHash =>
    if h = 0 then some (rt, newHash)
    else
      (rt.entry h).bind fun found =>
        let j := found.2.hash.toNat &&& mask
        rehashChain mask fuel (rt.hashNext found.1) (rt.setNext found.1 (newHash j))
          (Function.update newHash j h)

/-- The outer loop of `JS_ResizeAtomHash`. -/
def rehash (mask : Nat) : List Nat → Runtime → (Nat → Nat) → Option (Runtime × (Nat → Nat))
  | [], rt, newHash => some (rt, newHash)
  | i :: rest, rt, newHash =>
    (rehashChain mask (rt.atomSize + 1) (rt.atomHash i) rt newHash).bind fun moved =>
      rehash mask rest moved.1 moved.2

/-- `JS_ResizeAtomHash` puts the new table in place. -/
def setHash (rt : Runtime) (newHash : Nat → Nat) (newHashSize : Nat) : Runtime :=
  { rt with
    atomHash := newHash
    atomHashSize := newHashSize
    atomCountResize := newHashSize * 2 }

/-- `JS_ResizeAtomHash`. Without room for the new table the old one stays. -/
def resizeAtomHash (rt : Runtime) (newHashSize : Nat) (room : Bool) : Option Runtime :=
  if newHashSize &&& (newHashSize - 1) ≠ 0 then none
  else if !room then some rt
  else
    (rehash (newHashSize - 1) (List.range rt.atomHashSize) rt fun _ => 0).map fun moved =>
      moved.1.setHash moved.2 newHashSize

/-- `js_get_atom_index`. -/
def jsGetAtomIndex (rt : Runtime) (p : Ptr) : Option Nat :=
  (rt.memory p).bind fun s =>
    if s.atomType = some .symbol then some (rt.hashNext p)
    else
      (rt.follow (fun p1 _ => p1 = p) (rt.atomSize + 1) (rt.atomHash (rt.slot s.hash))).bind
        fun i => if i = 0 then none else some i

/-! ## Giving atoms back -/

/-- The loop of `JS_FreeAtomStruct`: the string before another one in its chain, and the index of
the other one. -/
def predecessor (rt : Runtime) (p : Ptr) : Nat → Nat → Option (Ptr × Nat)
  | 0, _ => none
  | fuel + 1, i =>
    if i = 0 then none
    else
      (rt.entry i).bind fun before =>
        (rt.entry (rt.hashNext before.1)).bind fun behind =>
          if behind.1 = p then some (before.1, rt.hashNext before.1)
          else rt.predecessor p fuel (rt.hashNext before.1)

/-- `JS_FreeAtomStruct` takes a string out of its chain. The answer comes with its index. -/
def unlink (rt : Runtime) (p : Ptr) (s : JSAtomStruct) : Option (Runtime × Nat) :=
  if s.atomType = some .symbol then some (rt, rt.hashNext p)
  else
    let h0 := rt.slot s.hash
    (rt.entry (rt.atomHash h0)).bind fun found =>
      if found.1 = p then
        some ({ rt with atomHash := Function.update rt.atomHash h0 (rt.hashNext p) },
          rt.atomHash h0)
      else
        (rt.predecessor p (rt.atomSize + 1) (rt.atomHash h0)).map fun found =>
          (rt.setNext found.1 (rt.hashNext p), found.2)

/-- `JS_FreeAtomStruct` puts an index on the list of free entries. -/
def setFree (rt : Runtime) (i : Nat) : Runtime :=
  { rt with
    atomArray := Function.update rt.atomArray i (.free rt.atomFreeIndex)
    atomFreeIndex := i }

/-- `JS_FreeAtomStruct`. A symbol with weak references is kept in memory. -/
def jsFreeAtomStruct (rt : Runtime) (p : Ptr) : Option Runtime :=
  (rt.memory p).bind fun s =>
    (rt.unlink p s).bind fun unlinked =>
      if unlinked.2 < rt.atomSize then
        let rt := unlinked.1.setFree unlinked.2
        let rt :=
          if s.atomType = some .symbol ∧ s.hash ≠ jsAtomHashMask ∧ s.hash ≠ 0 then rt
          else rt.store p none
        let rt := { rt with atomCount := rt.atomCount - 1 }
        if 0 ≤ rt.atomCount then some rt else none
      else none

/-- `__JS_FreeAtom`. -/
def freeAtomEntry (rt : Runtime) (i : Nat) : Option Runtime :=
  (rt.entry i).bind fun found =>
    let rt := rt.setRefCount found.1 (rt.refCount found.1 - 1)
    if 0 < rt.refCount found.1 then some rt else rt.jsFreeAtomStruct found.1

/-- `JS_FreeAtom` and `JS_FreeAtomRT`. -/
def jsFreeAtom (rt : Runtime) (v : Nat) : Option Runtime :=
  if isConst v then some rt else rt.freeAtomEntry v

/-- `JS_DupAtom` and `JS_DupAtomRT`. -/
def jsDupAtom (rt : Runtime) (v : Nat) : Option Runtime :=
  if isConst v then some rt
  else (rt.entry v).map fun found => rt.setRefCount found.1 (rt.refCount found.1 + 1)

/-- `js_free_string`. -/
def jsFreeString (rt : Runtime) (p : Ptr) : Option Runtime :=
  (rt.memory p).bind fun s =>
    let rt := rt.setRefCount p (rt.refCount p - 1)
    if 0 < rt.refCount p then some rt
    else if s.atomType.isSome then rt.jsFreeAtomStruct p
    else some (rt.store p none)

/-- `JS_DupValue` on a string or a symbol. -/
def jsDupString (rt : Runtime) (p : Ptr) : Option Runtime :=
  (rt.memory p).map fun _ => rt.setRefCount p (rt.refCount p + 1)

/-- `JS_ConcatStringInPlace` on two strings. Whether the memory of the first one has room for both
is up to the allocator. The string may be an atom: its type is not asked for, and its hash stays. -/
def jsConcatStringInPlace (rt : Runtime) (p q : Ptr) (fits : Bool) : Option (Bool × Runtime) :=
  (rt.memory p).bind fun s =>
    (rt.memory q).bind fun r =>
      if r.units.length = 0 then some (true, rt)
      else if rt.refCount p ≠ 1 then some (false, rt)
      else if h : (r.isWideChar = true → s.isWideChar = true) ∧ fits then
        some (true, rt.store p (some { s with
          toCharacters := s.toCharacters.append r.toCharacters h.1 }))
      else some (false, rt)

/-- `js_alloc_string_rt` with the characters filled in. -/
def jsAllocString (rt : Runtime) (p : Ptr) (str : Characters) : Runtime :=
  ((rt.store p (some { str with hash := 0, atomType := none })).setRefCount p 1).setNext p 0

/-! ## Making atoms -/

/-- The size of the longer `atom_array`. -/
def newSize (rt : Runtime) : Nat := max 211 (rt.atomSize * 3 / 2)

/-- The new entries of `atom_array` form the list of free entries. -/
def freeEntries (rt : Runtime) (start newSize : Nat) : Runtime :=
  { rt with
    atomSize := newSize
    atomFreeIndex := start
    atomArray := fun i =>
      if start ≤ i ∧ i < newSize then .free (if i = newSize - 1 then 0 else i + 1)
      else rt.atomArray i }

/-- `JS_ATOM_NULL` gets an entry of its own. -/
def nullAtom (rt : Runtime) (p : Ptr) : Runtime :=
  let rt := rt.store p (some
    { units := [], isWideChar := false, narrow := narrow_nil, hash := 0,
      atomType := some .symbol })
  let rt := (rt.setRefCount p 1).setNext p 0
  { rt with atomArray := Function.update rt.atomArray 0 (.atom p), atomCount := rt.atomCount + 1 }

/-- `__JS_NewAtom` allows new atom entries. -/
def growAtomArray (rt : Runtime) (room : Room) : Option Runtime :=
  if jsAtomMax < rt.newSize then none
  else if !room.array then none
  else if rt.atomSize = 0 then
    room.nullEntry.map fun p => (rt.nullAtom p).freeEntries 1 rt.newSize
  else some (rt.freeEntries rt.atomSize rt.newSize)

/-- `atom_get_free` of the first free entry. -/
def nextFree (rt : Runtime) : Option Nat :=
  if rt.atomFreeIndex < rt.atomSize then
    match rt.atomArray rt.atomFreeIndex with
    | .free next => some next
    | .atom _ => none
  else none

/-- `__JS_NewAtom` uses the first free entry for a string. -/
def useEntry (rt : Runtime) (p : Ptr) (s : JSAtomStruct) (next : Nat) : Runtime :=
  ({ rt with
    atomFreeIndex := next
    atomArray := Function.update rt.atomArray rt.atomFreeIndex (.atom p)
    atomCount := rt.atomCount + 1 }.store p (some s)).setNext p rt.atomFreeIndex

/-- `__JS_NewAtom` enters a string in the hash table. -/
def hashAtom (rt : Runtime) (p : Ptr) (h : UInt32) (i : Nat) : Runtime :=
  { rt.setNext p (rt.atomHash (rt.slot h)) with
    atomHash := Function.update rt.atomHash (rt.slot h) i }

/-- The end of `__JS_NewAtom`, which gives the string an entry and a hash. -/
def enterAtom (rt : Runtime) (p : Ptr) (h : UInt32) (atomType : AtomType) (room : Room) :
    Option (Nat × Runtime) :=
  (rt.memory p).bind fun s =>
    rt.nextFree.bind fun next =>
      let i := rt.atomFreeIndex
      let rt := rt.useEntry p { s with hash := h, atomType := some atomType } next
      if atomType = .symbol then some (i, rt)
      else
        let rt := rt.hashAtom p h i
        if rt.atomCountResize ≤ rt.atomCount then
          (rt.resizeAtomHash (rt.atomHashSize * 2) room.hash).map fun rt => (i, rt)
        else some (i, rt)

/-- `__JS_NewAtom` at the label `done`. -/
def finish (rt : Runtime) (str : Option Ptr) (i : Nat) : Option (Nat × Runtime) :=
  match str with
  | none => some (i, rt)
  | some p => (rt.jsFreeString p).map fun rt => (i, rt)

/-- `__JS_NewAtom` takes the string itself for the atom if it is none yet, or else a copy. An atom
without a string is an empty wide string. -/
def addAtom (rt : Runtime) (str : Option Ptr) (h : UInt32) (atomType : AtomType) (room : Room) :
    Option (Nat × Runtime) :=
  match str with
  | some p =>
    (rt.memory p).bind fun s =>
      if s.atomType = none then rt.enterAtom p h atomType room
      else
        match room.copy with
        | none => rt.finish str 0
        | some q =>
          ((rt.jsAllocString q s.toCharacters).jsFreeString p).bind fun rt =>
            rt.enterAtom q h atomType room
  | none =>
    match room.copy with
    | none => some (0, rt)
    | some q =>
      (rt.jsAllocString q ⟨[], true, narrow_nil⟩).enterAtom q h atomType room

/-- `__JS_NewAtom` where no atom was found. The product `atom_size * 3` is an `int`. -/
def createAtom (rt : Runtime) (str : Option Ptr) (h : UInt32) (atomType : AtomType) (room : Room) :
    Option (Nat × Runtime) :=
  if rt.atomFreeIndex = 0 then
    if 2 ^ 31 ≤ rt.atomSize * 3 then none
    else
      match rt.growAtomArray room with
      | none => rt.finish str 0
      | some rt => rt.addAtom str h atomType room
  else rt.addAtom str h atomType room

/-- The comparison in the search loop of `__JS_NewAtom`. -/
def isAtom (h : UInt32) (atomType : AtomType) (units : List UInt16) (_ : Ptr) (s : JSAtomStruct) :
    Bool :=
  s.hash = h && s.atomType = some atomType && s.units = units

/-- `__JS_NewAtom` on a string for an atom that can be found again. -/
def internAtom (rt : Runtime) (p : Ptr) (atomType : AtomType) (room : Room) :
    Option (Nat × Runtime) :=
  (rt.memory p).bind fun s =>
    if s.atomType = some atomType then
      (rt.jsGetAtomIndex p).map fun i =>
        (i, if isConst i then rt.setRefCount p (rt.refCount p - 1) else rt)
    else
      let h := hashString s.units atomType.code &&& jsAtomHashMask
      (rt.follow (isAtom h atomType s.units) (rt.atomSize + 1) (rt.atomHash (rt.slot h))).bind
        fun i =>
          if i = 0 then rt.createAtom (some p) h atomType room
          else (rt.jsDupAtom i).bind fun rt => rt.finish (some p) i

/-- `__JS_NewAtom`. Only a symbol can be made without a string. -/
def newAtom (rt : Runtime) (str : Option Ptr) (atomType : AtomType) (room : Room) :
    Option (Nat × Runtime) :=
  match atomType with
  | .symbol => rt.createAtom str 0 .symbol room
  | .privateSymbol => rt.createAtom str jsAtomHashMask .symbol room
  | .string => str.bind fun p => rt.internAtom p .string room
  | .globalSymbol => str.bind fun p => rt.internAtom p .globalSymbol room

/-- `__JS_NewAtomInit`. -/
def newAtomInit (rt : Runtime) (str : List UInt8) (atomType : AtomType) (string : Option Ptr)
    (room : Room) : Option (Nat × Runtime) :=
  match string with
  | none => some (0, rt)
  | some p => (rt.jsAllocString p (.ofBytes str)).newAtom (some p) atomType room

/-- The comparison in the search loop of `__JS_FindAtom`. -/
def isAsciiAtom (h : UInt32) (str : List UInt8) (_ : Ptr) (s : JSAtomStruct) : Bool :=
  s.hash = h && s.atomType = some .string && s.isWideChar = false &&
    s.units = str.map UInt8.toUInt16

/-- `__JS_FindAtom`. -/
def findAtom (rt : Runtime) (str : List UInt8) : Option (Nat × Runtime) :=
  let h := hashString (str.map UInt8.toUInt16) AtomType.string.code &&& jsAtomHashMask
  (rt.follow (isAsciiAtom h str) (rt.atomSize + 1) (rt.atomHash (rt.slot h))).bind fun i =>
    if i = 0 then some (0, rt) else (rt.jsDupAtom i).map fun rt => (i, rt)

/-- `JS_NewAtomStr`. -/
def jsNewAtomStr (rt : Runtime) (p : Ptr) (room : Room) : Option (Nat × Runtime) :=
  (rt.memory p).bind fun s =>
    match (isNumString s.units).filter (· ≤ jsAtomMaxInt) with
    | some n => rt.finish (some p) (atomFromUInt32 n)
    | none => rt.newAtom (some p) .string room

/-- The string that `JS_NewStringLen` makes. -/
def decoded (str : List UInt8) : Characters :=
  let units := (unitsOf str).map UInt16.ofNat
  { units, isWideChar := !units.all (· < 0x100),
    narrow := by
      intro all
      rw [Bool.not_eq_false', List.all_eq_true] at all
      exact fun c member => of_decide_eq_true (all c member) }

/-- `JS_ATOM_empty_string`. -/
def jsAtomEmptyString : Nat := 47

/-- `__JS_AtomToValue`: the pointer of the string or symbol. The number of a tagged atom needs a
new string. -/
def atomToValue (rt : Runtime) (atom : Nat) (forceString : Bool) (string : Option Ptr) :
    Option (Option Ptr × Runtime) :=
  if isTaggedInt atom then
    some (string, match string with
      | none => rt
      | some p => rt.jsAllocString p (.ofBytes (Numerals.numeral (atomToUInt32 atom))))
  else
    (rt.entry atom).bind fun found =>
      let found :=
        if found.2.atomType ≠ some .string ∧ forceString ∧
            found.2.units.length = 0 ∧ found.2.isWideChar then
          rt.entry jsAtomEmptyString
        else some found
      found.bind fun found => (rt.jsDupString found.1).map fun rt => (some found.1, rt)

/-- `JS_NewStringLen`. The empty string is that of an atom. -/
def jsNewStringLen (rt : Runtime) (str : List UInt8) (string : Option Ptr) :
    Option (Option Ptr × Runtime) :=
  if str = [] then rt.atomToValue jsAtomEmptyString true none
  else
    some (string, match string with
      | none => rt
      | some p => rt.jsAllocString p (decoded str))

/-- `JS_NewAtomLen` where no atom was found at once. -/
def newAtomDecoded (rt : Runtime) (str : List UInt8) (string : Option Ptr) (room : Room) :
    Option (Nat × Runtime) :=
  (rt.jsNewStringLen str string).bind fun made =>
    match made.1 with
    | none => some (0, made.2)
    | some p => made.2.jsNewAtomStr p room

/-- `JS_NewAtomLen`. -/
def jsNewAtomLen (rt : Runtime) (str : List UInt8) (string : Option Ptr) (room : Room) :
    Option (Nat × Runtime) :=
  if str = [] ∨ !(str.head?.any Numerals.isDigit) ∧ countAscii str = str.length then
    (rt.findAtom str).bind fun found =>
      if found.1 ≠ 0 then some found else found.2.newAtomDecoded str string room
  else rt.newAtomDecoded str string room

/-- `JS_NewAtomUInt32`. -/
def jsNewAtomUInt32 (rt : Runtime) (n : Nat) (string : Option Ptr) (room : Room) :
    Option (Nat × Runtime) :=
  if n ≤ jsAtomMaxInt then some (atomFromUInt32 n, rt)
  else rt.newAtomInit (Numerals.numeral n) .string string room

/-- The text of `i64toa`. -/
def i64toa (n : Int) : List UInt8 :=
  if n < 0 then 45 :: Numerals.numeral n.natAbs else Numerals.numeral n.natAbs

/-- `JS_NewAtomInt64`. -/
def jsNewAtomInt64 (rt : Runtime) (n : Int) (string : Option Ptr) (room : Room) :
    Option (Nat × Runtime) :=
  if 0 ≤ n ∧ n ≤ jsAtomMaxInt then some (atomFromUInt32 n.toNat, rt)
  else rt.newAtomInit (i64toa n) .string string room

/-! ## Symbols -/

/-- `JS_NewSymbol`: the pointer of the symbol. -/
def jsNewSymbol (rt : Runtime) (str : Option Ptr) (atomType : AtomType) (room : Room) :
    Option (Option Ptr × Runtime) :=
  (rt.newAtom str atomType room).bind fun made =>
    if made.1 = 0 then some (none, made.2)
    else (made.2.entry made.1).map fun found => (some found.1, made.2)

/-- `JS_NewSymbolFromAtom`. -/
def jsNewSymbolFromAtom (rt : Runtime) (descr : Nat) (atomType : AtomType) (room : Room) :
    Option (Option Ptr × Runtime) :=
  if isTaggedInt descr then none
  else
    (rt.entry descr).bind fun found =>
      (rt.jsDupString found.1).bind fun rt => rt.jsNewSymbol (some found.1) atomType room

/-- `JS_ValueToAtom` on a symbol. -/
def jsValueToAtom (rt : Runtime) (p : Ptr) : Option (Nat × Runtime) :=
  (rt.jsGetAtomIndex p).bind fun i => (rt.jsDupAtom i).map fun rt => (i, rt)

/-! ## Weak references to symbols -/

/-- `js_weakref_is_target` on a symbol. -/
def jsWeakrefIsTarget (s : JSAtomStruct) : Bool :=
  s.atomType = some .symbol && s.hash ≠ jsAtomHashMask

/-- `js_weakref_is_live` on a symbol. -/
def jsWeakrefIsLive (rt : Runtime) (p : Ptr) : Bool := rt.refCount p ≠ 0

/-- `js_weakref_new` on a symbol. The hash of a symbol counts its weak references. -/
def jsWeakrefNew (rt : Runtime) (p : Ptr) : Option Runtime :=
  (rt.memory p).bind fun s =>
    if s.hash < jsAtomHashMask - 2 then
      some (rt.store p (some { s with hash := s.hash + 1 }))
    else none

/-- `js_weakref_free` on a symbol. -/
def jsWeakrefFree (rt : Runtime) (p : Ptr) : Option Runtime :=
  (rt.memory p).bind fun s =>
    if 1 ≤ s.hash then
      if s.hash - 1 = 0 ∧ rt.refCount p = 0 then some (rt.store p none)
      else some (rt.store p (some { s with hash := s.hash - 1 }))
    else none

/-- `js_weakref_deref` on a symbol: the symbol as long as it is live. -/
def jsWeakrefDeref (rt : Runtime) (p : Ptr) : Option (Option Ptr × Runtime) :=
  if rt.jsWeakrefIsLive p then (rt.jsDupString p).map fun rt => (some p, rt) else some (none, rt)

/-! ## Indices -/

/-- `JS_AtomIsArrayIndex`. -/
def jsAtomIsArrayIndex (rt : Runtime) (atom : Nat) : Option (Option Nat) :=
  if isTaggedInt atom then some (some (atomToUInt32 atom))
  else
    (rt.entry atom).map fun found =>
      if found.2.atomType = some .string then
        (isNumString found.2.units).filter (· ≠ 2 ^ 32 - 1)
      else none

end Runtime

end GoQuickjs.Atoms
