import Mathlib.Logic.Basic

/-!
# Go values behind an empty interface

The dynamic value of an `interface{}` as `reflect` shows it: its kind, whether a
basic type is a named one, and its contents. What lives in shared Go memory is
named by its address: the elements of a slice, the entries of a map, the variable
behind a pointer. Arrays and structs that were put into an interface are held by
the address of the boxed copy, which no one can write through.
-/

namespace GoQuickjs

/-- An address in Go memory. -/
abbrev GoAddr := Nat

/-- `reflect.Int`, `Int8`, `Int16`, `Int32` and `Int64`. -/
inductive IntKind where
  | int | int8 | int16 | int32 | int64
deriving DecidableEq

/-- `reflect.Uint`, `Uint8`, `Uint16`, `Uint32` and `Uint64`. -/
inductive UintKind where
  | uint | uint8 | uint16 | uint32 | uint64
deriving DecidableEq

/-- The kinds that have no JS counterpart. -/
inductive OtherKind where
  | uintptr | complex64 | complex128 | chan | unsafePointer
deriving DecidableEq

/-- `Kind.String` of these kinds. -/
def OtherKind.name : OtherKind → String
  | .uintptr => "uintptr"
  | .complex64 => "complex64"
  | .complex128 => "complex128"
  | .chan => "chan"
  | .unsafePointer => "unsafe.Pointer"

/-- A dynamic Go value. `named` marks a defined type such as `type T bool`, for
which the assertion to the basic type fails. Byte slices, whose element kind is
`uint8`, are apart from all other slices; so is a pointer to an interface variable
from a pointer to any other variable. Floats carry the word of `vv.Float()`. -/
inductive GoVal where
  | nil : GoVal
  | bool (named value : Bool) : GoVal
  | int (kind : IntKind) (value : Int) : GoVal
  | uint (kind : UintKind) (value : Nat) : GoVal
  | float (word : UInt64) : GoVal
  | string (named : Bool) (value : List UInt8) : GoVal
  | bytes (named : Bool) (value : List UInt8) : GoVal
  | slice (base : GoAddr) (len : Nat) : GoVal
  | array (base : GoAddr) (len : Nat) : GoVal
  | map (base : Option GoAddr) : GoVal
  | struct (type : Nat) (base : GoAddr) : GoVal
  | ptr (toInterface : Bool) (target : Option GoAddr) : GoVal
  | func (code : Option Nat) : GoVal
  | other (kind : OtherKind) : GoVal
deriving DecidableEq

namespace GoVal

/-- `Kind() == reflect.Func`. -/
def isFunc : GoVal → Bool
  | .func _ => true
  | _ => false

/-- `Kind() == reflect.Struct`. -/
def isStruct : GoVal → Bool
  | .struct _ _ => true
  | _ => false

end GoVal

/-- The variables of a running Go program, as the values they hold. -/
abbrev GoMemory := GoAddr → GoVal

end GoQuickjs
