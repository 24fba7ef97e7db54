import GoQuickjs.Keys
import GoQuickjs.Arrays
import GoQuickjs.Library.Cycles

/-!
# Values of a script's heap

Without accessors and proxies no script runs while a value is converted, and what the
engine answers is what its heap holds. A heap maps addresses to arrays, plain objects
and functions; their parts are values, which may refer to any address, their own
included. A hole of an array reads as `undefined`. The answers of the engine at every
path below a value give the reading that the conversion walks over.
-/

namespace GoQuickjs

open Tracing Traced Relation

/-- A value as a script holds it. -/
inductive ScriptValue (A : Type) where
  | null : ScriptValue A
  | undefined : ScriptValue A
  | bool : Bool → ScriptValue A
  | int : Int32 → ScriptValue A
  | float64 : UInt64 → ScriptValue A
  | string : JSString → ScriptValue A
  | symbol : Ptr → ScriptValue A
  | bigInt : Ptr → ScriptValue A
  | object : A → ScriptValue A

/-- What stands at an address: an array with its length and the elements that are not
holes, a plain object with its enumerable own properties, or a function. -/
inductive Node (A : Type) where
  | array : UInt32 → (Nat → Option (ScriptValue A)) → Node A
  | plain : OwnKeys → (Nat → ScriptValue A) → Node A
  | function : Ptr → Node A

/-- The objects of a script by their addresses. -/
abbrev Heap (A : Type) := A → Node A

variable {A : Type}

namespace Node

/-- The number of elements or properties. -/
def count : Node A → Nat
  | .array n _ => n.toNat
  | .plain own _ => own.keys.length
  | .function _ => 0

/-- The value of an element or a property. -/
def child : Node A → Nat → ScriptValue A
  | .array _ element, i => (element i).getD .undefined
  | .plain _ value, i => value i
  | .function _, _ => .undefined

/-- The array is not longer than a signed 32-bit length. -/
def Short : Node A → Prop
  | .array n _ => n.toNat < 2 ^ 31
  | _ => True

/-- The answer of the engine about an object. -/
def answer : Node A → Answer
  | .array n _ => .array (.ok (jsNewUint32 n))
  | .plain own _ => .object (.ok own.atoms)
  | .function f => .function f

end Node

/-- The answer of the engine about a value. -/
def ScriptValue.answer (heap : Heap A) : ScriptValue A → Answer
  | .null => .null
  | .undefined => .undefined
  | .bool b => .bool b
  | .int i => .int i
  | .float64 word => .float64 word
  | .string s => .string (s.toCStringLen.getD [])
  | .symbol p => .other (.symbol p)
  | .bigInt p => .other (.bigInt p)
  | .object a => (heap a).answer

/-- The part of a value that a path leads to. -/
def valueAt (heap : Heap A) (v : ScriptValue A) : Path → ScriptValue A
  | [] => v
  | i :: p =>
    match valueAt heap v p with
    | .object a => (heap a).child i
    | _ => .undefined

/-- What the engine answers while a value is converted. -/
def reading (heap : Heap A) (v : ScriptValue A) : Reading :=
  fun p => (valueAt heap v p).answer heap

variable {heap : Heap A} {root : ScriptValue A} {p : Path} {a : A}

theorem valueAt_child (here : valueAt heap root p = .object a) (i : Nat) :
    valueAt heap root (i :: p) = (heap a).child i := by
  simp only [valueAt, here]

/-- No read throws. -/
theorem reading_not_thrown : ¬ (reading heap root p).IsThrown := by
  unfold reading
  cases valueAt heap root p with
  | object a =>
    cases node : heap a <;> simp [ScriptValue.answer, node, Node.answer, Answer.IsThrown]
  | _ => simp [ScriptValue.answer, Answer.IsThrown]

theorem elementGives_reading {i : Nat} {v : Decoded} :
    ElementGives (reading heap root) p i v ↔ Gives (reading heap root) (i :: p) (.ok v) :=
  and_iff_right reading_not_thrown

theorem elementStops_reading {i : Nat} {result : GoResult} :
    ElementStops (reading heap root) p i result ↔
      ∃ e, Gives (reading heap root) (i :: p) (.error e) ∧ result = .error e := by
  constructor
  · rintro (⟨x, thrown, -⟩ | ⟨-, failed⟩)
    · have read : ¬ (reading heap root (i :: p)).IsThrown := reading_not_thrown
      exact absurd (by simp [thrown, Answer.IsThrown]) read
    · exact failed
  · exact fun failed => Or.inr ⟨reading_not_thrown, failed⟩

/-! ## Values without parts -/

/-- What a value that is not an object is converted to. -/
def ScriptValue.flatResult : ScriptValue A → Option GoResult
  | .null | .undefined => some (.ok .nil)
  | .bool b => some (.ok (.bool b))
  | .int i => some (.ok (.int64 i.toInt))
  | .float64 word => some (.ok (.float64 (if isNaN word then goNaN else word)))
  | .string s => some (.ok (.string (s.toCStringLen.getD [])))
  | .symbol _ | .bigInt _ => some (.error "unsupported type")
  | .object _ => none

/-- A string that is short enough is converted as a whole. -/
theorem flatResult_string {bytes : List UInt8} (short : bytes.length < 2 ^ 31) :
    (Answer.string bytes).flatResult = some (.ok (.string bytes)) := by
  have count : (Int32.ofNat bytes.length).toInt = bytes.length := Int32.toInt_ofNat_of_lt short
  have positive : ¬ Int32.ofNat bytes.length < 0 := by
    rw [Narrowing.int32_neg_iff]
    omega
  simp only [Answer.flatResult]
  rw [if_neg positive, count, Int.toNat_natCast, List.take_length]

/-- The answer about a value without parts is converted as the value. -/
theorem flatResult_answer {v : ScriptValue A} {expected : GoResult}
    (flat : v.flatResult = some expected) : (v.answer heap).flatResult = some expected := by
  cases v with
  | object a => cases flat
  | string s => exact (flatResult_string s.toCStringLen_length).trans flat
  | _ => exact flat

/-- A value without parts gives its image, or an error where it has none. -/
theorem gives_flat {expected result : GoResult}
    (flat : (valueAt heap root p).flatResult = some expected) :
    Gives (reading heap root) p result ↔ result = expected :=
  gives_answer (flatResult_answer flat)

/-! ## Objects and arrays -/

/-- What an object is converted to when its parts are converted to these values. -/
def Node.build : Node A → List Decoded → Decoded
  | .array _ _, vs => .slice vs
  | .plain own _, vs => .map (if own.keys.length = 0 then none else some (entries own.atoms vs))
  | .function f, _ => .bindGoFunc f

theorem reading_node (here : valueAt heap root p = .object a) :
    reading heap root p = (heap a).answer := by
  rw [reading, here]
  rfl

/-- What is converted below a value is given to it: the image built from the images of all
parts, or the error of the first part that fails. -/
theorem gives_node {result : GoResult} (here : valueAt heap root p = .object a)
    (short : (heap a).Short) : Gives (reading heap root) p result ↔
      (∃ i < (heap a).count, (∀ j < i, ∃ v, Gives (reading heap root) (j :: p) (.ok v)) ∧
        ∃ e, Gives (reading heap root) (i :: p) (.error e) ∧ result = .error e) ∨
      ∃ vs : List Decoded, vs.length = (heap a).count ∧
        (∀ i v, vs[i]? = some v → Gives (reading heap root) (i :: p) (.ok v)) ∧
        result = .ok ((heap a).build vs) := by
  have read := reading_node here
  cases node : heap a with
  | array n element =>
    rw [node] at read short
    have count : elementCount (.ok (jsNewUint32 n)) = n.toNat := elementCount_short short
    rw [gives_array read, fromJsArray_gives]
    simp only [count, Int.natCast_nonneg, Int.toNat_natCast, true_and, elementGives_reading,
      elementStops_reading, and_assoc, Node.count, Node.build]
  | plain own value =>
    rw [node] at read
    have count : own.atoms.length = own.keys.length := List.length_map _
    rw [gives_object read, fromJsObject_gives]
    simp only [count, Node.count, Node.build]
    apply or_congr_left
    constructor
    · rintro ⟨e, ⟨i, below, earlier, failed⟩, same⟩
      exact ⟨i, below, earlier, e, failed, same⟩
    · rintro ⟨i, below, earlier, e, failed, same⟩
      exact ⟨e, ⟨i, below, earlier, failed⟩, same⟩
  | function f =>
    rw [node] at read
    rw [gives_of_flat fun depth => by simp only [fromJsValue, read, Node.answer]; rfl]
    constructor
    · intro returned
      exact Or.inr ⟨[], rfl, by simp, (Ending.returns.inj returned).symm⟩
    · rintro (⟨i, below, -⟩ | ⟨vs, -, -, same⟩)
      · exact absurd below (Nat.not_lt_zero i)
      · exact congrArg _ same.symm

/-- An array that is too long is never converted. -/
theorem not_gives_long {result : GoResult} (here : valueAt heap root p = .object a)
    (long : ¬ (heap a).Short) : ¬ Gives (reading heap root) p result := by
  have read := reading_node here
  cases node : heap a with
  | array n element =>
    rw [node] at read long
    rw [gives_array read]
    rintro ⟨depth, returned⟩
    rw [fromJsArray_long (Nat.le_of_not_lt long)] at returned
    simp at returned
  | plain own value =>
    rw [node] at long
    exact absurd trivial long
  | function f =>
    rw [node] at long
    exact absurd trivial long

end GoQuickjs
