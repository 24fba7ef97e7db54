import Mathlib.Data.Fintype.Card
import Mathlib.Data.Fintype.EquivFin
import Mathlib.Logic.Relation

/-!
# Cycles of a relation

A walk along a relation from a point goes on for ever exactly when it gets to a point
that it can come back to, provided there are only finitely many points.
-/

namespace Cycles

open Relation

variable {A : Type} {R : A → A → Prop}

/-- Every point that a finite walk gets to starts only finite walks. -/
theorem acc_of_reached {a b : A} (finite : Acc (flip R) a) (reached : ReflTransGen R a b) :
    Acc (flip R) b := by
  induction reached with
  | refl => exact finite
  | tail _ step inductionHypothesis => exact inductionHypothesis.inv step

/-- A point that starts only finite walks is on no cycle. -/
theorem not_cycle_of_acc {a : A} (finite : Acc (flip R) a) : ¬ TransGen R a a := by
  induction finite with
  | intro a _ inductionHypothesis =>
    intro cycle
    obtain ⟨b, first, back⟩ := TransGen.head'_iff.mp cycle
    exact inductionHypothesis b first (TransGen.tail' back first)

/-- Walks from a point are finite exactly when none of them gets to a cycle.

Proof: among the points that are reached, having a walk from one to the other is
transitive and irreflexive, so it is well founded; the single steps are part of it. -/
theorem acc_iff_no_cycle [Finite A] {a : A} :
    Acc (flip R) a ↔ ∀ b, ReflTransGen R a b → ¬ TransGen R b b := by
  constructor
  · intro finite b reached
    exact not_cycle_of_acc (acc_of_reached finite reached)
  · intro acyclic
    let inside : {b // ReflTransGen R a b} → {b // ReflTransGen R a b} → Prop :=
      fun x y => TransGen R y.1 x.1
    have : IsTrans _ inside := ⟨fun _ _ _ first second => second.trans first⟩
    have : Std.Irrefl inside := ⟨fun x cycle => acyclic x.1 x.2 cycle⟩
    have wellFounded : WellFounded inside := Finite.wellFounded_of_trans_of_irrefl inside
    have all : ∀ x : {b // ReflTransGen R a b}, Acc (flip R) x.1 := by
      intro x
      induction x using wellFounded.induction with
      | h x inductionHypothesis =>
        constructor
        intro b step
        exact inductionHypothesis ⟨b, x.2.tail step⟩ (TransGen.single step)
    exact all ⟨a, ReflTransGen.refl⟩

end Cycles
