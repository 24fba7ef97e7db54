import Mathlib.Algebra.BigOperators.Group.Finset.Basic
import Mathlib.Algebra.Order.BigOperators.Group.Finset
import Mathlib.Data.Multiset.Count

/-!
# Counting references

Nodes hold finite lists of references, and further references are held from outside
of all nodes. A tally counts the references of one kind, wherever they are held:
one kind for each node that is pointed to. Tallies follow how references move: out
of a node that gives up its list, into a node, away altogether.

The nodes, the references and their kinds are arbitrary.
-/

namespace ReferenceCounts

variable {α ρ : Type}

/-- The references of one kind, held from outside or by a node. -/
def tally (kind : ρ → Bool) (held : Multiset ρ) (nodes : Finset α) (refs : α → List ρ) : Nat :=
  held.countP (kind · = true) + ∑ q ∈ nodes, (refs q).countP kind

variable {kind : ρ → Bool} {held : Multiset ρ} {nodes : Finset α} {refs : α → List ρ}

/-- A further reference held adds one where it counts. -/
theorem tally_cons (r : ρ) : tally kind (r ::ₘ held) nodes refs =
    tally kind held nodes refs + if kind r then 1 else 0 := by
  simp only [tally, Multiset.countP_cons]
  omega

/-- References held in addition are counted in addition. -/
theorem tally_add (more : List ρ) : tally kind (more + held) nodes refs =
    more.countP kind + tally kind held nodes refs := by
  have spelled : Multiset.countP (kind · = true) (more : Multiset ρ) = more.countP kind := by
    simp [Multiset.coe_countP]
  rw [tally, Multiset.countP_add, spelled, tally, Nat.add_assoc]

/-- A tally is positive exactly when a reference of the kind is held somewhere. -/
theorem tally_pos_iff : 0 < tally kind held nodes refs ↔
    (∃ r ∈ held, kind r = true) ∨ ∃ q ∈ nodes, ∃ r ∈ refs q, kind r = true := by
  rw [tally, Nat.add_pos_iff_pos_or_pos, Multiset.countP_pos, Finset.sum_pos_iff]
  simp only [List.countP_pos_iff]

/-- The tally is zero exactly if nobody holds such a reference. -/
theorem tally_eq_zero_iff : tally kind held nodes refs = 0 ↔
    (∀ r ∈ held, kind r = false) ∧ ∀ q ∈ nodes, ∀ r ∈ refs q, kind r = false := by
  rw [← not_iff_not, ← ne_eq, ← Nat.pos_iff_ne_zero, tally_pos_iff]
  simp only [not_and_or, not_forall, Bool.not_eq_false, exists_prop]

/-- Only the lists of the nodes matter. -/
theorem tally_congr {others : α → List ρ} (same : ∀ q ∈ nodes, refs q = others q) :
    tally kind held nodes refs = tally kind held nodes others := by
  rw [tally, tally, Finset.sum_congr rfl fun q member => by rw [same q member]]

variable [DecidableEq α]

/-- A node whose list changes: what it gave up against what it took. -/
theorem tally_store {p : α} (member : p ∈ nodes) (list : List ρ) :
    tally kind held nodes (Function.update refs p list) + (refs p).countP kind =
      tally kind held nodes refs + list.countP kind := by
  have others : ∑ q ∈ nodes.erase p, (Function.update refs p list q).countP kind =
      ∑ q ∈ nodes.erase p, (refs q).countP kind := by
    refine Finset.sum_congr rfl fun q remaining => ?_
    rw [Function.update_of_ne (Finset.ne_of_mem_erase remaining)]
  have before := Finset.add_sum_erase nodes (fun q => (refs q).countP kind) member
  have after := Finset.add_sum_erase nodes
    (fun q => (Function.update refs p list q).countP kind) member
  simp only [Function.update_self] at after
  simp only [tally]
  omega

/-- A node that gives up its list to the outside changes no tally. -/
theorem tally_open {p : α} (member : p ∈ nodes) :
    tally kind (refs p + held) nodes (Function.update refs p []) = tally kind held nodes refs := by
  have moved : tally kind held nodes (Function.update refs p []) + (refs p).countP kind =
      tally kind held nodes refs + ([] : List ρ).countP kind := tally_store member []
  simp only [List.countP_nil, Nat.add_zero] at moved
  rw [tally_add]
  omega

/-- A node without references can be removed. -/
theorem tally_erase {p : α} (empty : refs p = []) :
    tally kind held (nodes.erase p) refs = tally kind held nodes refs := by
  by_cases member : p ∈ nodes
  · have whole := Finset.add_sum_erase nodes (fun q => (refs q).countP kind) member
    simp only [empty, List.countP_nil] at whole
    simp only [tally]
    omega
  · rw [Finset.erase_eq_of_notMem member]

/-- A new node brings the references of its list. -/
theorem tally_insert {p : α} (fresh : p ∉ nodes) :
    tally kind held (insert p nodes) refs =
      tally kind held nodes refs + (refs p).countP kind := by
  rw [tally, Finset.sum_insert fresh, tally]
  omega

end ReferenceCounts
