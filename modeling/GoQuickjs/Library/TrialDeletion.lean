import Mathlib.Algebra.GroupWithZero.Nat
import Mathlib.Data.List.Dedup
import Mathlib.Data.List.Perm.Basic
import Mathlib.Algebra.BigOperators.Group.List.Basic

/-!
# Trial deletion

A cycle collector that works on counts takes, from the count of each node, the
references that other nodes hold; what is left are the references from outside.
Starting from the nodes with such references it then gives back the references each
kept node holds, and keeps every node whose count becomes positive. When no node is
left to visit, the kept nodes are those that can be reached from outside.

The file gives the bookkeeping for both passes over an arbitrary graph: references
counted over a list of nodes, the node that follows another one in a list, and the
argument why counts that are positive exactly on the kept nodes tell reachability. What
some nodes lead to can also be computed.
-/

namespace TrialDeletion

variable {α : Type} [DecidableEq α]

/-- The node after a given one; none after the last and after a node not in the list. -/
def next : List α → α → Option α
  | [], _ => none
  | x :: rest, p => if x = p then rest.head? else next rest p

/-- The first node of the rest follows a node that does not occur before. -/
theorem next_append {front rest : List α} {p : α} (absent : p ∉ front) :
    next (front ++ p :: rest) p = rest.head? := by
  induction front with
  | nil => simp [next]
  | cons x front inductionHypothesis =>
    rw [List.mem_cons, not_or] at absent
    simp [next, Ne.symm absent.1, inductionHypothesis absent.2]

variable (children : α → List α)

/-- The references to `p` from a list of nodes, counted. -/
def edges (nodes : List α) (p : α) : Nat := (nodes.map fun q => (children q).count p).sum

variable {children} {p q : α} {nodes more : List α}

@[simp] theorem edges_nil : edges children [] p = 0 := rfl

/-- One more node adds its own references. -/
@[simp] theorem edges_cons : edges children (q :: nodes) p =
    (children q).count p + edges children nodes p := by
  simp [edges]

/-- References are counted list by list. -/
@[simp] theorem edges_append : edges children (nodes ++ more) p =
    edges children nodes p + edges children more p := by
  simp [edges]

/-- The order of the nodes does not matter. -/
theorem edges_perm (same : nodes.Perm more) : edges children nodes p = edges children more p :=
  (same.map _).sum_eq

/-- References are counted exactly when some node of the list refers. -/
theorem edges_pos_iff : 0 < edges children nodes p ↔ ∃ q ∈ nodes, p ∈ children q := by
  induction nodes with
  | nil => simp
  | cons q rest inductionHypothesis =>
    rw [edges_cons, Nat.add_pos_iff_pos_or_pos, inductionHypothesis, List.count_pos_iff]
    simp

/-- A node is reached from outside, or from a reached node. -/
inductive Reached (children : α → List α) (outside : α → Nat) : α → Prop where
  | root {p : α} (held : 0 < outside p) : Reached children outside p
  | step {q p : α} (reached : Reached children outside q) (refers : p ∈ children q) :
      Reached children outside p

omit [DecidableEq α] in
/-- More references from outside reach more. -/
theorem Reached.mono {outside wider : α → Nat} (grows : ∀ p, 0 < outside p → 0 < wider p)
    (reached : Reached children outside p) : Reached children wider p := by
  induction reached with
  | root held => exact .root (grows _ held)
  | step earlier refers inductionHypothesis => exact .step inductionHypothesis refers

/-- The nodes that a list leads to in a number of rounds, with the list itself. -/
def spread (children : α → List α) : Nat → List α → List α
  | 0, nodes => nodes
  | rounds + 1, nodes => spread children rounds (nodes ++ nodes.flatMap children).dedup

/-- What reached nodes lead to is reached. -/
theorem reached_of_spread {outside : α → Nat} {rounds : Nat}
    (start : ∀ q ∈ nodes, Reached children outside q) (member : p ∈ spread children rounds nodes) :
    Reached children outside p := by
  induction rounds generalizing nodes with
  | zero => exact start p member
  | succ rounds inductionHypothesis =>
    refine inductionHypothesis (fun q there => ?_) member
    rcases List.mem_append.mp (List.mem_dedup.mp there) with before | led
    · exact start q before
    · obtain ⟨holder, inside, refers⟩ := List.mem_flatMap.mp led
      exact .step (start holder inside) refers

/-- When a list of reached nodes holds exactly the nodes that have references from
outside or from the list, it holds exactly the reached nodes. -/
theorem mem_iff_reached {outside : α → Nat} {kept : List α}
    (sound : ∀ q ∈ kept, Reached children outside q)
    (exact_counts : ∀ q, 0 < outside q + edges children kept q → q ∈ kept) :
    p ∈ kept ↔ Reached children outside p := by
  refine ⟨sound p, fun reached => ?_⟩
  induction reached with
  | root held => exact exact_counts _ (Nat.add_pos_left held _)
  | step earlier refers inductionHypothesis =>
    exact exact_counts _ (Nat.add_pos_right _ (edges_pos_iff.mpr ⟨_, inductionHypothesis, refers⟩))

end TrialDeletion
