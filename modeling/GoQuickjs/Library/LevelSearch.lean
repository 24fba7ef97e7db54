import Mathlib.Data.Finset.Card
import Mathlib.Data.Finset.Range
import Mathlib.Data.List.Basic

/-!
# Searching a tree level by level

Every state has the states below it, and what is found in it. The search looks at all states of
a level together and stops at the first level where something is found: what is found there is
the result if it is the only one.

Where states are of finitely many kinds, and the kind of a state decides which kinds are below it
and whether something is found in it, nothing is found first at a level deeper than there are
kinds: a longer way passes some kind twice and can be shortened.
-/

namespace LevelSearch

variable {State Found : Type}

/-- Search a level and, as long as nothing is found, the levels below it. -/
def search (below : State → List State) (found : State → List Found) :
    Nat → List State → Option Found
  | 0, _ => none
  | depth + 1, level =>
    match level.flatMap found with
    | [] => search below found depth (level.flatMap below)
    | [result] => some result
    | _ => none

/-- The states a number of levels below. -/
def lower (below : State → List State) : Nat → List State → List State
  | 0, level => level
  | depth + 1, level => lower below depth (level.flatMap below)

variable {below : State → List State} {found : State → List Found} {depth : Nat}
  {level : List State} {result : Found}

/-- What is found was found in a state that has every property which passes down from states
where nothing is found.

Proof: induction on the depth. A level that is left holds no state where something is found. -/
theorem search_invariant (Holds : State → Prop) (start : ∀ s ∈ level, Holds s)
    (passes : ∀ s, Holds s → found s = [] → ∀ t ∈ below s, Holds t)
    (result_found : search below found depth level = some result) :
    ∃ s, Holds s ∧ result ∈ found s := by
  induction depth generalizing level with
  | zero => cases result_found
  | succ depth inductionHypothesis =>
    simp only [search] at result_found
    split at result_found
    · rename_i nothing
      refine inductionHypothesis ?_ result_found
      intro t inside
      obtain ⟨s, here, deeper⟩ := List.mem_flatMap.mp inside
      exact passes s (start s here) (List.flatMap_eq_nil_iff.mp nothing s here) t deeper
    · rename_i only single
      obtain rfl := Option.some.inj result_found
      have inside : only ∈ level.flatMap found := by rw [single]; exact List.mem_singleton_self only
      obtain ⟨s, here, held⟩ := List.mem_flatMap.mp inside
      exact ⟨s, start s here, held⟩
    · cases result_found

/-! ## How deep the search has to go -/

/-- A search that meets a level where something is found goes no deeper. -/
theorem search_stops {n deeper : Nat} (here : (lower below n level).flatMap found ≠ [])
    (within : n < depth) (more : depth ≤ deeper) :
    search below found deeper level = search below found depth level := by
  induction n generalizing level depth deeper with
  | zero =>
    obtain ⟨depth, rfl⟩ : ∃ k, depth = k + 1 := ⟨depth - 1, by omega⟩
    obtain ⟨deeper, rfl⟩ : ∃ k, deeper = k + 1 := ⟨deeper - 1, by omega⟩
    simp only [search]
    split
    · rename_i nothing
      exact absurd nothing here
    · rfl
    · rfl
  | succ n inductionHypothesis =>
    obtain ⟨depth, rfl⟩ : ∃ k, depth = k + 1 := ⟨depth - 1, by omega⟩
    obtain ⟨deeper, rfl⟩ : ∃ k, deeper = k + 1 := ⟨deeper - 1, by omega⟩
    have later : search below found deeper (level.flatMap below) =
        search below found depth (level.flatMap below) :=
      inductionHypothesis here (by omega) (by omega)
    simp only [search, later]

theorem search_nothing (nothing : ∀ n, (lower below n level).flatMap found = []) :
    search below found depth level = none := by
  induction depth generalizing level with
  | zero => rfl
  | succ depth inductionHypothesis =>
    have here : level.flatMap found = [] := nothing 0
    simp only [search, here]
    exact inductionHypothesis fun n => nothing (n + 1)

/-- A way of some length between two vertices. -/
def Way (edge : Nat → Nat → Prop) (n u v : Nat) : Prop :=
  ∃ vertex : Nat → Nat, vertex 0 = u ∧ vertex n = v ∧ ∀ i < n, edge (vertex i) (vertex (i + 1))

theorem Way.cons {edge : Nat → Nat → Prop} {n u v w : Nat} (first : edge u v)
    (rest : Way edge n v w) : Way edge (n + 1) u w := by
  obtain ⟨vertex, start, finish, edges⟩ := rest
  refine ⟨fun i => if i = 0 then u else vertex (i - 1), rfl, finish, ?_⟩
  intro i below
  cases i with
  | zero =>
    subst start
    exact first
  | succ i => exact edges i (by omega)

theorem Way.head {edge : Nat → Nat → Prop} {n u w : Nat} (way : Way edge (n + 1) u w) :
    ∃ v, edge u v ∧ Way edge n v w := by
  obtain ⟨vertex, rfl, finish, edges⟩ := way
  exact ⟨vertex 1, edges 0 (by omega), fun i => vertex (i + 1), rfl, finish,
    fun i below => edges (i + 1) (by omega)⟩

/-- What lies between two visits of one vertex can be left out. -/
theorem Way.splice {edge : Nat → Nat → Prop} {n i j : Nat} {vertex : Nat → Nat}
    (edges : ∀ k < n, edge (vertex k) (vertex (k + 1))) (order : i < j) (within : j ≤ n)
    (same : vertex i = vertex j) : Way edge (n - (j - i)) (vertex 0) (vertex n) := by
  refine ⟨fun k => if k ≤ i then vertex k else vertex (k + (j - i)), if_pos (Nat.zero_le i), ?_, ?_⟩
  · by_cases atEnd : n - (j - i) ≤ i
    · have ends : n - (j - i) = i ∧ j = n := by omega
      simp only [if_pos atEnd]
      rw [ends.1, same, ends.2]
    · simp only [if_neg atEnd]
      rw [show n - (j - i) + (j - i) = n by omega]
  · intro k below
    by_cases before : k + 1 ≤ i
    · simp only [if_pos before, if_pos (Nat.le_of_succ_le before)]
      exact edges k (by omega)
    · by_cases turn : k = i
      · subst turn
        simp only [if_neg before, if_pos le_rfl]
        rw [same, show k + 1 + (j - k) = j + 1 by omega]
        exact edges j (by omega)
      · have after : ¬ k ≤ i := by omega
        simp only [if_neg before, if_neg after]
        rw [show k + 1 + (j - i) = k + (j - i) + 1 by omega]
        exact edges (k + (j - i)) (by omega)

/-- A way that is longer than there are vertices can be shortened.

Proof: strong induction on the length. Two of its vertices are the same. -/
theorem Way.shorten {edge : Nat → Nat → Prop} {bound n u v : Nat} (way : Way edge n u v)
    (leaves : ∀ a b, edge a b → a < bound) (final : v < bound) : ∃ m < bound, Way edge m u v := by
  induction n using Nat.strongRecOn with
  | ind n inductionHypothesis =>
    by_cases short : n < bound
    · exact ⟨n, short, way⟩
    · obtain ⟨vertex, rfl, rfl, edges⟩ := way
      have inside : ∀ i ∈ Finset.range (n + 1), vertex i ∈ Finset.range bound := by
        intro i below
        rw [Finset.mem_range] at below ⊢
        by_cases last : i = n
        · rw [last]
          exact final
        · exact leaves _ _ (edges i (by omega))
      have many : (Finset.range bound).card < (Finset.range (n + 1)).card := by
        rw [Finset.card_range, Finset.card_range]
        omega
      obtain ⟨i, iInside, j, jInside, different, same⟩ :=
        Finset.exists_ne_map_eq_of_card_lt_of_maps_to many inside
      rw [Finset.mem_range] at iInside jInside
      rcases Nat.lt_or_gt_of_ne different with order | order
      · exact inductionHypothesis (n - (j - i)) (by omega)
          (Way.splice edges order (by omega) same)
      · exact inductionHypothesis (n - (i - j)) (by omega)
          (Way.splice edges order (by omega) same.symm)

/-- The kinds of the states a number of levels below. -/
theorem mem_lower {kind : State → Nat} {edge : Nat → Nat → Prop} {n v : Nat}
    (steps : ∀ s u, (∃ t ∈ below s, kind t = u) ↔ edge (kind s) u) :
    (∃ t ∈ lower below n level, kind t = v) ↔ ∃ s ∈ level, Way edge n (kind s) v := by
  induction n generalizing level with
  | zero =>
    constructor
    · rintro ⟨t, inside, rfl⟩
      exact ⟨t, inside, fun _ => kind t, rfl, rfl, fun i below => absurd below (Nat.not_lt_zero i)⟩
    · rintro ⟨s, inside, vertex, start, finish, _⟩
      exact ⟨s, inside, start.symm.trans finish⟩
  | succ n inductionHypothesis =>
    rw [lower, inductionHypothesis]
    constructor
    · rintro ⟨t, inside, way⟩
      obtain ⟨s, here, deeper⟩ := List.mem_flatMap.mp inside
      exact ⟨s, here, way.cons ((steps s _).mp ⟨t, deeper, rfl⟩)⟩
    · rintro ⟨s, here, way⟩
      obtain ⟨u, first, rest⟩ := way.head
      obtain ⟨t, deeper, rfl⟩ := (steps s u).mpr first
      exact ⟨t, List.mem_flatMap.mpr ⟨s, here, deeper⟩, rest⟩

/-- The search has to go as deep as there are kinds of states, and no deeper. -/
theorem search_enough (kind : State → Nat) (edge : Nat → Nat → Prop) (good : Nat → Prop)
    {bound deeper : Nat} (steps : ∀ s u, (∃ t ∈ below s, kind t = u) ↔ edge (kind s) u)
    (leaves : ∀ a b, edge a b → a < bound) (finds : ∀ s, found s ≠ [] ↔ good (kind s))
    (goods : ∀ a, good a → a < bound) (more : bound ≤ deeper) :
    search below found deeper level = search below found bound level := by
  have some_level : ∀ n, (lower below n level).flatMap found ≠ [] ↔
      ∃ v, good v ∧ ∃ s ∈ level, Way edge n (kind s) v := by
    intro n
    have members : (lower below n level).flatMap found ≠ [] ↔
        ∃ t ∈ lower below n level, found t ≠ [] := by
      rw [ne_eq, List.flatMap_eq_nil_iff]
      push Not
      rfl
    rw [members]
    constructor
    · rintro ⟨t, inside, something⟩
      exact ⟨kind t, (finds t).mp something, (mem_lower steps).mp ⟨t, inside, rfl⟩⟩
    · rintro ⟨v, isGood, way⟩
      obtain ⟨t, inside, rfl⟩ := (mem_lower steps).mpr way
      exact ⟨t, inside, (finds t).mpr isGood⟩
  by_cases nothing : ∀ n, (lower below n level).flatMap found = []
  · rw [search_nothing nothing, search_nothing nothing]
  · push Not at nothing
    obtain ⟨n, here⟩ := nothing
    obtain ⟨v, isGood, s, inside, way⟩ := (some_level n).mp here
    obtain ⟨m, short, shortWay⟩ := way.shorten leaves (goods v isGood)
    exact search_stops ((some_level m).mpr ⟨v, isGood, s, inside, shortWay⟩) short more

end LevelSearch
