import Mathlib.Data.List.Nodup
import Mathlib.Logic.Function.Basic
import Mathlib.Data.Finset.Card

/-!
# Chains of indices

Lists that are threaded through an array: each entry names the index of the next one,
and zero ends the chain. A chain is determined by where it starts, never meets an
index twice, and is kept by every change of an entry it does not pass. An index is
put in front of a chain, taken from its front, or cut out behind another one, by one
assignment each.
-/

namespace IndexChains

/-- The indices from a start, along the links, to the zero that ends them. -/
inductive Chain (next : Nat → Nat) : Nat → List Nat → Prop where
  | nil : Chain next 0 []
  | cons {i : Nat} {rest : List Nat} (used : i ≠ 0) (tail : Chain next (next i) rest) :
      Chain next i (i :: rest)

namespace Chain

variable {next other : Nat → Nat} {i j start value : Nat} {front list more rest : List Nat}

/-- A chain is determined by its start. -/
theorem unique (chain : Chain next start list) (again : Chain next start more) : list = more := by
  induction chain generalizing more with
  | nil =>
    cases again with
    | nil => rfl
    | cons used _ => exact absurd rfl used
  | cons used _ inductionHypothesis =>
    cases again with
    | nil => exact absurd rfl used
    | cons _ tail => rw [inductionHypothesis tail]

theorem ne_zero (chain : Chain next start list) (member : i ∈ list) : i ≠ 0 := by
  induction chain with
  | nil => cases member
  | cons used _ inductionHypothesis =>
    rcases List.mem_cons.mp member with rfl | later
    · exact used
    · exact inductionHypothesis later

/-- From every index of a chain the rest of it can be followed. -/
theorem suffix (chain : Chain next start list) (member : i ∈ list) :
    ∃ front rest, list = front ++ i :: rest ∧ Chain next i (i :: rest) := by
  induction chain with
  | nil => cases member
  | @cons first tail used follows inductionHypothesis =>
    rcases List.mem_cons.mp member with rfl | later
    · exact ⟨[], tail, rfl, .cons used follows⟩
    · obtain ⟨front, rest, rfl, chain⟩ := inductionHypothesis later
      exact ⟨first :: front, rest, rfl, chain⟩

/-- No index occurs twice.

Proof: induction on the chain; an index that occurs again would start a shorter chain
that is the same. -/
theorem nodup (chain : Chain next start list) : list.Nodup := by
  induction chain with
  | nil => exact List.nodup_nil
  | @cons first tail used follows inductionHypothesis =>
    refine List.nodup_cons.mpr ⟨fun member => ?_, inductionHypothesis⟩
    obtain ⟨front, rest, split, again⟩ := follows.suffix member
    have same : first :: tail = first :: rest := Chain.unique (.cons used follows) again
    have lengths := congrArg List.length split
    rw [(List.cons.inj same).2, List.length_append, List.length_cons] at lengths
    omega

/-- Only the entries on the chain matter. -/
theorem congr (chain : Chain next start list) (same : ∀ i ∈ list, other i = next i) :
    Chain other start list := by
  induction chain with
  | nil => exact .nil
  | cons used _ inductionHypothesis =>
    refine .cons used ?_
    rw [same _ (List.mem_cons_self ..)]
    exact inductionHypothesis fun i later => same i (List.mem_cons_of_mem _ later)

theorem update (chain : Chain next start list) (absent : i ∉ list) :
    Chain (Function.update next i value) start list :=
  chain.congr fun _ member => Function.update_of_ne (ne_of_mem_of_not_mem member absent) ..

/-- An index is put in front. -/
theorem push (chain : Chain next start list) (used : i ≠ 0) (absent : i ∉ list) :
    Chain (Function.update next i start) i (i :: list) := by
  refine .cons used ?_
  rw [Function.update_self]
  exact chain.update absent

/-- The chain behind its first index. -/
theorem tail (chain : Chain next i (i :: rest)) : Chain next (next i) rest := by
  cases chain with
  | cons _ follows => exact follows

/-- A chain that is not empty holds its start. -/
theorem start_mem (chain : Chain next start list) (used : start ≠ 0) : start ∈ list := by
  cases chain with
  | nil => exact absurd rfl used
  | cons _ _ => exact List.mem_cons_self ..

theorem eq_nil (chain : Chain next start list) (ended : start = 0) : list = [] := by
  cases chain with
  | nil => rfl
  | cons used _ => exact absurd ended used

/-- The start of a chain is its first index. -/
theorem start_eq (chain : Chain next start (i :: rest)) : start = i := by
  cases chain with
  | cons _ _ => rfl

/-- An index is cut out behind another one. -/
theorem cut (chain : Chain next start (front ++ j :: i :: rest)) :
    next j = i ∧ Chain (Function.update next j (next i)) start (front ++ j :: rest) := by
  have all := chain.nodup
  induction front generalizing start with
  | nil =>
    obtain rfl := chain.start_eq
    have behind := chain.tail
    have second : next start = i := behind.start_eq
    rw [second] at behind
    refine ⟨second, .cons (chain.ne_zero (List.mem_cons_self ..)) ?_⟩
    rw [Function.update_self]
    refine behind.tail.update fun member => ?_
    exact (List.nodup_cons.mp all).1 (List.mem_cons_of_mem _ member)
  | cons first front inductionHypothesis =>
    obtain rfl := chain.start_eq
    obtain ⟨absent, later⟩ := List.nodup_cons.mp all
    obtain ⟨second, shorter⟩ := inductionHypothesis chain.tail later
    refine ⟨second, .cons (chain.ne_zero (List.mem_cons_self ..)) ?_⟩
    have other : start ≠ j := fun same => absent (same ▸ by simp)
    rw [Function.update_of_ne other]
    exact shorter

/-- Indices in a row.

Proof: induction on their number. -/
theorem consecutive {n : Nat} (positive : 0 < start)
    (linked : ∀ i, start ≤ i → i < start + n → next i = if i = start + n - 1 then 0 else i + 1) :
    Chain next (if n = 0 then 0 else start) (List.range' start n) := by
  induction n generalizing start with
  | zero => exact .nil
  | succ n inductionHypothesis =>
    rw [if_neg (Nat.succ_ne_zero n), List.range'_succ]
    refine .cons (Nat.ne_of_gt positive) ?_
    have tail := inductionHypothesis (Nat.succ_pos start) fun i from_next below => by
      rw [linked i (by omega) (by omega)]
      exact if_congr (by omega) rfl rfl
    rw [linked start (Nat.le_refl start) (by omega)]
    by_cases last : n = 0
    · rw [if_pos last] at tail
      rw [if_pos (by omega)]
      exact tail
    · rw [if_neg last] at tail
      rw [if_neg (by omega)]
      exact tail

/-- A chain of indices below a bound is shorter than the bound. -/
theorem length_lt (chain : Chain next start list) {bound : Nat} (below : ∀ i ∈ list, i < bound)
    (positive : 0 < bound) : list.length < bound := by
  have inside : (0 :: list).toFinset ⊆ Finset.range bound := by
    intro i member
    rw [Finset.mem_range]
    rcases List.mem_cons.mp (List.mem_toFinset.mp member) with rfl | later
    · exact positive
    · exact below i later
  have distinct : (0 :: list).Nodup :=
    List.nodup_cons.mpr ⟨fun member => chain.ne_zero member rfl, chain.nodup⟩
  have size := Finset.card_le_card inside
  rw [List.toFinset_card_of_nodup distinct, Finset.card_range, List.length_cons] at size
  exact size

end Chain

/-! ## Several chains -/

/-- Chains that share the links of one array. Each has a head of its own and holds exactly the
indices that are placed in it. -/
def Chains {β : Type} (next : Nat → Nat) (head : β → Nat) (place : Nat → Option β) : Prop :=
  ∀ b, ∃ list, Chain next (head b) list ∧ ∀ i, i ∈ list ↔ place i = some b

namespace Chains

variable {β : Type} {next other : Nat → Nat} {head first : β → Nat}
  {place placed : Nat → Option β} {i j : Nat} {b : β}

/-- The head of a chain is zero or placed in it. -/
theorem head_placed (chains : Chains next head place) (used : head b ≠ 0) :
    place (head b) = some b := by
  obtain ⟨list, chain, members⟩ := chains b
  exact (members _).mp (chain.start_mem used)

/-- What follows in a chain is placed in it too. -/
theorem next_placed (chains : Chains next head place) (here : place i = some b)
    (used : next i ≠ 0) : place (next i) = some b := by
  obtain ⟨list, chain, members⟩ := chains b
  obtain ⟨front, rest, rfl, behind⟩ := chain.suffix ((members i).mpr here)
  have later : next i ∈ rest := behind.tail.start_mem used
  exact (members _).mp (by simp [later])

theorem place_ne_zero (chains : Chains next head place) (here : place i = some b) : i ≠ 0 := by
  obtain ⟨list, chain, members⟩ := chains b
  exact chain.ne_zero ((members i).mpr here)

/-- Only the links of placed indices matter. -/
theorem congr (chains : Chains next head place) (heads : ∀ b, first b = head b)
    (places : ∀ i, placed i = place i) (links : ∀ i, place i ≠ none → other i = next i) :
    Chains other first placed := by
  intro b
  obtain ⟨list, chain, members⟩ := chains b
  refine ⟨list, ?_, fun i => by rw [places, members]⟩
  rw [heads]
  refine chain.congr fun i member => links i ?_
  rw [(members i).mp member]
  exact Option.some_ne_none b

variable [DecidableEq β]

/-- An index that is placed nowhere is put in front of a chain. -/
theorem push (chains : Chains next head place) (used : i ≠ 0) (absent : place i = none)
    (heads : ∀ c, first c = if c = b then i else head c) (link : other i = head b)
    (places : ∀ j, placed j = if j = i then some b else place j)
    (links : ∀ j, place j ≠ none → other j = next j) : Chains other first placed := by
  intro c
  obtain ⟨list, chain, members⟩ := chains c
  have kept : Chain other (head c) list := by
    refine chain.congr fun j member => links j ?_
    rw [(members j).mp member]
    exact Option.some_ne_none c
  have outside : i ∉ list := by
    intro member
    have here := (members i).mp member
    rw [absent] at here
    cases here
  by_cases same : c = b
  · subst same
    refine ⟨i :: list, ?_, fun j => ?_⟩
    · rw [heads, if_pos rfl]
      exact .cons used (link ▸ kept)
    · rw [places]
      by_cases here : j = i
      · simp [here]
      · simp [here, members]
  · refine ⟨list, ?_, fun j => ?_⟩
    · rw [heads, if_neg same]
      exact kept
    · rw [places, members]
      by_cases here : j = i
      · subst here
        simp [absent, Ne.symm same]
      · simp [here]

/-- The head of a chain is taken away. -/
theorem pop (chains : Chains next head place) (at_head : head b = i) (used : i ≠ 0)
    (heads : ∀ c, first c = if c = b then next i else head c)
    (places : ∀ j, placed j = if j = i then none else place j)
    (links : ∀ j, j ≠ i → place j ≠ none → other j = next j) : Chains other first placed := by
  have here : place i = some b := at_head ▸ chains.head_placed (at_head.symm ▸ used)
  intro c
  obtain ⟨list, chain, members⟩ := chains c
  by_cases same : c = b
  · subst same
    rw [at_head] at chain
    cases chain with
    | nil => exact absurd rfl used
    | @cons _ rest used follows =>
      have outside : i ∉ rest := (List.nodup_cons.mp (Chain.cons used follows).nodup).1
      refine ⟨rest, ?_, fun j => ?_⟩
      · rw [heads, if_pos rfl]
        refine follows.congr fun j member => links j (ne_of_mem_of_not_mem member outside) ?_
        rw [(members j).mp (List.mem_cons_of_mem _ member)]
        exact Option.some_ne_none c
      · rw [places]
        by_cases equal : j = i
        · subst equal
          simp [outside]
        · rw [if_neg equal, ← members, List.mem_cons, or_iff_right equal]
  · have outside : i ∉ list := by
      intro member
      have there := (members i).mp member
      rw [here] at there
      exact same (Option.some.inj there).symm
    refine ⟨list, ?_, fun j => ?_⟩
    · rw [heads, if_neg same]
      refine chain.congr fun j member => links j (ne_of_mem_of_not_mem member outside) ?_
      rw [(members j).mp member]
      exact Option.some_ne_none c
    · rw [places, members]
      by_cases equal : j = i
      · subst equal
        simp [here, Ne.symm same]
      · rw [if_neg equal]

/-- An index is cut out behind another one. -/
theorem cut (chains : Chains next head place) (before : place j = some b) (behind : next j = i)
    (used : i ≠ 0) (heads : ∀ c, first c = head c) (link : other j = next i)
    (places : ∀ k, placed k = if k = i then none else place k)
    (links : ∀ k, k ≠ i → k ≠ j → place k ≠ none → other k = next k) :
    Chains other first placed := by
  have here : place i = some b := behind ▸ chains.next_placed before (behind.symm ▸ used)
  intro c
  obtain ⟨list, chain, members⟩ := chains c
  by_cases same : c = b
  · subst same
    obtain ⟨front, rest, rfl, follows⟩ := chain.suffix ((members j).mpr before)
    have more := follows.tail
    rw [behind] at more
    cases more with
    | nil => exact absurd rfl used
    | @cons _ rest used more =>
      obtain ⟨_, shorter⟩ := chain.cut
      have all := chain.nodup
      have outside : i ∉ front ++ j :: rest := by
        have order : (front ++ j :: i :: rest).Perm (i :: (front ++ j :: rest)) := by
          refine (List.perm_append_left_iff front).mpr (List.Perm.swap i j rest) |>.trans ?_
          exact List.perm_middle
        exact (List.nodup_cons.mp (order.nodup_iff.mp all)).1
      refine ⟨front ++ j :: rest, ?_, fun k => ?_⟩
      · rw [heads]
        refine shorter.congr fun k member => ?_
        by_cases equal : k = j
        · subst equal
          rw [Function.update_self, link]
        · rw [Function.update_of_ne equal]
          refine links k (ne_of_mem_of_not_mem member outside) equal ?_
          rw [(members k).mp (by
            rcases List.mem_append.mp member with early | late
            · exact List.mem_append_left _ early
            · rcases List.mem_cons.mp late with rfl | late
              · simp
              · simp [late])]
          exact Option.some_ne_none c
      · rw [places]
        by_cases equal : k = i
        · subst equal
          simp [outside]
        · rw [if_neg equal, ← members]
          simp [equal]
  · have outside : ∀ k, place k = some b → k ∉ list := by
      intro k there member
      rw [(members k).mp member] at there
      exact same (Option.some.inj there)
    refine ⟨list, ?_, fun k => ?_⟩
    · rw [heads]
      refine chain.congr fun k member => links k ?_ ?_ ?_
      · rintro rfl
        exact outside k here member
      · rintro rfl
        exact outside k before member
      · rw [(members k).mp member]
        exact Option.some_ne_none c
    · rw [places, members]
      by_cases equal : k = i
      · subst equal
        simp [here, Ne.symm same]
      · rw [if_neg equal]

end Chains

end IndexChains
