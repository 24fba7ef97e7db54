import Mathlib.Data.List.Count
import GoQuickjs.Library.Tracing

/-!
# Ownership of references

A computation settles its references when each is given back as often as it was
taken, and it is orderly when nothing touches a reference after it was given back.
Debts, references to be given back that were taken before, make both notions compose
over sequences, over loops and over bodies with a reference held around them.
-/

namespace Tracing

variable {R α β : Type}

namespace Traced

/-! ## References given back -/

section debts

variable [DecidableEq R]

/-- How often a reference is taken. -/
def taken (m : Traced R α) (x : R) : Nat := m.trace.count (.take x)

/-- How often a reference is given back. -/
def given (m : Traced R α) (x : R) : Nat := m.trace.count (.give x)

/-- Beyond what it takes, the computation gives back at most the listed references. -/
def Owes (m : Traced R α) (debt : List R) : Prop :=
  ∀ x, m.given x ≤ m.taken x + debt.count x

/-- The computation gives back all that it takes, and the listed references. -/
def Settles (m : Traced R α) (debt : List R) : Prop :=
  ∀ x, m.given x = m.taken x + debt.count x

/-- Some reference that was taken or listed is not given back. -/
def Leaves (m : Traced R α) (debt : List R) : Prop :=
  ∃ x, m.given x < m.taken x + debt.count x

/-- What gives back all it takes gives back no more than that. -/
theorem Settles.owes {m : Traced R α} {debt : List R} (settles : m.Settles debt) :
    m.Owes debt := fun x => Nat.le_of_eq (settles x)

/-- What leaves a reference does not give all back. -/
theorem Leaves.not_settles {m : Traced R α} {debt : List R} (leaves : m.Leaves debt) :
    ¬ m.Settles debt := by
  obtain ⟨x, short⟩ := leaves
  intro settles
  have exact := settles x
  omega

/-- A debt that is not known to be paid is left. -/
theorem Owes.leaves {m : Traced R α} {debt : List R} (owes : m.Owes debt) (x : R) :
    m.Leaves (debt ++ [x]) := by
  refine ⟨x, ?_⟩
  have inner := owes x
  have added : (debt ++ [x]).count x = debt.count x + 1 := by simp
  omega

/-- What gives nothing back gives back no more than it takes. -/
theorem owes_of_none {m : Traced R α} (gives : ∀ x, .give x ∉ m.trace) (debt : List R) :
    m.Owes debt := by
  intro x
  have never : m.given x = 0 := List.count_eq_zero.mpr (gives x)
  omega

/-- A plain result takes and gives nothing. -/
theorem pure_settles (a : α) : (pure a : Traced R α).Settles [] := fun _ => rfl

/-- Counts of a computation that goes on after some events. -/
theorem after_counts (ending : Ending α) (before after : List (Event R)) (x : R) :
    (⟨ending, before ++ after⟩ : Traced R α).taken x =
        before.count (.take x) + after.count (.take x) ∧
      (⟨ending, before ++ after⟩ : Traced R α).given x =
        before.count (.give x) + after.count (.give x) :=
  ⟨List.count_append, List.count_append⟩

variable {first : Traced R α} {next : α → Traced R β} {debt more : List R}

/-- What is done after the first part gives back at most what it takes, and what it owes. -/
theorem bind_at (first : Traced R α) (later : ∀ a, (next a).Owes more) (x : R) :
    (first >>= next).given x + first.taken x ≤
      first.given x + (first >>= next).taken x + more.count x := by
  rcases bind_cases first next with ⟨a, -, joined⟩ | stopped
  · have rest := later a x
    obtain ⟨takes, gives⟩ := after_counts (next a).ending first.trace (next a).trace x
    rw [joined, takes, gives]
    simp only [taken, given] at rest ⊢
    omega
  · simp only [taken, given, stopped]
    omega

/-- One computation after another gives back no more than both may. -/
theorem bind_owes (owes : first.Owes debt) (later : ∀ a, (next a).Owes more) :
    (first >>= next).Owes (debt ++ more) := by
  intro x
  have start := owes x
  have onward := bind_at first later x
  have added : (debt ++ more).count x = debt.count x + more.count x := List.count_append
  omega

/-- One computation after another gives back what both must. -/
theorem bind_settles {a : α} (returned : first.ending = .returns a) (settles : first.Settles debt)
    (later : (next a).Settles more) : (first >>= next).Settles (debt ++ more) := by
  intro x
  have start := settles x
  have rest := later x
  have added : (debt ++ more).count x = debt.count x + more.count x := List.count_append
  obtain ⟨takes, gives⟩ := after_counts (next a).ending first.trace (next a).trace x
  rw [bind_returns returned, takes, gives]
  simp only [taken, given] at start rest
  omega

/-- What the first part leaves stays left. -/
theorem bind_leaves (leaves : first.Leaves debt) (later : ∀ a, (next a).Owes more) :
    (first >>= next).Leaves (debt ++ more) := by
  obtain ⟨x, short⟩ := leaves
  refine ⟨x, ?_⟩
  have onward := bind_at first later x
  have added : (debt ++ more).count x = debt.count x + more.count x := List.count_append
  omega

/-- What a later part leaves stays left. -/
theorem after_leaves {rest : Traced R β} (owes : first.Owes debt) (leaves : rest.Leaves more) :
    (⟨rest.ending, first.trace ++ rest.trace⟩ : Traced R β).Leaves (debt ++ more) := by
  obtain ⟨x, short⟩ := leaves
  refine ⟨x, ?_⟩
  have start := owes x
  have added : (debt ++ more).count x = debt.count x + more.count x := List.count_append
  obtain ⟨takes, gives⟩ := after_counts rest.ending first.trace rest.trace x
  rw [takes, gives]
  simp only [taken, given] at start short
  omega

/-- A list of references that are taken. -/
theorem takes_counts (refs : List R) (x : R) :
    (refs.map Event.take).count (.take x) = refs.count x ∧
      (refs.map Event.take).count (.give x) = 0 := by
  refine ⟨List.count_map_of_injective refs _ (fun _ _ => Event.take.inj) x, ?_⟩
  rw [List.count_eq_zero]
  simp

/-- A list of references that are given back. -/
theorem gives_counts (refs : List R) (x : R) :
    (refs.map Event.give).count (.give x) = refs.count x ∧
      (refs.map Event.give).count (.take x) = 0 := by
  refine ⟨List.count_map_of_injective refs _ (fun _ _ => Event.give.inj) x, ?_⟩
  rw [List.count_eq_zero]
  simp

/-- Counts of a body with a reference held around it. -/
theorem held_counts (ref : Option R) (ending : Ending α) (trace : List (Event R)) (x : R) :
    (⟨ending, ref.toList.map .take ++ trace ++ ref.toList.map .give⟩ : Traced R α).taken x =
        trace.count (.take x) + ref.toList.count x ∧
      (⟨ending, ref.toList.map .take ++ trace ++ ref.toList.map .give⟩ : Traced R α).given x =
        trace.count (.give x) + ref.toList.count x := by
  obtain ⟨takes, noGives⟩ := takes_counts ref.toList x
  obtain ⟨gives, noTakes⟩ := gives_counts ref.toList x
  simp only [taken, given, List.count_append, takes, noGives, gives, noTakes]
  omega

/-- Counts of a body that did not get to give its reference back. -/
theorem kept_counts (ref : Option R) (ending : Ending α) (trace : List (Event R)) (x : R) :
    (⟨ending, ref.toList.map .take ++ trace ++ []⟩ : Traced R α).taken x =
        trace.count (.take x) + ref.toList.count x ∧
      (⟨ending, ref.toList.map .take ++ trace ++ []⟩ : Traced R α).given x =
        trace.count (.give x) := by
  obtain ⟨takes, noGives⟩ := takes_counts ref.toList x
  simp only [taken, given, List.count_append, List.count_nil, takes, noGives]
  omega

/-- A computation that is a body with a reference held around it: the reference is
taken, and given back at least when the body returns. -/
def Wraps (m : Traced R α) (ref : Option R) (body : Traced R α) : Prop :=
  ∀ x, m.taken x = body.taken x + ref.toList.count x ∧
    (m.given x = body.given x + ref.toList.count x ∨
      m.given x = body.given x ∧ ∀ a, body.ending ≠ .returns a)

/-- A reference held around a computation wraps it. -/
theorem holding_wraps (ref : Option R) (body : Traced R α) : (holding ref body).Wraps ref body := by
  intro x
  rw [holding_eq]
  cases shape : body.ending with
  | returns a =>
    obtain ⟨takes, gives⟩ := held_counts ref (.returns a) body.trace x
    exact ⟨takes, Or.inl gives⟩
  | panics =>
    obtain ⟨takes, gives⟩ := kept_counts ref (Ending.panics : Ending α) body.trace x
    exact ⟨takes, Or.inr ⟨gives, by simp⟩⟩
  | running =>
    obtain ⟨takes, gives⟩ := kept_counts ref (Ending.running : Ending α) body.trace x
    exact ⟨takes, Or.inr ⟨gives, by simp⟩⟩

/-- A reference given back by a deferred call wraps the computation. -/
theorem holdingDeferred_wraps (ref : Option R) (body : Traced R α) :
    (holdingDeferred ref body).Wraps ref body := by
  intro x
  simp only [holdingDeferred]
  cases shape : body.ending with
  | returns a =>
    obtain ⟨takes, gives⟩ := held_counts ref (.returns a) body.trace x
    exact ⟨takes, Or.inl gives⟩
  | panics =>
    obtain ⟨takes, gives⟩ := held_counts ref (Ending.panics : Ending α) body.trace x
    exact ⟨takes, Or.inl gives⟩
  | running =>
    obtain ⟨takes, gives⟩ := kept_counts ref (Ending.running : Ending α) body.trace x
    exact ⟨takes, Or.inr ⟨gives, by simp⟩⟩

/-- What is known of the debts of a part carries over to the whole. -/
structure Carries (part : Traced R α) (debt : List R) (whole : Traced R α) (rest : List R) :
    Prop where
  owes : part.Owes debt → whole.Owes rest
  settles : part.Settles debt → whole.Settles rest
  leaves : part.Leaves debt → whole.Leaves rest

/-- Debts carry over when the balance of every reference does. -/
theorem carries_of_balance {part whole : Traced R α} {debt rest : List R}
    (balance : ∀ x, whole.given x + part.taken x + debt.count x =
      part.given x + whole.taken x + rest.count x) : Carries part debt whole rest where
  owes known x := by
    have even := balance x
    have inner := known x
    omega
  settles known x := by
    have even := balance x
    have inner := known x
    omega
  leaves known := by
    obtain ⟨x, short⟩ := known
    have even := balance x
    exact ⟨x, by omega⟩

section front

variable (refs debt : List R) (m : Traced R α)

/-- Uses in front of a computation change no debt. -/
theorem used_carries : Carries m debt ⟨m.ending, refs.map .use ++ m.trace⟩ debt := by
  refine carries_of_balance fun x => ?_
  have none_taken : (refs.map Event.use).count (.take x) = 0 := List.count_eq_zero.mpr (by simp)
  have none_given : (refs.map Event.use).count (.give x) = 0 := List.count_eq_zero.mpr (by simp)
  simp only [taken, given, List.count_append, none_taken, none_given]
  omega

/-- References taken in front of a computation pay its debts. -/
theorem took_carries : Carries m (refs ++ debt) ⟨m.ending, refs.map .take ++ m.trace⟩ debt := by
  refine carries_of_balance fun x => ?_
  have all_taken : (refs.map Event.take).count (.take x) = refs.count x :=
    List.count_map_of_injective refs Event.take (fun _ _ same => Event.take.inj same) x
  have none_given : (refs.map Event.take).count (.give x) = 0 := List.count_eq_zero.mpr (by simp)
  simp only [taken, given, List.count_append, all_taken, none_given]
  omega

/-- References given back in front of a computation are debts. -/
theorem gave_carries : Carries m debt ⟨m.ending, refs.map .give ++ m.trace⟩ (refs ++ debt) := by
  refine carries_of_balance fun x => ?_
  have all_given : (refs.map Event.give).count (.give x) = refs.count x :=
    List.count_map_of_injective refs Event.give (fun _ _ same => Event.give.inj same) x
  have none_taken : (refs.map Event.give).count (.take x) = 0 := List.count_eq_zero.mpr (by simp)
  simp only [taken, given, List.count_append, all_given, none_taken]
  omega

end front

section wraps

variable {m body : Traced R α} {ref : Option R} (wraps : m.Wraps ref body)

include wraps

/-- A wrapped computation gives back no more than it may if its body does. -/
theorem Wraps.owes (owes : body.Owes debt) : m.Owes debt := by
  intro x
  obtain ⟨takes, gives⟩ := wraps x
  have inner := owes x
  omega

/-- A wrapped computation that returns gives all back if its body does. -/
theorem Wraps.settles {a : α} (returned : body.ending = .returns a) (settles : body.Settles debt) :
    m.Settles debt := by
  intro x
  obtain ⟨takes, gives | ⟨-, unreturned⟩⟩ := wraps x
  · have inner := settles x
    omega
  · exact absurd returned (unreturned a)

/-- What the body leaves the wrapped computation leaves. -/
theorem Wraps.leaves (leaves : body.Leaves debt) : m.Leaves debt := by
  obtain ⟨x, short⟩ := leaves
  refine ⟨x, ?_⟩
  obtain ⟨takes, gives⟩ := wraps x
  omega

end wraps

section loopDebts

variable {body : Nat → α → Traced R (Except β α)} {refs : Nat → List R}

/-- A loop owes what its indices owe. -/
theorem each_owes (refs : Nat → List R) (owes : ∀ i a, (body i a).Owes (refs i)) (n start : Nat)
    (a : α) : (each body n start a).Owes ((List.range' start n).flatMap refs) := by
  induction n generalizing start a with
  | zero => exact (pure_settles _).owes
  | succ n inductionHypothesis =>
    rw [List.range'_succ, List.flatMap_cons]
    apply bind_owes (owes start a)
    intro result
    cases result with
    | error b =>
      intro x
      exact Nat.zero_le _
    | ok a' => exact inductionHypothesis (start + 1) a'

/-- A loop gives back no more than it takes if each round does. -/
theorem each_owes_nothing (owes : ∀ i a, (body i a).Owes []) (n start : Nat) (a : α) :
    (each body n start a).Owes [] := by
  have whole := each_owes (fun _ => []) owes n start a
  rwa [List.flatMap_eq_nil_iff.mpr fun _ _ => rfl] at whole

/-- A loop that runs to its end settles what its indices settle. -/
theorem each_settles {n start : Nat} {a after : α}
    (settles : ∀ i, start ≤ i → i < start + n → Passed body start i →
      ∀ a a', (body i a).ending = .returns (.ok a') → (body i a).Settles (refs i))
    (returned : (each body n start a).ending = .returns (.ok after)) :
    (each body n start a).Settles ((List.range' start n).flatMap refs) := by
  induction n generalizing start a with
  | zero => exact pure_settles _
  | succ n inductionHypothesis =>
    obtain ⟨result, here, later⟩ := bind_ending.mp returned
    cases result with
    | error b => simp at later
    | ok a' =>
      rw [List.range'_succ, List.flatMap_cons]
      have first := settles start (Nat.le_refl _) (by omega) (fun j _ _ => by omega) a a' here
      refine bind_settles here first (inductionHypothesis ?_ later)
      exact fun i above below passed => settles i (by omega) (by omega) (passed.step here)

/-- A loop without debts that returns, stopped or not, settles what its indices take. -/
theorem each_settles_early {n start : Nat} {a : α} {result : Except β α}
    (settles : ∀ i, start ≤ i → i < start + n → Passed body start i →
      ∀ a result, (body i a).ending = .returns result → (body i a).Settles [])
    (returned : (each body n start a).ending = .returns result) :
    (each body n start a).Settles [] := by
  induction n generalizing start a with
  | zero => exact pure_settles _
  | succ n inductionHypothesis =>
    obtain ⟨middle, here, later⟩ := bind_ending.mp returned
    have first := settles start (Nat.le_refl _) (by omega) (fun j _ _ => by omega) a middle here
    cases middle with
    | error b => exact bind_settles here first (pure_settles _)
    | ok a' =>
      refine bind_settles here first (inductionHypothesis ?_ later)
      exact fun i above below passed => settles i (by omega) (by omega) (passed.step here)

/-- A loop that gets to an index leaves what that index leaves. -/
theorem each_leaves (refs : Nat → List R) {n start i : Nat} {a : α} (above : start ≤ i) (below : i < start + n)
    (passes : ∀ j, start ≤ j → j < i → ∀ a, ∃ a', (body j a).ending = .returns (.ok a'))
    (owes : ∀ i a, (body i a).Owes (refs i)) (leaves : ∀ a, (body i a).Leaves (refs i)) :
    (each body n start a).Leaves ((List.range' start n).flatMap refs) := by
  induction n generalizing start a with
  | zero => omega
  | succ n inductionHypothesis =>
    rw [List.range'_succ, List.flatMap_cons]
    by_cases same : i = start
    · subst same
      apply bind_leaves (leaves a)
      intro result
      cases result with
      | error b =>
        intro x
        exact Nat.zero_le _
      | ok a' => exact each_owes refs owes n (i + 1) a'
    · obtain ⟨a', here⟩ := passes start (Nat.le_refl _) (by omega) a
      have later := inductionHypothesis (a := a') (show start + 1 ≤ i by omega) (by omega)
        fun j from_next before => passes j (by omega) before
      rw [each, bind_returns here]
      exact after_leaves (owes start a) later

end loopDebts

end debts

/-! ## References after they were given back -/

/-- Nothing touches a reference after it was given back. -/
def Orderly (trace : List (Event R)) : Prop :=
  trace.Pairwise fun early late => ∀ x, early = .give x → late.subject ≠ x

/-- A use after giving back is out of order. -/
theorem not_orderly {trace : List (Event R)} {x : R}
    (used : [.give x, .use x].Sublist trace) : ¬ Orderly trace := by
  intro orderly
  have pair := orderly.sublist used
  exact (List.pairwise_pair.mp pair) x rfl rfl

/-- Two orderly traces join when the second is not about what the first gave back. -/
theorem orderly_append {before after : List (Event R)} (first : Orderly before)
    (second : Orderly after)
    (apart : ∀ x, .give x ∈ before → ∀ e ∈ after, e.subject ≠ x) : Orderly (before ++ after) := by
  refine List.pairwise_append.mpr ⟨first, second, ?_⟩
  intro early listed late following x gave
  subst gave
  exact apart x listed late following

/-- Events that give nothing back can stand before any orderly trace. -/
theorem orderly_before {before after : List (Event R)} (gives : ∀ x, .give x ∉ before)
    (orderly : Orderly after) : Orderly (before ++ after) := by
  have first : Orderly before := by
    apply List.pairwise_iff_forall_sublist.mpr
    intro early late pair x gave
    subst gave
    exact absurd (pair.subset List.mem_cons_self) (gives x)
  exact orderly_append first orderly fun x listed => absurd listed (gives x)

/-- One computation after another is in order if both are and the second does not touch what the
first gave back. -/
theorem bind_orderly {first : Traced R α} {next : α → Traced R β} (orderly : Orderly first.trace)
    (later : ∀ a, first.ending = .returns a → Orderly (next a).trace ∧
      ∀ x, .give x ∈ first.trace → ∀ e ∈ (next a).trace, e.subject ≠ x) :
    Orderly (first >>= next).trace := by
  rcases bind_cases first next with ⟨a, returned, joined⟩ | stopped
  · rw [joined]
    exact orderly_append orderly (later a returned).1 (later a returned).2
  · rwa [stopped]

/-- Ending a computation with a result adds no event. -/
theorem then_orderly {first : Traced R α} {next : α → Traced R β}
    (orderly : Orderly first.trace) (silent : ∀ a, (next a).trace = []) :
    Orderly (first >>= next).trace := by
  refine bind_orderly orderly fun a _ => ?_
  rw [silent a]
  exact ⟨List.Pairwise.nil, fun _ _ e listed => absurd listed List.not_mem_nil⟩

/-- A body that does not itself give a reference back may have it held around it. -/
theorem held_orderly {ref : Option R} {trace : List (Event R)} (orderly : Orderly trace)
    (kept : ∀ x ∈ ref, .give x ∉ trace) :
    Orderly (ref.toList.map .take ++ trace ++ ref.toList.map .give) := by
  cases ref with
  | none => simpa using orderly
  | some y =>
    rw [List.append_assoc]
    refine orderly_before (by simp) (orderly_append orderly (by simp [Orderly]) ?_)
    intro x listed e last
    obtain rfl : e = .give y := by simpa using last
    rintro rfl
    exact kept y rfl listed

/-- A held reference is not given back by the body. -/
theorem holding_orderly {ref : Option R} {body : Traced R α} (orderly : Orderly body.trace)
    (kept : ∀ x ∈ ref, .give x ∉ body.trace) : Orderly (holding ref body).trace := by
  have whole := held_orderly orderly kept
  rw [holding_eq]
  refine whole.sublist ?_
  cases body.ending <;> simp

/-- A reference given back by a deferred call is not given back by the body. -/
theorem holdingDeferred_orderly {ref : Option R} {body : Traced R α} (orderly : Orderly body.trace)
    (kept : ∀ x ∈ ref, .give x ∉ body.trace) : Orderly (holdingDeferred ref body).trace := by
  have whole := held_orderly orderly kept
  refine whole.sublist ?_
  simp only [holdingDeferred]
  cases body.ending <;> simp

/-- An event of a held body is one of the body, or is about the held reference. -/
theorem mem_holding {ref : Option R} {body : Traced R α} {e : Event R}
    (listed : e ∈ (holding ref body).trace) : e ∈ body.trace ∨ ∃ x ∈ ref, e = .take x ∨ e = .give x := by
  rw [holding_eq] at listed
  cases ref with
  | none => cases shape : body.ending <;> simp_all
  | some y => cases shape : body.ending <;> simp_all <;> tauto

/-- The events of a wrapped computation are those of its body and those of the reference. -/
theorem mem_holdingDeferred {ref : Option R} {body : Traced R α} {e : Event R}
    (listed : e ∈ (holdingDeferred ref body).trace) :
    e ∈ body.trace ∨ ∃ x ∈ ref, e = .take x ∨ e = .give x := by
  simp only [holdingDeferred] at listed
  cases ref with
  | none => cases shape : body.ending <;> simp_all
  | some y => cases shape : body.ending <;> simp_all <;> tauto

/-- Every event of a sequence is one of its parts. -/
theorem mem_bind {first : Traced R α} {next : α → Traced R β} {e : Event R}
    (listed : e ∈ (first >>= next).trace) :
    e ∈ first.trace ∨ ∃ a, first.ending = .returns a ∧ e ∈ (next a).trace := by
  rcases bind_cases first next with ⟨a, returned, joined⟩ | stopped
  · rw [joined] at listed
    rcases List.mem_append.mp listed with early | late
    · exact Or.inl early
    · exact Or.inr ⟨a, returned, late⟩
  · rw [stopped] at listed
    exact Or.inl listed

/-- The trace of the first computation is a part of the whole. -/
theorem bind_sublist (first : Traced R α) (next : α → Traced R β) :
    first.trace.Sublist (first >>= next).trace := by
  rcases bind_cases first next with ⟨a, -, joined⟩ | stopped
  · rw [joined]
    exact List.sublist_append_left _ _
  · rw [stopped]

/-- The trace of the body is a part of the whole. -/
theorem holding_sublist (ref : Option R) (body : Traced R α) :
    body.trace.Sublist (holding ref body).trace := by
  rw [holding_eq]
  exact (List.sublist_append_right _ _).trans (List.sublist_append_left _ _)

/-- The trace of the body is a part of the whole, also with a deferred call. -/
theorem holdingDeferred_sublist (ref : Option R) (body : Traced R α) :
    body.trace.Sublist (holdingDeferred ref body).trace :=
  (List.sublist_append_right _ _).trans (List.sublist_append_left _ _)

/-- Events of an index that the loop gets to are events of the loop. -/
theorem each_sublist {body : Nat → α → Traced R (Except β α)} {n start i : Nat} {a : α}
    {events : List (Event R)} (above : start ≤ i) (below : i < start + n)
    (passes : ∀ j, start ≤ j → j < i → ∀ a, ∃ a', (body j a).ending = .returns (.ok a'))
    (inside : ∀ a, events.Sublist (body i a).trace) :
    events.Sublist (each body n start a).trace := by
  refine each_from (motive := fun m => events.Sublist m.trace) above below passes ?_ ?_
  · intro a
    rw [show start + n - i = (start + n - i - 1) + 1 by omega, each]
    exact (inside a).trans (bind_sublist _ _)
  · intro j _ _ a a' rest _ later
    exact later.trans (List.sublist_append_right _ _)

/-- Every event of a loop is one of some index. -/
theorem mem_each {body : Nat → α → Traced R (Except β α)} {n start : Nat} {a : α} {e : Event R}
    (listed : e ∈ (each body n start a).trace) :
    ∃ i a, start ≤ i ∧ i < start + n ∧ e ∈ (body i a).trace := by
  induction n generalizing start a with
  | zero => simp [each] at listed
  | succ n inductionHypothesis =>
    rcases mem_bind listed with here | ⟨result, -, later⟩
    · exact ⟨start, a, Nat.le_refl _, by omega, here⟩
    · cases result with
      | error b => simp at later
      | ok a' =>
        obtain ⟨i, at_i, above, below, inside⟩ := inductionHypothesis later
        exact ⟨i, at_i, by omega, by omega, inside⟩

/-- A loop is orderly when each index it gets to is, and no later index is about a
reference that an earlier one gave back. -/
theorem each_orderly {body : Nat → α → Traced R (Except β α)} {n start : Nat} {a : α}
    (orderly : ∀ i, start ≤ i → i < start + n → Passed body start i → ∀ a, Orderly (body i a).trace)
    (apart : ∀ i j, i < j → ∀ a a' x, .give x ∈ (body i a).trace →
      ∀ e ∈ (body j a').trace, e.subject ≠ x) :
    Orderly (each body n start a).trace := by
  induction n generalizing start a with
  | zero => exact List.Pairwise.nil
  | succ n inductionHypothesis =>
    refine bind_orderly (orderly start (Nat.le_refl _) (by omega) (fun j _ _ => by omega) a) ?_
    intro result here
    cases result with
    | error b => exact ⟨List.Pairwise.nil, fun _ _ e listed => absurd listed List.not_mem_nil⟩
    | ok a' =>
      refine ⟨inductionHypothesis ?_, ?_⟩
      · exact fun i above below passed => orderly i (by omega) (by omega) (passed.step here)
      · intro x gave e listed
        obtain ⟨j, at_j, above, -, inside⟩ := mem_each listed
        exact apart start j (by omega) a at_j x gave e inside

/-! ## Both together -/

section tidy

variable [DecidableEq R]

/-- Nothing is touched after it was given back, and a computation that has returned
gave back everything it took. -/
def Tidy (m : Traced R α) : Prop :=
  Orderly m.trace ∧ ∀ a, m.ending = .returns a → m.Settles []

/-- A tidy first part that returns decides nothing about what follows, if that does
not touch what the first part gave back. -/
theorem tidy_after {first : Traced R α} {next : α → Traced R β} {a : α}
    (returned : first.ending = .returns a) (orderly : Orderly first.trace)
    (settles : first.Settles [])
    (apart : ∀ x, .give x ∈ first.trace → ∀ e ∈ (next a).trace, e.subject ≠ x) :
    (first >>= next).Tidy ↔ (next a).Tidy := by
  have counts : ∀ x, (first >>= next).given x = first.given x + (next a).given x ∧
      (first >>= next).taken x = first.taken x + (next a).taken x := by
    intro x
    rw [bind_returns returned]
    obtain ⟨takes, gives⟩ := after_counts (next a).ending first.trace (next a).trace x
    exact ⟨gives, takes⟩
  constructor
  · rintro ⟨order, settled⟩
    rw [bind_returns returned] at order
    refine ⟨order.sublist (List.sublist_append_right _ _), ?_⟩
    intro b ended x
    have whole := settled b (by rw [bind_returns returned]; exact ended) x
    have start := settles x
    have sums := counts x
    simp only [List.count_nil] at whole start ⊢
    omega
  · rintro ⟨order, settled⟩
    constructor
    · rw [bind_returns returned]
      exact orderly_append orderly order apart
    · intro b ended
      rw [bind_returns returned] at ended
      exact bind_settles returned settles (settled b ended)

/-- Uses in front change nothing about the rest. -/
theorem used_tidy (refs : List R) (next : Unit → Traced R β) :
    (log (refs.map .use) >>= next).Tidy ↔ (next ()).Tidy := by
  have none_given : ∀ x, Event.give x ∉ refs.map .use := by simp
  refine tidy_after rfl ?_ ?_ ?_
  · have order := orderly_before none_given (List.Pairwise.nil : Orderly [])
    rwa [List.append_nil] at order
  · have settled := (used_carries refs [] (pure () : Traced R Unit)).settles (pure_settles ())
    rwa [pure_trace, List.append_nil] at settled
  · exact fun x gave => absurd gave (none_given x)

/-- What follows without any event decides nothing about the first part. -/
theorem tidy_silent {first : Traced R α} {next : α → Traced R β}
    (silent : ∀ a, (next a).trace = [] ∧ ∃ b, (next a).ending = .returns b) :
    (first >>= next).Tidy ↔ first.Tidy := by
  have same : (first >>= next).trace = first.trace := by
    rcases bind_cases first next with ⟨a, -, joined⟩ | stopped
    · rw [joined, (silent a).1, List.append_nil]
    · exact stopped
  constructor
  · rintro ⟨order, settled⟩
    refine ⟨same ▸ order, ?_⟩
    intro a ended x
    obtain ⟨b, returned⟩ := (silent a).2
    have whole := settled b (bind_ending.mpr ⟨a, ended, returned⟩) x
    simpa only [taken, given, same] using whole
  · rintro ⟨order, settled⟩
    refine ⟨same.symm ▸ order, ?_⟩
    intro b ended x
    obtain ⟨a, returned, -⟩ := bind_ending.mp ended
    have whole := settled a returned x
    simpa only [taken, given, same] using whole

/-- Holding a reference around a body that does not give it back decides nothing. -/
theorem tidy_wraps {m body : Traced R α} {ref : Option R} (wraps : m.Wraps ref body)
    (ending : m.ending = body.ending) (inside : body.trace.Sublist m.trace)
    (orderly : Orderly body.trace → Orderly m.trace) : m.Tidy ↔ body.Tidy := by
  constructor
  · rintro ⟨order, settled⟩
    refine ⟨order.sublist inside, ?_⟩
    intro a ended x
    have whole := settled a (ending.trans ended) x
    obtain ⟨takes, gives | ⟨-, unreturned⟩⟩ := wraps x
    · omega
    · exact absurd ended (unreturned a)
  · rintro ⟨order, settled⟩
    refine ⟨orderly order, ?_⟩
    intro a ended
    have returned : body.ending = .returns a := ending.symm.trans ended
    exact wraps.settles returned (settled a returned)

/-- A held reference is tidy if the body is and does not give it back. -/
theorem holding_tidy {ref : Option R} {body : Traced R α} (kept : ∀ x ∈ ref, .give x ∉ body.trace) :
    (holding ref body).Tidy ↔ body.Tidy :=
  tidy_wraps (holding_wraps ref body) (holding_ending ref body) (holding_sublist ref body)
    fun order => holding_orderly order kept

/-- A deferred call is tidy if the body is and does not give the reference back. -/
theorem holdingDeferred_tidy {ref : Option R} {body : Traced R α}
    (kept : ∀ x ∈ ref, .give x ∉ body.trace) : (holdingDeferred ref body).Tidy ↔ body.Tidy :=
  tidy_wraps (holdingDeferred_wraps ref body) rfl (holdingDeferred_sublist ref body)
    fun order => holdingDeferred_orderly order kept

end tidy

end Traced

end Tracing
