import Mathlib.Data.List.Induction

/-!
# Runs of a partial step function

A machine is a function that takes a state and an action to the next state, or to
nothing when the action is not possible there or does not return. A run applies a
finite list of actions in order. Properties of every reached state follow from
what one step preserves; a property may also speak about the actions taken so
far, or hold only as long as each step meets a condition on the state before it,
or about every state that the run passes through. Whether a given list of actions
is allowed can be decided if the condition can.
-/

namespace Runs

variable {S A : Type} (step : S → A → Option S)

/-- The state after a list of actions, when each of them was possible. -/
def run (start : S) : List A → Option S
  | [] => some start
  | action :: rest => (step start action).bind fun next => run next rest

/-- Each action of the list is taken in a state that meets the condition. -/
def Allowed (condition : S → A → Prop) (start : S) (actions : List A) : Prop :=
  ∀ before action after, actions = before ++ action :: after →
    ∀ state, run step start before = some state → condition state action

variable {step} {start state : S} {actions more : List A}

/-- A run over two lists passes through the state between them. -/
theorem run_append : run step start (actions ++ more) =
    (run step start actions).bind fun middle => run step middle more := by
  induction actions generalizing start with
  | nil => rfl
  | cons action rest inductionHypothesis =>
    simp only [List.cons_append, run]
    cases taken : step start action with
    | none => rfl
    | some next => simpa using inductionHypothesis

/-- The last action of a run is a step from the state the earlier ones reach. -/
theorem run_snoc {action : A} : run step start (actions ++ [action]) = some state ↔
    ∃ before, run step start actions = some before ∧ step before action = some state := by
  rw [run_append, Option.bind_eq_some_iff]
  simp only [run, Option.bind_fun_some]

/-- The two halves of a completed run. -/
theorem run_split : run step start (actions ++ more) = some state ↔
    ∃ middle, run step start actions = some middle ∧ run step middle more = some state := by
  rw [run_append, Option.bind_eq_some_iff]

variable {condition : S → A → Prop}

/-- Earlier actions of an allowed list are allowed. -/
theorem Allowed.earlier (allowed : Allowed step condition start (actions ++ more)) :
    Allowed step condition start actions := by
  intro before action after split middle reached
  exact allowed before action (after ++ more) (by simp [split]) middle reached

/-- Later actions of an allowed list are allowed from the state that the earlier ones
reach. -/
theorem Allowed.later (allowed : Allowed step condition start (actions ++ more))
    (reached : run step start actions = some state) : Allowed step condition state more := by
  intro before action after split middle onward
  apply allowed (actions ++ before) action after (by rw [split, List.append_assoc]) middle
  rw [run_append, reached]
  exact onward

/-- The last action of an allowed list meets the condition where it is taken. -/
theorem Allowed.last {action : A} (allowed : Allowed step condition start (actions ++ [action]))
    (reached : run step start actions = some state) : condition state action :=
  allowed actions action [] rfl state reached

/-- What is allowed under a condition is allowed under a weaker one. -/
theorem Allowed.mono {other : S → A → Prop} (weaker : ∀ s a, condition s a → other s a)
    (allowed : Allowed step condition start actions) : Allowed step other start actions :=
  fun before action after split middle reached =>
    weaker middle action (allowed before action after split middle reached)

/-- No action is allowed under every condition. -/
theorem Allowed.nil : Allowed step condition start [] := by
  intro before action after split
  simp at split

/-- An action that meets the condition, followed by actions allowed from the state
after it. -/
theorem Allowed.cons {action : A} {next : S} (met : condition start action)
    (taken : step start action = some next) (rest : Allowed step condition next actions) :
    Allowed step condition start (action :: actions) := by
  intro before last after split state reached
  cases before with
  | nil =>
    obtain ⟨rfl, rfl⟩ := List.cons.inj split
    obtain rfl : start = state := Option.some.inj reached
    exact met
  | cons first before =>
    obtain ⟨rfl, rfl⟩ := List.cons.inj split
    simp only [run, taken, Option.bind_some] at reached
    exact rest before last after rfl state reached

/-- A list of actions is allowed if the first one is, and the others after it. -/
theorem allowed_cons {action : A} : Allowed step condition start (action :: actions) ↔
    condition start action ∧
      ∀ next ∈ step start action, Allowed step condition next actions := by
  constructor
  · intro allowed
    refine ⟨allowed [] action actions rfl start rfl, fun next taken => ?_⟩
    have whole : Allowed step condition start ([action] ++ actions) := allowed
    exact whole.later (by rw [run, taken]; rfl)
  · rintro ⟨met, rest⟩ before last after split state reached
    cases before with
    | nil =>
      obtain ⟨rfl, rfl⟩ := List.cons.inj split
      obtain rfl : start = state := Option.some.inj reached
      exact met
    | cons first before =>
      obtain ⟨rfl, rfl⟩ := List.cons.inj split
      obtain ⟨next, taken, onward⟩ := Option.bind_eq_some_iff.mp reached
      exact rest next taken before last after rfl state onward

instance decidableAllowed [∀ state action, Decidable (condition state action)] (start : S) :
    (actions : List A) → Decidable (Allowed step condition start actions)
  | [] => .isTrue .nil
  | action :: actions =>
    have (next : S) : Decidable (Allowed step condition next actions) :=
      decidableAllowed next actions
    decidable_of_iff
      (condition start action ∧ ∀ next ∈ step start action, Allowed step condition next actions)
      allowed_cons.symm

/-- The states that a list of actions passes through, from the first to the last, have a
property. -/
def Along (step : S → A → Option S) (property : S → Prop) (start : S) (actions : List A) : Prop :=
  ∀ before after, actions = before ++ after →
    ∀ state, run step start before = some state → property state

variable {property : S → Prop}

/-- The states along the earlier actions are among those along all of them. -/
theorem Along.earlier (along : Along step property start (actions ++ more)) :
    Along step property start actions := by
  intro before after split state reached
  exact along before (after ++ more) (by simp [split]) state reached

/-- The last state is one of those along the actions. -/
theorem Along.last (along : Along step property start actions)
    (reached : run step start actions = some state) : property state :=
  along actions [] (by simp) state reached

/-- The states along a list of actions are the first one, and those after the first action. -/
theorem along_cons {action : A} : Along step property start (action :: actions) ↔
    property start ∧ ∀ next ∈ step start action, Along step property next actions := by
  constructor
  · intro along
    refine ⟨along [] _ rfl start rfl, fun next taken before after split state reached => ?_⟩
    refine along (action :: before) after (by rw [split]; rfl) state ?_
    rw [run, taken]
    exact reached
  · rintro ⟨first, rest⟩ before after split state reached
    cases before with
    | nil =>
      obtain rfl : start = state := Option.some.inj reached
      exact first
    | cons _ before =>
      obtain ⟨rfl, rfl⟩ := List.cons.inj split
      obtain ⟨next, taken, onward⟩ := Option.bind_eq_some_iff.mp reached
      exact rest next taken before after rfl state onward

theorem along_nil : Along step property start [] ↔ property start := by
  constructor
  · intro along
    exact along.last rfl
  · intro holds before after split state reached
    obtain ⟨rfl, _⟩ := List.append_eq_nil_iff.mp split.symm
    obtain rfl : start = state := Option.some.inj reached
    exact holds

instance decidableAlong [DecidablePred property] (start : S) :
    (actions : List A) → Decidable (Along step property start actions)
  | [] => decidable_of_iff _ along_nil.symm
  | action :: actions =>
    have (next : S) : Decidable (Along step property next actions) :=
      decidableAlong next actions
    decidable_of_iff
      (property start ∧ ∀ next ∈ step start action, Along step property next actions)
      along_cons.symm

/-- Induction along an allowed run, with the actions taken so far at hand.

Proof: reverse induction on the list of actions; the last action splits off with
the state before it, and the condition is met there. -/
theorem allowed_induction {motive : List A → S → Prop} (initial : motive [] start)
    (preserved : ∀ actions action state next, run step start actions = some state →
      motive actions state → condition state action → step state action = some next →
      motive (actions ++ [action]) next)
    (allowed : Allowed step condition start actions)
    (reached : run step start actions = some state) : motive actions state := by
  induction actions using List.reverseRecOn generalizing state with
  | nil =>
    obtain rfl : start = state := Option.some.inj reached
    exact initial
  | append_singleton actions action inductionHypothesis =>
    obtain ⟨before, earlier, taken⟩ := run_snoc.mp reached
    exact preserved actions action before state earlier
      (inductionHypothesis allowed.earlier earlier) (allowed.last earlier) taken

/-- A property of the start that every allowed step keeps holds of each state an
allowed run reaches. -/
theorem allowed_invariant {motive : S → Prop} (initial : motive start)
    (preserved : ∀ state action next, motive state → condition state action →
      step state action = some next → motive next)
    (allowed : Allowed step condition start actions)
    (reached : run step start actions = some state) : motive state :=
  allowed_induction (motive := fun _ => motive) initial
    (fun _ action before next _ holds met taken => preserved before action next holds met taken)
    allowed reached

/-- Every list of actions is allowed under no condition. -/
theorem allowed_always : Allowed step (fun _ _ => True) start actions :=
  fun _ _ _ _ _ _ => trivial

/-- Induction along any run, with the actions taken so far at hand. -/
theorem run_induction {motive : List A → S → Prop} (initial : motive [] start)
    (preserved : ∀ actions action state next, run step start actions = some state →
      motive actions state → step state action = some next → motive (actions ++ [action]) next)
    (reached : run step start actions = some state) : motive actions state :=
  allowed_induction initial
    (fun actions action state next earlier holds _ taken =>
      preserved actions action state next earlier holds taken)
    allowed_always reached

/-- A property of the start that every step keeps holds of each reached state. -/
theorem run_invariant {motive : S → Prop} (initial : motive start)
    (preserved : ∀ state action next, motive state → step state action = some next → motive next)
    (reached : run step start actions = some state) : motive state :=
  allowed_invariant initial
    (fun before action next holds _ taken => preserved before action next holds taken)
    allowed_always reached

/-- Two conditions that agree in every state with the invariant allow the same lists
of actions. -/
theorem allowed_congr {motive : S → Prop} {other : S → A → Prop} (initial : motive start)
    (preserved : ∀ state action next, motive state → step state action = some next → motive next)
    (same : ∀ state action, motive state → (condition state action ↔ other state action)) :
    Allowed step condition start actions ↔ Allowed step other start actions := by
  constructor
  · intro allowed before action after split state reached
    exact (same state action (run_invariant initial preserved reached)).mp
      (allowed before action after split state reached)
  · intro allowed before action after split state reached
    exact (same state action (run_invariant initial preserved reached)).mpr
      (allowed before action after split state reached)

/-- An allowed run never gets stuck when a step that meets the condition is
possible from every state with the invariant. -/
theorem allowed_completes {motive : S → Prop} (initial : motive start)
    (possible : ∀ state action, motive state → condition state action →
      ∃ next, step state action = some next ∧ motive next)
    (allowed : Allowed step condition start actions) :
    ∃ state, run step start actions = some state ∧ motive state := by
  induction actions using List.reverseRecOn with
  | nil => exact ⟨start, rfl, initial⟩
  | append_singleton actions action inductionHypothesis =>
    obtain ⟨before, earlier, holds⟩ := inductionHypothesis allowed.earlier
    obtain ⟨next, taken, kept⟩ := possible before action holds (allowed.last earlier)
    exact ⟨next, run_snoc.mpr ⟨before, earlier, taken⟩, kept⟩

end Runs
