import Mathlib.Logic.Function.Basic
import Mathlib.Logic.Relation
import Mathlib.Order.Basic

/-!
# Locks taken in an order

Threads run lists of statements: locks are taken and released, and other statements run
in between, during which more statements may be put in front. A lock is not reentrant.
The releases that are still in a list tell what its thread holds.

When each lock is of a higher level than all that its thread holds, a thread that is
waited for waits itself for locks of a higher level only, so that no threads wait in a
circle. Other statements have a ceiling: what is held while they run lies below it.
-/

namespace LockOrder

/-- A statement. -/
inductive Instr (M A : Type) where
  | lock (m : M) : Instr M A
  | unlock (m : M) : Instr M A
  | run (a : A) : Instr M A
deriving DecidableEq

variable {T M A L : Type}

/-- What a thread with these statements left holds, last taken first: what it will
release, but for what it has still to take. -/
def holds : List (Instr M A) → List M
  | [] => []
  | .lock _ :: rest => (holds rest).tail
  | .unlock m :: rest => m :: holds rest
  | .run _ :: rest => holds rest

/-- Who holds each lock, and the statements left to each thread. -/
structure State (T M A : Type) where
  owner : M → Option T
  code : T → List (Instr M A)

namespace State

/-- The thread stands at a lock that the other one holds. -/
def WaitsFor (s : State T M A) (t u : T) : Prop :=
  ∃ m rest, s.code t = .lock m :: rest ∧ s.owner m = some u

/-- Some threads wait for each other in a circle, or one waits for itself. -/
def CyclicWait (s : State T M A) : Prop := ∃ t, Relation.TransGen s.WaitsFor t t

variable [DecidableEq T] [DecidableEq M]

/-- The thread takes its first statement, when that is possible. -/
def execute (s : State T M A) (t : T) : Option (State T M A) :=
  match s.code t with
  | [] => none
  | .lock m :: rest =>
    if (s.owner m).isNone then
      some ⟨Function.update s.owner m (some t), Function.update s.code t rest⟩
    else none
  | .unlock m :: rest => some ⟨Function.update s.owner m none, Function.update s.code t rest⟩
  | .run _ :: rest => some { s with code := Function.update s.code t rest }

/-- Statements are put in front of those left to the thread. -/
def push (s : State T M A) (t : T) (more : List (Instr M A)) : State T M A :=
  { s with code := Function.update s.code t (more ++ s.code t) }

end State

/-- A critical section. -/
def within (m : M) (body : List (Instr M A)) : List (Instr M A) := .lock m :: (body ++ [.unlock m])

variable [Preorder L] (level : M → L) (ceiling : A → L)

/-- Locks are taken in the order of their levels, and below the ceiling of each statement
that runs meanwhile. -/
def Ordered : List (Instr M A) → Prop
  | [] => True
  | .lock m :: rest => (holds rest).head? = some m ∧ Ordered rest
  | .unlock m :: rest => (∀ other ∈ holds rest, level other < level m) ∧ Ordered rest
  | .run a :: rest => (∀ m ∈ holds rest, level m < ceiling a) ∧ Ordered rest

/-- Statements fit in front of others: the order is kept, and what they take they
release. -/
structure Fits (more rest : List (Instr M A)) : Prop where
  ordered : Ordered level ceiling (more ++ rest)
  balanced : holds (more ++ rest) = holds rest

/-- The invariant: the statements of each thread keep the order, and the thread owns what
they will release. -/
structure Sound (s : State T M A) : Prop where
  ordered : ∀ t, Ordered level ceiling (s.code t)
  owned : ∀ t m, s.owner m = some t ↔ m ∈ holds (s.code t)

variable {level} {ceiling} {s : State T M A} {t u : T} {m : M} {code rest : List (Instr M A)}

/-- What is held was taken in the order of the levels. -/
theorem Ordered.sorted (ordered : Ordered level ceiling code) :
    (holds code).Pairwise fun later earlier => level earlier < level later := by
  induction code with
  | nil => exact List.Pairwise.nil
  | cons instr rest inductionHypothesis =>
    cases instr with
    | lock m => exact (inductionHypothesis ordered.2).tail
    | unlock m => exact List.pairwise_cons.mpr ⟨ordered.1, inductionHypothesis ordered.2⟩
    | run a => exact inductionHypothesis ordered.2

/-- What a thread will hold after it has taken a lock. -/
theorem Ordered.taken (ordered : Ordered level ceiling (.lock m :: rest)) :
    holds rest = m :: holds (.lock m :: rest : List (Instr M A)) := by
  obtain ⟨first, _⟩ := ordered
  cases held : holds rest with
  | nil => simp [held] at first
  | cons other more =>
    obtain rfl : other = m := by simpa [held] using first
    simp [holds, held]

/-- A thread holds nothing of the level of the lock it stands at, or above. -/
theorem Ordered.below (ordered : Ordered level ceiling (.lock m :: rest)) :
    ∀ other ∈ holds (.lock m :: rest : List (Instr M A)), level other < level m := by
  have sorted := ordered.2.sorted
  rw [ordered.taken] at sorted
  exact fun other held => List.rel_of_pairwise_cons sorted held

/-! ## Putting statements together -/

theorem Fits.nil (ordered : Ordered level ceiling rest) : Fits level ceiling [] rest := ⟨ordered, rfl⟩

theorem Fits.append {more next : List (Instr M A)} (first : Fits level ceiling more (next ++ rest))
    (second : Fits level ceiling next rest) : Fits level ceiling (more ++ next) rest := by
  constructor
  · rw [List.append_assoc]
    exact first.ordered
  · rw [List.append_assoc, first.balanced, second.balanced]

theorem Fits.run {a : A} (below : ∀ m ∈ holds rest, level m < ceiling a)
    (ordered : Ordered level ceiling rest) : Fits level ceiling [.run a] rest :=
  ⟨⟨below, ordered⟩, rfl⟩

/-- A section fits where its lock is above all that is held, and its body fits inside. -/
theorem Fits.within {body : List (Instr M A)} (above : ∀ other ∈ holds rest, level other < level m)
    (ordered : Ordered level ceiling rest)
    (inside : Ordered level ceiling (.unlock m :: rest) → Fits level ceiling body (.unlock m :: rest)) :
    Fits level ceiling (within m body) rest := by
  have fits := inside ⟨above, ordered⟩
  have same : LockOrder.within m body ++ rest = .lock m :: (body ++ .unlock m :: rest) := by
    simp [LockOrder.within]
  have held : holds (body ++ .unlock m :: rest) = m :: holds rest := fits.balanced
  constructor
  · rw [same]
    exact ⟨by rw [held, List.head?_cons], fits.ordered⟩
  · rw [same, holds, held, List.tail_cons]

/-! ## No circle -/

/-- A thread that is waited for holds a lock, and what it waits for is above that lock. -/
theorem Sound.waits_above (sound : Sound level ceiling s) {other : M} {more : List (Instr M A)}
    (owner : s.owner m = some u) (next : s.code u = .lock other :: more) :
    level m < level other := by
  have ordered := sound.ordered u
  rw [next] at ordered
  have held := (sound.owned u m).mp owner
  rw [next] at held
  exact ordered.below m held

/-- Along a chain of waiting threads the levels of the locks rise.

Proof: induction along the chain. Each thread that is waited for holds the lock that the
one before it wants, and wants a lock above all that it holds. -/
theorem Sound.chain_rises (sound : Sound level ceiling s)
    (chain : Relation.TransGen s.WaitsFor t u) (here : s.code t = .lock m :: rest) {other : M}
    {more : List (Instr M A)} (there : s.code u = .lock other :: more) : level m < level other := by
  induction chain generalizing other more with
  | single waits =>
    obtain ⟨wanted, _, stands, owner⟩ := waits
    rw [here] at stands
    obtain ⟨rfl, rfl⟩ := by simpa using stands
    exact sound.waits_above owner there
  | tail _ waits inductionHypothesis =>
    obtain ⟨wanted, _, stands, owner⟩ := waits
    exact lt_trans (inductionHypothesis stands) (sound.waits_above owner there)

/-- No threads wait in a circle. -/
theorem Sound.no_cyclicWait (sound : Sound level ceiling s) : ¬ s.CyclicWait := by
  rintro ⟨t, cycle⟩
  obtain ⟨_, ⟨m, rest, stands, _⟩, _⟩ := Relation.TransGen.head'_iff.mp cycle
  exact lt_irrefl _ (sound.chain_rises cycle stands stands)

variable [DecidableEq T]

/-- The statements of one thread are replaced, and it owns what they will release. -/
theorem Sound.replace (sound : Sound level ceiling s) {owner : M → Option T}
    (ordered : Ordered level ceiling code) (here : ∀ m, owner m = some t ↔ m ∈ holds code)
    (others : ∀ u m, u ≠ t → (owner m = some u ↔ s.owner m = some u)) :
    Sound level ceiling ⟨owner, Function.update s.code t code⟩ := by
  constructor
  · intro u
    by_cases same : u = t
    · subst same
      simpa using ordered
    · simpa [Function.update_of_ne same] using sound.ordered u
  · intro u m
    by_cases same : u = t
    · subst same
      simpa using here m
    · simpa [Function.update_of_ne same] using (others u m same).trans (sound.owned u m)

/-- Taking a statement keeps the invariant. -/
theorem Sound.execute [DecidableEq M] (sound : Sound level ceiling s) {s' : State T M A}
    (taken : s.execute t = some s') : Sound level ceiling s' := by
  have ordered := sound.ordered t
  have owned := sound.owned t
  simp only [State.execute] at taken
  split at taken
  · cases taken
  · rename_i m rest next
    rw [next] at ordered
    simp only [next] at owned
    simp only [Option.ite_none_right_eq_some, Option.some.injEq, Option.isNone_iff_eq_none] at taken
    obtain ⟨free, rfl⟩ := taken
    apply sound.replace ordered.2
    · intro other
      by_cases same : other = m
      · subst same
        simp [ordered.taken]
      · rw [Function.update_of_ne same, owned, ordered.taken]
        simp [same]
    · intro u other different
      by_cases same : other = m
      · subst same
        simp [free, different.symm]
      · rw [Function.update_of_ne same]
  · rename_i m rest next
    rw [next] at ordered
    simp only [next] at owned
    obtain rfl := Option.some.inj taken
    have mine : s.owner m = some t := (owned m).mpr List.mem_cons_self
    apply sound.replace ordered.2
    · intro other
      by_cases same : other = m
      · subst same
        simp only [Function.update_self, reduceCtorEq, false_iff]
        exact fun again => lt_irrefl _ (ordered.1 other again)
      · rw [Function.update_of_ne same, owned]
        simp [holds, same]
    · intro u other different
      by_cases same : other = m
      · subst same
        simp [mine, different.symm]
      · rw [Function.update_of_ne same]
  · rename_i a rest next
    rw [next] at ordered
    simp only [next] at owned
    obtain rfl := Option.some.inj taken
    exact sound.replace ordered.2 owned fun _ _ _ => Iff.rfl

/-- Statements that fit may be put in front of those left to a thread. -/
theorem Sound.push (sound : Sound level ceiling s) {more : List (Instr M A)}
    (fits : Fits level ceiling more (s.code t)) : Sound level ceiling (s.push t more) :=
  sound.replace fits.ordered (fun m => by rw [fits.balanced, sound.owned t m])
    fun _ _ _ => Iff.rfl

end LockOrder
