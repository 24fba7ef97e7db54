import Mathlib.Data.List.Basic

/-!
# Computations that own references

A computation takes references, uses them and gives them back. It is recorded as
how it ends, by returning, by panicking or not yet, together with the trace of
these events so far. Computations run in sequence, hold a reference around a body,
and loop over indices with an accumulator until an index stops the loop.
-/

namespace Tracing

/-- What happens to a reference. -/
inductive Event (R : Type) where
  | take : R → Event R
  | use : R → Event R
  | give : R → Event R
deriving DecidableEq

/-- The reference an event is about. -/
def Event.subject {R : Type} : Event R → R
  | .take x | .use x | .give x => x

/-- How far a computation got. -/
inductive Ending (α : Type) where
  | returns : α → Ending α
  | panics : Ending α
  | running : Ending α
deriving DecidableEq

/-- A computation: its ending and the events up to there. -/
structure Traced (R α : Type) where
  ending : Ending α
  trace : List (Event R)

variable {R α β : Type}

namespace Traced

/-- Run one computation after another. -/
def bind (first : Traced R α) (next : α → Traced R β) : Traced R β :=
  match first.ending with
  | .returns a => ⟨(next a).ending, first.trace ++ (next a).trace⟩
  | .panics => ⟨.panics, first.trace⟩
  | .running => ⟨.running, first.trace⟩

instance : Monad (Traced R) where
  pure a := ⟨.returns a, []⟩
  bind := bind

/-- Only events. -/
def log (events : List (Event R)) : Traced R Unit := ⟨.returns (), events⟩

/-- A run-time panic. -/
def panicking : Traced R α := ⟨.panics, []⟩

/-- A computation that was cut off. -/
def unfinished : Traced R α := ⟨.running, []⟩

/-- Hold a reference, if there is one, around a body; it is given back after the
body has returned. -/
def holding (ref : Option R) (body : Traced R α) : Traced R α := do
  log (ref.toList.map .take)
  let a ← body
  log (ref.toList.map .give)
  pure a

/-- Hold a reference around a body and give it back however the body ends. -/
def holdingDeferred (ref : Option R) (body : Traced R α) : Traced R α where
  ending := body.ending
  trace := ref.toList.map .take ++ body.trace ++
    match body.ending with
    | .running => []
    | _ => ref.toList.map .give

/-- A counting loop with an accumulator. The body goes on with a new accumulator or
stops with a result. -/
def each (body : Nat → α → Traced R (Except β α)) : Nat → Nat → α → Traced R (Except β α)
  | 0, _, a => pure (.ok a)
  | todo + 1, i, a => do
    match ← body i a with
    | .error b => pure (.error b)
    | .ok a => each body todo (i + 1) a

/-! ## How computations compose -/

section compose

variable {first : Traced R α} {next : α → Traced R β}

@[simp] theorem pure_ending (a : α) : (pure a : Traced R α).ending = .returns a := rfl

@[simp] theorem pure_trace (a : α) : (pure a : Traced R α).trace = [] := rfl

/-- After a computation that returns the next one runs. -/
theorem bind_returns {a : α} (returned : first.ending = .returns a) :
    first >>= next = ⟨(next a).ending, first.trace ++ (next a).trace⟩ := by
  change bind first next = _
  simp only [bind, returned]

/-- After a panic nothing runs. -/
theorem bind_panics (panicked : first.ending = .panics) :
    first >>= next = ⟨.panics, first.trace⟩ := by
  change bind first next = _
  simp only [bind, panicked]

/-- After a computation that was cut off nothing runs. -/
theorem bind_running (cut : first.ending = .running) :
    first >>= next = ⟨.running, first.trace⟩ := by
  change bind first next = _
  simp only [bind, cut]

/-- A sequence goes on where the first part returned, and else stops with it. -/
theorem bind_cases (first : Traced R α) (next : α → Traced R β) :
    (∃ a, first.ending = .returns a ∧
      first >>= next = ⟨(next a).ending, first.trace ++ (next a).trace⟩) ∨
    (first >>= next).trace = first.trace := by
  cases shape : first.ending with
  | returns a => exact Or.inl ⟨a, rfl, bind_returns shape⟩
  | panics => exact Or.inr (by rw [bind_panics shape])
  | running => exact Or.inr (by rw [bind_running shape])

/-- A sequence returns when both parts do. -/
theorem bind_ending {b : β} : (first >>= next).ending = .returns b ↔
    ∃ a, first.ending = .returns a ∧ (next a).ending = .returns b := by
  cases shape : first.ending with
  | returns a => simp [bind_returns shape]
  | panics => simp [bind_panics shape]
  | running => simp [bind_running shape]

@[simp] theorem log_trace (events : List (Event R)) : (log events).trace = events := rfl

/-- Events that are logged go in front of the rest. -/
@[simp] theorem log_bind (events : List (Event R)) (rest : Unit → Traced R β) :
    log events >>= rest = ⟨(rest ()).ending, events ++ (rest ()).trace⟩ := rfl

/-- A plain result is handed on. -/
@[simp] theorem pure_then (a : α) : (pure a : Traced R α) >>= next = next a := by
  rw [bind_returns rfl]
  rfl

/-- What holding a reference adds to the trace of the body. -/
theorem holding_eq (ref : Option R) (body : Traced R α) :
    holding ref body = ⟨body.ending, ref.toList.map .take ++ body.trace ++
      match body.ending with
      | .returns _ => ref.toList.map .give
      | _ => []⟩ := by
  cases shape : body.ending with
  | returns a => simp [holding, bind_returns shape]
  | panics => simp [holding, bind_panics shape]
  | running => simp [holding, bind_running shape]

/-- Holding a reference does not change how the body ends. -/
@[simp] theorem holding_ending (ref : Option R) (body : Traced R α) :
    (holding ref body).ending = body.ending := by rw [holding_eq]

/-- Nor does a deferred call. -/
@[simp] theorem holdingDeferred_ending (ref : Option R) (body : Traced R α) :
    (holdingDeferred ref body).ending = body.ending := rfl

end compose

/-! ## Loops -/

section loops

variable {body : Nat → α → Traced R (Except β α)}

/-- The body went on at every index from the start of the loop to before `i`. -/
def Passed (body : Nat → α → Traced R (Except β α)) (start i : Nat) : Prop :=
  ∀ j, start ≤ j → j < i → ∃ a a', (body j a).ending = .returns (.ok a')

/-- A loop that passes a round passes those before a later one. -/
theorem Passed.step {start i : Nat} {a a' : α} (here : (body start a).ending = .returns (.ok a'))
    (passed : Passed body (start + 1) i) : Passed body start i := by
  intro j above below
  by_cases same : j = start
  · subst same
    exact ⟨a, a', here⟩
  · exact passed j (by omega) below

/-- A loop that runs to its end passed every index. -/
theorem each_passed {n start : Nat} {a after : α}
    (returned : (each body n start a).ending = .returns (.ok after)) :
    Passed body start (start + n) := by
  induction n generalizing start a with
  | zero =>
    intro i above below
    omega
  | succ n inductionHypothesis =>
    obtain ⟨result, here, later⟩ := bind_ending.mp returned
    intro i above below
    cases result with
    | error b => simp at later
    | ok a' => exact Passed.step here (inductionHypothesis later) i above (by omega)

/-- A loop that was stopped passed every index up to the one that stopped it. -/
theorem each_stopped {n start : Nat} {a : α} {b : β}
    (returned : (each body n start a).ending = .returns (.error b)) :
    ∃ i, start ≤ i ∧ i < start + n ∧ Passed body start i ∧
      ∃ a, (body i a).ending = .returns (.error b) := by
  induction n generalizing start a with
  | zero => simp [each] at returned
  | succ n inductionHypothesis =>
    obtain ⟨result, here, later⟩ := bind_ending.mp returned
    cases result with
    | error stop =>
      obtain rfl : stop = b := by simpa using later
      exact ⟨start, Nat.le_refl _, by omega, fun j above below => by omega, a, here⟩
    | ok a' =>
      obtain ⟨i, above, below, passed, stopped⟩ := inductionHypothesis later
      exact ⟨i, by omega, by omega, passed.step here, stopped⟩

/-- A loop whose indices all pass runs to its end. -/
theorem each_completes {n start : Nat} {a : α}
    (passes : ∀ i, start ≤ i → i < start + n → ∀ a, ∃ a', (body i a).ending = .returns (.ok a')) :
    ∃ after, (each body n start a).ending = .returns (.ok after) := by
  induction n generalizing start a with
  | zero => exact ⟨a, rfl⟩
  | succ n inductionHypothesis =>
    obtain ⟨a', here⟩ := passes start (Nat.le_refl _) (by omega) a
    have rest : ∀ i, start + 1 ≤ i → i < start + 1 + n →
        ∀ a, ∃ a', (body i a).ending = .returns (.ok a') :=
      fun i above below => passes i (by omega) (by omega)
    obtain ⟨after, later⟩ := inductionHypothesis rest
    exact ⟨after, bind_ending.mpr ⟨.ok a', here, later⟩⟩

/-- What holds of the loop from an index on, for every accumulator there, carries
over to the whole loop when every earlier index passes and adds nothing against it. -/
theorem each_from {motive : Traced R (Except β α) → Prop} {n start i : Nat} {a : α}
    (above : start ≤ i) (below : i < start + n)
    (passes : ∀ j, start ≤ j → j < i → ∀ a, ∃ a', (body j a).ending = .returns (.ok a'))
    (stop : ∀ a, motive (each body (start + n - i) i a))
    (carry : ∀ j, start ≤ j → j < i → ∀ a a' rest, (body j a).ending = .returns (.ok a') →
      motive rest → motive ⟨rest.ending, (body j a).trace ++ rest.trace⟩) :
    motive (each body n start a) := by
  induction n generalizing start a with
  | zero => omega
  | succ n inductionHypothesis =>
    by_cases same : i = start
    · subst same
      have whole := stop a
      rwa [Nat.add_sub_cancel_left] at whole
    · obtain ⟨a', here⟩ := passes start (Nat.le_refl _) (by omega) a
      have later : motive (each body n (start + 1) a') := by
        refine inductionHypothesis (by omega) (by omega) ?_ ?_ ?_
        · exact fun j from_next before => passes j (by omega) before
        · intro a
          have whole := stop a
          rwa [show start + (n + 1) - i = start + 1 + n - i by omega] at whole
        · exact fun j from_next before => carry j (by omega) before
      have joined := carry start (Nat.le_refl _) (by omega) a a' _ here later
      rw [each, bind_returns here]
      exact joined

/-- A loop is stopped by the first index that stops. -/
theorem each_stops {n start i : Nat} {a : α} {b : β} (above : start ≤ i) (below : i < start + n)
    (passes : ∀ j, start ≤ j → j < i → ∀ a, ∃ a', (body j a).ending = .returns (.ok a'))
    (stops : ∀ a, (body i a).ending = .returns (.error b)) :
    (each body n start a).ending = .returns (.error b) := by
  refine each_from (motive := fun m => m.ending = .returns (.error b)) above below passes ?_ ?_
  · intro a
    rw [show start + n - i = (start + n - i - 1) + 1 by omega, each, bind_ending]
    exact ⟨_, stops a, rfl⟩
  · exact fun _ _ _ _ _ _ _ stopped => stopped

/-- Put the values of consecutive indices into an accumulator. -/
def gathered {γ : Type} (add : Nat → γ → α → α) : Nat → α → List γ → α
  | _, a, [] => a
  | i, a, v :: vs => gathered add (i + 1) (add i v a) vs

variable {γ : Type} {yields : Nat → γ → Prop} {add : Nat → γ → α → α}

/-- A loop whose body goes on exactly with a value that its index yields runs to its
end exactly with one such value for each index. -/
theorem each_gathers
    (goes : ∀ i a a', (body i a).ending = .returns (.ok a') ↔ ∃ v, yields i v ∧ a' = add i v a)
    {n start : Nat} {a after : α} :
    (each body n start a).ending = .returns (.ok after) ↔ ∃ vs : List γ, vs.length = n ∧
      (∀ i v, vs[i]? = some v → yields (start + i) v) ∧ after = gathered add start a vs := by
  induction n generalizing start a with
  | zero =>
    constructor
    · intro returned
      exact ⟨[], rfl, by simp, by simpa [each, eq_comm, gathered] using returned⟩
    · rintro ⟨vs, none_left, -, rfl⟩
      obtain rfl := List.length_eq_zero_iff.mp none_left
      rfl
  | succ n inductionHypothesis =>
    rw [each, bind_ending]
    constructor
    · rintro ⟨result, here, later⟩
      cases result with
      | error b => simp at later
      | ok a' =>
        obtain ⟨v, first, rfl⟩ := (goes start a a').mp here
        obtain ⟨vs, length, rest, rfl⟩ := inductionHypothesis.mp later
        refine ⟨v :: vs, by simp [length], ?_, rfl⟩
        intro i w found
        cases i with
        | zero =>
          obtain rfl : v = w := by simpa using found
          exact first
        | succ i =>
          have below := rest i w (by simpa using found)
          rwa [Nat.add_assoc, Nat.add_comm 1 i] at below
    · rintro ⟨vs, length, each_yields, rfl⟩
      cases vs with
      | nil => simp at length
      | cons v vs =>
        have first : yields start v := each_yields 0 v rfl
        refine ⟨.ok (add start v a), (goes start a _).mpr ⟨v, first, rfl⟩, ?_⟩
        refine inductionHypothesis.mpr ⟨vs, by simpa using length, ?_, rfl⟩
        intro i w found
        have below := each_yields (i + 1) w (by simpa using found)
        rwa [Nat.add_assoc, Nat.add_comm 1 i]

/-- Such a loop is stopped exactly by the first index that stops it. -/
theorem each_halts {stops : Nat → β → Prop}
    (goes : ∀ i a a', (body i a).ending = .returns (.ok a') ↔ ∃ v, yields i v ∧ a' = add i v a)
    (halts : ∀ i a b, (body i a).ending = .returns (.error b) ↔ stops i b)
    {n start : Nat} {a : α} {b : β} :
    (each body n start a).ending = .returns (.error b) ↔
      ∃ i < n, (∀ j < i, ∃ v, yields (start + j) v) ∧ stops (start + i) b := by
  constructor
  · intro returned
    obtain ⟨i, above, below, passed, a, stopped⟩ := each_stopped returned
    refine ⟨i - start, by omega, ?_, ?_⟩
    · intro j before
      obtain ⟨a, a', went⟩ := passed (start + j) (by omega) (by omega)
      obtain ⟨v, value, -⟩ := (goes _ a a').mp went
      exact ⟨v, value⟩
    · rw [Nat.add_sub_cancel' above]
      exact (halts i a b).mp stopped
  · rintro ⟨i, below, earlier, stopped⟩
    refine each_stops (i := start + i) (by omega) (by omega) ?_ ?_
    · intro j above before a
      obtain ⟨v, value⟩ := earlier (j - start) (by omega)
      rw [Nat.add_sub_cancel' above] at value
      exact ⟨_, (goes j a _).mpr ⟨v, value, rfl⟩⟩
    · exact fun a => (halts _ a b).mpr stopped

end loops

/-! ## Computations that were cut off -/

section cut

/-- The second computation is the first one wherever that one returned. -/
def Keeps (first later : Traced R α) : Prop :=
  ∀ a, first.ending = .returns a → later = first

/-- A computation keeps what it does itself. -/
theorem Keeps.refl (m : Traced R α) : Keeps m m := fun _ _ => rfl

/-- What both computations keep is kept one after the other. -/
theorem Keeps.bind {first later : Traced R α} {next next' : α → Traced R β}
    (firsts : Keeps first later) (nexts : ∀ a, Keeps (next a) (next' a)) :
    Keeps (first >>= next) (later >>= next') := by
  intro b returned
  obtain ⟨a, here, there⟩ := bind_ending.mp returned
  rw [firsts a here, bind_returns here, bind_returns here, nexts a b there]

/-- What the body keeps is kept while a reference is held. -/
theorem Keeps.holding {first later : Traced R α} (ref : Option R) (bodies : Keeps first later) :
    Keeps (Traced.holding ref first) (Traced.holding ref later) :=
  (Keeps.refl _).bind fun _ => bodies.bind fun _ => Keeps.refl _

/-- What the body keeps is kept under a deferred call. -/
theorem Keeps.holdingDeferred {first later : Traced R α} (ref : Option R)
    (bodies : Keeps first later) :
    Keeps (Traced.holdingDeferred ref first) (Traced.holdingDeferred ref later) := by
  intro a returned
  rw [bodies a returned]

/-- A loop keeps its result when its body does at every index.

Proof: induction on the number of indices that are left. -/
theorem Keeps.each {body body' : Nat → α → Traced R (Except β α)}
    (bodies : ∀ i a, Keeps (body i a) (body' i a)) (n start : Nat) (a : α) :
    Keeps (Traced.each body n start a) (Traced.each body' n start a) := by
  induction n generalizing start a with
  | zero => exact Keeps.refl _
  | succ n inductionHypothesis =>
    apply (bodies start a).bind
    intro result
    cases result with
    | error b => exact Keeps.refl _
    | ok a' => exact inductionHypothesis (start + 1) a'

variable {body : Nat → Nat → α → Traced R (Except β α)} {γ : Type}
  {yields : Nat → Nat → γ → Prop} {stops : Nat → Nat → β → Prop} {add : Nat → γ → α → α}

/-- Finitely many values that are each yielded at some depth are yielded at one. -/
theorem yields_together (deeper : ∀ d d' i v, d ≤ d' → yields d i v → yields d' i v)
    {n start : Nat} (earlier : ∀ i < n, ∃ v d, yields d (start + i) v) :
    ∃ d, ∀ i < n, ∃ v, yields d (start + i) v := by
  induction n with
  | zero => exact ⟨0, fun i below => by omega⟩
  | succ n inductionHypothesis =>
    obtain ⟨d, before⟩ := inductionHypothesis fun i below => earlier i (by omega)
    obtain ⟨v, d', last⟩ := earlier n (Nat.lt_succ_self n)
    refine ⟨max d d', fun i below => ?_⟩
    by_cases same : i = n
    · subst same
      exact ⟨v, deeper _ _ _ _ (Nat.le_max_right d d') last⟩
    · obtain ⟨w, found⟩ := before i (by omega)
      exact ⟨w, deeper _ _ _ _ (Nat.le_max_left d d') found⟩

/-- The same for a list of given values. -/
theorem yields_all_together (deeper : ∀ d d' i v, d ≤ d' → yields d i v → yields d' i v)
    {start : Nat} {vs : List γ} (each_yields : ∀ i v, vs[i]? = some v → ∃ d, yields d (start + i) v) :
    ∃ d, ∀ i v, vs[i]? = some v → yields d (start + i) v := by
  obtain ⟨d, together⟩ := @yields_together γ (fun d i v => vs[i]? = some v ∧ yields d (start + i) v)
    (fun d d' i v le held => ⟨held.1, deeper d d' _ v le held.2⟩) vs.length 0 (by
      intro i below
      obtain ⟨d, found⟩ := each_yields i vs[i] (List.getElem?_eq_getElem below)
      exact ⟨vs[i], d, by simp [List.getElem?_eq_getElem below], by simpa using found⟩)
  refine ⟨d, fun i v found => ?_⟩
  obtain ⟨w, same, held⟩ := together i (List.getElem?_eq_some_iff.mp found).1
  rw [Nat.zero_add] at same held
  obtain rfl : v = w := Option.some.inj (found.symm.trans same)
  exact held

/-- A loop over a body that was given more and more depth runs to its end at some
depth exactly with values that are yielded each at some depth. -/
theorem each_gathers_deep
    (goes : ∀ d i a a', (body d i a).ending = .returns (.ok a') ↔ ∃ v, yields d i v ∧ a' = add i v a)
    (deeper : ∀ d d' i v, d ≤ d' → yields d i v → yields d' i v) {n start : Nat} {a after : α} :
    (∃ d, (Traced.each (body d) n start a).ending = .returns (.ok after)) ↔
      ∃ vs : List γ, vs.length = n ∧ (∀ i v, vs[i]? = some v → ∃ d, yields d (start + i) v) ∧
        after = gathered add start a vs := by
  constructor
  · rintro ⟨d, returned⟩
    obtain ⟨vs, length, each_yields, rfl⟩ := (each_gathers (goes d)).mp returned
    exact ⟨vs, length, fun i v found => ⟨d, each_yields i v found⟩, rfl⟩
  · rintro ⟨vs, length, each_yields, rfl⟩
    obtain ⟨d, together⟩ := yields_all_together deeper each_yields
    exact ⟨d, (each_gathers (goes d)).mpr ⟨vs, length, together, rfl⟩⟩

/-- Such a loop is stopped at some depth exactly by the first index that stops it at
some depth. -/
theorem each_halts_deep
    (goes : ∀ d i a a', (body d i a).ending = .returns (.ok a') ↔ ∃ v, yields d i v ∧ a' = add i v a)
    (halts : ∀ d i a b, (body d i a).ending = .returns (.error b) ↔ stops d i b)
    (deeper : ∀ d d' i v, d ≤ d' → yields d i v → yields d' i v)
    (deeper_stops : ∀ d d' i b, d ≤ d' → stops d i b → stops d' i b) {n start : Nat} {a : α} {b : β} :
    (∃ d, (Traced.each (body d) n start a).ending = .returns (.error b)) ↔
      ∃ i < n, (∀ j < i, ∃ v d, yields d (start + j) v) ∧ ∃ d, stops d (start + i) b := by
  constructor
  · rintro ⟨d, returned⟩
    obtain ⟨i, below, earlier, stopped⟩ := (each_halts (goes d) (halts d)).mp returned
    refine ⟨i, below, fun j before => ?_, d, stopped⟩
    obtain ⟨v, found⟩ := earlier j before
    exact ⟨v, d, found⟩
  · rintro ⟨i, below, earlier, d', stopped⟩
    obtain ⟨d, together⟩ := yields_together deeper earlier
    refine ⟨max d d', (each_halts (goes _) (halts _)).mpr ⟨i, below, ?_, ?_⟩⟩
    · intro j before
      obtain ⟨v, found⟩ := together j before
      exact ⟨v, deeper _ _ _ _ (Nat.le_max_left d d') found⟩
    · exact deeper_stops _ _ _ _ (Nat.le_max_right d d') stopped

end cut

end Traced

end Tracing
