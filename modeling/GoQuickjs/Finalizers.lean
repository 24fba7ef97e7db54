import GoQuickjs.Library.Runs

/-!
# Finalizers under running calls

`NewContext` sets the finalizers `freeJsContext` and `freeJsRuntime`. The Go runtime may
run the first as soon as nothing will read the `*JsContext` any more, and the second
once the first has run. A variable that holds the pointer, an entry of the cache or a
bound function keeps the context; so does a running call, but only up to the last
statement that reads the pointer. The mutex is reached through a pointer of its own,
which `defer ctx.mu.Unlock()` has read when the statement is reached.

The statements of a call are those that read the `*JsContext`, those that take and
release the mutex, and those in the engine, with the conversions between Go and JS.
A statement in the engine leads on in two ways, as it succeeds or fails; the compiler
keeps the pointer while a statement that may follow reads it. Scripts call back into Go
while a statement is in the engine, and what the Go code does there are other steps.
-/

namespace GoQuickjs.Finalizers

open Runs

/-- A `*JsContext`, by its number. -/
abbrev CtxId := Nat

/-- The C functions and conversions that a call runs on the engine's context. -/
inductive EngineCall where
  | jsLoadFile | jsGetGlobalObject | makeJsValue | jsSetPropertyStr | jsEval
  | jsModuleSetImportMeta | jsEvalFunction | jsStdAwait | jsStdDumpError | jsGetPropertyStr
  | jsIsFunction | jsCall | freeJsArgs | fromJsException | fromJsValue | jsIsArray
deriving DecidableEq

/-- What is left of a call. -/
inductive Code where
  /-- A field of the `*JsContext` is read. -/
  | read (next : Code)
  /-- `Lock` on the mutex that was read. -/
  | lock (next : Code)
  /-- The engine, or a conversion, and how the call goes on. -/
  | engine (call : EngineCall) (next failed : Code)
  /-- Values and memory of the engine are freed. -/
  | release (next : Code)
  /-- The deferred `Unlock`. -/
  | unlock
  | returned
deriving DecidableEq

namespace Code

/-- A statement that may follow reads the `*JsContext`. -/
def reads : Code → Bool
  | read _ => true
  | lock next | release next => next.reads
  | engine _ next failed => next.reads || failed.reads
  | unlock | returned => false

/-- The call is not done with the engine and the conversion of its result. -/
def unfinished : Code → Bool
  | read next | lock next | release next => next.unfinished
  | engine _ _ _ => true
  | unlock | returned => false

/-- The statement that runs is in the engine. -/
def inEngine : Code → Bool
  | engine _ _ _ => true
  | _ => false

/-! ## The methods -/

/-- `ctx.mu.Lock()` and `defer ctx.mu.Unlock()`. -/
def locked (next : Code) : Code := .read (.lock (.read next))

/-- The deferred statements. -/
def leave : Code := .release .unlock

/-- A statement in the engine that leads on in one way. -/
def always (call : EngineCall) (next : Code) : Code := .engine call next next

/-- The loop of `setEnv` over the variables that are not nil. -/
def setVars : Nat → Code → Code
  | 0, next => next
  | size + 1, next => .engine .makeJsValue (always .jsSetPropertyStr (setVars size next)) leave

/-- `setEnv`. -/
def setEnv (size : Nat) (next : Code) : Code :=
  .read (always .jsGetGlobalObject (setVars size (.release next)))

/-- The result of a call is converted. -/
def result : Code := always .fromJsValue leave

/-- `eval`: an exception is printed. The pointer is read for the last time at
`c := ctx.c`. -/
def eval (size : Nat) (isModule : Bool) : Code :=
  let printed := always .jsStdDumpError leave
  let await := .engine .jsStdAwait result printed
  setEnv size (.read
    (if isModule then
      .engine .jsEval (always .jsModuleSetImportMeta (always .jsEvalFunction await)) await
    else .engine .jsEval result printed))

/-- `getVar`, the method and the function. `fromJsException` gives an error for an
`Error` and nil for any other value that was thrown: then the method goes on with the
marker of the exception. -/
def getVar (next failed : Code) : Code :=
  .read (always .jsGetGlobalObject (.read
    (.engine .jsGetPropertyStr (.release next)
      (.engine .fromJsException (.release next) (.release failed)))))

/-- The loop over the arguments; what cannot be converted is passed as `undefined`. -/
def makeArgs : Nat → Code → Code
  | 0, next => next
  | args + 1, next => always .makeJsValue (makeArgs args next)

/-- `JS_Call` with its arguments. -/
def callFunc (args : Nat) (next : Code) : Code :=
  makeArgs args (always .jsCall (always .freeJsArgs next))

end Code

/-- The calls on a context, with the number of variables or arguments. -/
inductive Method where
  | eval (env : Nat) (isModule : Bool)
  | evalFile (env : Nat) (isModule : Bool)
  | getGlobal
  | callFunc (args : Nat)
  | boundFunc (args : Nat)
deriving DecidableEq

open Code in
/-- The statements of a method. -/
def Method.code : Method → Code
  | .eval env isModule => locked (Code.eval env isModule)
  | .evalFile env isModule =>
    locked (.read (.engine .jsLoadFile (.read (Code.eval env isModule)) .unlock))
  | .getGlobal => locked (.read (getVar result leave))
  | .callFunc args =>
    locked (.read (getVar (.engine .jsIsFunction (Code.callFunc args result) leave) leave))
  | .boundFunc args =>
    let results := always .fromJsValue (always .jsIsArray leave)
    let call := Code.read (.read (Code.callFunc args results))
    locked (getVar call call)

/-! ## Steps -/

/-- A running call: its context, whether it has reached the engine, and what is left. -/
structure Call where
  ctx : CtxId
  entered : Bool
  code : Code
deriving DecidableEq

namespace Call

/-- The call stands at the given statement. -/
def goTo (call : Call) (code : Code) : Call :=
  { call with entered := call.entered || code.inEngine, code := code }

/-- The call has reached the engine and has not yet converted its result. -/
def inside (call : Call) : Bool := call.entered && call.code.unfinished

end Call

/-- A context: the call that holds its mutex, the number of variables outside of running
calls that hold the `*JsContext`, and the finalizers that have run. -/
structure Context where
  mu : Option Nat
  outside : Nat
  ctxFreed : Bool
  rtFreed : Bool
deriving DecidableEq

/-- All contexts and all calls, by their numbers. -/
structure State where
  contexts : List Context
  calls : List Call
deriving DecidableEq

/-- No context, no call. -/
def initial : State := ⟨[], []⟩

/-- A step: a context is made, a variable is given the pointer or gives it up, a call is
made or takes its next statement, or a finalizer runs. -/
inductive Action where
  | newContext
  | hold (c : CtxId)
  | drop (c : CtxId)
  | call (c : CtxId) (method : Method)
  | proceed (n : Nat) (succeeds : Bool)
  | freeJsContext (c : CtxId)
  | freeJsRuntime (c : CtxId)
deriving DecidableEq

namespace State

/-- Some running call will read the pointer. -/
def read (s : State) (c : CtxId) : Bool := s.calls.any fun call => call.ctx == c && call.code.reads

/-- A context is changed, where that is possible. -/
def change (s : State) (c : CtxId) (f : Context → Option Context) : Option State :=
  (s.contexts[c]?.bind f).map fun x => { s with contexts := s.contexts.set c x }

/-- A call goes on to a statement. -/
def goTo (s : State) (n : Nat) (call : Call) (code : Code) : State :=
  { s with calls := s.calls.set n (call.goTo code) }

/-- A call takes its next statement. -/
def proceed (s : State) (n : Nat) (call : Call) (succeeds : Bool) : Option State :=
  match call.code with
  | .read next | .release next => some (s.goTo n call next)
  | .lock next =>
    (s.change call.ctx fun x => if x.mu = none then some { x with mu := some n } else none).map
      fun s => s.goTo n call next
  | .engine _ next failed => some (s.goTo n call (if succeeds then next else failed))
  | .unlock =>
    (s.change call.ctx fun x => some { x with mu := none }).map fun s => s.goTo n call .returned
  | .returned => none

end State

/-- One step. The pointer of a context can be copied and used while a variable holds it. -/
def step (s : State) : Action → Option State
  | .newContext => some { s with contexts := s.contexts ++ [⟨none, 1, false, false⟩] }
  | .hold c =>
    s.change c fun x => if x.outside = 0 then none else some { x with outside := x.outside + 1 }
  | .drop c =>
    s.change c fun x => if x.outside = 0 then none else some { x with outside := x.outside - 1 }
  | .call c method =>
    (s.change c fun x => if x.outside = 0 then none else some x).map fun s =>
      { s with calls := s.calls ++ [⟨c, false, method.code⟩] }
  | .proceed n succeeds => s.calls[n]?.bind fun call => s.proceed n call succeeds
  | .freeJsContext c =>
    s.change c fun x =>
      if x.outside ≠ 0 ∨ s.read c ∨ x.ctxFreed then none else some { x with ctxFreed := true }
  | .freeJsRuntime c =>
    s.change c fun x =>
      if x.ctxFreed ∧ ¬ x.rtFreed then some { x with rtFreed := true } else none

/-! ## No finalizer under a call -/

/-- No context is finalized while a call on it is inside. -/
def NotFinalized (s : State) : Prop :=
  ∀ call ∈ s.calls, call.inside = true →
    ∀ x, s.contexts[call.ctx]? = some x → x.ctxFreed = false ∧ x.rtFreed = false

/-- The step takes the last variable that holds a context from no call on it that is not
done with the engine. -/
def KeepsContext (s : State) : Action → Prop
  | .drop c => ∀ x, s.contexts[c]? = some x → x.outside = 1 →
      ∀ call ∈ s.calls, call.ctx = c → call.code.unfinished = false
  | _ => True

/-- The invariant: a call that is not done is on a context that a variable holds, and
such a context was not finalized. -/
structure Sound (s : State) : Prop where
  held : ∀ call ∈ s.calls, call.code.unfinished = true →
    ∃ x, s.contexts[call.ctx]? = some x ∧ x.outside ≠ 0
  alive : ∀ (c : CtxId) x, s.contexts[c]? = some x → x.outside ≠ 0 → x.ctxFreed = false
  order : ∀ (c : CtxId) x, s.contexts[c]? = some x → x.ctxFreed = false → x.rtFreed = false

variable {s s' : State} {c : CtxId}

theorem initial_sound : Sound initial := ⟨by simp [initial], by simp [initial], by simp [initial]⟩

theorem change_cases {f : Context → Option Context} (changed : s.change c f = some s') :
    ∃ x x', s.contexts[c]? = some x ∧ f x = some x' ∧
      s' = { s with contexts := s.contexts.set c x' } := by
  obtain ⟨x', made, rfl⟩ := Option.map_eq_some_iff.mp changed
  obtain ⟨x, found, result⟩ := Option.bind_eq_some_iff.mp made
  exact ⟨x, x', found, result, rfl⟩

/-- A context is changed and stays held, or no call on it is left. -/
theorem Sound.change (sound : Sound s) {x x' : Context} (found : s.contexts[c]? = some x)
    (kept : x'.outside ≠ 0 ∨ ∀ call ∈ s.calls, call.ctx = c → call.code.unfinished = false)
    (alive : x'.outside ≠ 0 → x'.ctxFreed = false) (order : x'.ctxFreed = false → x'.rtFreed = false) :
    Sound { s with contexts := s.contexts.set c x' } := by
  obtain ⟨inside, _⟩ := List.getElem?_eq_some_iff.mp found
  have here : (s.contexts.set c x')[c]? = some x' := by simp [inside]
  have only : ∀ (d : CtxId) y, (s.contexts.set c x')[d]? = some y → d = c ∧ y = x' ∨ s.contexts[d]? = some y := by
    intro d y stored
    by_cases same : c = d
    · subst same
      exact .inl ⟨rfl, Option.some.inj (stored.symm.trans here)⟩
    · exact .inr (by rwa [List.getElem?_set_ne same] at stored)
  refine ⟨?_, ?_, ?_⟩
  · intro call running unfinished
    by_cases same : c = call.ctx
    · obtain held | done := kept
      · exact ⟨x', same ▸ here, held⟩
      · rw [done call running same.symm] at unfinished
        cases unfinished
    · obtain ⟨y, stored, held⟩ := sound.held call running unfinished
      exact ⟨y, by rwa [List.getElem?_set_ne same], held⟩
  · intro d y stored
    obtain ⟨rfl, rfl⟩ | before := only d y stored
    · exact alive
    · exact sound.alive d y before
  · intro d y stored
    obtain ⟨rfl, rfl⟩ | before := only d y stored
    · exact order
    · exact sound.order d y before

/-- No call is left on a context that no variable holds. -/
theorem Sound.unheld (sound : Sound s) {x : Context} (found : s.contexts[c]? = some x)
    (none_left : x.outside = 0) : ∀ call ∈ s.calls, call.ctx = c → call.code.unfinished = false := by
  rintro call running rfl
  by_contra unfinished
  obtain ⟨y, stored, held⟩ := sound.held call running (Bool.not_eq_false _ ▸ unfinished)
  rw [found] at stored
  exact held (Option.some.inj stored ▸ none_left)

/-- A call goes on with what was left of it. -/
theorem Sound.goTo (sound : Sound s) {n : Nat} {call : Call} {code : Code}
    (running : s.calls[n]? = some call)
    (left : code.unfinished = true → call.code.unfinished = true) : Sound (s.goTo n call code) := by
  refine ⟨?_, sound.alive, sound.order⟩
  intro other member unfinished
  obtain before | rfl := List.mem_or_eq_of_mem_set member
  · exact sound.held other before unfinished
  · exact sound.held call (List.mem_of_getElem? running) (left unfinished)

/-- The mutex of a context changes hands. -/
theorem Sound.setMutex (sound : Sound s) {x : Context} (found : s.contexts[c]? = some x)
    (mu : Option Nat) : Sound { s with contexts := s.contexts.set c { x with mu := mu } } := by
  by_cases held : x.outside = 0
  · exact sound.change found (.inr (sound.unheld found held)) (sound.alive c x found)
      (sound.order c x found)
  · exact sound.change found (.inl held) (sound.alive c x found) (sound.order c x found)

theorem Sound.proceed (sound : Sound s) {n : Nat} {call : Call} {succeeds : Bool}
    (running : s.calls[n]? = some call) (taken : s.proceed n call succeeds = some s') :
    Sound s' := by
  obtain ⟨ctx, entered, code⟩ := call
  cases code with
  | read next =>
    obtain rfl := Option.some.inj taken
    exact sound.goTo running id
  | release next =>
    obtain rfl := Option.some.inj taken
    exact sound.goTo running id
  | lock next =>
    obtain ⟨between, changed, rfl⟩ := Option.map_eq_some_iff.mp taken
    obtain ⟨x, x', found, made, rfl⟩ := change_cases changed
    simp only [Option.ite_none_right_eq_some, Option.some.injEq] at made
    obtain ⟨_, rfl⟩ := made
    exact (sound.setMutex found (some n)).goTo running id
  | engine call next failed =>
    obtain rfl := Option.some.inj taken
    exact sound.goTo running fun _ => rfl
  | unlock =>
    obtain ⟨between, changed, rfl⟩ := Option.map_eq_some_iff.mp taken
    obtain ⟨x, x', found, made, rfl⟩ := change_cases changed
    obtain rfl := Option.some.inj made
    exact (sound.setMutex found none).goTo running id
  | returned => cases taken

/-- A new context is held by the variable that it is assigned to. -/
theorem Sound.newContext (sound : Sound s) :
    Sound { s with contexts := s.contexts ++ [⟨none, 1, false, false⟩] } := by
  have only : ∀ (d : CtxId) y, (s.contexts ++ [⟨none, 1, false, false⟩])[d]? = some y →
      y = ⟨none, 1, false, false⟩ ∨ s.contexts[d]? = some y := by
    intro d y stored
    rw [List.getElem?_append] at stored
    split at stored
    · exact .inr stored
    · exact .inl (List.mem_singleton.mp (List.mem_of_getElem? stored))
  refine ⟨?_, ?_, ?_⟩
  · intro call running unfinished
    obtain ⟨x, found, held⟩ := sound.held call running unfinished
    obtain ⟨inside, _⟩ := List.getElem?_eq_some_iff.mp found
    exact ⟨x, by rw [List.getElem?_append_left inside, found], held⟩
  · intro d y stored
    obtain rfl | before := only d y stored
    · exact fun _ => rfl
    · exact sound.alive d y before
  · intro d y stored
    obtain rfl | before := only d y stored
    · exact fun _ => rfl
    · exact sound.order d y before

/-- A call is made on a context that is held. -/
theorem Sound.call (sound : Sound s) {x : Context} (found : s.contexts[c]? = some x)
    (held : x.outside ≠ 0) (method : Method) :
    Sound { s with calls := s.calls ++ [⟨c, false, method.code⟩] } := by
  refine ⟨?_, sound.alive, sound.order⟩
  intro call running unfinished
  obtain before | new := List.mem_append.mp running
  · exact sound.held call before unfinished
  · obtain rfl := List.mem_singleton.mp new
    exact ⟨x, found, held⟩

/-- A finalizer runs on a context that no variable holds. -/
theorem Sound.finalized (sound : Sound s) {x x' : Context} (found : s.contexts[c]? = some x)
    (none_left : x.outside = 0) (same : x'.outside = x.outside) (freed : x'.ctxFreed = true) :
    Sound { s with contexts := s.contexts.set c x' } := by
  apply sound.change found (.inr (sound.unheld found none_left))
  · intro held
    exact absurd (same.trans none_left) held
  · simp [freed]

/-- A step keeps the invariant, unless it takes the last variable from a running call. -/
theorem step_sound {action : Action} (sound : Sound s) (keeps : KeepsContext s action)
    (taken : step s action = some s') : Sound s' := by
  cases action with
  | newContext =>
    obtain rfl := Option.some.inj taken
    exact sound.newContext
  | hold c =>
    obtain ⟨x, x', found, made, rfl⟩ := change_cases taken
    simp only [Option.ite_none_left_eq_some, Option.some.injEq] at made
    obtain ⟨held, rfl⟩ := made
    exact sound.change found (.inl (by simp)) (fun _ => sound.alive c x found held)
      (sound.order c x found)
  | drop c =>
    obtain ⟨x, x', found, made, rfl⟩ := change_cases taken
    simp only [Option.ite_none_left_eq_some, Option.some.injEq] at made
    obtain ⟨held, rfl⟩ := made
    have kept : x.outside - 1 ≠ 0 ∨
        ∀ call ∈ s.calls, call.ctx = c → call.code.unfinished = false := by
      by_cases last : x.outside = 1
      · exact .inr (keeps x found last)
      · exact .inl (by omega)
    exact sound.change found kept (fun _ => sound.alive c x found held) (sound.order c x found)
  | call c method =>
    obtain ⟨between, changed, rfl⟩ := Option.map_eq_some_iff.mp taken
    obtain ⟨x, x', found, made, rfl⟩ := change_cases changed
    simp only [Option.ite_none_left_eq_some, Option.some.injEq] at made
    obtain ⟨held, rfl⟩ := made
    obtain ⟨inside, _⟩ := List.getElem?_eq_some_iff.mp found
    have kept := sound.change found (.inl held) (sound.alive c x found) (sound.order c x found)
    exact kept.call (by simp [inside]) held method
  | proceed n succeeds =>
    obtain ⟨call, running, taken⟩ := Option.bind_eq_some_iff.mp taken
    exact sound.proceed running taken
  | freeJsContext c =>
    obtain ⟨x, x', found, made, rfl⟩ := change_cases taken
    simp only [Option.ite_none_left_eq_some, Option.some.injEq] at made
    obtain ⟨unreached, rfl⟩ := made
    have none_left : x.outside = 0 := by
      by_contra held
      exact unreached (.inl held)
    exact sound.finalized found none_left rfl rfl
  | freeJsRuntime c =>
    obtain ⟨x, x', found, made, rfl⟩ := change_cases taken
    simp only [Option.ite_none_right_eq_some, Option.some.injEq] at made
    obtain ⟨⟨freed, _⟩, rfl⟩ := made
    have none_left : x.outside = 0 := by
      by_contra held
      rw [sound.alive c x found held] at freed
      cases freed
    exact sound.finalized found none_left rfl freed

/-- In every interleaving of calls and finalizers in which the last variable that holds a
context is not given up while a call on it has still to finish with the engine, no
finalizer of a context runs between the moment a call on it enters the engine and the
moment that call has converted its result.

Proof: a variable holds the context of every call that is not done, and the runtime
finalizes only what no variable holds. -/
theorem not_finalized (actions : List Action) (s : State)
    (allowed : Allowed step KeepsContext initial actions)
    (reached : run step initial actions = some s) : NotFinalized s := by
  have sound := allowed_invariant (motive := Sound) initial_sound
    (fun _ _ _ sound keeps taken => step_sound sound keeps taken) allowed reached
  intro call running inside x found
  obtain ⟨y, stored, held⟩ := sound.held call running (Bool.and_eq_true_iff.mp inside).2
  obtain rfl := Option.some.inj (found.symm.trans stored)
  have alive := sound.alive _ _ stored held
  exact ⟨alive, sound.order _ _ stored alive⟩

/-- `Eval` is in `JS_Eval` when one of two variables dies. The last one dies when the
result has been converted, and the context is finalized. -/
theorem finalized_after_eval : ∃ s, run step initial
      [.newContext, .hold 0, .call 0 (.eval 0 false), .proceed 0 true, .proceed 0 true,
        .proceed 0 true, .proceed 0 true, .proceed 0 true, .proceed 0 true, .proceed 0 true,
        .drop 0, .proceed 0 true, .proceed 0 true, .drop 0, .freeJsContext 0] = some s ∧
    s.contexts = [⟨some 0, 0, true, false⟩] ∧ NotFinalized s := by
  refine ⟨_, rfl, rfl, not_finalized
    [.newContext, .hold 0, .call 0 (.eval 0 false), .proceed 0 true, .proceed 0 true,
      .proceed 0 true, .proceed 0 true, .proceed 0 true, .proceed 0 true, .proceed 0 true,
      .drop 0, .proceed 0 true, .proceed 0 true, .drop 0, .freeJsContext 0] _ ?_ rfl⟩
  refine .cons trivial rfl (.cons trivial rfl (.cons trivial rfl (.cons trivial rfl (.cons trivial rfl
    (.cons trivial rfl (.cons trivial rfl (.cons trivial rfl (.cons trivial rfl (.cons trivial rfl
    (.cons ?_ rfl (.cons trivial rfl (.cons trivial rfl (.cons ?_ rfl
    (.cons trivial rfl .nil))))))))))))))
  · intro x found last
    obtain rfl : ⟨some 0, 2, false, false⟩ = x := Option.some.inj found
    cases last
  · intro x _ _ call running _
    obtain rfl := List.mem_singleton.mp running
    rfl

/-- `Eval` is in `JS_Eval` when the variable of its caller dies, and the context is
finalized: the pointer was read for the last time before. -/
theorem finalized_in_eval : ∃ s, run step initial
      [.newContext, .call 0 (.eval 0 false), .proceed 0 true, .proceed 0 true, .proceed 0 true,
        .proceed 0 true, .proceed 0 true, .proceed 0 true, .proceed 0 true, .drop 0,
        .freeJsContext 0, .freeJsRuntime 0] = some s ∧
    (∃ next failed, s.calls = [⟨0, true, .engine .jsEval next failed⟩]) ∧ ¬ NotFinalized s := by
  refine ⟨_, rfl, ⟨_, _, rfl⟩, fun alive => ?_⟩
  obtain ⟨freed, _⟩ := alive _ (List.mem_singleton.mpr rfl) rfl _ rfl
  cases freed

end GoQuickjs.Finalizers
