import GoQuickjs.Library.LockOrder
import GoQuickjs.Library.Runs
import GoQuickjs.Locks
import Mathlib.Data.Prod.Lex

/-!
# Waiting for mutexes

The mutexes of the package are `mu` of each context, `globalMu`, the lock of the cache,
the lock of the map of stores, and the lock of each store. None is reentrant, and every
`Unlock` is deferred, so that it also runs when a panic leaves the function.

A goroutine has a list of statements left. While the engine runs, it may use a store,
call back into Go, or return; Go code that is called back, like Go code outside of all
calls, may call anything of the package. `NewContext` runs no script. The lock of the
cache is held while the file of a new entry is evaluated.
-/

namespace GoQuickjs.Waits

open Runs LockOrder Locks

/-- The mutexes of the package. -/
inductive Mutex where
  | mu (c : CtxId)
  | globalMu
  /-- The variable `lock` of the cache. -/
  | cache
  /-- The `lock` of `InitPtrStore`. -/
  | stores
  | ptrStore (c : CtxId)
deriving DecidableEq

/-- What a goroutine runs besides taking and releasing locks. -/
inductive Place where
  | engine (c : CtxId)
  | callback
deriving DecidableEq

/-- The statements of a goroutine. -/
abbrev Code := List (Instr Mutex Place)

/-- Which way `LoadFileFromCache` takes: the file has an entry that is up to date or an
error ends the call before a context is made, `NewContext` fails, or the file is
evaluated in a new context. -/
inductive Load where
  | found
  | noContext
  | evaluated
deriving DecidableEq

/-- What Go code may call: a method of a context, `NewContext`, `LoadFileFromCache`, a Go
function built by `fromJsFunc`. The finalizers are called by the Go runtime. -/
inductive Call where
  | method (name : Method) (c : CtxId)
  | newContext
  | loadFileFromCache (load : Load)
  | jsFunc (c : CtxId)
  | freeJsContext (c : CtxId) (stored : Bool)
  | freeJsRuntime (c : CtxId)
deriving DecidableEq

/-- `getPtrStore`, and a method of the store. -/
def useStore (c : CtxId) : Code := within .stores [] ++ within (.ptrStore c) []

/-- `delPtrStore`, for a context that has a store or none. -/
def delPtrStore (c : CtxId) (stored : Bool) : Code :=
  within .stores (if stored then within (.ptrStore c) [] else [])

/-- A method that has taken the lock of its context. -/
def methodCode (c : CtxId) : Code := within (.mu c) [.run (.engine c)]

/-- The statements of a call; a new context gets the next number. -/
def Call.code (next : CtxId) : Call → Code
  | .method name c => if name = .bindFunc false then [] else methodCode c
  | .newContext => within .globalMu []
  | .loadFileFromCache .found => within .cache []
  | .loadFileFromCache .noContext => within .cache (within .globalMu [])
  | .loadFileFromCache .evaluated => within .cache (within .globalMu [] ++ methodCode next)
  | .jsFunc c | .freeJsRuntime c => [.run (.engine c)]
  | .freeJsContext c stored => delPtrStore c stored ++ [.run (.engine c)]

/-- The call makes a context. -/
def Call.makesContext : Call → Bool
  | .newContext | .loadFileFromCache .evaluated => true
  | _ => false

/-- The context that the caller names. -/
def Call.context : Call → Option CtxId
  | .method _ c | .jsFunc c | .freeJsContext c _ | .freeJsRuntime c => some c
  | .newContext | .loadFileFromCache _ => none

/-- The goroutines with the mutexes, and the number of contexts. -/
structure State where
  locks : LockOrder.State Goroutine Mutex Place
  contexts : Nat

/-- No goroutine has called anything. -/
def initial : State := ⟨⟨fun _ => none, fun _ => []⟩, 0⟩

/-- The goroutine runs Go code: outside of all calls, or in a callback. -/
def inGo : Code → Bool
  | [] => true
  | .run .callback :: _ => true
  | _ => false

/-- A step of a goroutine: Go code makes a call, the engine uses a store or calls back, or
the next statement is taken. -/
inductive Action where
  | call (g : Goroutine) (call : Call)
  | useStore (g : Goroutine) (c : CtxId)
  | goFuncBridge (g : Goroutine)
  | proceed (g : Goroutine)
deriving DecidableEq

/-- One step. A goroutine that takes a statement of the engine or of a callback returns
from it. -/
def step (s : State) : Action → Option State
  | .call g call =>
    if inGo (s.locks.code g) ∧ ∀ c ∈ call.context, c < s.contexts then
      some ⟨s.locks.push g (call.code s.contexts), s.contexts + if call.makesContext then 1 else 0⟩
    else none
  | .useStore g c =>
    match s.locks.code g with
    | .run (.engine _) :: _ => some { s with locks := s.locks.push g (Waits.useStore c) }
    | _ => none
  | .goFuncBridge g =>
    match s.locks.code g with
    | .run (.engine c) :: _ =>
      some { s with locks := s.locks.push g (Waits.useStore c ++ [.run .callback]) }
    | _ => none
  | .proceed g => (s.locks.execute g).map fun locks => { s with locks := locks }

/-! ## The order of the mutexes -/

/-- The locks under which scripts run come first, by a rank, then the others. -/
def level (rank : Mutex → Nat) : Mutex → ℕ ×ₗ ℕ
  | .mu c => toLex (1, rank (.mu c))
  | .cache => toLex (1, rank .cache)
  | .globalMu => toLex (2, 0)
  | .stores => toLex (3, 0)
  | .ptrStore _ => toLex (4, 0)

/-- No script runs while the lock is held. -/
def Mutex.inner : Mutex → Bool
  | .globalMu | .stores | .ptrStore _ => true
  | .mu _ | .cache => false

/-- Scripts run below the inner locks. -/
def ceiling : Place → ℕ ×ₗ ℕ := fun _ => toLex (2, 0)

/-- The step is no call that takes a lock against the rank: whoever calls a method or
`LoadFileFromCache` holds only locks ranked below the one that is taken, and a context that
is made for a file is ranked above the cache. -/
def InOrder (rank : Mutex → Nat) (s : State) : Action → Prop
  | .call g (.method name c) =>
    name ≠ .bindFunc false → ∀ m, s.locks.owner m = some g → rank m < rank (.mu c)
  | .call g (.loadFileFromCache load) =>
    (∀ m, s.locks.owner m = some g → rank m < rank .cache) ∧
      (load = .evaluated → rank .cache < rank (.mu s.contexts))
  | _ => True

variable {rank : Mutex → Nat} {rest : Code} {c : CtxId}

/-- The statements left to a goroutine keep the order, and what it holds it took outside
of the locks under which no script runs. -/
structure Open (rank : Mutex → Nat) (rest : Code) : Prop where
  ordered : Ordered (level rank) ceiling rest
  low : ∀ m ∈ holds rest, level rank m < toLex (2, 0)

theorem Open.of_inGo (ordered : Ordered (level rank) ceiling rest) (go : inGo rest = true) :
    Open rank rest := by
  refine ⟨ordered, ?_⟩
  match rest with
  | [] => simp [holds]
  | .run a :: _ => exact ordered.1

theorem Open.of_engine (ordered : Ordered (level rank) ceiling (.run (.engine c) :: rest)) :
    Open rank (.run (.engine c) :: rest) := ⟨ordered, ordered.1⟩

/-- The inner locks are those from `globalMu` on. -/
theorem level_low_iff {m : Mutex} : level rank m < toLex (2, 0) ↔ m.inner = false := by
  cases m <;> simp [level, Mutex.inner, Prod.Lex.toLex_lt_toLex]

/-- An inner lock is above what is held where scripts run. -/
theorem Open.above (state : Open rank rest) {m : Mutex} (inner : m.inner = true) :
    ∀ other ∈ holds rest, level rank other < level rank m := by
  intro other held
  apply lt_of_lt_of_le (state.low other held)
  rw [← not_lt, level_low_iff, inner]
  simp

/-- Statements that fit leave the goroutine as it was. -/
theorem Open.before {more : Code} (state : Open rank rest)
    (fits : Fits (level rank) ceiling more rest) : Open rank (more ++ rest) :=
  ⟨fits.ordered, fun m held => state.low m (fits.balanced ▸ held)⟩

/-! ## The calls keep the order -/

/-- A section under which no script runs. -/
theorem Open.within (state : Open rank rest) {m : Mutex} (inner : m.inner = true) :
    Fits (level rank) ceiling (within m []) rest :=
  Fits.within (state.above inner) state.ordered .nil

theorem useStore_fits (state : Open rank rest) : Fits (level rank) ceiling (useStore c) rest := by
  have last := state.within (m := .ptrStore c) rfl
  exact Fits.append ((state.before last).within rfl) last

/-- `delPtrStore` clears a store while it holds the lock of the map. -/
theorem delPtrStore_fits (state : Open rank rest) (stored : Bool) :
    Fits (level rank) ceiling (delPtrStore c stored) rest := by
  apply Fits.within (state.above rfl) state.ordered
  intro inside
  cases stored with
  | false => exact .nil inside
  | true =>
    apply Fits.within ?_ inside .nil
    intro other held
    obtain rfl | before := List.mem_cons.mp held
    · change toLex (3, 0) < toLex (4, 0)
      decide
    · exact state.above rfl other before

/-- A lock under which scripts run is above what is held, as far as the rank says so. -/
theorem Open.above_outer (state : Open rank rest) {m : Mutex} (outer : m.inner = false)
    (above : ∀ other ∈ holds rest, rank other < rank m) :
    ∀ other ∈ holds rest, level rank other < level rank m := by
  intro other held
  have low := level_low_iff.mp (state.low other held)
  have ranked := above other held
  cases other <;> cases m <;> simp_all [Mutex.inner, level, Prod.Lex.toLex_lt_toLex]

/-- The goroutine after it has taken a lock under which scripts run. -/
theorem Open.inside (state : Open rank rest) {m : Mutex} (outer : m.inner = false)
    (ordered : Ordered (level rank) ceiling (.unlock m :: rest)) : Open rank (.unlock m :: rest) := by
  refine ⟨ordered, ?_⟩
  intro other held
  obtain rfl | before := List.mem_cons.mp held
  · exact level_low_iff.mpr outer
  · exact state.low other before

/-- A method fits where its context is ranked above all that is held. -/
theorem methodCode_fits (state : Open rank rest)
    (above : ∀ m ∈ holds rest, rank m < rank (.mu c)) :
    Fits (level rank) ceiling (methodCode c) rest := by
  apply Fits.within (state.above_outer rfl above) state.ordered
  intro inside
  exact Fits.run (state.inside rfl inside).low inside

/-- `LoadFileFromCache` fits where the cache is ranked above all that is held, and below the
context that it makes. -/
theorem load_fits (state : Open rank rest) (above : ∀ m ∈ holds rest, rank m < rank .cache)
    (load : Load) (next : CtxId) (new : load = .evaluated → rank .cache < rank (.mu next)) :
    Fits (level rank) ceiling ((Call.loadFileFromCache load).code next) rest := by
  have inOrder := state.above_outer rfl above
  cases load with
  | found => exact Fits.within inOrder state.ordered .nil
  | noContext =>
    apply Fits.within inOrder state.ordered
    intro inside
    exact (state.inside rfl inside).within rfl
  | evaluated =>
    apply Fits.within inOrder state.ordered
    intro inside
    have inCache := state.inside rfl inside
    have evaluate : Fits (level rank) ceiling (methodCode next) (.unlock .cache :: rest) := by
      apply methodCode_fits inCache
      intro m held
      obtain rfl | before := List.mem_cons.mp held
      · exact new rfl
      · exact lt_trans (above m before) (new rfl)
    exact Fits.append ((inCache.before evaluate).within rfl) evaluate

/-- A step in the order keeps the invariant of the locks. -/
theorem step_sound {s s' : State} {action : Action} (sound : Sound (level rank) ceiling s.locks)
    (inOrder : InOrder rank s action) (taken : step s action = some s') :
    Sound (level rank) ceiling s'.locks := by
  cases action with
  | call g call =>
    simp only [step, Option.ite_none_right_eq_some, Option.some.injEq] at taken
    obtain ⟨⟨go, _⟩, rfl⟩ := taken
    have state := Open.of_inGo (sound.ordered g) go
    apply sound.push
    cases call with
    | method name c =>
      by_cases notFunc : name = .bindFunc false
      · simpa [Call.code, notFunc] using Fits.nil state.ordered
      · rw [Call.code, if_neg notFunc]
        exact methodCode_fits state fun m held => inOrder notFunc m ((sound.owned g m).mpr held)
    | newContext => exact state.within rfl
    | loadFileFromCache load =>
      exact load_fits state (fun m held => inOrder.1 m ((sound.owned g m).mpr held)) load _
        inOrder.2
    | jsFunc c => exact Fits.run state.low state.ordered
    | freeJsContext c stored =>
      have last : Fits (level rank) ceiling [.run (.engine c)] (s.locks.code g) :=
        Fits.run state.low state.ordered
      exact Fits.append (delPtrStore_fits (state.before last) stored) last
    | freeJsRuntime c => exact Fits.run state.low state.ordered
  | useStore g c =>
    simp only [step] at taken
    split at taken
    · rename_i here rest next
      obtain rfl := Option.some.inj taken
      have ordered := sound.ordered g
      apply sound.push
      rw [next] at *
      exact useStore_fits (Open.of_engine ordered)
    · cases taken
  | goFuncBridge g =>
    simp only [step] at taken
    split at taken
    · rename_i here rest next
      obtain rfl := Option.some.inj taken
      have ordered := sound.ordered g
      apply sound.push
      rw [next] at *
      have state := Open.of_engine ordered
      have last : Fits (level rank) ceiling [.run .callback] (.run (.engine here) :: rest) :=
        Fits.run state.low state.ordered
      exact Fits.append (useStore_fits (state.before last)) last
    · cases taken
  | proceed g =>
    obtain ⟨locks, executed, rfl⟩ := Option.map_eq_some_iff.mp taken
    exact sound.execute executed

/-- In every interleaving in which, for some ranking of the contexts and the cache, a method
or `LoadFileFromCache` is called only by a goroutine that holds locks of a lower rank than
the one to be taken, and contexts made for files are ranked above the cache, no goroutine
waits for itself and no goroutines wait for each other in a circle.

Proof: the locks are taken in the order of their levels. -/
theorem no_cyclic_wait (rank : Mutex → Nat) (actions : List Action) (s : State)
    (allowed : Allowed step (InOrder rank) initial actions)
    (reached : run step initial actions = some s) : ¬ s.locks.CyclicWait := by
  have start : Sound (level rank) ceiling initial.locks :=
    ⟨fun _ => trivial, fun _ _ => by simp [initial, holds]⟩
  have sound := allowed_invariant (motive := fun s => Sound (level rank) ceiling s.locks) start
    (fun _ _ _ sound inOrder taken => step_sound sound inOrder taken) allowed reached
  exact sound.no_cyclicWait

/-- A script of context 0 calls a Go function that evaluates a script in context 1, while
another goroutine waits for context 0. -/
theorem nested_contexts : ∃ s, run step initial
      [.call 1 .newContext, .proceed 1, .proceed 1, .call 1 .newContext, .proceed 1, .proceed 1,
        .call 1 (.method .eval 0), .proceed 1, .goFuncBridge 1, .proceed 1, .proceed 1,
        .proceed 1, .proceed 1, .call 1 (.method .eval 1), .proceed 1,
        .call 2 (.method .callFunc 0)] = some s ∧
    s.locks.owner (.mu 0) = some 1 ∧ s.locks.owner (.mu 1) = some 1 ∧
    s.locks.WaitsFor 2 1 ∧ ¬ s.locks.CyclicWait := by
  refine ⟨_, rfl, rfl, rfl, ⟨.mu 0, _, rfl, rfl⟩, no_cyclic_wait
    (fun | .mu c => c + 1 | _ => 0)
    [.call 1 .newContext, .proceed 1, .proceed 1, .call 1 .newContext, .proceed 1, .proceed 1,
      .call 1 (.method .eval 0), .proceed 1, .goFuncBridge 1, .proceed 1, .proceed 1,
      .proceed 1, .proceed 1, .call 1 (.method .eval 1), .proceed 1,
      .call 2 (.method .callFunc 0)] _ ?_ rfl⟩
  refine .cons trivial rfl (.cons trivial rfl (.cons trivial rfl (.cons trivial rfl
    (.cons trivial rfl (.cons trivial rfl (.cons ?_ rfl (.cons trivial rfl (.cons trivial rfl
    (.cons trivial rfl (.cons trivial rfl (.cons trivial rfl (.cons trivial rfl (.cons ?_ rfl
    (.cons trivial rfl (.cons ?_ rfl .nil)))))))))))))))
  · intro _ m held
    simp [initial, LockOrder.State.push, Function.update_apply] at held
  · intro _ m held
    simp only [initial, LockOrder.State.push, Function.update_apply] at held
    obtain rfl : m = .mu 0 := by
      by_contra other
      simp [other] at held
    decide
  · intro _ m held
    simp only [initial, LockOrder.State.push, Function.update_apply] at held
    split_ifs at held <;> cases held

/-- A script calls a Go function that evaluates another script in the same context: the
goroutine waits for the lock it holds. -/
theorem eval_in_callback : ∃ s, run step initial
      [.call 1 .newContext, .proceed 1, .proceed 1, .call 1 (.method .eval 0), .proceed 1,
        .goFuncBridge 1, .proceed 1, .proceed 1, .proceed 1, .proceed 1,
        .call 1 (.method .eval 0)] = some s ∧ s.locks.CyclicWait := by
  refine ⟨_, rfl, 1, .single ⟨.mu 0, _, rfl, rfl⟩⟩

end GoQuickjs.Waits
