import GoQuickjs.Library.Runs
import GoQuickjs.Library.Sections
import Mathlib.Data.Finmap

/-!
# Goroutines inside the engine

Every method of `JsContext` that reaches the engine begins with `ctx.mu.Lock()` and
defers the unlock, and so does a func variable that `BindFunc` has bound. A Go
function built by `fromJsFunc` on a JS function value knows only the C context; it
calls the engine without the lock.

A goroutine is a stack of frames. Go code runs at the bottom and in the callbacks that
the engine makes; it may call any method of any context, call any function received
from an engine, and hand such functions to other goroutines. The engine may convert a
function value, call back into Go, or return. The mutex is not reentrant: a goroutine
that waits for a lock it holds itself waits forever. Deferred unlocks also run when a
frame is left by a panic, so returning covers that case.

A goroutine is inside the engine of a context while a frame of that context is
anywhere on its stack, also during a callback.
-/

namespace GoQuickjs.Locks

open Runs Sections

/-- A goroutine. -/
abbrev Goroutine := Nat

/-- A `JsContext`, with its mutex. -/
abbrev CtxId := Nat

/-- The calls of the API that take the lock. `BindFunc` is told apart by its check of
`funcVarPtr`, which is made before the lock. -/
inductive Method where
  | eval
  | evalFile
  | getGlobal
  | callFunc
  | bindFunc (isFuncPtr : Bool)
  | boundFunc
deriving DecidableEq, Repr

/-- A frame on the stack of a goroutine. -/
inductive Frame where
  /-- A call stands at `ctx.mu.Lock()`. -/
  | locking (method : Method) (c : CtxId)
  /-- A call has the lock, is inside the engine, and will unlock when it is left. -/
  | locked (method : Method) (c : CtxId)
  /-- A Go function built by `fromJsFunc` is inside the engine. -/
  | jsFunc (closure : Nat) (c : CtxId)
  /-- Go code called by the engine through `goFuncBridge`. -/
  | callback (c : CtxId)
deriving DecidableEq, Repr

namespace Frame

/-- The section of an engine that a frame keeps open, and whether it took the lock. -/
def opened : Frame → Option (CtxId × Bool)
  | .locked _ c => some (c, true)
  | .jsFunc _ c => some (c, false)
  | _ => none

/-- The context whose engine runs in a frame. -/
def engine (frame : Frame) : Option CtxId := frame.opened.map Prod.fst

end Frame

/-- The goroutine runs Go code: outside of all calls, or in a callback. -/
def inGo : List Frame → Bool
  | [] => true
  | .callback _ :: _ => true
  | _ => false

/-- Who holds each context's `mu`, the stack of each goroutine, and the functions received from the
engines with the context each of them captures. -/
structure State where
  mu : CtxId → Option Goroutine
  frames : Goroutine → List Frame
  jsFuncs : Finmap fun _ : Nat => CtxId

/-- No goroutine has called anything. -/
def initial : State := ⟨fun _ => none, fun _ => [], ∅⟩

/-- A step of a goroutine. -/
inductive Action where
  | call (g : Goroutine) (method : Method) (c : CtxId)
  | lock (g : Goroutine)
  | fromJsFunc (g : Goroutine) (closure : Nat)
  | callJsFunc (g : Goroutine) (closure : Nat)
  | goFuncBridge (g : Goroutine)
  | leave (g : Goroutine)
deriving DecidableEq, Repr

/-- The stack of a goroutine is replaced. -/
def State.setStack (s : State) (g : Goroutine) (stack : List Frame) : State :=
  { s with frames := Function.update s.frames g stack }

/-- One step. -/
def step (s : State) : Action → Option State
  | .call g method c =>
    if inGo (s.frames g) then
      if method = .bindFunc false then some s
      else some (s.setStack g (.locking method c :: s.frames g))
    else none
  | .lock g =>
    match s.frames g with
    | .locking method c :: rest =>
      if s.mu c = none then
        some { s.setStack g (.locked method c :: rest) with
          mu := Function.update s.mu c (some g) }
      else none
    | _ => none
  | .fromJsFunc g closure =>
    match (s.frames g).head?.bind Frame.engine with
    | some c =>
      if closure ∈ s.jsFuncs then none
      else some { s with jsFuncs := s.jsFuncs.insert closure c }
    | none => none
  | .callJsFunc g closure =>
    match s.jsFuncs.lookup closure with
    | some c =>
      if inGo (s.frames g) then some (s.setStack g (.jsFunc closure c :: s.frames g)) else none
    | none => none
  | .goFuncBridge g =>
    match (s.frames g).head?.bind Frame.engine with
    | some c => some (s.setStack g (.callback c :: s.frames g))
    | none => none
  | .leave g =>
    match s.frames g with
    | .locked _ c :: rest =>
      some { s.setStack g rest with mu := Function.update s.mu c none }
    | .jsFunc _ _ :: rest => some (s.setStack g rest)
    | .callback _ :: rest => some (s.setStack g rest)
    | _ => none

/-- The goroutine is inside the engine of the context. -/
def Inside (s : State) (g : Goroutine) (c : CtxId) : Prop :=
  ∃ frame ∈ s.frames g, frame.engine = some c

/-- At most one goroutine is inside the engine of each context. -/
def OnePerContext (s : State) : Prop := ∀ c g other, Inside s g c → Inside s other c → g = other

/-- A call of a Go function built by `fromJsFunc` is made by the goroutine that holds
the lock of the context it captured. -/
def HoldsLock (s : State) : Action → Prop
  | .callJsFunc g closure => ∀ c, s.jsFuncs.lookup closure = some c → s.mu c = some g
  | _ => True

/-! ## Sections of the engines -/

/-- The locks, and the sections of the engines that the frames keep open. -/
def State.monitor (s : State) : Monitor Goroutine CtxId where
  holder := s.mu
  opened := fun g => (s.frames g).filterMap Frame.opened

theorem inside_iff (s : State) (g : Goroutine) (c : CtxId) :
    Inside s g c ↔ s.monitor.Inside g c := by
  constructor
  · rintro ⟨frame, member, engine⟩
    obtain ⟨⟨_, locked⟩, kept, rfl⟩ := Option.map_eq_some_iff.mp engine
    exact ⟨locked, List.mem_filterMap.mpr ⟨frame, member, kept⟩⟩
  · rintro ⟨locked, member⟩
    obtain ⟨frame, present, kept⟩ := List.mem_filterMap.mp member
    exact ⟨frame, present, by simp [Frame.engine, kept]⟩

/-- Replacing a stack replaces the open sections of its goroutine. -/
theorem monitor_setStack (s : State) (g : Goroutine) (stack : List Frame) :
    (s.setStack g stack).monitor.opened =
      Function.update s.monitor.opened g (stack.filterMap Frame.opened) :=
  Function.comp_update (List.filterMap Frame.opened) s.frames g stack

/-- A frame that opens no section leaves the sections as they are. -/
theorem monitor_setStack_same (s : State) (g : Goroutine) (stack : List Frame)
    (same : stack.filterMap Frame.opened = (s.frames g).filterMap Frame.opened) :
    (s.setStack g stack).monitor = s.monitor := by
  have opened := monitor_setStack s g stack
  rw [same] at opened
  have unchanged : (s.setStack g stack).monitor.opened = s.monitor.opened :=
    opened.trans (Function.update_eq_self g s.monitor.opened)
  exact congrArg (Monitor.mk s.mu) unchanged

/-- Leaving a frame that keeps a section open closes that section. -/
theorem monitor_leave (s : State) (g : Goroutine) {frame : Frame} {rest : List Frame} {c : CtxId}
    {locked : Bool} (top : s.frames g = frame :: rest) (kept : frame.opened = some (c, locked)) :
    s.monitor.leave g = ⟨if locked then Function.update s.mu c none else s.mu,
      (s.setStack g rest).monitor.opened⟩ := by
  have before : s.monitor.opened g = (c, locked) :: rest.filterMap Frame.opened := by
    simp only [State.monitor, top, List.filterMap_cons, kept]
  rw [monitor_setStack]
  cases locked <;> simp only [Monitor.leave, before] <;> rfl

/-- A call that gets the lock it waited for opens a section with it. -/
theorem monitor_acquire (s : State) (g : Goroutine) {method : Method} {c : CtxId}
    {rest : List Frame} (top : s.frames g = .locking method c :: rest) :
    s.monitor.acquire g c = ⟨Function.update s.mu c (some g),
      (s.setStack g (.locked method c :: rest)).monitor.opened⟩ := by
  have before : s.monitor.opened g = rest.filterMap Frame.opened := by
    simp only [State.monitor, top, List.filterMap_cons, Frame.opened]
  rw [monitor_setStack, Monitor.acquire, before]
  rfl

/-- What a step does to the locks and sections: nothing, or a section is opened with a
free lock, opened by a received function without the lock, or closed. -/
theorem step_monitor {s s' : State} {action : Action} (taken : step s action = some s') :
    s'.monitor = s.monitor ∨
    (∃ g c, s.mu c = none ∧ s'.monitor = s.monitor.acquire g c) ∨
    (∃ g closure c, action = .callJsFunc g closure ∧ s.jsFuncs.lookup closure = some c ∧
      s'.monitor = s.monitor.enter g c) ∨
    (∃ g, s'.monitor = s.monitor.leave g) := by
  cases action with
  | call g method c =>
    simp only [step, Option.ite_none_right_eq_some] at taken
    obtain ⟨-, taken⟩ := taken
    split at taken
    · exact .inl (by rw [Option.some.inj taken])
    · obtain rfl := Option.some.inj taken
      exact .inl (monitor_setStack_same s g _ rfl)
  | lock g =>
    simp only [step] at taken
    split at taken
    · rename_i method c rest top
      simp only [Option.ite_none_right_eq_some, Option.some.injEq] at taken
      obtain ⟨free, rfl⟩ := taken
      exact .inr (.inl ⟨g, c, free, (monitor_acquire s g top).symm⟩)
    · cases taken
  | fromJsFunc g closure =>
    simp only [step] at taken
    split at taken
    · simp only [Option.ite_none_left_eq_some, Option.some.injEq] at taken
      obtain ⟨-, rfl⟩ := taken
      exact .inl rfl
    · cases taken
  | callJsFunc g closure =>
    simp only [step] at taken
    split at taken
    · rename_i c found
      simp only [Option.ite_none_right_eq_some, Option.some.injEq] at taken
      obtain ⟨-, rfl⟩ := taken
      exact .inr (.inr (.inl ⟨g, closure, c, rfl, found,
        congrArg (Monitor.mk _) (monitor_setStack s g (.jsFunc closure c :: s.frames g))⟩))
    · cases taken
  | goFuncBridge g =>
    simp only [step] at taken
    split at taken
    · obtain rfl := Option.some.inj taken
      exact .inl (monitor_setStack_same s g _ rfl)
    · cases taken
  | leave g =>
    simp only [step] at taken
    split at taken
    · rename_i method c rest top
      obtain rfl := Option.some.inj taken
      exact .inr (.inr (.inr ⟨g, (monitor_leave s g top rfl).symm⟩))
    · rename_i closure c rest top
      obtain rfl := Option.some.inj taken
      exact .inr (.inr (.inr ⟨g, (monitor_leave s g top rfl).symm⟩))
    · rename_i c rest top
      obtain rfl := Option.some.inj taken
      exact .inl (monitor_setStack_same s g rest
        (by simp only [top, List.filterMap_cons, Frame.opened]))
    · cases taken

/-- A step keeps the engine sections guarded, unless it calls a received function
without the lock. -/
theorem step_guarded {s s' : State} {action : Action} (guarded : s.monitor.Guarded)
    (holds : HoldsLock s action) (taken : step s action = some s') : s'.monitor.Guarded := by
  obtain same | ⟨g, c, free, same⟩ | ⟨g, closure, c, rfl, found, same⟩ | ⟨g, same⟩ :=
    step_monitor taken
  · exact same ▸ guarded
  · exact same ▸ guarded.acquire free
  · exact same ▸ guarded.enter (holds c found)
  · exact same ▸ guarded.leave g

/-- In every interleaving in which each call of a Go function built by `fromJsFunc` is
made by the goroutine that holds the lock of its context, at most one goroutine at a
time is inside the engine of a context.

Proof: the goroutine inside an engine holds its lock. Methods take a free lock and are
the outermost frame of their context, so leaving them leaves the engine for good;
the condition covers the calls that do not look at the lock. -/
theorem one_goroutine_per_context (actions : List Action) (s : State)
    (allowed : Allowed step HoldsLock initial actions)
    (reached : run step initial actions = some s) : OnePerContext s := by
  have start : initial.monitor.Guarded := by
    refine ⟨?_, fun _ => List.Pairwise.nil⟩
    rintro g c ⟨locked, member⟩
    cases member
  have guarded := allowed_invariant (motive := fun s => s.monitor.Guarded) start
    (fun _ _ _ kept holds taken => step_guarded kept holds taken) allowed reached
  intro c g other inside also
  exact guarded.exclusive ((inside_iff s g c).mp inside) ((inside_iff s other c).mp also)

/-- A callback of `Eval` calls the function it received, while another goroutine waits
for the lock. -/
theorem callback_calls_jsFunc : ∃ s, run step initial
      [.call 1 .eval 0, .lock 1, .fromJsFunc 1 7, .goFuncBridge 1, .call 2 .getGlobal 0,
        .callJsFunc 1 7] = some s ∧
    s.frames 1 = [.jsFunc 7 0, .callback 0, .locked .eval 0] ∧
    s.frames 2 = [.locking .getGlobal 0] ∧ OnePerContext s := by
  refine ⟨_, rfl, rfl, rfl, one_goroutine_per_context
    [.call 1 .eval 0, .lock 1, .fromJsFunc 1 7, .goFuncBridge 1, .call 2 .getGlobal 0,
      .callJsFunc 1 7] _ ?_ rfl⟩
  refine .cons trivial rfl (.cons trivial rfl (.cons trivial rfl (.cons trivial rfl
    (.cons trivial rfl (.cons ?_ rfl .nil)))))
  intro c found
  obtain rfl : 0 = c := Option.some.inj found
  rfl

/-- `GetGlobal` gives a goroutine a Go function for a JS function. It calls it after
`GetGlobal` has returned, while another goroutine runs `Eval`: both are in the engine. -/
theorem two_goroutines_in_engine : ∃ s, run step initial
      [.call 1 .getGlobal 0, .lock 1, .fromJsFunc 1 7, .leave 1, .callJsFunc 1 7,
        .call 2 .eval 0, .lock 2] = some s ∧
    s.frames 1 = [.jsFunc 7 0] ∧ s.frames 2 = [.locked .eval 0] ∧ ¬ OnePerContext s := by
  refine ⟨_, rfl, rfl, rfl, fun one => ?_⟩
  have same := one 0 1 2 ⟨.jsFunc 7 0, by decide, rfl⟩ ⟨.locked .eval 0, by decide, rfl⟩
  cases same

end GoQuickjs.Locks
