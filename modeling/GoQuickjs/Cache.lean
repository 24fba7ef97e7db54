import GoQuickjs.Library.Runs
import Mathlib.Logic.Function.Basic
import Mathlib.Data.List.Nodup

/-!
# The cache of loaded script files

`LoadFileFromCache` keeps one context for each path, with the modification time that
`os.Stat` gave when the context was stored. It runs under the lock of the cache from
its first to its last statement, so that at most one call is on its way; the files are
written by anyone at any time. The first load of a path reads the file and then asks
for its time, a reload asks for the time and then reads.

A file is the list of the times of its contents, and the n-th content is named by its
number. A write brings a new content with a time that the file never had; a file may
also be removed. Of a context nothing counts here but the content that was evaluated
in it. Loading a file fails when there is none, when no context can be made, and when
the script throws; it panics when a variable cannot be handed to the engine or the result
of the script cannot be converted.
-/

namespace GoQuickjs.Cache

open Runs

/-- A file name. -/
abbrev Path := List UInt8

/-- A `time.Time`, which is only compared by `Equal`. -/
abbrev ModTime := Int

/-- A `*JsContext` that a load has made, by its number. -/
abbrev CtxId := Nat

/-- The times of all contents of a file, oldest first, and whether it exists now. -/
structure File where
  times : List ModTime
  present : Bool
deriving DecidableEq

/-- `os.Stat` and `ModTime`. -/
def File.modTime (file : File) : Option ModTime := if file.present then file.times.getLast? else none

/-- The content that `js_load_file` reads. -/
def File.content (file : File) : Option Nat :=
  if file.present then some (file.times.length - 1) else none

/-- The type `jsCtx`. -/
structure JsCtx where
  jsvm : CtxId
  mt : ModTime
deriving DecidableEq

/-- How a call ends. `panicked` is the nil dereference in `fi.ModTime()`, or a panic that
comes out of `EvalFile`. -/
inductive Result where
  | ok (ctx : CtxId) (existing : Bool)
  | failed
  | panicked
deriving DecidableEq

/-- How a new context is made and a file that could be read is evaluated in it: without
an error, with one, or by a panic in the conversion of the variables or of the result. -/
inductive Loading where
  | succeeds
  | fails
  | panics
deriving DecidableEq

/-- The statement of `LoadFileFromCache` that comes next. -/
inductive Place where
  /-- `createJSContext` of the first load. -/
  | createFirst
  /-- `os.Stat` of the first load. -/
  | statFirst (ctx : CtxId)
  /-- The new entry of the first load. -/
  | storeFirst (ctx : CtxId) (mt : ModTime)
  /-- `os.Stat` for an entry, and the comparison. -/
  | statAgain (jsC : JsCtx)
  /-- `createJSContext` of a reload. -/
  | createAgain (mt : ModTime)
  /-- The assignments to the entry. -/
  | storeAgain (ctx : CtxId) (mt : ModTime)
  /-- The deferred unlock. -/
  | returning (result : Result)
deriving DecidableEq

/-- A running call, with the time that its `os.Stat` has seen. -/
structure Call where
  path : Path
  seen : Option ModTime
  place : Place
deriving DecidableEq

/-- The files, the content evaluated in each context, the variable `jsCtxCache`, and the
call that holds the lock. -/
structure State where
  files : Path → File
  evaluated : List (Path × Nat)
  jsCtxCache : Path → Option JsCtx
  call : Option Call

/-- No file, an empty cache. -/
def initial : State := ⟨fun _ => ⟨[], false⟩, [], fun _ => none, none⟩

namespace State

/-- The running call goes on. -/
def goOn (s : State) (call : Call) (place : Place) : State :=
  { s with call := some { call with place := place } }

/-- `createJSContext`: a new context, in which the present content of the file has been
evaluated, or how the call ends. -/
def createJSContext (s : State) (path : Path) (loading : Loading) : Except Result (CtxId × State) :=
  match (s.files path).content with
  | some content =>
    match loading with
    | .succeeds =>
      .ok (s.evaluated.length, { s with evaluated := s.evaluated ++ [(path, content)] })
    | .fails => .error .failed
    | .panics => .error .panicked
  | none => .error .failed

/-- `createJSContext` in a call, which ends where it fails. -/
def create (s : State) (call : Call) (loading : Loading) (next : CtxId → Place) : State :=
  match s.createJSContext call.path loading with
  | .ok (ctx, s) => s.goOn call (next ctx)
  | .error result => s.goOn call (.returning result)

/-- The entry of a path is set. -/
def store (s : State) (path : Path) (jsC : JsCtx) : State :=
  { s with jsCtxCache := Function.update s.jsCtxCache path (some jsC) }

/-- The next statement of a call. -/
def advance (s : State) (call : Call) (loading : Loading) : State :=
  match call.place with
  | .createFirst => s.create call loading .statFirst
  | .statFirst ctx =>
    match (s.files call.path).modTime with
    | some mt => s.goOn { call with seen := some mt } (.storeFirst ctx mt)
    | none => s.goOn call (.returning .panicked)
  | .storeFirst ctx mt => (s.store call.path ⟨ctx, mt⟩).goOn call (.returning (.ok ctx false))
  | .statAgain jsC =>
    match (s.files call.path).modTime with
    | some mt =>
      if jsC.mt = mt then s.goOn { call with seen := some mt } (.returning (.ok jsC.jsvm true))
      else s.goOn { call with seen := some mt } (.createAgain mt)
    | none => s.goOn call (.returning .failed)
  | .createAgain mt => s.create call loading fun ctx => .storeAgain ctx mt
  | .storeAgain ctx mt => (s.store call.path ⟨ctx, mt⟩).goOn call (.returning (.ok ctx false))
  | .returning _ => { s with call := none }

end State

/-- A step: a call takes the lock and looks its path up, the call that has the lock goes
on, or someone writes or removes a file. -/
inductive Action where
  | load (path : Path)
  | advance (loading : Loading)
  | write (path : Path) (mt : ModTime)
  | remove (path : Path)
deriving DecidableEq

/-- One step. A write brings a time that the file never had. -/
def step (s : State) : Action → Option State
  | .load path =>
    match s.call with
    | some _ => none
    | none =>
      match s.jsCtxCache path with
      | some jsC => some { s with call := some ⟨path, none, .statAgain jsC⟩ }
      | none => some { s with call := some ⟨path, none, .createFirst⟩ }
  | .advance loading => s.call.map fun call => s.advance call loading
  | .write path mt =>
    if mt ∈ (s.files path).times then none
    else
      some { s with files := Function.update s.files path ⟨(s.files path).times ++ [mt], true⟩ }
  | .remove path =>
    some { s with files := Function.update s.files path { s.files path with present := false } }

/-! ## What is promised -/

/-- The content that was evaluated in the context of an entry is at least as new as the
one with the time of the entry. -/
def Current (s : State) (path : Path) (jsC : JsCtx) : Prop :=
  ∃ stamped content, (s.files path).times[stamped]? = some jsC.mt ∧
    s.evaluated[jsC.jsvm]? = some (path, content) ∧ stamped ≤ content

/-- The content with the time that the call has seen was evaluated in the context. -/
def Exact (s : State) (call : Call) (ctx : CtxId) : Prop :=
  ∃ mt content, call.seen = some mt ∧ (s.files call.path).times[content]? = some mt ∧
    s.evaluated[ctx]? = some (call.path, content)

/-- No entry is stale, and neither is a context that a call returns as existing. -/
def NeverStale (s : State) : Prop :=
  (∀ path jsC, s.jsCtxCache path = some jsC → Current s path jsC) ∧
    ∀ call ctx, s.call = some call → call.place = .returning (.ok ctx true) → Exact s call ctx

/-- The step writes no file whose first load has read it and not yet asked for its time. -/
def NotBetween (s : State) : Action → Prop
  | .write path _ => ∀ call ctx, s.call = some call → call.place = .statFirst ctx → call.path ≠ path
  | _ => True

/-! ## What is known at each statement -/

variable {s s' : State} {call : Call} {path : Path} {jsC : JsCtx} {ctx : CtxId}

/-- What is known where the running call stands. -/
def At (s : State) (call : Call) : Prop :=
  match call.place with
  | .statFirst ctx => ∃ content, s.evaluated[ctx]? = some (call.path, content) ∧
      content + 1 = (s.files call.path).times.length
  | .storeFirst ctx mt | .storeAgain ctx mt => Current s call.path ⟨ctx, mt⟩
  | .statAgain jsC => Current s call.path jsC
  | .createAgain mt => ∃ stamped : Nat, (s.files call.path).times[stamped]? = some mt
  | .returning (.ok ctx true) => Exact s call ctx
  | .createFirst | .returning _ => True

/-- The invariant. Files that exist have a content, times are not repeated, and only
contents that were written have been evaluated. -/
structure Sound (s : State) : Prop where
  written : ∀ path, (s.files path).present = true → (s.files path).times ≠ []
  distinct : ∀ path, (s.files path).times.Nodup
  known : ∀ (ctx : CtxId) path content, s.evaluated[ctx]? = some (path, content) →
    content < (s.files path).times.length
  entries : ∀ path jsC, s.jsCtxCache path = some jsC → Current s path jsC
  place : ∀ call, s.call = some call → At s call

/-- Nothing that was written or evaluated is forgotten. -/
structure Grows (s s' : State) : Prop where
  times : ∀ path, (s.files path).times <+: (s'.files path).times
  evaluated : s.evaluated <+: s'.evaluated

/-- What a list holds at a position is held by every longer list. -/
theorem getElem?_of_prefix {α : Type} {first longer : List α} {n : Nat} {x : α}
    (begins : first <+: longer) (found : first[n]? = some x) : longer[n]? = some x := by
  obtain ⟨more, rfl⟩ := begins
  obtain ⟨inside, _⟩ := List.getElem?_eq_some_iff.mp found
  rw [List.getElem?_append_left inside, found]

theorem Grows.time (grows : Grows s s') {n : Nat} {mt : ModTime}
    (found : (s.files path).times[n]? = some mt) : (s'.files path).times[n]? = some mt :=
  getElem?_of_prefix (grows.times path) found

theorem Grows.content (grows : Grows s s') {content : Path × Nat}
    (found : s.evaluated[ctx]? = some content) : s'.evaluated[ctx]? = some content :=
  getElem?_of_prefix grows.evaluated found

theorem Current.grows (current : Current s path jsC) (grows : Grows s s') : Current s' path jsC := by
  obtain ⟨stamped, content, time, evaluated, newer⟩ := current
  exact ⟨stamped, content, grows.time time, grows.content evaluated, newer⟩

theorem Exact.grows (exact' : Exact s call ctx) (grows : Grows s s') : Exact s' call ctx := by
  obtain ⟨mt, content, seen, time, evaluated⟩ := exact'
  exact ⟨mt, content, seen, grows.time time, grows.content evaluated⟩

/-- What is known at a statement stays known, but for the content of the file that was
read being the newest. -/
theorem At.grows (known : At s call) (grows : Grows s s')
    (unwritten : ∀ ctx, call.place = .statFirst ctx →
      (s'.files call.path).times = (s.files call.path).times) : At s' call := by
  obtain ⟨path, seen, place⟩ := call
  cases place with
  | createFirst => trivial
  | statFirst ctx =>
    obtain ⟨content, evaluated, newest⟩ := known
    exact ⟨content, grows.content evaluated, by rw [newest, unwritten ctx rfl]⟩
  | storeFirst ctx mt => exact Current.grows known grows
  | statAgain jsC => exact Current.grows known grows
  | createAgain mt =>
    obtain ⟨stamped, time⟩ := known
    exact ⟨stamped, grows.time time⟩
  | storeAgain ctx mt => exact Current.grows known grows
  | returning result =>
    cases result with
    | ok ctx existing =>
      cases existing with
      | true => exact Exact.grows known grows
      | false => trivial
    | failed => trivial
    | panicked => trivial

/-! ## One step keeps the invariant -/

theorem initial_sound : Sound initial := by
  refine ⟨by simp [initial], by simp [initial], by simp [initial], by simp [initial], ?_⟩
  simp [initial]

/-- The time of a file is that of its last content. -/
theorem Sound.newest (sound : Sound s) {mt : ModTime} (seen : (s.files path).modTime = some mt) :
    ∃ last, last + 1 = (s.files path).times.length ∧ (s.files path).times[last]? = some mt := by
  simp only [File.modTime] at seen
  split at seen
  · rename_i present
    have some_content := List.length_pos_iff.mpr (sound.written path present)
    rw [List.getLast?_eq_getElem?] at seen
    exact ⟨_, by omega, seen⟩
  · cases seen

/-- The running call goes on to a statement for which all is known. -/
theorem Sound.goOn (sound : Sound s) {next : Call} (known : At s next) :
    Sound { s with call := some next } := by
  refine ⟨sound.written, sound.distinct, sound.known, sound.entries, ?_⟩
  rintro call same
  obtain rfl := Option.some.inj same
  exact known

/-- An entry that is not stale is stored. -/
theorem Sound.store (sound : Sound s) (current : Current s path jsC) (call : Call)
    (done : At s call) : Sound { s.store path jsC with call := some call } := by
  refine Sound.goOn (s := s.store path jsC) ⟨sound.written, sound.distinct, sound.known, ?_, ?_⟩ done
  · intro other found stored
    change Function.update s.jsCtxCache path (some jsC) other = some found at stored
    by_cases same : other = path
    · subst same
      rw [Function.update_self] at stored
      exact Option.some.inj stored ▸ current
    · rw [Function.update_of_ne same] at stored
      exact sound.entries other found stored
  · intro call same
    exact sound.place call same

/-- A content is evaluated in a new context. -/
theorem Sound.evaluate (sound : Sound s) {content : Nat}
    (newest : content + 1 = (s.files path).times.length) :
    Sound { s with evaluated := s.evaluated ++ [(path, content)] } := by
  have grows : Grows s { s with evaluated := s.evaluated ++ [(path, content)] } :=
    ⟨fun _ => List.prefix_rfl, List.prefix_append _ _⟩
  refine ⟨sound.written, sound.distinct, ?_, ?_, ?_⟩
  · intro ctx other evaluated found
    rw [List.getElem?_append] at found
    split at found
    · exact sound.known ctx other evaluated found
    · obtain ⟨rfl, rfl⟩ := Prod.mk.inj (List.mem_singleton.mp (List.mem_of_getElem? found))
      exact Nat.lt_of_succ_le (Nat.le_of_eq newest)
  · intro other jsC stored
    exact (sound.entries other jsC stored).grows grows
  · intro call same
    exact (sound.place call same).grows grows fun _ _ => rfl

/-- Loading a file either fails or evaluates its newest content in a new context, with
which the call goes on. -/
theorem Sound.create (sound : Sound s) (loading : Loading) {next : CtxId → Place}
    (known : ∀ content, content + 1 = (s.files call.path).times.length →
      At { s with evaluated := s.evaluated ++ [(call.path, content)] }
        { call with place := next s.evaluated.length }) :
    Sound (s.create call loading next) := by
  simp only [State.create, State.createJSContext]
  cases read : (s.files call.path).content with
  | none => exact sound.goOn trivial
  | some content =>
    cases loading with
    | fails => exact sound.goOn trivial
    | panics => exact sound.goOn trivial
    | succeeds =>
      have newest : content + 1 = (s.files call.path).times.length := by
        simp only [File.content, Option.ite_none_right_eq_some, Option.some.injEq] at read
        have some_content := List.length_pos_iff.mpr (sound.written call.path read.1)
        omega
      exact (sound.evaluate newest).goOn (known content newest)

/-- A call takes its next statement.

Proof: by the statement. The first load stores the time of the newest content if the
content it read is the newest still; a reload reads after it asked for the time. An
entry whose time is that of the newest content was made of it, since it was made of no
older one and there is no newer one. -/
theorem Sound.advance (sound : Sound s) (running : s.call = some call) (loading : Loading) :
    Sound (s.advance call loading) := by
  have known := sound.place call running
  obtain ⟨path, seen, place⟩ := call
  cases place with
  | createFirst =>
    apply sound.create loading
    intro content newest
    exact ⟨content, List.getElem?_concat_length, newest⟩
  | statFirst ctx =>
    obtain ⟨content, evaluated, newest⟩ := known
    simp only [State.advance]
    split
    · rename_i mt time
      obtain ⟨last, same, stamped⟩ := sound.newest time
      have still : last + 1 = content + 1 := same.trans newest.symm
      exact sound.goOn ⟨last, content, stamped, evaluated, by omega⟩
    · exact sound.goOn trivial
  | storeFirst ctx mt => exact sound.store known _ trivial
  | statAgain jsC =>
    obtain ⟨stamped, content, time, evaluated, newer⟩ := known
    simp only [State.advance]
    split
    · rename_i mt now
      obtain ⟨last, same, newest⟩ := sound.newest now
      split
      · rename_i unchanged
        have evaluatedBefore := sound.known jsC.jsvm path content evaluated
        have stampedLast : stamped = last :=
          (List.getElem?_inj (List.getElem?_eq_some_iff.mp time).1 (sound.distinct path)).mp
            (by rw [time, newest, unchanged])
        obtain rfl : content = last := by omega
        exact sound.goOn ⟨mt, content, rfl, newest, evaluated⟩
      · exact sound.goOn ⟨last, newest⟩
    · exact sound.goOn trivial
  | createAgain mt =>
    obtain ⟨stamped, time⟩ := known
    obtain ⟨inside, _⟩ := List.getElem?_eq_some_iff.mp time
    apply sound.create loading
    intro content newest
    exact ⟨stamped, content, time, List.getElem?_concat_length, by omega⟩
  | storeAgain ctx mt => exact sound.store known _ trivial
  | returning result => exact ⟨sound.written, sound.distinct, sound.known, sound.entries, by simp [State.advance]⟩

/-- A file is changed: its contents stay, and more may be written unless a first load is
between its reading of the file and its `os.Stat`. -/
theorem Sound.change (sound : Sound s) {file : File} (kept : (s.files path).times <+: file.times)
    (written : file.present = true → file.times ≠ []) (distinct : file.times.Nodup)
    (unwritten : ∀ call ctx, s.call = some call → call.place = .statFirst ctx →
      call.path = path → file.times = (s.files path).times) :
    Sound { s with files := Function.update s.files path file } := by
  have grows : Grows s { s with files := Function.update s.files path file } := by
    refine ⟨?_, List.prefix_rfl⟩
    intro other
    by_cases same : other = path
    · subst same
      simpa using kept
    · simp [Function.update_of_ne same]
  refine ⟨?_, ?_, ?_, ?_, ?_⟩
  · intro other
    by_cases same : other = path
    · subst same
      simpa using written
    · simpa [Function.update_of_ne same] using sound.written other
  · intro other
    by_cases same : other = path
    · subst same
      simpa using distinct
    · simpa [Function.update_of_ne same] using sound.distinct other
  · intro ctx other content evaluated
    exact Nat.lt_of_lt_of_le (sound.known ctx other content evaluated) (grows.times other).length_le
  · intro other jsC stored
    exact (sound.entries other jsC stored).grows grows
  · intro call running
    apply (sound.place call running).grows grows
    intro ctx between
    by_cases same : call.path = path
    · change (Function.update s.files path file call.path).times = _
      rw [same, Function.update_self, unwritten call ctx running between same]
    · change (Function.update s.files path file call.path).times = _
      rw [Function.update_of_ne same]

/-- A step keeps the invariant, unless it writes a file between the reading and the
`os.Stat` of its first load. -/
theorem step_sound {action : Action} (sound : Sound s) (between : NotBetween s action)
    (taken : step s action = some s') : Sound s' := by
  cases action with
  | load path =>
    simp only [step] at taken
    split at taken
    · cases taken
    · split at taken
      · rename_i jsC stored
        obtain rfl := Option.some.inj taken
        exact sound.goOn (sound.entries path jsC stored)
      · obtain rfl := Option.some.inj taken
        exact sound.goOn trivial
  | advance loading =>
    obtain ⟨call, running, rfl⟩ := Option.map_eq_some_iff.mp taken
    exact sound.advance running loading
  | write path mt =>
    simp only [step, Option.ite_none_left_eq_some, Option.some.injEq] at taken
    obtain ⟨new, rfl⟩ := taken
    apply sound.change (List.prefix_append _ _)
    · simp
    · exact List.nodup_append.mpr ⟨sound.distinct path, List.nodup_singleton mt, by
        intro time found other only same
        exact new (List.mem_singleton.mp only ▸ same ▸ found)⟩
    · intro call ctx running place same
      exact absurd same (between call ctx running place)
  | remove path =>
    obtain rfl := Option.some.inj taken
    exact sound.change List.prefix_rfl (by simp) (sound.distinct path) fun _ _ _ _ _ => rfl

/-- In every interleaving of loads with writes and removals of files, in which no file is
written between the moment its first load reads it and the moment that load asks for its
time, no entry of the cache is stale, and every context that a call returns as existing
is one in which the content with the time seen by that call was evaluated. -/
theorem never_stale (actions : List Action) (s : State)
    (allowed : Allowed step NotBetween initial actions)
    (reached : run step initial actions = some s) : NeverStale s := by
  have sound := allowed_invariant (motive := Sound) initial_sound
    (fun _ _ _ sound between taken => step_sound sound between taken) allowed reached
  refine ⟨sound.entries, ?_⟩
  rintro ⟨path, seen, place⟩ ctx running rfl
  exact sound.place _ running

/-- A file is written after its first load has asked for its time: the next load sees
another time, loads it again, and the load after that returns the context as existing. -/
theorem reload_is_current : ∃ s, run step initial
      [.write [1] 10, .load [1], .advance .succeeds, .advance .succeeds, .write [1] 20,
        .advance .succeeds, .advance .succeeds, .load [1], .advance .succeeds, .advance .succeeds,
        .advance .succeeds, .advance .succeeds, .load [1], .advance .succeeds] = some s ∧
    s.call = some ⟨[1], some 20, .returning (.ok 1 true)⟩ ∧ s.evaluated[1]? = some ([1], 1) ∧
    NeverStale s := by
  refine ⟨_, rfl, rfl, rfl, never_stale
    [.write [1] 10, .load [1], .advance .succeeds, .advance .succeeds, .write [1] 20,
      .advance .succeeds, .advance .succeeds, .load [1], .advance .succeeds, .advance .succeeds,
      .advance .succeeds, .advance .succeeds, .load [1], .advance .succeeds] _ ?_ rfl⟩
  refine .cons ?_ rfl (.cons trivial rfl (.cons trivial rfl (.cons trivial rfl (.cons ?_ rfl
    (.cons trivial rfl (.cons trivial rfl (.cons trivial rfl (.cons trivial rfl (.cons trivial rfl
    (.cons trivial rfl (.cons trivial rfl (.cons trivial rfl (.cons trivial rfl .nil)))))))))))))
  · intro call ctx running
    cases running
  · intro call ctx running place
    cases running
    cases place

/-- A file is written after its first load has read it and before that load asks for its
time. The next load sees the same time and returns the context of the old content. -/
theorem first_load_stale : ∃ s, run step initial
      [.write [1] 10, .load [1], .advance .succeeds, .write [1] 20, .advance .succeeds,
        .advance .succeeds, .advance .succeeds, .load [1], .advance .succeeds] = some s ∧
    s.call = some ⟨[1], some 20, .returning (.ok 0 true)⟩ ∧ s.evaluated[0]? = some ([1], 0) ∧
    (s.files [1]).times[1]? = some 20 ∧ ¬ NeverStale s := by
  refine ⟨_, rfl, rfl, rfl, rfl, fun fresh => ?_⟩
  obtain ⟨mt, content, seen, time, evaluated⟩ := fresh.2 _ 0 rfl rfl
  cases seen
  cases evaluated
  cases time

end GoQuickjs.Cache
