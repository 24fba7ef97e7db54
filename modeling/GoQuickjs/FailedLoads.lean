import GoQuickjs.Cache

/-!
# Loads that fail

A call of `LoadFileFromCache` ends after at most three statements with a context, with
an error or by a panic. While it runs nobody else writes to the cache, and it writes to
the entry of its path only, as its last statement before it returns a context.

It panics in `fi.ModTime()` when the file is gone before its first load asks for its
time, as the error of `os.Stat` is dropped there, and when a conversion panics.
-/

namespace GoQuickjs.Cache

open Runs

/-- The statements that a call has left before it returns, at most. -/
def Place.left : Place → Nat
  | .createFirst | .statAgain _ => 3
  | .statFirst _ | .createAgain _ => 2
  | .storeFirst _ _ | .storeAgain _ _ => 1
  | .returning _ => 0

/-- The running call takes its next statement. -/
def Action.advances : Action → Bool
  | .advance _ => true
  | _ => false

/-- Someone calls `LoadFileFromCache`. -/
def Action.loads : Action → Bool
  | .load _ => true
  | _ => false

/-- What is left of the cache when a load of the path returns: it changes the entry of its
path when it succeeds, and nothing when it reports an error. -/
def Reported (path : Path) (before after : State) : Result → Prop
  | .ok _ _ => ∀ other, other ≠ path → after.jsCtxCache other = before.jsCtxCache other
  | .failed => after.jsCtxCache = before.jsCtxCache
  | .panicked => False

/-- Every call in these actions ends, after at most three statements, and reports how. -/
def EndsWell (actions : List Action) : Prop :=
  ∀ earlier path during later before after call, actions = earlier ++ .load path :: during ++ later →
    (∀ action ∈ during, action.loads = false) → run step initial earlier = some before →
    run step before (.load path :: during) = some after → after.call = some call →
    during.countP Action.advances + call.place.left ≤ 3 ∧
      ∀ result, call.place = .returning result → Reported path before after result

/-- The step removes no file between the moment its first load reads it and the moment that
load asks for its time, and no panic comes out of the evaluation of a file. -/
def Undisturbed (s : State) : Action → Prop
  | .remove path => ∀ call ctx, s.call = some call → call.place = .statFirst ctx → call.path ≠ path
  | .advance .panics => ∀ call, s.call = some call → (s.files call.path).present = true →
      call.place ≠ .createFirst ∧ ∀ mt, call.place ≠ .createAgain mt
  | _ => True

/-! ## What a running call has done -/

/-- What is known where the call stands: the cache is as it was until the call stores its
entry, and the file is there while its first load has read it. -/
def Stands (path : Path) (before s : State) : Place → Prop
  | .returning result => Reported path before s result
  | .statFirst _ => (s.files path).present = true ∧ s.jsCtxCache = before.jsCtxCache
  | _ => s.jsCtxCache = before.jsCtxCache

/-- The invariant of a call that has taken a number of statements. -/
structure Inside (path : Path) (before : State) (taken : Nat) (s : State) : Prop where
  written : ∀ path, (s.files path).present = true → (s.files path).times ≠ []
  place : ∀ call, s.call = some call →
    call.path = path ∧ taken + call.place.left ≤ 3 ∧ Stands path before s call.place

variable {path : Path} {before s s' : State} {taken : Nat} {call next : Call}

/-- The call goes on, in a state with the same files. -/
theorem Inside.goOn (inside : Inside path before taken s) (files : s'.files = s.files)
    (here : s'.call = some next) (same : next.path = path)
    (few : taken + 1 + next.place.left ≤ 3) (stands : Stands path before s' next.place) :
    Inside path before (taken + 1) s' := by
  refine ⟨?_, ?_⟩
  · rw [files]
    exact inside.written
  · intro other running
    obtain rfl := Option.some.inj (here.symm.trans running)
    exact ⟨same, few, stands⟩

/-- Making a context leaves the cache alone; it fails, or the file is there. -/
theorem Inside.create (inside : Inside path before taken s) (same : call.path = path)
    (cache : s.jsCtxCache = before.jsCtxCache) (loading : Loading) {next : CtxId → Place}
    (calm : loading = .panics → (s.files call.path).present = false)
    (few : ∀ ctx, taken + 1 + (next ctx).left ≤ 3)
    (stands : ∀ ctx s', s'.jsCtxCache = before.jsCtxCache → (s'.files path).present = true →
      Stands path before s' (next ctx)) :
    Inside path before (taken + 1) (s.create call loading next) := by
  have failed : Inside path before (taken + 1) (s.goOn call (.returning .failed)) :=
    inside.goOn rfl rfl same (by have := few 0; simp only [Place.left]; omega) cache
  simp only [State.create, State.createJSContext]
  cases read : (s.files call.path).content with
  | none => exact failed
  | some content =>
    have present : (s.files call.path).present = true := by
      simp only [File.content, Option.ite_none_right_eq_some] at read
      exact read.1
    cases loading with
    | succeeds =>
      change Inside path before (taken + 1) (State.goOn _ call (next s.evaluated.length))
      exact inside.goOn rfl rfl same (few _) (stands _ _ cache (same ▸ present))
    | fails => exact failed
    | panics =>
      rw [calm rfl] at present
      cases present

/-- Storing an entry changes that of its path only. -/
theorem store_reported {jsC : JsCtx} {call : Option Call} (ctx : CtxId)
    (cache : s.jsCtxCache = before.jsCtxCache) :
    Reported path before { s.store path jsC with call := call } (.ok ctx false) := by
  intro other different
  exact (Function.update_of_ne different _ _).trans (congrFun cache other)

/-- The call takes its next statement.

Proof: by the statement. The first load finds the time of its file, since the file was
there when it was read and has not been removed since. -/
theorem Inside.advance (inside : Inside path before taken s) (running : s.call = some call)
    {loading : Loading} (undisturbed : Undisturbed s (.advance loading)) :
    Inside path before (taken + 1) (s.advance call loading) := by
  obtain ⟨same, few, stands⟩ := inside.place call running
  obtain ⟨here, seen, place⟩ := call
  obtain rfl : here = path := same
  cases place with
  | createFirst =>
    refine inside.create rfl stands loading ?_ (fun _ => few) ?_
    · rintro rfl
      by_contra present
      exact (undisturbed _ running (Bool.not_eq_false _ ▸ present)).1 rfl
    · intro ctx s' cache present
      exact ⟨present, cache⟩
  | statFirst ctx =>
    obtain ⟨present, cache⟩ := stands
    have stat : (s.files here).modTime = (s.files here).times.getLast? := if_pos present
    obtain ⟨mt, last⟩ := Option.ne_none_iff_exists'.mp
      (mt List.getLast?_eq_none_iff.mp (inside.written here present))
    simp only [State.advance, stat, last]
    exact inside.goOn rfl rfl rfl few cache
  | storeFirst ctx mt =>
    exact inside.goOn rfl rfl rfl few (store_reported ctx stands)
  | statAgain jsC =>
    simp only [State.advance]
    split
    · split
      · exact inside.goOn rfl rfl rfl (by simp only [Place.left] at few ⊢; omega)
          fun other _ => congrFun stands other
      · exact inside.goOn rfl rfl rfl few stands
    · exact inside.goOn rfl rfl rfl (by simp only [Place.left] at few ⊢; omega) stands
  | createAgain mt =>
    refine inside.create rfl stands loading ?_ (fun _ => few) ?_
    · rintro rfl
      by_contra present
      exact (undisturbed _ running (Bool.not_eq_false _ ▸ present)).2 mt rfl
    · intro ctx s' cache _
      exact cache
  | storeAgain ctx mt =>
    exact inside.goOn rfl rfl rfl few (store_reported ctx stands)
  | returning result => exact ⟨inside.written, by simp [State.advance]⟩

/-- A file is changed by someone else, and kept while its first load has read it. -/
theorem Inside.change (inside : Inside path before taken s) {other : Path} {file : File}
    (written : file.present = true → file.times ≠ [])
    (kept : ∀ call ctx, s.call = some call → call.place = .statFirst ctx → call.path = other →
      file.present = true) :
    Inside path before taken { s with files := Function.update s.files other file } := by
  refine ⟨?_, ?_⟩
  · intro changed
    by_cases same : changed = other
    · subst same
      simpa using written
    · simpa [Function.update_of_ne same] using inside.written changed
  · intro call running
    obtain ⟨here, few, stands⟩ := inside.place call running
    refine ⟨here, few, ?_⟩
    obtain ⟨loaded, seen, place⟩ := call
    obtain rfl : loaded = path := here
    cases place with
    | statFirst ctx =>
      refine ⟨?_, stands.2⟩
      by_cases same : loaded = other
      · subst same
        simpa using kept _ ctx running rfl rfl
      · simpa [Function.update_of_ne same] using stands.1
    | returning result =>
      cases result with
      | ok ctx existing => exact stands
      | failed => exact stands
      | panicked => exact stands
    | _ => exact stands

/-- A step that is not another load keeps the invariant. -/
theorem Inside.stepped {action : Action} (inside : Inside path before taken s)
    (undisturbed : Undisturbed s action) (noLoad : action.loads = false)
    (stepped : step s action = some s') :
    Inside path before (taken + if action.advances then 1 else 0) s' := by
  cases action with
  | load path => cases noLoad
  | advance loading =>
    obtain ⟨call, running, rfl⟩ := Option.map_eq_some_iff.mp stepped
    exact inside.advance running undisturbed
  | write path mt =>
    simp only [step, Option.ite_none_left_eq_some, Option.some.injEq] at stepped
    obtain ⟨_, rfl⟩ := stepped
    exact inside.change (by simp) fun _ _ _ _ _ => rfl
  | remove path =>
    obtain rfl := Option.some.inj stepped
    apply inside.change (by simp)
    intro call ctx running place same
    exact absurd same (undisturbed call ctx running place)

/-- A call writes no file. -/
theorem advance_files (s : State) (call : Call) (loading : Loading) :
    (s.advance call loading).files = s.files := by
  have create : ∀ next, (s.create call loading next).files = s.files := by
    intro next
    simp only [State.create, State.createJSContext]
    cases (s.files call.path).content with
    | none => rfl
    | some content => cases loading <;> rfl
  obtain ⟨path, seen, place⟩ := call
  cases place with
  | createFirst => exact create _
  | createAgain mt => exact create _
  | statFirst ctx =>
    simp only [State.advance]
    split <;> rfl
  | statAgain jsC =>
    simp only [State.advance]
    split
    · split <;> rfl
    · rfl
  | _ => rfl

/-- A file that exists has a content. -/
theorem step_written {action : Action}
    (written : ∀ path, (s.files path).present = true → (s.files path).times ≠ [])
    (stepped : step s action = some s') :
    ∀ path, (s'.files path).present = true → (s'.files path).times ≠ [] := by
  have idle : Inside [] s 0 { s with call := none } := ⟨written, by simp⟩
  cases action with
  | load path =>
    simp only [step] at stepped
    split at stepped
    · cases stepped
    · split at stepped <;> exact Option.some.inj stepped ▸ written
  | advance loading =>
    obtain ⟨call, _, rfl⟩ := Option.map_eq_some_iff.mp stepped
    rw [advance_files]
    exact written
  | write path mt =>
    simp only [step, Option.ite_none_left_eq_some, Option.some.injEq] at stepped
    obtain ⟨_, rfl⟩ := stepped
    exact (idle.change (by simp) (by simp)).written
  | remove path =>
    obtain rfl := Option.some.inj stepped
    exact (idle.change (by simp) (by simp)).written

/-- A call begins. -/
theorem Inside.load (written : ∀ path, (s.files path).present = true → (s.files path).times ≠ [])
    (stepped : step s (.load path) = some s') : Inside path s 0 s' := by
  simp only [step] at stepped
  split at stepped
  · cases stepped
  · split at stepped
    · obtain rfl := Option.some.inj stepped
      refine ⟨written, ?_⟩
      rintro call same
      obtain rfl := Option.some.inj same
      exact ⟨rfl, Nat.le_refl 3, rfl⟩
    · obtain rfl := Option.some.inj stepped
      refine ⟨written, ?_⟩
      rintro call same
      obtain rfl := Option.some.inj same
      exact ⟨rfl, Nat.le_refl 3, rfl⟩

/-- In every interleaving of loads with writes and removals of files in which no file is
removed between the moment its first load reads it and the moment that load asks for its
time, and in which no panic comes out of the evaluation of a file, every call ends after at
most three statements. It reports an error, and then no entry of the cache has changed,
or it returns a context, and then no other entry than that of its path has changed.

Proof: induction along the steps that follow the call. -/
theorem failed_load_reported (actions : List Action)
    (allowed : Allowed step Undisturbed initial actions) : EndsWell actions := by
  rintro earlier path during later before after call rfl noLoads reached onward running
  have written : ∀ path, (before.files path).present = true → (before.files path).times ≠ [] :=
    run_invariant (by simp [initial]) (fun _ _ _ => step_written) reached
  obtain ⟨start, began, onward⟩ := Option.bind_eq_some_iff.mp onward
  have begun : run step initial (earlier ++ [.load path]) = some start :=
    run_snoc.mpr ⟨before, reached, began⟩
  have calm : Allowed step Undisturbed start during := by
    have split : earlier ++ .load path :: during ++ later =
        (earlier ++ [.load path]) ++ (during ++ later) := by simp
    rw [split] at allowed
    exact (allowed.later begun).earlier
  have inside : Inside path before (during.countP Action.advances) after := by
    refine allowed_induction (motive := fun done s => (∀ action ∈ done, action.loads = false) →
      Inside path before (done.countP Action.advances) s) ?_ ?_ calm onward noLoads
    · intro _
      exact Inside.load written began
    · intro done action s s' _ inductionHypothesis undisturbed stepped noLoads
      have earlierLoads : ∀ action ∈ done, action.loads = false := fun action member =>
        noLoads action (List.mem_append_left _ member)
      rw [List.countP_append, List.countP_singleton]
      exact (inductionHypothesis earlierLoads).stepped undisturbed (noLoads action (by simp)) stepped
  obtain ⟨_, few, stands⟩ := inside.place call running
  refine ⟨few, ?_⟩
  intro result returns
  rwa [returns] at stands

/-- A file is removed after it has been loaded: the next load reports the error of `os.Stat`,
and the cache keeps its entry. -/
theorem removed_file_reported :
    EndsWell [.write [1] 10, .load [1], .advance .succeeds, .advance .succeeds, .advance .succeeds,
      .advance .succeeds, .remove [1], .load [1], .advance .succeeds] ∧
    ∃ s, run step initial
      [.write [1] 10, .load [1], .advance .succeeds, .advance .succeeds, .advance .succeeds,
        .advance .succeeds, .remove [1], .load [1], .advance .succeeds] = some s ∧
      s.call = some ⟨[1], none, .returning .failed⟩ ∧ s.jsCtxCache [1] = some ⟨0, 10⟩ := by
  refine ⟨failed_load_reported
    [.write [1] 10, .load [1], .advance .succeeds, .advance .succeeds, .advance .succeeds,
      .advance .succeeds, .remove [1], .load [1], .advance .succeeds] ?_, _, rfl, rfl, rfl⟩
  refine .cons trivial rfl (.cons trivial rfl (.cons trivial rfl (.cons trivial rfl
    (.cons trivial rfl (.cons trivial rfl (.cons ?_ rfl (.cons trivial rfl
    (.cons trivial rfl .nil))))))))
  intro call ctx running
  cases running

/-- A file is removed after its first load has read it: the load ends neither with a context
nor with an error, but in the nil dereference of `fi.ModTime()`. -/
theorem vanished_file_panics :
    ¬ EndsWell [.write [1] 10, .load [1], .advance .succeeds, .remove [1], .advance .succeeds] := by
  intro ends
  exact (ends [.write [1] 10] [1] [.advance .succeeds, .remove [1], .advance .succeeds] [] _ _ _ rfl
    (by decide) rfl rfl rfl).2 .panicked rfl

end GoQuickjs.Cache
