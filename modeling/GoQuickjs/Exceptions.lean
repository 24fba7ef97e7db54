import GoQuickjs.Reached

/-!
# Which exceptions become errors

An API call evaluates a script, looks a variable up or calls a function, and then
converts what comes back. Any of these may throw. Two places drop what is thrown:
`fromJsException` makes an error of `Error` objects only, and `fromJsArray` takes a
`length` that throws for zero. The exact condition for a throw to reach the caller
as an error is therefore that whatever is dropped is followed, in the same call, by
a failure that is reported.
-/

namespace GoQuickjs

open Tracing Traced Filter

/-- The API calls that convert a result, with what the engine answers to them. -/
inductive Call where
  | eval (env : List (Outcome JSValue)) (result : Reading)
  | evalFile (scriptFile : String) (loaded : Bool) (env : List (Outcome JSValue))
      (result : Reading)
  | getGlobal (value : Reading)
  | callFunc (funcName : String) (fn : Answer) (args : List (Outcome JSValue)) (result : Reading)
  | boundFunc (fn : Answer) (args : List (Outcome JSValue)) (stack name : Fetched)
      (result : Reading)

namespace Call

/-- The call, with conversions to a given depth. -/
def run (depth : Nat) : Call → Owning GoResult
  | .eval env result => JsContext.eval depth env result
  | .evalFile scriptFile loaded env result =>
    JsContext.evalFile depth scriptFile loaded env result
  | .getGlobal value => JsContext.getGlobal depth value
  | .callFunc funcName fn args result => JsContext.callFunc depth funcName fn args result
  | .boundFunc fn args stack name result => JsContext.boundFunc depth fn args stack name result

/-- The Go side receives a non-nil error. -/
def ReceivesError (call : Call) : Prop :=
  ∀ᶠ depth in atTop, ∃ e, (call.run depth).ending = .returns (.error e)

end Call

/-! ## Conditions on the answers -/

/-- How `setEnv` ends, by the first value that `makeJsValue` does not convert. -/
def envOutcome : List (Outcome JSValue) → Outcome Unit
  | [] => .value ()
  | .value _ :: rest => envOutcome rest
  | .failed err :: _ => .failed err
  | .panicked :: _ => .panicked

/-- No argument panics in `makeJsValue`. -/
def ArgsMade (args : List (Outcome JSValue)) : Prop := .panicked ∉ args

/-- A conversion gets to an answer with a property. -/
def Meets (r : Reading) (holds : Answer → Prop) : Prop := ∃ q, Reaches r [] q ∧ holds (r q)

namespace Call

/-- Something is thrown: by the evaluation, by a lookup, by the called function, or by
a getter or a trap that runs while the result is converted. -/
def Throws : Call → Prop
  | .eval env result => envOutcome env = .value () ∧ Meets result Answer.Throws
  | .evalFile _ loaded env result =>
    loaded = true ∧ envOutcome env = .value () ∧ Meets result Answer.Throws
  | .getGlobal value => Meets value Answer.Throws
  | .callFunc _ fn args result =>
    fn.IsThrown ∨ fn.isFunction = true ∧ ArgsMade args ∧ Meets result Answer.Throws
  | .boundFunc fn args stack name result =>
    fn.IsThrown ∨ ArgsMade args ∧ Meets (jsCall fn stack name result) Answer.Throws

/-- An exception is dropped: one that an answer drops during the conversion, except
at the root of an evaluation, or the one of the lookup before a bound function. -/
def Swallows : Call → Prop
  | .eval env result =>
    envOutcome env = .value () ∧ ¬ (result []).IsThrown ∧ Meets result Answer.Swallowed
  | .evalFile _ loaded env result => loaded = true ∧
    envOutcome env = .value () ∧ ¬ (result []).IsThrown ∧ Meets result Answer.Swallowed
  | .getGlobal value => Meets value Answer.Swallowed
  | .callFunc _ fn args result =>
    fn.isFunction = true ∧ ArgsMade args ∧ Meets result Answer.Swallowed
  | .boundFunc fn args stack name result =>
    fn.IsThrown ∨ ArgsMade args ∧ Meets (jsCall fn stack name result) Answer.Swallowed

/-- A failure is reported: a value that cannot be installed, a file that cannot be
loaded, any exception of an evaluation, a variable that is not a function, or an
answer that makes the conversion fail. -/
def Reports : Call → Prop
  | .eval env result => (∃ err, envOutcome env = .failed err) ∨
    envOutcome env = .value () ∧ ((result []).IsThrown ∨ Meets result Answer.Reported)
  | .evalFile _ loaded env result => loaded = false ∨ (∃ err, envOutcome env = .failed err) ∨
    envOutcome env = .value () ∧ ((result []).IsThrown ∨ Meets result Answer.Reported)
  | .getGlobal value => Meets value Answer.Reported
  | .callFunc _ fn args result => fn.isFunction = false ∨ ArgsMade args ∧ Meets result Answer.Reported
  | .boundFunc fn args stack name result =>
    ArgsMade args ∧ Meets (jsCall fn stack name result) Answer.Reported

end Call

/-! ## How the calls end -/

/-- `getVar` returns the message of an `Error` that the lookup throws, and nothing otherwise. -/
theorem getVar_ending (v : Answer) : (getVar v).ending = .returns
    (match v with
      | .thrown x => x.message
      | _ => none) := by
  cases v with
  | thrown x => simp only [getVar, holdingDeferred_ending, uses_bind, fromJsException_ending]
  | _ => rfl

/-- `setEnv` ends as its entries decide: without an error, with the first one, or in a panic. -/
theorem install_ending (env : List (Outcome JSValue)) (i : Nat) :
    (setEnv.install env i).ending =
      match envOutcome env with
      | .value _ => .returns none
      | .failed err => .returns (some err)
      | .panicked => .panics := by
  induction env generalizing i with
  | nil => rfl
  | cons head rest inductionHypothesis =>
    cases head with
    | value v =>
      simp only [setEnv.install, uses_bind, envOutcome, holding_eq]
      exact inductionHypothesis (i + 1)
    | failed err => rfl
    | panicked => rfl

/-- `setJsArgs` panics as soon as an argument cannot be made. -/
theorem setJsArgs_ending (args : List (Outcome JSValue)) (i : Nat) :
    (ArgsMade args → (setJsArgs args i).ending = .returns ()) ∧
      (¬ ArgsMade args → (setJsArgs args i).ending = .panics) := by
  induction args generalizing i with
  | nil => simp [ArgsMade, setJsArgs]
  | cons head rest inductionHypothesis =>
    have later := inductionHypothesis (i + 1)
    cases head with
    | value v => simpa [ArgsMade, setJsArgs] using later
    | failed err => simpa [ArgsMade, setJsArgs] using later
    | panicked => simp [ArgsMade, setJsArgs, panicking]

/-- `callFunc` returns when the arguments could be made, and panics otherwise. -/
theorem callFunc_ending (fnRef : Option Resource) (args : List (Outcome JSValue)) :
    (ArgsMade args → (callFunc fnRef args).ending = .returns ()) ∧
      (¬ ArgsMade args → (callFunc fnRef args).ending = .panics) := by
  obtain ⟨made, unmade⟩ := setJsArgs_ending args 0
  constructor
  · intro all
    simp only [callFunc, log_bind, bind_returns (made all)]
    rfl
  · intro some
    simp only [callFunc, log_bind, bind_panics (unmade some)]

/-- A conversion fails exactly when it gets to an answer that makes it fail. -/
theorem conversion_fails {r : Reading} :
    (∀ᶠ depth in atTop, ∃ e, (fromJsValue r depth []).ending = .returns (.error e)) ↔
      Meets r Answer.Reported := by
  constructor
  · intro failing
    obtain ⟨depth, e, returned⟩ := failing.exists
    exact reported_of_returns returned
  · rintro ⟨q, reached, reported⟩
    exact reached.returns reported

/-- At an exception the conversion is decided by what was thrown. -/
theorem meets_thrown {r : Reading} {x : Thrown} (read : r [] = .thrown x)
    {holds : Answer → Prop} : Meets r holds ↔ holds (.thrown x) := by
  constructor
  · rintro ⟨q, reached, found⟩
    cases reached with
    | here => rwa [read] at found
    | element shape => simp [read] at shape
    | property shape => simp [read] at shape
  · exact fun found => ⟨[], .here [], by rwa [read]⟩

namespace Call

section receives

variable {call : Call}

/-- A call that ends with an error whatever the depth receives one. -/
theorem receives_always {e : String} (ended : ∀ depth, (call.run depth).ending = .returns (.error e)) :
    call.ReceivesError :=
  Eventually.of_forall fun depth => ⟨e, ended depth⟩

/-- A call that ends with no error at any depth receives none. -/
theorem receives_never (ended : ∀ depth e, (call.run depth).ending ≠ .returns (.error e)) :
    ¬ call.ReceivesError := by
  intro receives
  obtain ⟨depth, e, returned⟩ := receives.exists
  exact ended depth e returned

/-- A call that ends as its conversion does receives the errors of the conversion. -/
theorem receives_converted {r : Reading}
    (ended : ∀ depth, (call.run depth).ending = (fromJsValue r depth []).ending) :
    call.ReceivesError ↔ Meets r Answer.Reported := by
  rw [← conversion_fails]
  simp only [ReceivesError, ended]

end receives

/-- An error of `Eval` is received exactly when it is reported. -/
theorem eval_receives (env : List (Outcome JSValue)) (result : Reading) :
    (eval env result).ReceivesError ↔ (eval env result).Reports := by
  have installed := install_ending env 0
  simp only [Reports]
  cases outcome : envOutcome env with
  | failed err =>
    rw [outcome] at installed
    have ended : (setEnv env).ending = .returns (some err) := installed
    refine iff_of_true (receives_always (e := err) fun depth => ?_) (Or.inl ⟨err, rfl⟩)
    simp [run, JsContext.eval, bind_returns ended]
  | panicked =>
    rw [outcome] at installed
    have ended : (setEnv env).ending = .panics := installed
    refine iff_of_false (receives_never fun depth e => ?_) (by simp)
    simp [run, JsContext.eval, bind_panics ended]
  | value installedAll =>
    rw [outcome] at installed
    have ended : (setEnv env).ending = .returns none := installed
    by_cases thrown : (result []).IsThrown
    · refine iff_of_true (receives_always (e := "exception thrown") fun depth => ?_)
        (Or.inr ⟨rfl, Or.inl thrown⟩)
      cases read : result [] with
      | thrown x =>
        simp only [run, JsContext.eval, bind_returns ended, read, holding_eq]
        rfl
      | _ => simp [read, Answer.IsThrown] at thrown
    · have follows : ∀ depth, (run depth (eval env result)).ending =
          (fromJsValue result depth []).ending := by
        intro depth
        cases read : result [] with
        | thrown x => simp [read, Answer.IsThrown] at thrown
        | _ => simp only [run, JsContext.eval, bind_returns ended, read, holding_ending]
      simp [receives_converted follows, thrown]

/-- An error of `GetGlobal` is received exactly when it is reported. -/
theorem getGlobal_receives (value : Reading) :
    (getGlobal value).ReceivesError ↔ (getGlobal value).Reports := by
  simp only [Reports]
  cases read : value [] with
  | thrown x =>
    rw [meets_thrown read]
    have looked := getVar_ending (value [])
    simp only [read] at looked
    cases x with
    | error stack name =>
      refine iff_of_true (receives_always (e := name.text.getD "") fun depth => ?_) trivial
      simp [run, JsContext.getGlobal, read, bind_returns looked, Thrown.message]
    | other v =>
      refine iff_of_false (receives_never fun depth e => ?_) id
      have fetched : (withError <$> fromJsException (.node []) none).ending = .returns (.ok .nil) :=
        rfl
      simp [run, JsContext.getGlobal, read, bind_returns looked, Thrown.message, fetched]
  | _ =>
    refine receives_converted fun depth => ?_
    have looked := getVar_ending (value [])
    simp only [read] at looked
    simp only [run, JsContext.getGlobal, read, bind_returns looked, holding_ending]

/-- An error of `CallFunc` is received exactly when it is reported. -/
theorem callFunc_receives (funcName : String) (fn : Answer) (args : List (Outcome JSValue))
    (result : Reading) : (callFunc funcName fn args result).ReceivesError ↔
      (callFunc funcName fn args result).Reports := by
  have looked := getVar_ending fn
  obtain ⟨made, unmade⟩ := callFunc_ending (JsContext.varRef fn) args
  simp only [Reports]
  cases read : fn with
  | function f =>
    subst read
    by_cases all : ArgsMade args
    · have follows : ∀ depth, (run depth (callFunc funcName (.function f) args result)).ending =
          (fromJsValue result depth []).ending := by
        intro depth
        simp only [run, JsContext.callFunc, bind_returns looked, holdingDeferred_ending, uses_bind,
          Answer.isFunction, if_true, bind_returns (made all)]
      simp [receives_converted follows, Answer.isFunction, all]
    · refine iff_of_false (receives_never fun depth e => ?_) (by simp [Answer.isFunction, all])
      simp only [run, JsContext.callFunc, bind_returns looked, holdingDeferred_ending, uses_bind,
        Answer.isFunction, if_true, bind_panics (unmade all)]
      simp
  | thrown x =>
    subst read
    refine iff_of_true ?_ (Or.inl rfl)
    cases x with
    | error stack name =>
      refine receives_always (e := name.text.getD "") fun depth => ?_
      simp [run, JsContext.callFunc, bind_returns looked, Thrown.message]
    | other v =>
      refine receives_always (e := "var " ++ funcName ++ " is not with type function") fun depth => ?_
      simp [run, JsContext.callFunc, bind_returns looked, Thrown.message, Answer.isFunction]
  | _ =>
    subst read
    refine iff_of_true ?_ (Or.inl rfl)
    refine receives_always (e := "var " ++ funcName ++ " is not with type function") fun depth => ?_
    simp [run, JsContext.callFunc, bind_returns looked, Answer.isFunction]

/-- An error of a bound function is received exactly when it is reported. -/
theorem boundFunc_receives (fn : Answer) (args : List (Outcome JSValue)) (stack name : Fetched)
    (result : Reading) : (boundFunc fn args stack name result).ReceivesError ↔
      (boundFunc fn args stack name result).Reports := by
  have looked := getVar_ending fn
  obtain ⟨made, unmade⟩ := callFunc_ending (JsContext.varRef fn) args
  simp only [Reports]
  by_cases all : ArgsMade args
  · have follows : ∀ depth, (run depth (boundFunc fn args stack name result)).ending =
        (fromJsValue (jsCall fn stack name result) depth []).ending := by
      intro depth
      simp only [run, JsContext.boundFunc, bind_returns looked, holdingDeferred_ending,
        bind_returns (made all), holding_ending]
    simp [receives_converted follows, all]
  · refine iff_of_false (receives_never fun depth e => ?_) (by simp [all])
    simp only [run, JsContext.boundFunc, bind_returns looked, holdingDeferred_ending,
      bind_panics (unmade all)]
    simp

/-- A call receives an error exactly when a failure is reported. -/
theorem receives_iff_reports (call : Call) : call.ReceivesError ↔ call.Reports := by
  cases call with
  | eval env result => exact eval_receives env result
  | getGlobal value => exact getGlobal_receives value
  | callFunc funcName fn args result => exact callFunc_receives funcName fn args result
  | boundFunc fn args stack name result => exact boundFunc_receives fn args stack name result
  | evalFile scriptFile loaded env result =>
    cases loaded with
    | true =>
      have same : (evalFile scriptFile true env result).ReceivesError ↔
          (eval env result).ReceivesError := Iff.rfl
      rw [same, eval_receives]
      simp [Reports]
    | false =>
      exact iff_of_true (receives_always (e := "failed to load " ++ scriptFile) fun _ => rfl)
        (Or.inl rfl)

end Call

/-! ## Throws and errors -/

/-- What is thrown is an `Error` or is swallowed. -/
theorem Answer.Throws.cases {a : Answer} (throws : a.Throws) : a.Swallowed ∨ a.Reported := by
  rcases a with (_ | _) | _ | _ | _ | _ | _ | _ | (_ | _) | _ | (_ | _) | _ <;>
    simp_all [Answer.Throws, Answer.Swallowed, Answer.Reported]

/-- What is swallowed was thrown. -/
theorem Answer.Swallowed.throws {a : Answer} (swallowed : a.Swallowed) : a.Throws := by
  rcases a with (_ | _) | _ | _ | _ | _ | _ | _ | (_ | _) | _ | (_ | _) | _ <;>
    simp_all [Answer.Throws, Answer.Swallowed]

/-- What is thrown is no function. -/
theorem Answer.IsThrown.not_function {a : Answer} (thrown : a.IsThrown) : a.isFunction = false := by
  cases a with
  | function f => simp [Answer.IsThrown] at thrown
  | _ => rfl

/-- A reading that meets a swallowed exception meets an exception. -/
theorem Meets.throws {r : Reading} (meets : Meets r Answer.Swallowed) : Meets r Answer.Throws := by
  obtain ⟨q, reached, swallowed⟩ := meets
  exact ⟨q, reached, swallowed.throws⟩

/-- A reading that meets an exception meets one of the two kinds. -/
theorem Meets.cases {r : Reading} (meets : Meets r Answer.Throws) :
    Meets r Answer.Swallowed ∨ Meets r Answer.Reported := by
  obtain ⟨q, reached, throws⟩ := meets
  rcases throws.cases with swallowed | reported
  · exact Or.inl ⟨q, reached, swallowed⟩
  · exact Or.inr ⟨q, reached, reported⟩

namespace Call

variable {call : Call}

/-- A call that swallows an exception throws one. -/
theorem Swallows.throws (swallows : call.Swallows) : call.Throws := by
  cases call with
  | eval env result => exact ⟨swallows.1, swallows.2.2.throws⟩
  | evalFile scriptFile loaded env result =>
    exact ⟨swallows.1, swallows.2.1, swallows.2.2.2.throws⟩
  | getGlobal value => exact Meets.throws swallows
  | callFunc funcName fn args result =>
    exact Or.inr ⟨swallows.1, swallows.2.1, swallows.2.2.throws⟩
  | boundFunc fn args stack name result =>
    exact swallows.imp_right fun converted => ⟨converted.1, converted.2.throws⟩

/-- What is thrown is dropped or reported. -/
theorem Throws.cases (throws : call.Throws) : call.Swallows ∨ call.Reports := by
  have evaluated : ∀ result : Reading, Meets result Answer.Throws →
      (¬ (result []).IsThrown ∧ Meets result Answer.Swallowed) ∨
        ((result []).IsThrown ∨ Meets result Answer.Reported) := by
    intro result meets
    by_cases thrown : (result []).IsThrown
    · exact Or.inr (Or.inl thrown)
    · exact meets.cases.imp (fun swallowed => ⟨thrown, swallowed⟩) Or.inr
  cases call with
  | eval env result =>
    obtain ⟨installed, meets⟩ := throws
    exact (evaluated result meets).imp (fun swallowed => ⟨installed, swallowed⟩)
      fun reported => Or.inr ⟨installed, reported⟩
  | evalFile scriptFile loaded env result =>
    obtain ⟨found, installed, meets⟩ := throws
    exact (evaluated result meets).imp (fun swallowed => ⟨found, installed, swallowed⟩)
      fun reported => Or.inr (Or.inr ⟨installed, reported⟩)
  | getGlobal value => exact Meets.cases throws
  | callFunc funcName fn args result =>
    rcases throws with thrown | ⟨function, made, meets⟩
    · exact Or.inr (Or.inl thrown.not_function)
    · exact meets.cases.imp (fun swallowed => ⟨function, made, swallowed⟩)
        fun reported => Or.inr ⟨made, reported⟩
  | boundFunc fn args stack name result =>
    rcases throws with thrown | ⟨made, meets⟩
    · exact Or.inl (Or.inl thrown)
    · exact meets.cases.imp (fun swallowed => Or.inr ⟨made, swallowed⟩)
        fun reported => ⟨made, reported⟩

/-- A call in which something is thrown receives an error exactly when everything
that is dropped is followed by a failure that is reported. -/
theorem error_received_iff (call : Call) :
    (call.Throws → call.ReceivesError) ↔ (call.Swallows → call.Reports) := by
  rw [receives_iff_reports]
  constructor
  · exact fun received swallows => received swallows.throws
  · intro followed throws
    rcases throws.cases with swallows | reports
    · exact followed swallows
    · exact reports

/-- `CallFunc` of a function that throws a string. -/
def throwsString : Call := .callFunc "f" (.function 8) [] fun _ => .thrown (.other (.string 16))

/-- The thrown string is dropped: the caller gets a nil value and no error. -/
theorem thrown_string_dropped : ¬ (throwsString.Throws → throwsString.ReceivesError) ∧
    ∀ depth, (throwsString.run (depth + 1)).ending = .returns (.ok .nil) := by
  refine ⟨?_, fun _ => rfl⟩
  intro received
  have throws : throwsString.Throws := by
    exact Or.inr ⟨rfl, List.not_mem_nil, [], .here [], trivial⟩
  obtain ⟨enough, from_there⟩ := eventually_atTop.mp (received throws)
  obtain ⟨e, returned⟩ := from_there (enough + 1) (Nat.le_succ enough)
  have silent : (throwsString.run (enough + 1)).ending = .returns (.ok .nil) := rfl
  rw [silent] at returned
  simp at returned

end Call

end GoQuickjs
