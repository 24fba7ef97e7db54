import GoQuickjs.Exceptions
import GoQuickjs.GivenBack
import GoQuickjs.UsedLate

/-!
# Who gives references back

The engine hands out counted references: to the values it returns, to pending
exceptions that are fetched, to the keys of an object and the table that holds them,
to C strings. A conversion has to give each of them back exactly once before it
returns, and must not touch it afterwards. Two places break this. `fromJsException`
keeps an exception that is not an `Error` object. `fromJsObject` gives a key back
before it uses it once more, and leaves without giving back the table and the
remaining keys when a property fails. The discipline is kept exactly when a
conversion gets to neither.
-/

namespace GoQuickjs

open Tracing Traced Filter

/-- The calls and conversions that have to keep the discipline. -/
inductive Conversion where
  | fromJsValue (value : Reading)
  | getGlobal (value : Reading)
  | callFunc (funcName : String) (fn : Answer) (args : List (Outcome JSValue)) (result : Reading)

namespace Conversion

/-- The conversion to a given depth. -/
def run (depth : Nat) : Conversion → Owning GoResult
  | .fromJsValue value => GoQuickjs.fromJsValue value depth []
  | .getGlobal value => JsContext.getGlobal depth value
  | .callFunc funcName fn args result => JsContext.callFunc depth funcName fn args result

/-- Nothing is touched after it was given back, and when the conversion has returned
every reference was given back as often as it was taken. -/
def Obeys (conversion : Conversion) : Prop := ∀ depth, (conversion.run depth).Tidy

end Conversion

/-! ## Conditions on the answers -/

/-- The conversion returns, with a value or with an error. -/
def Ends (r : Reading) : Prop := Converts r [] ∨ Meets r Answer.Reported

/-- The conversion gets to no key that it uses too late and, if it returns at all, to
nothing that it does not give back. -/
def Clean (r : Reading) : Prop :=
  (∀ q, Reaches r [] q → ¬ MisusesAt r q) ∧ (Ends r → ∀ q, Reaches r [] q → ¬ LeaksAt r q)

/-- The condition on a whole call. -/
def Conversion.Clean : Conversion → Prop
  | .fromJsValue value | .getGlobal value => GoQuickjs.Clean value
  | .callFunc _ fn args result =>
    ¬ fn.CountedOther ∧ (fn.isFunction = true → ArgsMade args → GoQuickjs.Clean result)

/-! ## Whole conversions -/

/-- The conversion of a value keeps the discipline exactly when it is clean. -/
theorem fromJsValue_tidy_iff (r : Reading) :
    (∀ depth, (fromJsValue r depth []).Tidy) ↔ Clean r := by
  constructor
  · intro tidy
    constructor
    · intro q reached misuse
      obtain ⟨x, used⟩ := reached.misuses misuse
      obtain ⟨depth, late⟩ := used.exists
      exact not_orderly late (tidy depth).1
    · intro ends q reached leak
      have returns : ∀ᶠ depth in atTop, ∃ result,
          (fromJsValue r depth []).ending = .returns result := by
        rcases ends with converts | ⟨q, failing, reported⟩
        · exact converts.returns.mono fun depth ⟨v, ended⟩ => ⟨_, ended⟩
        · exact (failing.returns reported).mono fun depth ⟨e, ended⟩ => ⟨_, ended⟩
      obtain ⟨depth, left, result, ended⟩ := ((reached.leaves leak).and returns).exists
      exact left.not_settles ((tidy depth).2 result ended)
  · rintro ⟨proper, tight⟩ depth
    refine ⟨fromJsValue_orderly proper, ?_⟩
    intro result ended
    have ends : Ends r := by
      cases result with
      | ok v => exact Or.inl (converts_of_returns ended)
      | error e => exact Or.inr (reported_of_returns ended)
    exact fromJsValue_settles ended (tight ends)

/-! ## Lookups and arguments -/

/-- The lookup handles only the strings and the global of the lookup, never the value it
answers. -/
theorem mem_getVar {v : Answer} {e : Event Resource} (listed : e ∈ (getVar v).trace) :
    e.subject.place = .lookup ∧ e.subject.part ≠ .value := by
  rcases mem_holdingDeferred listed with inner | ⟨x, owner, acted⟩
  · rcases List.mem_append.mp inner with used | later
    · obtain ⟨x, owner, rfl⟩ := mem_uses used
      obtain rfl : _ = x := by simpa using owner
      exact ⟨rfl, by simp [Event.subject]⟩
    · cases v with
      | thrown x => exact mem_exception _ later
      | _ => simp at later
  · obtain rfl : _ = x := by simpa using owner
    rcases acted with rfl | rfl <;> exact ⟨rfl, by simp [Event.subject]⟩

/-- A lookup is tidy unless it fetches an exception that is not given back. -/
theorem getVar_tidy (v : Answer) : (getVar v).Tidy ↔ ¬ v.CountedOther := by
  have ended := getVar_ending v
  refine (holdingDeferred_tidy ?_).trans ?_
  · intro x owner gave
    obtain rfl : _ = x := by simpa using owner
    rcases List.mem_append.mp gave with used | later
    · simp at used
    · cases v with
      | thrown x =>
        cases x with
        | error stack name =>
          rcases mem_error _ later with about | about | about | about | about <;>
            simp [Event.subject] at about
        | other value => simp [fromJsException] at later
      | _ => simp at later
  · cases v with
    | thrown x =>
      constructor
      · intro tidy counted
        cases x with
        | error stack name => exact counted
        | other value =>
          have left := (used_carries [Resource.mk .lookup .global] [] _).leaves
            (other_leaves .lookup counted)
          exact left.not_settles (tidy.2 _ rfl)
      · intro known
        refine ⟨orderly_before (by simp) (exception_orderly .lookup x), fun _ _ => ?_⟩
        exact (used_carries _ _ _).settles (exception_settles .lookup known)
    | _ =>
      refine iff_of_true ⟨orderly_before (by simp) List.Pairwise.nil, fun _ _ => ?_⟩ id
      exact (used_carries _ _ _).settles (pure_settles _)

/-- The references of the arguments are those of the arguments from the given place on. -/
theorem mem_argRefs {args : List (Outcome JSValue)} {i : Nat} {x : Resource}
    (listed : x ∈ argRefs args i) : ∃ j, i ≤ j ∧ x = ⟨.call, .argument j⟩ := by
  induction args generalizing i with
  | nil => simp [argRefs] at listed
  | cons head rest inductionHypothesis =>
    have later : x ∈ argRefs rest (i + 1) → ∃ j, i ≤ j ∧ x = ⟨.call, .argument j⟩ := by
      intro listed
      obtain ⟨j, above, same⟩ := inductionHypothesis listed
      exact ⟨j, by omega, same⟩
    cases head with
    | value v =>
      rcases List.mem_append.mp listed with here | listed
      · exact ⟨i, Nat.le_refl i, mem_owned (Option.mem_toList.mp here)⟩
      · exact later listed
    | failed err => exact later listed
    | panicked => exact later listed

/-- No argument is counted twice. -/
theorem argRefs_nodup (args : List (Outcome JSValue)) (i : Nat) : (argRefs args i).Nodup := by
  induction args generalizing i with
  | nil => exact List.nodup_nil
  | cons head rest inductionHypothesis =>
    cases head with
    | value v =>
      refine List.nodup_append.mpr ⟨?_, inductionHypothesis (i + 1), ?_⟩
      · cases owned v.hasRefCount .call (.argument i) <;> simp
      · intro x here y later same
        obtain rfl := mem_owned (Option.mem_toList.mp here)
        obtain ⟨j, above, shape⟩ := mem_argRefs later
        rw [← same] at shape
        have index : i = j := by simpa using shape
        omega
    | failed err => exact inductionHypothesis (i + 1)
    | panicked => exact inductionHypothesis (i + 1)

/-- Arguments that are all made are taken, in order. -/
theorem setJsArgs_made {args : List (Outcome JSValue)} (made : ArgsMade args) (i : Nat) :
    setJsArgs args i = ⟨.returns (), (argRefs args i).map .take⟩ := by
  induction args generalizing i with
  | nil => rfl
  | cons head rest inductionHypothesis =>
    have later : ArgsMade rest := fun panicked => made (List.mem_cons_of_mem _ panicked)
    cases head with
    | value v => simp [setJsArgs, argRefs, inductionHypothesis later]
    | failed err => exact inductionHypothesis later (i + 1)
    | panicked => exact absurd List.mem_cons_self made

/-- Making arguments only takes references of the call. -/
theorem mem_setJsArgs {args : List (Outcome JSValue)} {i : Nat} {e : Event Resource}
    (listed : e ∈ (setJsArgs args i).trace) : ∃ j, e = .take ⟨.call, .argument j⟩ := by
  induction args generalizing i with
  | nil => simp [setJsArgs] at listed
  | cons head rest inductionHypothesis =>
    cases head with
    | value v =>
      rcases List.mem_append.mp listed with took | later
      · obtain ⟨x, owner, rfl⟩ := List.mem_map.mp took
        exact ⟨i, congrArg Event.take (mem_owned (Option.mem_toList.mp owner))⟩
      · exact inductionHypothesis later
    | failed err => exact inductionHypothesis listed
    | panicked => simp [setJsArgs, panicking] at listed

/-- The events of an engine call whose arguments are made. -/
theorem callFunc_made {fnRef : Option Resource} {args : List (Outcome JSValue)}
    (made : ArgsMade args) : callFunc fnRef args = ⟨.returns (),
      (owned (!args.isEmpty) .call .argArray).toList.map .take ++ ((argRefs args 0).map .take ++
        (fnRef.toList.map .use ++ ((argRefs args 0).map .use ++ ((argRefs args 0).map .give ++
          (owned (!args.isEmpty) .call .argArray).toList.map .give))))⟩ := by
  simp only [callFunc, log_bind, setJsArgs_made made, uses_bind]
  rfl

/-- A call one of whose arguments does not convert panics with what it has taken so far. -/
theorem callFunc_unmade {fnRef : Option Resource} {args : List (Outcome JSValue)}
    (unmade : ¬ ArgsMade args) : callFunc fnRef args = ⟨.panics,
      (owned (!args.isEmpty) .call .argArray).toList.map .take ++ (setJsArgs args 0).trace⟩ := by
  simp only [callFunc, log_bind, bind_panics ((setJsArgs_ending args 0).2 unmade)]

/-- An engine call uses the function and takes and gives back references of the call. -/
theorem mem_callFunc {fnRef : Option Resource} {args : List (Outcome JSValue)}
    {e : Event Resource} (listed : e ∈ (callFunc fnRef args).trace) :
    (∃ x ∈ fnRef, e = .use x) ∨ e.subject.place = .call := by
  have array : ∀ x ∈ (owned (!args.isEmpty) .call .argArray).toList, x.place = .call := by
    intro x owner
    rw [mem_owned (Option.mem_toList.mp owner)]
  have arguments : ∀ x ∈ argRefs args 0, x.place = .call := by
    intro x owner
    obtain ⟨j, -, rfl⟩ := mem_argRefs owner
    rfl
  by_cases made : ArgsMade args
  · rw [callFunc_made made] at listed
    simp only [List.mem_append, List.mem_map, Option.mem_toList] at listed
    rcases listed with ⟨x, owner, rfl⟩ | ⟨x, owner, rfl⟩ | ⟨x, owner, rfl⟩ | ⟨x, owner, rfl⟩ |
      ⟨x, owner, rfl⟩ | ⟨x, owner, rfl⟩
    · exact Or.inr (array x (Option.mem_toList.mpr owner))
    · exact Or.inr (arguments x owner)
    · exact Or.inl ⟨x, owner, rfl⟩
    · exact Or.inr (arguments x owner)
    · exact Or.inr (arguments x owner)
    · exact Or.inr (array x (Option.mem_toList.mpr owner))
  · rw [callFunc_unmade made] at listed
    rcases List.mem_append.mp listed with took | took
    · obtain ⟨x, owner, rfl⟩ := List.mem_map.mp took
      exact Or.inr (array x owner)
    · obtain ⟨j, rfl⟩ := mem_setJsArgs took
      exact Or.inr rfl

/-- A call uses nothing it has given back, whatever the arguments answer. -/
theorem callFunc_orderly (fnRef : Option Resource) (args : List (Outcome JSValue)) :
    Orderly (callFunc fnRef args).trace := by
  by_cases made : ArgsMade args
  · rw [callFunc_made made]
    refine orderly_before (by simp) (orderly_before (by simp) (orderly_before (by simp)
      (orderly_before (by simp) (orderly_append ?_ ?_ ?_))))
    · refine List.pairwise_map.mpr ((argRefs_nodup args 0).imp fun different => ?_)
      rintro x gave rfl
      exact different (Event.give.inj gave)
    · cases owned (!args.isEmpty) .call .argArray with
      | none => exact List.Pairwise.nil
      | some x => exact List.pairwise_singleton _ _
    · intro x gave e listed same
      obtain ⟨y, owner, acted⟩ := List.mem_map.mp gave
      obtain rfl : y = x := Event.give.inj acted
      obtain ⟨z, array, rfl⟩ := List.mem_map.mp listed
      obtain ⟨j, -, rfl⟩ := mem_argRefs owner
      obtain rfl := mem_owned (Option.mem_toList.mp array)
      simp [Event.subject] at same
  · rw [callFunc_unmade made]
    apply orderly_before (by simp)
    rw [← List.append_nil (setJsArgs args 0).trace]
    refine orderly_before ?_ List.Pairwise.nil
    intro x gave
    obtain ⟨j, took⟩ := mem_setJsArgs gave
    simp at took

/-- A call whose arguments convert gives back all it takes. -/
theorem callFunc_settles {fnRef : Option Resource} {args : List (Outcome JSValue)}
    (made : ArgsMade args) : (callFunc fnRef args).Settles [] := by
  rw [callFunc_made made]
  generalize (owned (!args.isEmpty) .call .argArray).toList = array
  have last : (⟨.returns (), array.map .give⟩ : Owning Unit).Settles (array ++ []) := by
    simpa using (gave_carries array [] (pure ())).settles (pure_settles ())
  refine (took_carries array [] ⟨.returns (), _⟩).settles ?_
  refine (took_carries (argRefs args 0) _ ⟨.returns (), _⟩).settles ?_
  refine (used_carries fnRef.toList _ ⟨.returns (), _⟩).settles ?_
  refine (used_carries (argRefs args 0) _ ⟨.returns (), _⟩).settles ?_
  exact (gave_carries (argRefs args 0) _ ⟨.returns (), _⟩).settles last

/-! ## Calls -/

/-- The reference of a converted value is not given back by its conversion. -/
theorem value_kept (r : Reading) (depth : Nat) :
    ∀ x ∈ valueRef r [], .give x ∉ (fromJsValue r depth []).trace := by
  intro x owner gave
  obtain rfl := mem_owned owner
  exact (fromJsValue_located r depth _ _ gave).2 rfl

/-- Every event of a conversion with the value held is at a path. -/
theorem mem_converted {r : Reading} {depth : Nat} {e : Event Resource}
    (listed : e ∈ (fromJsValue r depth []).trace ∨ ∃ x ∈ valueRef r [], e = .take x ∨ e = .give x) :
    ∃ q, e.subject.place = .node q := by
  rcases listed with inner | ⟨x, owner, acted⟩
  · obtain ⟨q, place, -⟩ := (fromJsValue_located r depth _ e inner).1
    exact ⟨q, place⟩
  · obtain rfl := mem_owned owner
    rcases acted with rfl | rfl <;> exact ⟨[], rfl⟩

/-- A thrown value has no parts, so it is clean when its exception is given back. -/
theorem clean_thrown {r : Reading} {x : Thrown} (read : r [] = .thrown x) :
    Clean r ↔ ¬ (Answer.thrown x).CountedOther := by
  constructor
  · rintro ⟨-, tight⟩ counted
    have ends : Ends r := by
      cases x with
      | error stack name => exact absurd counted id
      | other v => exact Or.inl (.plain (by simp [read, Answer.Plain]))
    exact tight ends [] (.here []) (Or.inl (by rwa [read]))
  · intro known
    constructor
    · rintro q reached ⟨atoms, i, object, -⟩
      have meets : Meets r (fun a => a = .object (.ok atoms)) := ⟨q, reached, object⟩
      have found := (meets_thrown read).mp meets
      simp at found
    · intro _ q reached leak
      have counted := reached.thrown_leak (by simp [read, Answer.IsThrown]) leak
      rw [read] at counted
      exact known counted

/-- `GetGlobal` obeys the rules exactly on the values that are decoded cleanly. -/
theorem getGlobal_tidy_iff (value : Reading) :
    (∀ depth, (JsContext.getGlobal depth value).Tidy) ↔ Clean value := by
  have looked := getVar_ending (value [])
  cases read : value [] with
  | thrown x =>
    rw [clean_thrown read, ← getVar_tidy]
    have silent : ∀ depth, (JsContext.getGlobal depth value).Tidy ↔ (getVar (.thrown x)).Tidy := by
      intro depth
      simp only [JsContext.getGlobal, read]
      refine tidy_silent fun err => ?_
      cases err with
      | none => exact ⟨rfl, _, rfl⟩
      | some e => exact ⟨rfl, _, rfl⟩
    exact (forall_congr' silent).trans (forall_const Nat)
  | _ =>
    rw [← fromJsValue_tidy_iff]
    refine forall_congr' fun depth => ?_
    simp only [read] at looked
    have settled := (getVar_tidy (value [])).mpr (by simp [read, Answer.CountedOther])
    rw [read] at settled
    simp only [JsContext.getGlobal, read]
    refine (tidy_after looked settled.1 (settled.2 _ looked) ?_).trans
      (holding_tidy (value_kept value depth))
    intro x gave e listed same
    obtain ⟨q, place⟩ := mem_converted (mem_holding listed)
    rw [same, show x.place = .lookup from (mem_getVar gave).1] at place
    simp at place

/-- A call of a function is as tidy as the conversion of its result. -/
theorem called_tidy_iff {f : Ptr} {args : List (Outcome JSValue)} {result : Reading} (depth : Nat) :
    (callFunc (JsContext.varRef (.function f)) args >>= fun _ =>
      holdingDeferred (valueRef result []) (fromJsValue result depth [])).Tidy ↔
      (ArgsMade args → (fromJsValue result depth []).Tidy) := by
  by_cases made : ArgsMade args
  · have ended := (callFunc_ending (JsContext.varRef (.function f)) args).1 made
    simp only [made, true_imp_iff]
    refine (tidy_after ended (callFunc_orderly _ _) (callFunc_settles made) ?_).trans
      (holdingDeferred_tidy (value_kept result depth))
    intro x gave e listed same
    obtain ⟨q, place⟩ := mem_converted (mem_holdingDeferred listed)
    rcases mem_callFunc gave with ⟨y, -, never⟩ | call
    · simp at never
    · rw [same, show x.place = .call from call] at place
      simp at place
  · have ended := (callFunc_ending (JsContext.varRef (.function f)) args).2 made
    simp only [made, false_imp_iff, iff_true]
    rw [bind_panics ended]
    exact ⟨callFunc_orderly _ _, by simp⟩

/-- What `CallFunc` does with a variable that was found. -/
def foundFunc (depth : Nat) (funcName : String) (fn : Answer) (args : List (Outcome JSValue))
    (result : Reading) : Owning GoResult :=
  if fn.isFunction then
    callFunc (JsContext.varRef fn) args >>= fun _ =>
      holdingDeferred (valueRef result []) (fromJsValue result depth [])
  else pure (.error ("var " ++ funcName ++ " is not with type function"))

/-- Past the lookup, `CallFunc` uses of what the lookup took only the value. -/
theorem mem_foundFunc {depth : Nat} {funcName : String} {fn : Answer}
    {args : List (Outcome JSValue)} {result : Reading} {e : Event Resource}
    (listed : e ∈ (uses (JsContext.varRef fn) >>= fun _ =>
      foundFunc depth funcName fn args result).trace) :
    e = .use ⟨.lookup, .value⟩ ∨ e.subject.place ≠ .lookup := by
  have varUse : (∃ x ∈ JsContext.varRef fn, e = .use x) → e = .use ⟨.lookup, .value⟩ := by
    rintro ⟨x, owner, rfl⟩
    rw [mem_owned owner]
  rcases List.mem_append.mp listed with used | later
  · exact Or.inl (varUse (mem_uses used))
  simp only [foundFunc] at later
  split at later
  · rcases mem_bind later with called | ⟨-, -, converted⟩
    · rcases mem_callFunc called with used | call
      · exact Or.inl (varUse used)
      · exact Or.inr (by simp [call])
    · obtain ⟨q, place⟩ := mem_converted (mem_holdingDeferred converted)
      exact Or.inr (by simp [place])
  · simp at later

/-- Past the lookup, `CallFunc` obeys the rules when the decoding of its result does. -/
theorem foundFunc_tidy_iff (depth : Nat) (funcName : String) (fn : Answer)
    (args : List (Outcome JSValue)) (result : Reading) :
    (foundFunc depth funcName fn args result).Tidy ↔
      (fn.isFunction = true → ArgsMade args → (fromJsValue result depth []).Tidy) := by
  cases fn with
  | function f => simpa [foundFunc, Answer.isFunction] using called_tidy_iff depth
  | _ => exact iff_of_true ⟨List.Pairwise.nil, fun _ _ => pure_settles _⟩ (by simp [Answer.isFunction])

/-- `CallFunc` obeys the rules exactly if the looked up value is no counted value of another
kind and the result is decoded cleanly. -/
theorem callFunc_tidy_iff (funcName : String) (fn : Answer) (args : List (Outcome JSValue))
    (result : Reading) : (∀ depth, (JsContext.callFunc depth funcName fn args result).Tidy) ↔
      ¬ fn.CountedOther ∧ (fn.isFunction = true → ArgsMade args → Clean result) := by
  by_cases thrown : fn.IsThrown
  · have silent : ∀ depth, (JsContext.callFunc depth funcName fn args result).Tidy ↔
        (getVar fn).Tidy := by
      intro depth
      refine tidy_silent fun err => ?_
      cases read : fn with
      | thrown x => cases err <;> exact ⟨rfl, _, rfl⟩
      | _ => simp [read, Answer.IsThrown] at thrown
    rw [forall_congr' silent, forall_const, getVar_tidy]
    simp [thrown.not_function]
  · have known : ¬ fn.CountedOther := by
      cases fn with
      | thrown x => exact absurd trivial thrown
      | _ => exact id
    have settled := (getVar_tidy fn).mpr known
    have found : (getVar fn).ending = .returns none := by
      rw [getVar_ending]
      cases fn with
      | thrown x => exact absurd trivial thrown
      | _ => rfl
    have follows : ∀ depth, (JsContext.callFunc depth funcName fn args result).Tidy ↔
        (fn.isFunction = true → ArgsMade args → (fromJsValue result depth []).Tidy) := by
      intro depth
      refine (tidy_after found settled.1 (settled.2 _ found) ?_).trans ?_
      · intro x gave e listed same
        obtain ⟨place, part⟩ := mem_getVar gave
        rcases mem_holdingDeferred listed with inner | ⟨y, owner, acted⟩
        · rcases mem_foundFunc inner with rfl | elsewhere
          · exact part (congrArg Resource.part same.symm)
          · exact elsewhere (same ▸ place)
        · obtain rfl := mem_owned owner
          rcases acted with rfl | rfl <;> exact part (congrArg Resource.part same.symm)
      · refine (holdingDeferred_tidy ?_).trans ?_
        · intro x owner gave
          obtain rfl := mem_owned owner
          rcases mem_foundFunc gave with used | elsewhere
          · simp at used
          · exact elsewhere rfl
        · exact (used_tidy _ _).trans (foundFunc_tidy_iff depth funcName fn args result)
    rw [forall_congr' follows, ← fromJsValue_tidy_iff]
    simp only [known, not_false_eq_true, true_and]
    exact ⟨fun all function made depth => all depth function made,
      fun all depth function made => all function made depth⟩

/-- A conversion or call obeys the ownership discipline exactly when it gets to no
exception that is not given back, to no key that is used too late and to no property
that fails. -/
theorem obeys_iff_clean (conversion : Conversion) : conversion.Obeys ↔ conversion.Clean := by
  cases conversion with
  | fromJsValue value => exact fromJsValue_tidy_iff value
  | getGlobal value => exact getGlobal_tidy_iff value
  | callFunc funcName fn args result => exact callFunc_tidy_iff funcName fn args result

/-- An object with one property named `a` that is the number one. -/
def plainObject : Reading
  | [] => .object (.ok [{ isConst := false, text := [97] }])
  | _ => .int 1

/-- Reading a global with a plain object uses its key after giving it back, and a call
whose function throws a string never gives the string back. -/
theorem plain_object_misused : ¬ (Conversion.getGlobal plainObject).Obeys ∧
    ¬ (Conversion.callFunc "f" (.function 8) [] fun _ => .thrown (.other (.string 16))).Obeys := by
  constructor
  · intro obeys
    have late : [.give ⟨.node [], .atom 0⟩, .use ⟨.node [], .atom 0⟩].Sublist
        (JsContext.getGlobal 2 plainObject).trace := by decide
    exact not_orderly late (obeys 2).1
  · intro obeys
    have settled := (obeys 1).2 _ rfl ⟨.node [], .exception⟩
    revert settled
    decide

end GoQuickjs
