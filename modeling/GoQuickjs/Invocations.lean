import GoQuickjs.Conversions

/-!
# Calls of JS functions from Go

`callJsFuncFromGo`, behind every func variable bound to a JS function, and `callFunc`,
behind `CallFunc`, write the encoded arguments into an array of C and pass it to
`JS_Call`. A Go function type is called with its fixed arguments and, when it is
variadic, with one slice of all further ones. What `MakeGoFuncArgs` makes of these is a
parameter of the model, and so is what the engine finds under a global name.

The array of a bound function is allocated for the arguments of the Go call, where a
slice counts once, and is filled with what `MakeGoFuncArgs` yields. The two ways of
calling differ in the value of `this`.
-/

namespace GoQuickjs.World

/-- The arguments of a call through `reflect.MakeFunc`. A Go function type has at most
65535 parameters. -/
structure GoArgs where
  fixed : List GoVal
  variadic : Option (List GoVal)
  few : fixed.length + (if variadic.isSome then 1 else 0) < 2 ^ 16

namespace GoArgs

/-- `len(args)`: the slice of a variadic function is one argument. -/
def len (args : GoArgs) : Nat := args.fixed.length + if args.variadic.isSome then 1 else 0

/-- The fixed arguments followed by the elements of the slice. -/
def all (args : GoArgs) : List GoVal := args.fixed ++ args.variadic.getD []

end GoArgs

/-- An array of `allocJsArgs` with the indices that were written, in order. A cell that was
not written holds whatever `malloc` left in it. -/
structure JsArgs where
  size : Int
  cells : Nat → Option JSValue
  writes : List Nat

/-- `allocJsArgs`. -/
def allocJsArgs (size : Int) : JsArgs := ⟨size, fun _ => none, []⟩

/-- `setJsArgs`. The index is not compared with the size. -/
def setJsArgs (jsArgs : JsArgs) (i : Nat) (arg : JSValue) : JsArgs :=
  { jsArgs with cells := Function.update jsArgs.cells i (some arg), writes := jsArgs.writes ++ [i] }

/-- `setJsArgsUndefined`. -/
def setJsArgsUndefined (jsArgs : JsArgs) (i : Nat) : JsArgs := setJsArgs jsArgs i .undefined

/-- `C.int(n)`. -/
def cInt (n : Nat) : Int := (Int32.ofNat n).toInt

/-- A call of `JS_Call`. -/
@[ext] structure JsCall where
  func : JSValue
  this : JSValue
  argc : Int
  argv : Option JsArgs

namespace JsCall

/-- What the function receives, and what `freeJsArgs` reads after it: the cells below the
count. -/
def arguments (call : JsCall) : List (Option JSValue) :=
  (List.range call.argc.toNat).map fun i => call.argv.bind fun jsArgs => jsArgs.cells i

def writes (call : JsCall) : List Nat := call.argv.elim [] JsArgs.writes

end JsCall

section

variable (ctx : Ptr) (memory : GoMemory) (fresh : Nat → Fresh) (depth : Nat)

/-- The loop that fills the array of arguments from an index on. To write through the null
pointer ends the program. -/
def fillArgs : Nat → List GoVal → Option JsArgs → World → Option (Outcome (Option JsArgs) × World)
  | _, [], jsArgs, w => some (.value jsArgs, w)
  | i, arg :: rest, jsArgs, w =>
    (makeJsValue ctx memory (fresh i) depth arg w).bind fun made =>
      match made.1, jsArgs with
      | .value jsVal, some block => fillArgs (i + 1) rest (some (setJsArgs block i jsVal)) made.2
      | .failed _, some block => fillArgs (i + 1) rest (some (setJsArgsUndefined block i)) made.2
      | _, _ => some (.panicked, made.2)

/-- Go on with the array once it is filled. -/
def calling (func this : JSValue) (argc : Int)
    (filled : Outcome (Option JsArgs) × World) : Outcome JsCall × World :=
  (match filled.1 with
    | .value jsArgs => .value ⟨func, this, argc, jsArgs⟩
    | .failed e => .failed e
    | .panicked => .panicked, filled.2)

/-- `callJsFuncFromGo`, up to its `JS_Call`. -/
def callJsFuncFromGo (makeGoFuncArgs : GoArgs → List GoVal) (jsFunc : JSValue) (args : GoArgs)
    (w : World) : Option (Outcome JsCall × World) :=
  let argc := cInt args.len
  if 0 < argc then
    (fillArgs ctx memory fresh depth 0 (makeGoFuncArgs args) (some (allocJsArgs argc)) w).map
      (calling jsFunc .undefined argc)
  else some (.value ⟨jsFunc, .undefined, argc, none⟩, w)

/-- `callFunc`, up to its `JS_Call`. -/
def callFunc (fn : JSValue) (args : List GoVal) (w : World) : Option (Outcome JsCall × World) :=
  let l := cInt args.length
  (fillArgs ctx memory fresh depth 0 args (if 0 < l then some (allocJsArgs l) else none) w).map
    (calling fn fn l)

end

section

variable {Name : Type} [ToString Name] (ctx : Ptr) (memory : GoMemory) (fresh : Nat → Fresh)
  (depth : Nat) (getVar : Name → JSValue × Option String)

/-- The call that a variable bound by `BindFunc` makes, in `wrapFunc`. The error of `getVar` is
dropped. -/
def wrapFunc (makeGoFuncArgs : GoArgs → List GoVal) (funcName : Name) (args : GoArgs) (w : World) :
    Option (Outcome JsCall × World) :=
  callJsFuncFromGo ctx memory fresh depth makeGoFuncArgs (getVar funcName).1 args w

/-- `JS_IsFunction`: among the objects the engine knows which can be called. -/
def jsIsFunction (callable : Ptr → Bool) : JSValue → Bool
  | .object p => callable p
  | _ => false

/-- The method `CallFunc` of a context, up to its `JS_Call`. -/
def contextCallFunc (callable : Ptr → Bool) (funcName : Name) (args : List GoVal) (w : World) :
    Option (Outcome JsCall × World) :=
  match getVar funcName with
  | (_, some e) => some (.failed e, w)
  | (v, none) =>
    if jsIsFunction callable v then callFunc ctx memory fresh depth v args w
    else some (.failed ("var " ++ toString funcName ++ " is not with type function"), w)

end

/-! ## What is handed over -/

/-- The arguments from an index on are encoded one after the other, each to its value or to
undefined where `makeJsValue` reports an error. -/
inductive Made (ctx : Ptr) (memory : GoMemory) (fresh : Nat → Fresh) :
    Nat → World → List GoVal → List JSValue → World → Prop
  | nil {i : Nat} {w : World} : Made ctx memory fresh i w [] [] w
  | value {i depth : Nat} {w next after : World} {arg : GoVal} {rest : List GoVal} {js : JSValue}
      {values : List JSValue}
      (made : makeJsValue ctx memory (fresh i) depth arg w = some (.value js, next))
      (others : Made ctx memory fresh (i + 1) next rest values after) :
      Made ctx memory fresh i w (arg :: rest) (js :: values) after
  | undefined {i depth : Nat} {w next after : World} {arg : GoVal} {rest : List GoVal} {e : String}
      {values : List JSValue}
      (made : makeJsValue ctx memory (fresh i) depth arg w = some (.failed e, next))
      (others : Made ctx memory fresh (i + 1) next rest values after) :
      Made ctx memory fresh i w (arg :: rest) (.undefined :: values) after

/-- The call is made with an array in which each index below the count was written once and no
other was, and the function receives all arguments in order: each as a JS value, or
undefined in the place of one that cannot be encoded. -/
def ArgumentsMatch (ctx : Ptr) (memory : GoMemory) (fresh : Nat → Fresh)
    (makeGoFuncArgs : GoArgs → List GoVal) (jsFunc : JSValue) (args : GoArgs) (w : World) : Prop :=
  ∃ depth call after values,
    callJsFuncFromGo ctx memory fresh depth makeGoFuncArgs jsFunc args w =
      some (.value call, after) ∧
    (∀ i, call.writes.count i = if (i : Int) < call.argc then 1 else 0) ∧
    Made ctx memory fresh 0 w args.all values after ∧ .exception ∉ values ∧
    call.arguments = values.map some

/-- The value ends a chain of pointers, and its own case of the switch returns as long as ids
are left. -/
def Handled (memory : GoMemory) : GoVal → Prop
  | .bool named _ => named = false
  | .string named bytes | .bytes named bytes => named = false ∧ ¬ Oversized bytes
  | .ptr toInterface target => takesId memory (.ptr toInterface target) = true
  | _ => True

/-- The arguments can be handed over: each leads to a value that is handled, and ids are left
for all of them that are wrapped. -/
def AllHandled (store : PtrStore GoAddr) (memory : GoMemory) (args : List GoVal) : Prop :=
  ∃ ends, List.Forall₂ (Relation.ReflTransGen fun a b => pointsTo memory a = some b) args ends ∧
    (∀ u ∈ ends, Handled memory u) ∧ store.live + ends.countP (takesId memory) ≤ 2 ^ 32

variable {ctx : Ptr} {memory : GoMemory} {fresh : Nat → Fresh} {w after : World}

/-- What can be encoded is handled, and for a wrapper an id is left. -/
theorem encodable_iff {store : PtrStore GoAddr} {u : GoVal} :
    Encodable store memory u ↔
      Handled memory u ∧ (takesId memory u = true → store.live < 2 ^ 32) := by
  cases u with
  | ptr toInterface target =>
    cases target with
    | none => simp [Encodable, Handled, takesId]
    | some target =>
      simp only [Encodable, Handled, takesId, Bool.and_eq_true, Bool.not_eq_true']
      tauto
  | _ => simp [Encodable, Handled, takesId]

/-! ## All arguments -/

/-- The arguments are handed over exactly when all of them are handled and ids are left for
their wrappers.

Proof: induction on the arguments. The first is answered when its chain of pointers ends in a
value that is handled, and the others go on with the ids that are left then. -/
theorem made_iff {args : List GoVal} {i : Nat} (supply : Supply ctx w fresh (i ≤ ·)) :
    (∃ values after, Made ctx memory fresh i w args values after ∧ .exception ∉ values) ↔
      AllHandled (w.stores.seen ctx) memory args := by
  induction args generalizing i w with
  | nil =>
    constructor
    · intro _
      exact ⟨[], .nil, by simp, by simpa using PtrStore.live_le _⟩
    · intro _
      exact ⟨[], w, .nil, by simp⟩
  | cons arg rest inductionHypothesis =>
    have here := supply.unused i (Nat.le_refl i)
    have encodes := encodes_iff ctx memory (fresh i) arg w here
    have supplied : ∀ {depth outcome after},
        makeJsValue ctx memory (fresh i) depth arg w = some (outcome, after) →
        Supply ctx after fresh (i + 1 ≤ ·) := fun returned =>
      supply.next (Nat.le_refl i) (fun k later => ⟨Nat.le_of_succ_le later, by omega⟩) returned
    constructor
    · rintro ⟨values, after, made, normal⟩
      obtain ⟨depth, outcome, next, others, returned, answers, onward, fine⟩ :
          ∃ depth outcome next others,
            makeJsValue ctx memory (fresh i) depth arg w = some (outcome, next) ∧
            Answers outcome ∧ Made ctx memory fresh (i + 1) next rest others after ∧
            .exception ∉ others := by
        cases made with
        | value returned onward =>
          rw [List.mem_cons, not_or] at normal
          exact ⟨_, _, _, _, returned, Ne.symm normal.1, onward, normal.2⟩
        | undefined returned onward =>
          rw [List.mem_cons, not_or] at normal
          exact ⟨_, _, _, _, returned, trivial, onward, normal.2⟩
      obtain ⟨u, chain, encodable⟩ := encodes.mp ⟨depth, outcome, next, returned, answers⟩
      obtain ⟨ends, chains, handled, room⟩ :=
        (inductionHypothesis (supplied returned)).mp ⟨others, after, onward, fine⟩
      have live := (converted here chain encodable.last returned).2
      refine ⟨u :: ends, .cons chain chains, ?_, ?_⟩
      · rintro v (_ | ⟨_, inside⟩)
        · exact (encodable_iff.mp encodable).1
        · exact handled v inside
      · rw [List.countP_cons]
        omega
    · rintro ⟨_, chains, handled, room⟩
      cases chains with
      | cons chain chains =>
        rename_i u ends
        rw [List.countP_cons] at room
        have encodable : Encodable (w.stores.seen ctx) memory u := by
          refine encodable_iff.mpr ⟨handled u (by simp), ?_⟩
          intro takes
          rw [if_pos takes] at room
          omega
        obtain ⟨depth, outcome, next, returned, answers⟩ := encodes.mpr ⟨u, chain, encodable⟩
        have live := (converted here chain encodable.last returned).2
        obtain ⟨values, after, onward, fine⟩ :=
          (inductionHypothesis (supplied returned)).mpr
            ⟨ends, chains, fun v inside => handled v (by simp [inside]), by omega⟩
        cases outcome with
        | value js => exact ⟨js :: values, after, .value returned onward, by
            simpa [fine] using Ne.symm answers⟩
        | failed e => exact ⟨.undefined :: values, after, .undefined returned onward, by simpa using fine⟩
        | panicked => exact answers.elim

/-! ## The array -/

/-- The array after the values have been written to it from an index on. -/
def JsArgs.filled (block : JsArgs) (i : Nat) : List JSValue → JsArgs
  | [] => block
  | js :: values => (setJsArgs block i js).filled (i + 1) values

variable {block : JsArgs} {i j : Nat} {args : List GoVal} {values : List JSValue}

theorem filled_writes : (block.filled i values).writes = block.writes ++ List.range' i values.length := by
  induction values generalizing block i with
  | nil => simp [JsArgs.filled]
  | cons js values inductionHypothesis =>
    simp [JsArgs.filled, inductionHypothesis, setJsArgs, List.range'_succ]

theorem filled_before (before : j < i) : (block.filled i values).cells j = block.cells j := by
  induction values generalizing block i with
  | nil => rfl
  | cons js values inductionHypothesis =>
    rw [JsArgs.filled, inductionHypothesis (Nat.lt_succ_of_lt before)]
    exact Function.update_of_ne (Nat.ne_of_lt before) _ _

theorem filled_at (inside : j < values.length) :
    (block.filled i values).cells (i + j) = values[j]? := by
  induction values generalizing block i j with
  | nil => simp at inside
  | cons js values inductionHypothesis =>
    cases j with
    | zero =>
      rw [JsArgs.filled, filled_before (by omega)]
      exact Function.update_self _ _ _
    | succ j =>
      have shifted : i + (j + 1) = i + 1 + j := by omega
      rw [JsArgs.filled, shifted, inductionHypothesis (by simpa using inside), List.getElem?_cons_succ]

theorem Made.length (made : Made ctx memory fresh i w args values after) :
    values.length = args.length := by
  induction made with
  | nil => rfl
  | value _ _ inductionHypothesis => simp [inductionHypothesis]
  | undefined _ _ inductionHypothesis => simp [inductionHypothesis]

/-- A loop that ends has written what the arguments were encoded to. -/
theorem fillArgs_made {depth : Nat} {jsArgs : Option JsArgs}
    (returned : fillArgs ctx memory fresh depth i args (some block) w =
      some (.value jsArgs, after)) :
    ∃ values, Made ctx memory fresh i w args values after ∧ jsArgs = some (block.filled i values) := by
  induction args generalizing i block w with
  | nil =>
    obtain ⟨same, rfl⟩ := Prod.mk.inj (Option.some.inj returned)
    exact ⟨[], .nil, (Outcome.value.inj same).symm⟩
  | cons arg rest inductionHypothesis =>
    obtain ⟨⟨outcome, next⟩, made, onward⟩ := Option.bind_eq_some_iff.mp returned
    cases outcome with
    | value js =>
      obtain ⟨values, others, filled⟩ := inductionHypothesis onward
      exact ⟨js :: values, .value made others, filled⟩
    | failed e =>
      obtain ⟨values, others, filled⟩ := inductionHypothesis onward
      exact ⟨.undefined :: values, .undefined made others, filled⟩
    | panicked => cases onward

/-- Where all arguments are handed over, the loop ends with enough depth. -/
theorem Made.fills (made : Made ctx memory fresh i w args values after) :
    ∃ depth, ∀ more, depth ≤ more → ∀ block,
      fillArgs ctx memory fresh more i args (some block) w =
        some (.value (some (block.filled i values)), after) := by
  induction made with
  | nil => exact ⟨0, fun _ _ _ => rfl⟩
  | @value i first w next after arg rest js values made _ inductionHypothesis =>
    obtain ⟨depth, fills⟩ := inductionHypothesis
    refine ⟨max first depth, ?_⟩
    intro more enough block
    rw [fillArgs, makeJsValue_deeper (le_of_max_le_left enough) made]
    exact fills more (le_of_max_le_right enough) _
  | @undefined i first w next after arg rest e values made _ inductionHypothesis =>
    obtain ⟨depth, fills⟩ := inductionHypothesis
    refine ⟨max first depth, ?_⟩
    intro more enough block
    rw [fillArgs, makeJsValue_deeper (le_of_max_le_left enough) made]
    exact fills more (le_of_max_le_right enough) _

theorem GoArgs.cInt_len (args : GoArgs) : cInt args.len = args.len := by
  have few : args.len < 2 ^ 16 := args.few
  exact Int32.toInt_ofNat_of_lt (by omega)

/-- Indices written from zero on are those below a count once each, when there are as many. -/
theorem range'_count_iff {n argc : Nat} :
    (∀ i, (List.range' 0 n).count i = if (i : Int) < argc then 1 else 0) ↔ n = argc := by
  have counted : ∀ i, (List.range' 0 n).count i = if i < n then 1 else 0 := by
    intro i
    rw [(List.nodup_range').count]
    simp [List.mem_range'_1]
  simp only [counted, Nat.cast_lt]
  constructor
  · intro same
    by_contra different
    have atLeast := same (min n argc)
    split at atLeast <;> split at atLeast <;> omega
  · rintro rfl i
    rfl

/-- The function receives the values that were written. -/
theorem arguments_filled {func this : JSValue} {size : Int} :
    (JsCall.mk func this values.length (some ((allocJsArgs size).filled 0 values))).arguments =
      values.map some := by
  apply List.ext_getElem?
  intro j
  simp only [JsCall.arguments, Int.toNat_natCast, List.getElem?_map, Option.bind_some]
  by_cases inside : j < values.length
  · have written : ((allocJsArgs size).filled 0 values).cells (0 + j) = values[j]? :=
      filled_at inside
    rw [Nat.zero_add] at written
    rw [List.getElem?_range inside, Option.map_some, written, List.getElem?_eq_getElem inside]
    rfl
  · rw [List.getElem?_eq_none (by simpa using inside), List.getElem?_eq_none (by simpa using inside)]
    rfl

/-- The Go call has as many arguments as are yielded. -/
theorem all_length_iff {args : GoArgs} :
    args.all.length = args.len ↔ ∀ slice, args.variadic = some slice → slice.length = 1 := by
  cases slice : args.variadic <;> simp [GoArgs.all, GoArgs.len, slice]

/-- A function without parameters is called without arguments. -/
theorem all_of_len_zero {args : GoArgs} (none : args.len = 0) : args.all = [] := by
  cases slice : args.variadic <;> simp_all [GoArgs.all, GoArgs.len]

/-- A Go call of a bound function fills its array exactly, and hands over all arguments, when
the slice of a variadic function has one element, no argument leads to a nil pointer, in
circles, to a value of a defined bool, string or bytes type or to a text that the engine
cannot hold, and ids are left for the arguments that are wrapped. -/
theorem argumentsMatch_iff (ctx : Ptr) (memory : GoMemory) (fresh : Nat → Fresh)
    (makeGoFuncArgs : GoArgs → List GoVal) (jsFunc : JSValue) (args : GoArgs) (w : World)
    (yields : ∀ args, makeGoFuncArgs args = args.all) (supply : Supply ctx w fresh fun _ => True) :
    ArgumentsMatch ctx memory fresh makeGoFuncArgs jsFunc args w ↔
      (∀ slice, args.variadic = some slice → slice.length = 1) ∧
      AllHandled (w.stores.seen ctx) memory args.all := by
  have fromStart : Supply ctx w fresh (0 ≤ ·) := ⟨fun k _ => supply.unused k trivial, supply.apart⟩
  rw [← all_length_iff, ← made_iff fromStart, ArgumentsMatch]
  simp only [callJsFuncFromGo, yields, args.cInt_len]
  constructor
  · rintro ⟨depth, call, after, values, returned, once, made, normal, _⟩
    refine ⟨?_, values, after, made, normal⟩
    split at returned
    · obtain ⟨⟨outcome, next⟩, filled, same⟩ := Option.map_eq_some_iff.mp returned
      cases outcome with
      | value jsArgs =>
        obtain ⟨written, others, rfl⟩ := fillArgs_made filled
        obtain ⟨rfl, rfl⟩ : JsCall.mk jsFunc .undefined args.len
            (some ((allocJsArgs args.len).filled 0 written)) = call ∧ next = after := by
          simpa [calling] using same
        rw [← others.length]
        apply range'_count_iff.mp
        simpa [JsCall.writes, filled_writes, allocJsArgs] using once
      | failed e => simp [calling] at same
      | panicked => simp [calling] at same
    · have noArgs : args.len = 0 := by omega
      rw [noArgs, all_of_len_zero noArgs]
      rfl
  · rintro ⟨enough, values, after, made, normal⟩
    have count := made.length.trans enough
    have once := range'_count_iff.mpr count
    by_cases positive : 0 < (args.len : Int)
    · obtain ⟨depth, fills⟩ := made.fills
      refine ⟨depth, ⟨jsFunc, .undefined, args.len,
        some ((allocJsArgs args.len).filled 0 values)⟩, after, values, ?_, ?_, made, normal, ?_⟩
      · rw [if_pos positive, fills depth (Nat.le_refl depth)]
        rfl
      · simpa [JsCall.writes, filled_writes, allocJsArgs] using once
      · rw [← count]
        exact arguments_filled
    · have noArgs : args.len = 0 := by omega
      rw [all_of_len_zero noArgs] at made ⊢
      cases made with
      | nil =>
        refine ⟨0, ⟨jsFunc, .undefined, args.len, none⟩, w, [], ?_, ?_, .nil, normal, ?_⟩
        · rw [if_neg positive]
        · simp [JsCall.writes, noArgs]
        · simp [JsCall.arguments, noArgs]

/-- A function with two parameters, one of them of a type without a counterpart. -/
theorem unsupported_argument_undefined :
    ArgumentsMatch 1 (fun _ => .nil) (fun i => ⟨10 + i, 20 + i⟩) GoArgs.all (.object 5)
      ⟨[.int .int 7, .other .chan], none, by decide⟩ World.initial :=
  (argumentsMatch_iff 1 _ _ GoArgs.all (.object 5) _ World.initial (fun _ => rfl)
    ⟨fun _ _ => ⟨rfl, rfl⟩, by intro j k other; constructor <;> simpa using other⟩).mpr
    ⟨by simp, [.int .int 7, .other .chan], .cons .refl (.cons .refl .nil), by simp [Handled], by decide⟩

/-- A variadic function called without further arguments: nothing is written to the cell that
stands for the slice, and the engine reads what `malloc` left there. -/
theorem empty_slice_unwritten :
    ¬ ArgumentsMatch 1 (fun _ => .nil) (fun i => ⟨10 + i, 20 + i⟩) GoArgs.all (.object 5)
      ⟨[.int .int 7], some [], by decide⟩ World.initial := by
  rintro ⟨depth, call, after, values, returned, once, -⟩
  cases depth with
  | zero => cases returned
  | succ depth =>
    cases returned
    exact absurd (once 1) (by decide)

/-! ## The two ways of calling -/

section

variable {Name : Type} {getVar : Name → JSValue × Option String}
  {makeGoFuncArgs : GoArgs → List GoVal} {callable : Ptr → Bool} {funcName : Name}

/-- The two ways of calling make the same engine call: the same function, the same value of
`this` and the same arguments. -/
def CallsAgree [ToString Name] (ctx : Ptr) (memory : GoMemory) (fresh : Nat → Fresh)
    (getVar : Name → JSValue × Option String) (makeGoFuncArgs : GoArgs → List GoVal)
    (callable : Ptr → Bool) (funcName : Name) (args : GoArgs) (w : World) : Prop :=
  ∃ depth bound called boundAfter calledAfter,
    wrapFunc ctx memory fresh depth getVar makeGoFuncArgs funcName args w =
      some (.value bound, boundAfter) ∧
    contextCallFunc ctx memory fresh depth getVar callable funcName args.all w =
      some (.value called, calledAfter) ∧
    bound.func = called.func ∧ bound.this = called.this ∧ bound.arguments = called.arguments

/-- What a call is made with once its arguments are filled in. -/
theorem calling_value {depth : Nat} {func this : JSValue} {argc : Int} {start : Option JsArgs}
    {call : JsCall}
    (returned : (fillArgs ctx memory fresh depth 0 args start w).map (calling func this argc) =
      some (.value call, after)) : call.func = func ∧ call.this = this := by
  obtain ⟨⟨outcome, next⟩, _, same⟩ := Option.map_eq_some_iff.mp returned
  cases outcome with
  | value jsArgs =>
    obtain ⟨rfl, -⟩ : JsCall.mk func this argc jsArgs = call ∧ next = after := by
      simpa [calling] using same
    exact ⟨rfl, rfl⟩
  | failed e => simp [calling] at same
  | panicked => simp [calling] at same

/-- A bound function is called with undefined as the value of `this`. -/
theorem wrapFunc_this {depth : Nat} {args : GoArgs} {call : JsCall}
    (returned : wrapFunc ctx memory fresh depth getVar makeGoFuncArgs funcName args w =
      some (.value call, after)) :
    call.func = (getVar funcName).1 ∧ call.this = .undefined := by
  simp only [wrapFunc, callJsFuncFromGo] at returned
  split at returned
  · exact calling_value returned
  · cases returned
    exact ⟨rfl, rfl⟩

/-- `CallFunc` calls an object, with itself as the value of `this`. -/
theorem contextCallFunc_this [ToString Name] {depth : Nat} {call : JsCall}
    (returned : contextCallFunc ctx memory fresh depth getVar callable funcName args w =
      some (.value call, after)) :
    ∃ p, (getVar funcName).1 = .object p ∧ call.func = .object p ∧ call.this = .object p := by
  simp only [contextCallFunc] at returned
  split at returned
  · cases returned
  · rename_i v found
    split at returned
    · rename_i function
      cases v with
      | object p => exact ⟨p, congrArg Prod.fst found, calling_value returned⟩
      | _ => cases function
    · cases returned

/-- The value of `this` is handed through. -/
theorem calling_this {func this other : JSValue} {argc : Int} {call : JsCall}
    {filled : Outcome (Option JsArgs) × World} :
    calling func this argc filled = (.value { call with this := this }, after) ↔
      calling func other argc filled = (.value { call with this := other }, after) := by
  obtain ⟨outcome, next⟩ := filled
  cases outcome <;> simp [calling, JsCall.ext_iff]

/-- But for the value of `this` the two ways of calling a function that is not variadic are one:
the same function is called with an array that was filled the same way. -/
theorem differ_in_this [ToString Name] (yields : ∀ args, makeGoFuncArgs args = args.all)
    {depth : Nat} {args : GoArgs} {call : JsCall} (plain : args.variadic = none)
    (found : (getVar funcName).2 = none)
    (function : jsIsFunction callable (getVar funcName).1 = true) :
    wrapFunc ctx memory fresh depth getVar makeGoFuncArgs funcName args w =
        some (.value { call with this := .undefined }, after) ↔
      contextCallFunc ctx memory fresh depth getVar callable funcName args.all w =
        some (.value { call with this := (getVar funcName).1 }, after) := by
  have pair : getVar funcName = ((getVar funcName).1, none) := Prod.ext rfl found
  have count : args.all.length = args.len := all_length_iff.mpr (by simp [plain])
  rw [contextCallFunc, pair]
  simp only [wrapFunc, callJsFuncFromGo, callFunc, yields, function, if_true, count]
  by_cases positive : 0 < cInt args.len
  · rw [if_pos positive, if_pos positive, Option.map_eq_some_iff, Option.map_eq_some_iff]
    exact exists_congr fun filled => and_congr_right fun _ => calling_this
  · have noArgs : args.len = 0 := by
      rw [args.cInt_len] at positive
      omega
    rw [if_neg positive, if_neg positive, all_of_len_zero noArgs]
    change some (calling _ _ (cInt args.len) (.value none, w)) = _ ↔
      some (calling _ _ (cInt args.len) (.value none, w)) = _
    rw [Option.some_inj, Option.some_inj]
    exact calling_this

/-- A bound function and `CallFunc` never make the same engine call. -/
theorem calls_never_agree [ToString Name] (ctx : Ptr) (memory : GoMemory) (fresh : Nat → Fresh)
    (getVar : Name → JSValue × Option String) (makeGoFuncArgs : GoArgs → List GoVal)
    (callable : Ptr → Bool) (funcName : Name) (args : GoArgs) (w : World) :
    ¬ CallsAgree ctx memory fresh getVar makeGoFuncArgs callable funcName args w := by
  rintro ⟨depth, bound, called, boundAfter, calledAfter, boundCall, calledCall, -, same, -⟩
  obtain ⟨_, undefined⟩ := wrapFunc_this boundCall
  obtain ⟨p, _, _, self⟩ := contextCallFunc_this calledCall
  rw [undefined, self] at same
  cases same

/-- A function that is called without arguments. A bound variable calls it with undefined as the
value of `this`, and `CallFunc` with the function itself. -/
theorem called_on_itself :
    ¬ CallsAgree 1 (fun _ => .nil) (fun i => ⟨10 + i, 20 + i⟩)
      (fun _ : String => (.object 5, none)) GoArgs.all (fun _ => true) "f" ⟨[], none, by decide⟩
      World.initial := by
  rintro ⟨depth, bound, called, boundAfter, calledAfter, boundCall, calledCall, -, same, -⟩
  cases boundCall
  cases calledCall
  cases same

end

end GoQuickjs.World
