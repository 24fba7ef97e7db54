import GoQuickjs.Heap

/-!
# Cyclic values

`fromJsValue` follows every reference of a value, in the order of the elements and
properties, until a part fails. It keeps no record of where it is, so an object that it
gets to again below itself is followed for ever. On a finite heap the conversion returns
exactly when it gets to no such object, and to no array that is too long.
-/

namespace GoQuickjs

open Tracing Traced Relation

variable {A : Type} {heap : Heap A} {root : ScriptValue A} {p : Path} {a : A}

/-- The value unfolds to a finite tree of values that have a Go counterpart. -/
inductive Decodable (heap : Heap A) : ScriptValue A → Prop
  | flat {v : ScriptValue A} {d : Decoded} : v.flatResult = some (.ok d) → Decodable heap v
  | node {a : A} : (heap a).Short → (∀ i < (heap a).count, Decodable heap ((heap a).child i)) →
      Decodable heap (.object a)

/-- The conversion of an object gets to the other one among its parts: all earlier parts
are converted. -/
def Visits (heap : Heap A) (a b : A) : Prop :=
  (heap a).Short ∧ ∃ i < (heap a).count,
    (∀ j < i, Decodable heap ((heap a).child j)) ∧ (heap a).child i = .object b

/-- The conversion of a value gets to the object. -/
def Visited (heap : Heap A) (v : ScriptValue A) (b : A) : Prop :=
  ∃ a, v = .object a ∧ ReflTransGen (Visits heap) a b

/-- The conversion of a value returns. -/
def Terminates (heap : Heap A) (v : ScriptValue A) : Prop :=
  ∃ depth result, (fromJsValue (reading heap v) depth []).ending = .returns result

/-! ## Values that are converted -/

/-- Images of all parts make an image of the whole. -/
theorem gives_build (here : valueAt heap root p = .object a) (short : (heap a).Short)
    (parts : ∀ i < (heap a).count, ∃ v, Gives (reading heap root) (i :: p) (.ok v)) :
    ∃ v, Gives (reading heap root) p (.ok v) := by
  have given : ∀ i : Fin (heap a).count, ∃ v, Gives (reading heap root) (i.1 :: p) (.ok v) :=
    fun i => parts i i.isLt
  choose image gives using given
  refine ⟨_, (gives_node here short).mpr (Or.inr ⟨List.ofFn image, List.length_ofFn, ?_, rfl⟩)⟩
  intro i v found
  obtain ⟨below, rfl⟩ := List.getElem?_eq_some_iff.mp found
  rw [List.getElem_ofFn]
  exact gives ⟨i, by simpa using below⟩

theorem Decodable.gives {v : ScriptValue A} (decodable : Decodable heap v)
    (here : valueAt heap root p = v) : ∃ d, Gives (reading heap root) p (.ok d) := by
  induction decodable generalizing p with
  | @flat v d flat => exact ⟨d, (gives_flat (here ▸ flat)).mpr rfl⟩
  | node short _ inductionHypothesis =>
    refine gives_build here short fun i below => ?_
    exact inductionHypothesis i below (valueAt_child here i)

/-- A conversion that returns has converted, one level deeper, every part that it got to. -/
theorem returns_child {depth i : Nat} {result : GoResult}
    (here : valueAt heap root p = .object a) (short : (heap a).Short)
    (returned : (fromJsValue (reading heap root) (depth + 1) p).ending = .returns result)
    (below : i < (heap a).count)
    (earlier : ∀ j < i, ∃ v, Gives (reading heap root) (j :: p) (.ok v)) :
    ∃ part, (fromJsValue (reading heap root) depth (i :: p)).ending = .returns part := by
  have read := reading_node here
  cases node : heap a with
  | array n element =>
    rw [node] at read short below
    have count : elementCount (.ok (jsNewUint32 n)) = n.toNat := elementCount_short short
    refine returns_element read returned ?_ ?_ reading_not_thrown
    · rw [count, Int.toNat_natCast]
      exact below
    · intro j before
      obtain ⟨v, given⟩ := earlier j before
      exact ⟨v, elementGives_reading.mpr given⟩
  | plain own value =>
    rw [node] at read below
    refine returns_property read returned ?_ earlier
    rw [OwnKeys.atoms, List.length_map]
    exact below
  | function f =>
    rw [node] at below
    exact absurd below (Nat.not_lt_zero i)

/-- A value that is converted unfolds to a finite tree.

Proof: induction on the depth. All parts of the value have images, so each of them was
got to and returned one level deeper. -/
theorem decodable_of_returns {depth : Nat} {d : Decoded}
    (returned : (fromJsValue (reading heap root) depth p).ending = .returns (.ok d)) :
    Decodable heap (valueAt heap root p) := by
  induction depth generalizing p d with
  | zero => simp [fromJsValue, unfinished] at returned
  | succ depth inductionHypothesis =>
    cases here : valueAt heap root p with
    | object a =>
      have short : (heap a).Short := by
        by_contra long
        exact not_gives_long here long ⟨_, returned⟩
      obtain ⟨i, -, -, e, -, impossible⟩ | ⟨vs, count, given, -⟩ :=
        (gives_node here short).mp ⟨_, returned⟩
      · simp at impossible
      · have parts : ∀ i < (heap a).count, ∃ v, Gives (reading heap root) (i :: p) (.ok v) :=
          fun i below => ⟨vs[i], given i _ (List.getElem?_eq_getElem (count ▸ below))⟩
        refine .node short fun i below => ?_
        obtain ⟨part, deeper⟩ := returns_child here short returned below
          fun j before => parts j (by omega)
        obtain ⟨v, image⟩ := parts i below
        obtain rfl := image.unique ⟨depth, deeper⟩
        rw [← valueAt_child here]
        exact inductionHypothesis deeper
    | _ =>
      rw [← here]
      have known := (gives_flat (by rw [here]; rfl)).mp ⟨_, returned⟩
      exact .flat (by rw [here, ScriptValue.flatResult, known])

/-- The values that are converted are those that unfold to a finite tree. -/
theorem gives_ok_iff_decodable :
    (∃ d, Gives (reading heap root) p (.ok d)) ↔ Decodable heap (valueAt heap root p) := by
  constructor
  · rintro ⟨d, depth, returned⟩
    exact decodable_of_returns returned
  · exact fun decodable => decodable.gives rfl

/-! ## Conversions that return -/

/-- A part that the conversion gets to returns, if the objects that it gets to do. -/
theorem gives_part {i : Nat} (here : valueAt heap root p = .object a) (short : (heap a).Short)
    (below : i < (heap a).count)
    (earlier : ∀ j < i, ∃ v, Gives (reading heap root) (j :: p) (.ok v))
    (deeper : ∀ b, Visits heap a b → valueAt heap root (i :: p) = .object b →
      ∃ result, Gives (reading heap root) (i :: p) result) :
    ∃ result, Gives (reading heap root) (i :: p) result := by
  cases part : valueAt heap root (i :: p) with
  | object b =>
    refine deeper b ⟨short, i, below, ?_, ?_⟩ part
    · intro j before
      rw [← valueAt_child here]
      exact gives_ok_iff_decodable.mp (earlier j before)
    · rw [← valueAt_child here]
      exact part
  | _ => exact ⟨_, (gives_flat (by rw [part]; rfl)).mpr rfl⟩

/-- The conversion of an object returns when the walk from it is finite and gets to no
array that is too long.

Proof: induction on the walk. Either every part is converted, or the first one that is
not was got to, so it returned an error. -/
theorem gives_of_acc (finite : Acc (flip (Visits heap)) a)
    (short : ∀ b, ReflTransGen (Visits heap) a b → (heap b).Short)
    (here : valueAt heap root p = .object a) : ∃ result, Gives (reading heap root) p result := by
  induction finite generalizing p with
  | intro a _ inductionHypothesis =>
    have shortHere := short a ReflTransGen.refl
    have part : ∀ i < (heap a).count,
        (∀ j < i, ∃ v, Gives (reading heap root) (j :: p) (.ok v)) →
        ∃ result, Gives (reading heap root) (i :: p) result := by
      intro i below earlier
      refine gives_part here shortHere below earlier fun b visits there => ?_
      exact inductionHypothesis b visits (fun c reached => short c (.head visits reached)) there
    by_cases all : ∀ i < (heap a).count, ∃ v, Gives (reading heap root) (i :: p) (.ok v)
    · obtain ⟨v, given⟩ := gives_build here shortHere all
      exact ⟨_, given⟩
    · push Not at all
      classical
      obtain ⟨below, refused⟩ := Nat.find_spec all
      have earlier : ∀ j < Nat.find all, ∃ v, Gives (reading heap root) (j :: p) (.ok v) := by
        intro j before
        by_contra sooner
        exact Nat.find_min all before ⟨Nat.lt_trans before below, fun v given => sooner ⟨v, given⟩⟩
      obtain ⟨result, given⟩ := part _ below earlier
      cases result with
      | ok v => exact absurd given (refused v)
      | error e => exact ⟨_, (gives_node here shortHere).mpr (Or.inl ⟨_, below, earlier, e, given, rfl⟩)⟩

/-- A conversion that returns has walked over a finite part of the heap, without an array
that is too long.

Proof: induction on the depth; every object that is visited returned one level deeper. -/
theorem acc_of_returns {depth : Nat} {result : GoResult}
    (returned : (fromJsValue (reading heap root) depth p).ending = .returns result)
    (here : valueAt heap root p = .object a) :
    Acc (flip (Visits heap)) a ∧ ∀ b, ReflTransGen (Visits heap) a b → (heap b).Short := by
  induction depth generalizing p a result with
  | zero => simp [fromJsValue, unfinished] at returned
  | succ depth inductionHypothesis =>
    have short : (heap a).Short := by
      by_contra long
      exact not_gives_long here long ⟨_, returned⟩
    have deeper : ∀ b, Visits heap a b → Acc (flip (Visits heap)) b ∧
        ∀ c, ReflTransGen (Visits heap) b c → (heap c).Short := by
      rintro b ⟨-, i, below, earlier, child⟩
      obtain ⟨part, returned'⟩ := returns_child here short returned below fun j before =>
        (earlier j before).gives (valueAt_child here j)
      exact inductionHypothesis returned' ((valueAt_child here i).trans child)
    refine ⟨.intro a fun b visits => (deeper b visits).1, fun b reached => ?_⟩
    rcases reached.cases_head with rfl | ⟨c, visits, rest⟩
    · exact short
    · exact (deeper c visits).2 b rest

/-- On a finite heap the conversion of a value returns exactly when it gets to no object
that it can get to again from there, and to no array of `2 ^ 31` elements or more. -/
theorem terminates_iff [Finite A] (heap : Heap A) (v : ScriptValue A) :
    Terminates heap v ↔ (∀ a, Visited heap v a → ¬ TransGen (Visits heap) a a) ∧
      ∀ a, Visited heap v a → (heap a).Short := by
  constructor
  · rintro ⟨depth, result, returned⟩
    constructor
    · rintro b ⟨a, rfl, reached⟩
      exact Cycles.acc_iff_no_cycle.mp (acc_of_returns returned rfl).1 b reached
    · rintro b ⟨a, rfl, reached⟩
      exact (acc_of_returns returned rfl).2 b reached
  · rintro ⟨acyclic, short⟩
    suffices given : ∃ result, Gives (reading heap v) [] result by
      obtain ⟨result, depth, returned⟩ := given
      exact ⟨depth, result, returned⟩
    cases v with
    | object a =>
      have finite := Cycles.acc_iff_no_cycle.mpr fun b reached => acyclic b ⟨a, rfl, reached⟩
      exact gives_of_acc finite (fun b reached => short b ⟨a, rfl, reached⟩) rfl
    | _ => exact ⟨_, (gives_flat rfl).mpr rfl⟩

/-- The array `[a, a]` and the array `a`, which is empty. -/
def sharedHeap : Heap Bool
  | true => .array 2 fun _ => some (.object false)
  | false => .array 0 fun _ => none

theorem sharedHeap_visits {a b : Bool} (visits : Visits sharedHeap a b) : a = true ∧ b = false := by
  obtain ⟨-, i, below, -, child⟩ := visits
  cases a with
  | true =>
    obtain rfl : false = b := ScriptValue.object.inj child
    exact ⟨rfl, rfl⟩
  | false => exact absurd below (Nat.not_lt_zero i)

theorem sharedHeap_terminates : Terminates sharedHeap (.object true) := by
  refine (terminates_iff sharedHeap _).mpr ⟨?_, ?_⟩
  · rintro a - cycle
    obtain ⟨b, first, -⟩ := TransGen.head'_iff.mp cycle
    obtain ⟨c, -, last⟩ := TransGen.tail'_iff.mp cycle
    have impossible := (sharedHeap_visits first).1.symm.trans (sharedHeap_visits last).2
    simp at impossible
  · rintro a -
    cases a with
    | true => exact (by decide : (2 : UInt32).toNat < 2 ^ 31)
    | false => exact (by decide : (0 : UInt32).toNat < 2 ^ 31)

/-- The object `o` after `var o = {}; o.self = o`. -/
def selfHeap : Heap Unit :=
  fun _ => .plain ⟨[⟨false, .string ⟨[0x73, 0x65, 0x6c, 0x66], false, by simp, by simp⟩⟩],
    List.nodup_singleton _⟩ fun _ => .object ()

/-- Its conversion never returns. -/
theorem selfHeap_diverges : ¬ Terminates selfHeap (.object ()) := by
  rintro ⟨depth, result, returned⟩
  have visits : Visits selfHeap () () := ⟨trivial, 0, Nat.one_pos, fun j before => by omega, rfl⟩
  exact Cycles.not_cycle_of_acc (acc_of_returns returned rfl).1 (TransGen.single visits)

end GoQuickjs
