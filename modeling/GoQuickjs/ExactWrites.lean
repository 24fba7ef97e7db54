import GoQuickjs.Proxies

/-!
# What a write changes

A write through a proxy either changes nothing and returns 0, or it stores one value in the part
that the same key reads, and returns 1. This is so from the moment on when the engine value has
been converted: the conversion may run scripts, and what these do is not undone. Where the key
alone rules the write out, an index that is none or out of range, nothing is converted.
-/

namespace GoQuickjs.Proxies

open Tracing World

/-- The engine value is converted before anything can go wrong, except that an index is checked
first. -/
def converts : GoVal → Name → Bool
  | .slice _ len, name | .array _ len, name =>
    (atoi name).any fun idx : Int => 0 ≤ idx && idx < (len : Int)
  | .map _, _ | .struct _ _, _ | .ptr _ _, _ => true
  | _, _ => false

/-- Go memory as the conversion leaves it. -/
def leftBy (v : GoVal) (key : PropertyKey) (x : Written) (heap : GoHeap) : GoHeap :=
  if key.bytes ≠ [] ∧ converts v key.bytes then x.ran heap else heap

/-- A read through a key returns the encoding of a value: what `makeJsValue` returns, and
`undefined` where that is an error. It does nothing else than `makeJsValue`, so that it panics
where `makeJsValue` panics on the value. -/
structure ReadsAs (ctx : Ptr) (types : GoTypes) (heap : GoHeap) (fresh : Fresh) (obj : Ptr)
    (key : PropertyKey) (w : World) (u : GoVal) : Prop where
  value : ∀ depth js next,
    makeJsValue ctx heap.vars fresh depth u (w.getTargetValue ctx obj).2 = some (.value js, next) →
    goObjGet ctx types heap fresh depth obj key w = some (.value js, next)
  failed : ∀ depth e next,
    makeJsValue ctx heap.vars fresh depth u (w.getTargetValue ctx obj).2 = some (.failed e, next) →
    goObjGet ctx types heap fresh depth obj key w = some (.value .undefined, next)
  same : ∀ depth, goObjGet ctx types heap fresh depth obj key w =
    encoded ctx heap.vars fresh depth u (w.getTargetValue ctx obj).2

/-- What a write that returns a code has made of Go memory: nothing was changed, or a value was
stored in the part that the key selects. The part then reads as the encoding of this value. -/
structure ExactWrite (types : GoTypes) (v : GoVal) (key : PropertyKey) (before after : GoHeap)
    (code : Nat) : Prop where
  codes : code = 0 ∨ code = 1
  kept : code = 0 → after = before
  vars : after.vars = before.vars
  stored : code = 1 → ∃ c u, selects types before v key = .component c ∧
    selects types after v key = .component c ∧ after.contents c = some u ∧
    (∀ other, other ≠ c → after.contents other = before.contents other) ∧
    ∀ ctx fresh obj w, (World.getTargetValue ctx w obj).1 = some v →
      ReadsAs ctx types after fresh obj key w u

variable {types : GoTypes} {coerce : Coercion} {depth code : Nat} {v : GoVal} {name : Name}
  {key : PropertyKey} {x : Written} {heap before after : GoHeap}

/-! ## One write -/

/-- The value was stored in the part that the key selects, or nothing was stored. -/
def Stored (types : GoTypes) (v : GoVal) (name : Name) (before after : GoHeap) (code : Nat) : Prop :=
  (code = 0 ∧ after = before) ∨
    (code = 1 ∧ ∃ c u, after = before.store c u ∧ select types before v name = .component c ∧
      select types after v name = .component c)

/-- A write that has ended has this code and this memory. -/
theorem returns_inj {n : Nat} (same : ((.returns n : Ending Nat), before) = (.returns code, after)) :
    code = n ∧ after = before := by
  obtain ⟨ended, rfl⟩ := Prod.mk.inj same
  exact ⟨(Ending.returns.inj ended).symm, rfl⟩

/-- After the conversion nothing has been stored yet. -/
theorem converted_stores {next : Decoded → GoHeap → SetResult}
    (goesOn : ∀ goVal, next goVal (x.ran heap) = (.returns code, after) →
      Stored types v name (x.ran heap) after code)
    (returned : converted depth x heap next = (.returns code, after)) :
    Stored types v name (x.ran heap) after code := by
  rw [converted] at returned
  split at returned
  · rename_i goVal _
    exact goesOn goVal returned
  · exact .inl (returns_inj returned)
  · cases returned
  · cases returned

/-- The value is stored in a part that is selected before and after. -/
theorem setValue_stores {c : Component} {settable : Bool} {goVal : Decoded}
    (selected : settable = true → select types heap v name = .component c ∧
      ∀ u, select types (heap.store c u) v name = .component c)
    (returned : setValue coerce c settable goVal heap = (.returns code, after)) :
    Stored types v name heap after code := by
  rw [setValue] at returned
  split at returned
  · rename_i isSettable
    obtain ⟨here, again⟩ := selected isSettable
    split at returned
    · exact .inl (returns_inj returned)
    · rename_i u _
      obtain ⟨one, rfl⟩ := returns_inj returned
      exact .inr ⟨one, c, u, rfl, here, again u⟩
  · cases returned

/-- The index is in range. -/
theorem any_inside {len : Nat} :
    ((atoi name).any fun idx : Int => 0 ≤ idx && idx < (len : Int)) = true ↔
      ∃ i < len, atoi name = some (i : Int) := by
  rw [Option.any_eq_true]
  constructor
  · rintro ⟨idx, read, inside⟩
    simp only [Bool.and_eq_true, decide_eq_true_eq] at inside
    exact ⟨idx.toNat, by omega, by rw [read, Int.toNat_of_nonneg inside.1]⟩
  · rintro ⟨i, below, read⟩
    exact ⟨i, read, by simpa using below⟩

theorem goArrSet_stores {isSlice : Bool} {base : GoAddr} {len : Nat}
    (sequence : ∀ heap, select types heap v name = goArrGet base len name)
    (shape : converts v name = (atoi name).any fun idx : Int => 0 ≤ idx && idx < (len : Int))
    (returned : goArrSet coerce depth isSlice base len name x heap = (.returns code, after)) :
    Stored types v name (if converts v name then x.ran heap else heap) after code := by
  rw [shape]
  split
  · rename_i inside
    obtain ⟨i, below, read⟩ := any_inside.mp inside
    rw [goArrSet_index below read] at returned
    have selected : ∀ heap, select types heap v name = .component (.element base i) := by
      intro heap
      rw [sequence, goArrGet_index below read]
    exact converted_stores
      (fun _ => setValue_stores fun _ => ⟨selected _, fun _ => selected _⟩) returned
  · rename_i outside
    have noIndex : ∀ i < len, atoi name ≠ some (i : Int) := fun i below read =>
      outside (any_inside.mpr ⟨i, below, read⟩)
    rw [goArrSet_outside noIndex] at returned
    exact .inl (returns_inj returned)

theorem setEntry_stores {base : Option GoAddr} {goVal : Decoded}
    (returned : setEntry types coerce base name goVal heap = (.returns code, after)) :
    Stored types (.map base) name heap after code := by
  rw [setEntry] at returned
  split at returned
  · exact .inl (returns_inj returned)
  · rename_i u _
    cases base with
    | none => cases returned
    | some addr =>
      simp only [setMapIndex] at returned
      split at returned
      · rename_i accepts
        obtain ⟨one, rfl⟩ := returns_inj returned
        have selected : ∀ heap, select types heap (.map (some addr)) name =
            .component (.entry addr (.string name)) := by
          intro heap
          simp only [select, goMapGet]
          rw [if_pos accepts]
        exact .inr ⟨one, _, u, rfl, selected _, selected _⟩
      · cases returned

/-- The struct behind a target does not move when a part is stored. -/
theorem structE_store (heap : GoHeap) (c : Component) (u v : GoVal) :
    structE (heap.store c u) v = structE heap v := rfl

theorem setField_stores {goVal : Decoded}
    (structural : ∀ heap, select types heap v name = goStructGet types heap v name)
    (returned : setField types coerce v (upperFirst name) goVal heap = (.returns code, after)) :
    Stored types v name heap after code := by
  rw [setField] at returned
  split at returned
  · exact .inl (returns_inj returned)
  · rename_i s target
    split at returned
    · exact .inl (returns_inj returned)
    · cases returned
    · rename_i c addressable exported found
      refine setValue_stores ?_ returned
      intro settable
      obtain ⟨_, rfl⟩ := Bool.and_eq_true_iff.mp settable
      constructor
      · simp only [structural, goStructGet, target, found, if_true]
      · intro u
        simp only [structural, goStructGet, structE_store, target,
          StructValue.fieldByName_store found, if_true]

/-- A write to any target stores a value in the part that the key selects, or nothing. -/
theorem write_stores (returned : write types coerce depth v name x heap = (.returns code, after)) :
    Stored types v name (if converts v name then x.ran heap else heap) after code := by
  cases v with
  | slice base len => exact goArrSet_stores (fun _ => rfl) rfl returned
  | array base len => exact goArrSet_stores (fun _ => rfl) rfl returned
  | map base => exact converted_stores (fun _ => setEntry_stores) returned
  | struct type base =>
    exact converted_stores (fun _ => setField_stores fun _ => rfl) returned
  | ptr toInterface target =>
    exact converted_stores (fun _ => setField_stores fun _ => rfl) returned
  | nil | bool | int | uint | float | string | bytes | func | other =>
    exact .inl (returns_inj returned)

/-- The part that was stored in reads as the encoding of what it holds. -/
theorem readsAs_component {c : Component} {u : GoVal} (notNil : v ≠ .nil)
    (selected : selects types heap v key = .component c) (held : heap.contents c = some u)
    (ctx : Ptr) (fresh : Fresh) (obj : Ptr) (w : World)
    (target : (w.getTargetValue ctx obj).1 = some v) :
    ReadsAs ctx types heap fresh obj key w u := by
  have same : ∀ depth, goObjGet ctx types heap fresh depth obj key w =
      encoded ctx heap.vars fresh depth u (w.getTargetValue ctx obj).2 := by
    intro depth
    rw [goObjGet_target target notNil, selected]
    simp only [readAs, member, held, Option.elim_some]
  refine ⟨?_, ?_, same⟩
  · intro depth js next made
    rw [same, encoded, made]
    rfl
  · intro depth e next made
    rw [same, encoded, made]
    rfl

/-- Nothing was changed. -/
theorem ExactWrite.nothing : ExactWrite types v key heap heap 0 :=
  ⟨.inl rfl, fun _ => rfl, rfl, fun one => absurd one (by decide)⟩

theorem Stored.exact (notNil : v ≠ .nil)
    (selected : ∀ heap, selects types heap v key = select types heap v name)
    (stored : Stored types v name before after code) : ExactWrite types v key before after code := by
  obtain ⟨rfl, rfl⟩ | ⟨rfl, c, u, rfl, here, again⟩ := stored
  · exact .nothing
  · rw [← selected] at here again
    refine ⟨.inr rfl, fun zero => absurd zero (by decide), rfl, fun _ => ?_⟩
    refine ⟨c, u, here, again, GoHeap.store_same before c u, fun other => GoHeap.store_other, ?_⟩
    exact fun ctx fresh obj w =>
      readsAs_component notNil again (GoHeap.store_same before c u) ctx fresh obj w

theorem writes_exact (notNil : v ≠ .nil)
    (returned : writes types coerce depth v key x heap = (.returns code, after)) :
    ExactWrite types v key (leftBy v key x heap) after code := by
  rw [writes_eq] at returned
  split at returned
  · rename_i empty
    obtain ⟨rfl, rfl⟩ := returns_inj returned
    rw [leftBy, if_neg (by simp [empty])]
    exact .nothing
  · rename_i nonempty
    have selected : ∀ heap, selects types heap v key = select types heap v key.bytes := by
      intro heap
      rw [selects_eq, if_neg nonempty]
    have stored := write_stores returned
    simp only [leftBy, ne_eq, nonempty, not_false_eq_true, true_and]
    exact stored.exact notNil selected

/-- Looking the target up leaves it as it is. -/
theorem getTargetValue_again (ctx obj : Ptr) (w : World) :
    ((World.goObjSet ctx obj w).getTargetValue ctx obj).1 = (w.getTargetValue ctx obj).1 := by
  have seen : (w.stores.lookupIn ctx (w.getTargetIdx obj)).2.seen ctx = w.stores.seen ctx :=
    Stores.seen_getPtrStore w.stores ctx ctx
  change Option.bind ((w.stores.lookupIn ctx (w.getTargetIdx obj)).2.lookupIn ctx _).1 _ =
    Option.bind (w.stores.lookupIn ctx _).1 _
  rw [Stores.lookupIn_fst, Stores.lookupIn_fst, seen]
  rfl

/-! ## Every write -/

/-- Whatever the target, the key and the value are, a write that returns has changed at most one
part of what the conversion left: none when it returns 0, and when it returns 1 the one that the
key reads, which now reads as the encoding of the stored value wherever that has one. The target
itself, and with it the length of a slice, is the same as before. -/
theorem goObjSet_exact (ctx obj : Ptr) (types : GoTypes) (coerce : Coercion) (depth : Nat)
    (key : PropertyKey) (x : Written) (heap after : GoHeap) (w : World) (v : GoVal) (code : Nat)
    (target : (w.getTargetValue ctx obj).1 = some v)
    (returned : goObjSet ctx types coerce depth obj key x heap w = (.returns code, after)) :
    ExactWrite types v key (leftBy v key x heap) after code ∧
      ((World.goObjSet ctx obj w).getTargetValue ctx obj).1 = some v := by
  refine ⟨?_, (getTargetValue_again ctx obj w).trans target⟩
  by_cases isNil : v = .nil
  · subst isNil
    simp only [goObjSet, target] at returned
    obtain ⟨rfl, rfl⟩ := returns_inj returned
    rw [leftBy, if_neg (by simp [converts])]
    exact .nothing
  · rw [goObjSet_target target isNil] at returned
    exact writes_exact isNil returned

/-- A program that only has maps with string keys. -/
def noStructs : GoTypes := ⟨[], fun _ => .string⟩

/-- Memory in which every part holds a nil interface. -/
def emptyHeap : GoHeap := ⟨fun _ => .nil, fun _ => some .nil⟩

/-- A context that has handed out one proxy, at the address 10. -/
def proxyWorld (v : GoVal) : World :=
  (World.makeGoObject 100 ⟨1, 10⟩ v World.initial).elim World.initial Prod.snd

/-- The engine's number 1. -/
def plainNumber : Written := ⟨fun _ => .int 1, id⟩

/-- The key `0`. -/
def zeroKey : PropertyKey := .text (.ofChar 48 (by decide))

/-- The number is stored in the first of two elements. -/
theorem number_written : ∃ after,
    goObjSet 100 noStructs (fun _ _ _ => .ok (.int .int 1)) 1 10 zeroKey plainNumber emptyHeap
      (proxyWorld (.slice 5 2)) = (.returns 1, after) ∧
    ExactWrite noStructs (.slice 5 2) zeroKey
      (leftBy (.slice 5 2) zeroKey plainNumber emptyHeap) after 1 ∧
    ((World.goObjSet 100 10 (proxyWorld (.slice 5 2))).getTargetValue 100 10).1 =
      some (.slice 5 2) :=
  ⟨_, rfl, goObjSet_exact 100 10 noStructs (fun _ _ _ => .ok (.int .int 1)) 1 zeroKey plainNumber
    emptyHeap _ (proxyWorld (.slice 5 2)) (.slice 5 2) 1 rfl rfl⟩

/-- An object with a getter that writes the second element of the slice. -/
def meddling : Written where
  reading
    | [] => .object (.ok [⟨false, [97]⟩])
    | _ => .int 1
  ran heap := heap.store (.element 5 1) (.bool false true)

/-- The object is stored in the first element, and the second has changed as well. A nil pointer
that is stored in a slice of pointers is not read again: the read panics. -/
theorem getter_writes_too :
    (∃ after, ((proxyWorld (.slice 5 2)).getTargetValue 100 10).1 = some (.slice 5 2) ∧
      goObjSet 100 noStructs (fun _ _ _ => .ok (.map (some 9))) 2 10 zeroKey meddling emptyHeap
        (proxyWorld (.slice 5 2)) = (.returns 1, after) ∧
      ¬ ExactWrite noStructs (.slice 5 2) zeroKey emptyHeap after 1) ∧
    ∃ after, goObjSet 100 noStructs (fun _ _ _ => .ok (.ptr false none)) 1 10 zeroKey plainNumber
        emptyHeap (proxyWorld (.slice 5 2)) = (.returns 1, after) ∧
      ∀ fresh depth outcome next, goObjGet 100 noStructs after fresh depth 10 zeroKey
        (proxyWorld (.slice 5 2)) = some (outcome, next) → outcome = .panicked := by
  constructor
  · refine ⟨_, rfl, rfl, ?_⟩
    intro exactly
    obtain ⟨c, u, selected, _, _, others, _⟩ := exactly.stored rfl
    obtain rfl : Component.element 5 0 = c := Selection.component.inj selected
    have second := others (.element 5 1) (by decide)
    rw [GoHeap.store_other (by decide)] at second
    cases second
  · refine ⟨_, rfl, ?_⟩
    intro fresh depth outcome next read
    cases depth with
    | zero => cases read
    | succ depth =>
      cases read
      rfl

end GoQuickjs.Proxies
