import GoQuickjs.Proxies

/-!
# Which keys are indices

Property semantics gives every element of a sequence one key, its canonical decimal numeral. The
proxy of a slice or an array takes whatever `strconv.Atoi` reads: with a sign, with zeros in
front. Every canonical numeral of an element is among these keys, and it is the only one exactly
when nothing else was asked for. The elements of an array that was put into an interface cannot be
set. A key that is too long for a C string reads nothing, which is right, as no numeral of an
element is that long.
-/

namespace GoQuickjs.Proxies

open Tracing Numerals

/-- The target of a proxy that has elements. Their number is a Go `int`. -/
structure Sequence where
  isSlice : Bool
  base : GoAddr
  len : Nat
  fits : len < 2 ^ 63

/-- The slice or array as a Go value. -/
def Sequence.target (s : Sequence) : GoVal :=
  if s.isSlice then .slice s.base s.len else .array s.base s.len

/-- The key is treated as property semantics treats it: the numeral of an element reads and writes
that element, `length` reads the length, and everything else reads nothing; no other key than the
numeral of an element writes. -/
structure FollowsSemantics (s : Sequence) (key : PropertyKey) : Prop where
  element : ∀ i < s.len, key.spelling = numeral i → ∀ types heap,
    selects types heap s.target key = .component (.element s.base i)
  length : key.spelling = lengthKey → ∀ types heap, selects types heap s.target key = .length s.len
  nothing : key.spelling ≠ lengthKey → (∀ i < s.len, key.spelling ≠ numeral i) → ∀ types heap,
    selects types heap s.target key = .absent
  stores : ∀ i < s.len, key.spelling = numeral i → ∀ types coerce depth x heap goVal u,
    (fromJsValue x.reading depth []).ending = .returns (.ok goVal) →
    coerce (.component (.element s.base i)) goVal (x.ran heap) = .ok u →
    writes types coerce depth s.target key x heap =
      (.returns 1, (x.ran heap).store (.element s.base i) u)
  ignores : (∀ i < s.len, key.spelling ≠ numeral i) → ∀ types coerce depth x heap,
    writes types coerce depth s.target key x heap = (.returns 0, heap)

/-! ## What `strconv.Atoi` reads -/

/-- A canonical numeral is read as its number, if it is within the range of `int`. -/
theorem atoi_numeral (n : Nat) : atoi (numeral n) = if n < 2 ^ 63 then some (n : Int) else none := by
  have read : digits (numeral n) = some n := by
    rw [digits, if_pos ⟨numeral_ne_nil n, List.all_eq_true.mpr fun c => numeral_digits⟩,
      value_numeral]
  have unsigned : ∀ {c rest}, numeral n = c :: rest → isDigit c = true := fun starts =>
    numeral_digits (starts ▸ List.mem_cons_self)
  unfold atoi
  split
  · rename_i starts
    exact absurd (unsigned starts) (by decide)
  · rename_i starts
    exact absurd (unsigned starts) (by decide)
  · rw [read, Option.filter_some]
    by_cases small : n < 2 ^ 63
    · rw [if_pos (by simpa using small), if_pos small]
      rfl
    · rw [if_neg (by simpa using small), if_neg small]
      rfl

/-- The numeral of an index has at most nineteen digits. -/
theorem numeral_short {n : Nat} (small : n < 2 ^ 63) : (numeral n).length < 2 ^ 29 := by
  have digits : (numeral n).length ≤ 18 + 1 := numeral_length_le (by omega)
  omega

/-! ## The proxy of a sequence -/

variable {s : Sequence} {key : PropertyKey} {types : GoTypes} {heap : GoHeap} {coerce : Coercion}
  {depth i : Nat} {name : Name} {x : Written}

theorem select_target (name : Name) :
    select types heap s.target name = goArrGet s.base s.len name := by
  rw [Sequence.target]
  split <;> rfl

theorem write_target (coerce : Coercion) (depth : Nat) (name : Name) (x : Written) :
    write types coerce depth s.target name x heap =
      goArrSet coerce depth s.isSlice s.base s.len name x heap := by
  rw [Sequence.target]
  cases s.isSlice <;> rfl

/-- A key selects as `go_arr_get` does. -/
theorem selects_target : selects types heap s.target key =
    if key.bytes = [] then .absent else goArrGet s.base s.len key.bytes := by
  rw [selects_eq, select_target]

theorem writes_target : writes types coerce depth s.target key x heap =
    if key.bytes = [] then (.returns 0, heap)
    else goArrSet coerce depth s.isSlice s.base s.len key.bytes x heap := by
  rw [writes_eq, write_target]

/-- A short key is handed over as it is spelled. -/
theorem bytes_short (short : key.spelling.length < 2 ^ 29) : key.bytes = key.spelling := by
  rcases key.bytes_eq with same | ⟨_, long⟩
  · exact same
  · omega

theorem bytes_numeral (inside : i < s.len) (same : key.spelling = numeral i) :
    key.bytes = numeral i := by
  rw [← same]
  exact bytes_short (by rw [same]; exact numeral_short (inside.trans s.fits))

/-- A key that is handed over at all is handed over as it is spelled. -/
theorem bytes_nonempty (nonempty : key.bytes ≠ []) : key.bytes = key.spelling := by
  rcases key.bytes_eq with same | ⟨empty, _⟩
  · exact same
  · exact absurd empty nonempty

/-! ## When the semantics is followed -/

/-- A key that is read as an index in range is not empty. -/
theorem nonempty_of_atoi {n : Int} (read : atoi name = some n) : name ≠ [] := by
  rintro rfl
  exact absurd read (by simp [atoi, digits])

/-- What a key that is followed selects. -/
theorem FollowsSemantics.selection (follows : FollowsSemantics s key) (types : GoTypes)
    (heap : GoHeap) :
    (∃ i < s.len, key.spelling = numeral i ∧
      selects types heap s.target key = .component (.element s.base i)) ∨
    selects types heap s.target key = .length s.len ∨
    selects types heap s.target key = .absent := by
  by_cases isLength : key.spelling = lengthKey
  · exact .inr (.inl (follows.length isLength types heap))
  · by_cases index : ∃ i < s.len, key.spelling = numeral i
    · obtain ⟨i, inside, same⟩ := index
      exact .inl ⟨i, inside, same, follows.element i inside same types heap⟩
    · push Not at index
      exact .inr (.inr (follows.nothing isLength index types heap))

/-- A key that is followed selects an element by its numeral. -/
theorem FollowsSemantics.canonical {c : Component} (follows : FollowsSemantics s key)
    (selected : selects types heap s.target key = .component c) :
    ∃ i < s.len, key.spelling = numeral i ∧ c = .element s.base i := by
  obtain ⟨i, inside, same, element⟩ | other | other := follows.selection types heap
  · rw [element] at selected
    exact ⟨i, inside, same, (Selection.component.inj selected).symm⟩
  · rw [other] at selected
    cases selected
  · rw [other] at selected
    cases selected

/-- Keys that are followed and select the same element are spelled the same. -/
theorem FollowsSemantics.unique {other : PropertyKey} {c : Component}
    (follows : FollowsSemantics s key) (otherFollows : FollowsSemantics s other)
    (selected : selects types heap s.target key = .component c)
    (otherSelected : selects types heap s.target other = .component c) :
    key.spelling = other.spelling := by
  obtain ⟨i, _, same, rfl⟩ := follows.canonical selected
  obtain ⟨j, _, otherSame, sameElement⟩ := otherFollows.canonical otherSelected
  rw [same, otherSame, (Component.element.inj sameElement).2]

/-- What is read as an index is spelled as its numeral, and is an element that can be set. -/
theorem FollowsSemantics.index (follows : FollowsSemantics s key) (inside : i < s.len)
    (read : atoi key.bytes = some (i : Int)) : key.spelling = numeral i ∧ s.isSlice = true := by
  have heap : GoHeap := ⟨fun _ => .nil, fun _ => none⟩
  have types : GoTypes := ⟨[], fun _ => .string⟩
  have nonempty := nonempty_of_atoi read
  have selected : selects types heap s.target key = .component (.element s.base i) := by
    rw [selects_target, if_neg nonempty, goArrGet_index inside read]
  obtain ⟨j, _, canonical, sameElement⟩ := follows.canonical selected
  obtain rfl := (Component.element.inj sameElement).2
  have written := follows.stores i inside canonical types (fun _ _ _ => .ok .nil) 1
    ⟨fun _ => .null, id⟩ heap .nil .nil rfl rfl
  rw [writes_target, if_neg nonempty, goArrSet_index inside read] at written
  refine ⟨canonical, ?_⟩
  cases array : s.isSlice with
  | true => rfl
  | false =>
    rw [array] at written
    cases written

/-- What is read as an index is spelled as the numeral of an element, and the target is a slice. -/
def OnlyNumerals (s : Sequence) (key : PropertyKey) : Prop :=
  ∀ i < s.len, atoi key.bytes = some (i : Int) → key.spelling = numeral i ∧ s.isSlice = true

theorem OnlyNumerals.follows (only : OnlyNumerals s key) : FollowsSemantics s key := by
  have numeral_read : ∀ i < s.len, key.spelling = numeral i →
      atoi key.bytes = some (i : Int) ∧ key.bytes ≠ [] := by
    intro i inside same
    rw [bytes_numeral inside same, atoi_numeral, if_pos (inside.trans s.fits)]
    exact ⟨rfl, numeral_ne_nil i⟩
  have outside : (∀ i < s.len, key.spelling ≠ numeral i) →
      ∀ i < s.len, atoi key.bytes ≠ some (i : Int) := fun other i inside read =>
    other i inside (only i inside read).1
  constructor
  case element =>
    intro i inside same types heap
    obtain ⟨read, nonempty⟩ := numeral_read i inside same
    rw [selects_target, if_neg nonempty, goArrGet_index inside read]
  case length =>
    intro same types heap
    have handed : key.bytes = lengthKey := by
      rw [← same]
      exact bytes_short (by rw [same]; decide)
    rw [selects_target, handed, if_neg (by decide), goArrGet, if_pos rfl]
  case nothing =>
    intro notLength other types heap
    rw [selects_target]
    split
    · rfl
    · rename_i nonempty
      rw [← bytes_nonempty nonempty] at notLength
      exact goArrGet_outside notLength (outside other)
  case stores =>
    intro i inside same types coerce depth x heap goVal u conversion accepted
    obtain ⟨read, nonempty⟩ := numeral_read i inside same
    rw [writes_target, if_neg nonempty, goArrSet_index inside read, converted, conversion,
      (only i inside read).2]
    simp only [setValue, if_true, accepted]
  case ignores =>
    intro other types coerce depth x heap
    rw [writes_target]
    split
    · rfl
    · exact goArrSet_outside (outside other)

/-- What is read as an index is the numeral of the index when it is canonical at all: it has no
sign, and no zero in front. -/
theorem onlyNumerals_iff : OnlyNumerals s key ↔
    ∀ i < s.len, atoi key.bytes = some (i : Int) → Canonical key.spelling ∧ s.isSlice = true := by
  have canonical : ∀ i : Nat, atoi key.bytes = some (i : Int) →
      (key.spelling = numeral i ↔ Canonical key.spelling) := by
    intro i read
    rw [bytes_nonempty (nonempty_of_atoi read)] at read
    rw [canonical_iff]
    constructor
    · intro same
      exact ⟨i, same⟩
    · rintro ⟨n, same⟩
      rw [same, atoi_numeral] at read
      split at read
      · rw [same, Int.ofNat_inj.mp (Option.some.inj read)]
      · cases read
  constructor
  · intro only i inside read
    rw [← canonical i read]
    exact only i inside read
  · intro only i inside read
    rw [canonical i read]
    exact only i inside read

/-- A slice or array treats a key as property semantics does exactly when `strconv.Atoi` reads what
Go gets of it as no index in range, or the key is the canonical numeral of the element that is read
and the target is a slice; and then no other such key selects the same element. -/
theorem followsSemantics_iff (s : Sequence) (key : PropertyKey) :
    (FollowsSemantics s key ↔ OnlyNumerals s key) ∧
      ∀ other types heap c, FollowsSemantics s key → FollowsSemantics s other →
        selects types heap s.target key = .component c →
        selects types heap s.target other = .component c → key.spelling = other.spelling := by
  refine ⟨⟨fun follows i => follows.index, OnlyNumerals.follows⟩, ?_⟩
  exact fun other types heap c => FollowsSemantics.unique

/-- In a slice of two elements the keys `01` and `1` select the same element, and the first is no
canonical numeral. An array of one element panics when its element is set. -/
theorem spellings_not_followed :
    ¬ FollowsSemantics ⟨true, 5, 2, by decide⟩ (.text ⟨[48, 49], false, by simp, by simp⟩) ∧
      selects ⟨[], fun _ => .string⟩ ⟨fun _ => .nil, fun _ => none⟩ (.slice 5 2)
          (.text ⟨[48, 49], false, by simp, by simp⟩) = .component (.element 5 1) ∧
      selects ⟨[], fun _ => .string⟩ ⟨fun _ => .nil, fun _ => none⟩ (.slice 5 2)
          (.text (.ofChar 49 (by decide))) = .component (.element 5 1) ∧
      ¬ FollowsSemantics ⟨false, 5, 1, by decide⟩ (.text (.ofChar 48 (by decide))) := by
  refine ⟨?_, by decide, by decide, ?_⟩
  · intro follows
    have length := congrArg List.length (follows.index (i := 1) (by decide) (by decide)).1
    rw [numeral] at length
    cases length
  · intro follows
    have slice := (follows.index (i := 0) (by decide) (by decide)).2
    cases slice

end GoQuickjs.Proxies
