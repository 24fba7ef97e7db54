import GoQuickjs.AtomInit

/-!
# What the table of atoms promises

In every state that a permitted run reaches, equal atoms are the same text, an atom and a
string are what they were as long as they are held, and a string is in memory as long as a
reference leads to it. Asked twice for the same text, the engine gives the same atom.
-/

namespace GoQuickjs.Atoms.Engine

open Runs
open GoQuickjs.Atoms.Runtime

variable {e next : Engine} {action : Action} {actions more : List Action}
  {p : Ptr} {i j : Nat} {s : JSAtomStruct}

/-! ## Between two steps -/

/-- The counts are the numbers of references, every reference leads to a string in memory, and
every atom is found again from its string. An atom without an entry is a symbol that nothing but
weak references leads to. -/
structure Consistent (e : Engine) : Prop where
  counted : ∀ p s, e.rt.memory p = some s → e.rt.refCount p =
    e.held.countP (fun x => e.rt.target x = some p) + if e.rt.pinned p then 1 else 0
  weakly : ∀ p s, e.rt.memory p = some s → jsWeakrefIsTarget s = true →
    s.hash.toNat = e.weak.count p
  valid : ∀ x ∈ e.held, ∃ p s, e.rt.target x = some p ∧ e.rt.memory p = some s
  entered : ∀ p s, e.rt.memory p = some s → s.atomType ≠ none →
    (∃ i, e.rt.entry i = some (p, s)) ∨ e.rt.refCount p = 0 ∧ p ∈ e.weak
  found : ∀ i p s, e.rt.entry i = some (p, s) → e.rt.jsGetAtomIndex p = some i
  atoms : e.rt.atomCount = e.rt.atoms.card

/-- The invariant gives what the runtime may rely on. -/
theorem Sound.consistent (sound : e.Sound) : e.Consistent where
  counted _ _ live := sound.strong.counted.counts live
  weakly _ _ live target := (sound.weak.counts live target).1
  valid _ member := sound.strong.counted.valid member
  entered p s live type := by
    by_cases zero : e.rt.refCount p = 0
    · exact .inr ⟨zero, sound.weak.mem_of_weak live (sound.strong.counted.dead live zero).1⟩
    · have least := sound.strong.counted.counted_nonneg live
      exact .inl (sound.strong.counted.registered live (by omega) type)
  found _ _ _ there := sound.strong.table.jsGetAtomIndex_eq there
  atoms := sound.strong.table.count

/-- A reference leads to a string, as a value or as an atom, or it is that of a predefined atom. -/
def Referenced (e : Engine) (p : Ptr) : Prop :=
  (∃ i < jsAtomEnd, ∃ s, e.rt.entry i = some (p, s)) ∨ ∃ x ∈ e.held, e.rt.target x = some p

/-- A string is counted as long as a reference leads to it. -/
theorem refCount_ne_zero_iff (sound : e.Sound) (live : e.rt.memory p = some s) :
    e.rt.refCount p ≠ 0 ↔ e.Referenced p := by
  have count := sound.strong.counted.counts live
  rw [Referenced, ← pinned_iff]
  constructor
  · intro nonzero
    by_cases pinned : e.rt.pinned p = true
    · exact .inl pinned
    · rw [if_neg pinned] at count
      have some_left : 0 < e.held.countP (fun x => e.rt.target x = some p) := by omega
      exact .inr (Multiset.countP_pos.mp some_left)
  · rintro (pinned | ⟨x, member, leads⟩)
    · rw [if_pos pinned] at count
      omega
    · have alive := sound.strong.counted.counted_target member leads
      omega

/-- What is referred to is in memory. -/
theorem Referenced.live (referenced : e.Referenced p) (sound : e.Sound) :
    ∃ s, e.rt.memory p = some s := by
  rcases referenced with ⟨i, _, s, found⟩ | ⟨x, member, leads⟩
  · exact ⟨s, (entry_iff.mp found).2.2⟩
  · exact sound.strong.counted.target_live member leads

/-- A string is in memory as long as a reference leads to it, be it a weak one. -/
theorem memory_iff (sound : e.Sound) :
    (∃ s, e.rt.memory p = some s) ↔ e.Referenced p ∨ p ∈ e.weak := by
  constructor
  · rintro ⟨s, live⟩
    by_cases zero : e.rt.refCount p = 0
    · exact .inr (sound.weak.mem_of_weak live (sound.strong.counted.dead live zero).1)
    · exact .inl ((refCount_ne_zero_iff sound live).mp zero)
  · rintro (referenced | member)
    · exact referenced.live sound
    · obtain ⟨s, live, _⟩ := sound.weak.target member
      exact ⟨s, live⟩

/-- The text of the atom that an action is to make. -/
def askedText (e : Engine) : Action → Option (List UInt16)
  | .newAtomInit str .string _ _ => some (str.map UInt8.toUInt16)
  | .newAtomLen str _ _ => some (decoded str).units
  | .newAtomStr p _ => (e.rt.memory p).map fun s => s.units
  | .newAtomUInt32 n _ _ => some (digits n)
  | .newAtomInt64 n _ _ => some ((i64toa n).map UInt8.toUInt16)
  | _ => none

/-- What an action that makes the atom of a text answers: the atom, and the state after it. -/
def answer (e : Engine) : Action → Option (Nat × Runtime)
  | .newAtomInit str .string string room => e.rt.newAtomInit str .string string room
  | .newAtomLen str string room => e.rt.jsNewAtomLen str string room
  | .newAtomStr p room => e.rt.jsNewAtomStr p room
  | .newAtomUInt32 n string room => e.rt.jsNewAtomUInt32 n string room
  | .newAtomInt64 n string room => e.rt.jsNewAtomInt64 n string room
  | _ => none

/-- The allocator has memory for the string that an action makes on the way to an atom, or none is
made. -/
def HasString : Action → Prop
  | .newAtomInit _ _ string _ => string.isSome
  | .newAtomLen str string _ => string.isSome ∨ str = []
  | .newAtomUInt32 n string _ => string.isSome ∨ n ≤ jsAtomMaxInt
  | .newAtomInt64 n string _ => string.isSome ∨ (0 ≤ n ∧ n ≤ jsAtomMaxInt)
  | _ => True

/-- An action that is asked for the atom of a text answers with it. -/
theorem answer_makes (sound : e.Sound) (permitted : e.Permitted action)
    {units : List UInt16} (asked : e.askedText action = some units) : ∃ i after rest,
      e.answer action = some (i, after) ∧
        e.step action = some ⟨after, owned i + rest, e.weak⟩ ∧
        TextAtom rest e.rt after units i ∧ (HasString action → e.rt.Only units i) := by
  cases action with
  | newAtomInit str atomType string room =>
    cases atomType with
    | string =>
      obtain rfl := Option.some.inj asked
      obtain ⟨i, after, returned, made, only⟩ := newAtomInit_made sound permitted
      exact ⟨i, after, _, returned, by rw [step, returned]; rfl, made.textAtom, only rfl⟩
    | globalSymbol => cases asked
    | symbol => cases asked
    | privateSymbol => cases asked
  | newAtomLen str string room =>
    obtain rfl := Option.some.inj asked
    obtain ⟨⟨fits, fresh⟩, spare, empty⟩ := permitted
    obtain ⟨i, after, returned, text, only⟩ :=
      sound.strong.jsNewAtomLen_makes str string spare empty fits fresh
    exact ⟨i, after, _, returned, by rw [step, returned]; rfl, text, only⟩
  | newAtomStr p room =>
    obtain ⟨s, live, rfl⟩ := Option.map_eq_some_iff.mp asked
    obtain ⟨_, split⟩ := split_value sound permitted.1
    obtain ⟨i, after, returned, text, only⟩ :=
      split.jsNewAtomStr_makes live permitted.2.1 permitted.2.2
    exact ⟨i, after, _, returned, by rw [step, returned]; rfl, text, fun _ => only⟩
  | newAtomUInt32 n string room =>
    obtain rfl := Option.some.inj asked
    obtain ⟨below, ⟨fits, fresh⟩, spare⟩ := permitted
    obtain ⟨i, after, returned, text, only⟩ :=
      sound.strong.jsNewAtomUInt32_makes string spare fits fresh below
    exact ⟨i, after, _, returned, by rw [step, returned]; rfl, text, only⟩
  | newAtomInt64 n string room =>
    obtain rfl := Option.some.inj asked
    obtain ⟨⟨fits, fresh⟩, spare⟩ := permitted
    obtain ⟨i, after, returned, text, only⟩ :=
      sound.strong.jsNewAtomInt64_makes string spare fits fresh n
    exact ⟨i, after, _, returned, by rw [step, returned]; rfl, text, only⟩
  | newString p str => cases asked
  | dupValue p => cases asked
  | freeValue p => cases asked
  | concatInPlace p q fits => cases asked
  | newSymbol p atomType room => cases asked
  | newBareSymbol room => cases asked
  | newSymbolFromAtom descr atomType room => cases asked
  | dupAtom i => cases asked
  | freeAtom i => cases asked
  | atomToValue i forceString string => cases asked
  | symbolToAtom p => cases asked
  | weakrefNew p => cases asked
  | weakrefFree p => cases asked
  | weakrefDeref p => cases asked

/-! ## A run -/

/-- An allocator that has memory for the table. -/
def openRoom : Room where
  array := true
  nullEntry := none
  copy := none
  hash := true

/-- An allocator without memory. -/
def noRoom : Room where
  array := false
  nullEntry := none
  copy := none
  hash := false

/-- The predefined atoms are made, and a string of two letters. -/
def letters : List Action := smallStart ++ [.newString 2000 (.ofBytes [98, 99])]

/-- The string becomes the first counted atom. -/
def counting : Action := .newAtomStr 2000 openRoom

/-- Symbols are made until the array grows. An atom is made, freed, and its entry used again; a
symbol is referred to weakly and dies; a string is made of the first atom, and another one
grows. -/
def growing : List Action :=
  (List.range 95).map (fun k => .newAtomInit [] .symbol (some (3000 + k)) openRoom) ++
    [.newString 4000 (.ofBytes [100]), .newAtomStr 4000 openRoom, .freeAtom 319,
      .newString 4001 (.ofBytes [101]), .newAtomStr 4001 openRoom,
      .newString 4002 (.ofBytes [102]), .newSymbol 4002 .symbol openRoom, .weakrefNew 4002,
      .freeValue 4002, .weakrefDeref 4002, .atomToValue 223 false none,
      .newString 4003 (.ofBytes [103]), .newString 4004 (.ofBytes [98, 99]),
      .concatInPlace 4003 4004 true]

/-- The text of the first atom is asked for again, without memory for an atom. -/
def asking : Action := .newAtomLen [98, 99] (some 5000) noRoom

/-- The run of all of these. -/
def longRun : List Action := letters ++ [counting] ++ growing ++ [asking]

theorem longRun_allowed : Allowed step Permitted initial longRun := by decide +kernel

/-- What is seen of the run before the first atom, after it, and before the last question: the
array is longer, entry 319 holds its second atom, and the symbol is dead. -/
def Seen (e next last : Engine) : Prop :=
  (e.answer counting).any (·.1 = 223) ∧ e.askedText counting = some [98, 99] ∧
    HeldAlong next growing (.atom 223) ∧ next.rt.key 223 = some (.string, [98, 99]) ∧
    next.rt.atomSize = 316 ∧ last.rt.atomSize = 474 ∧
    last.rt.key 319 = some (.string, [101]) ∧ last.rt.refCount 4002 = 0 ∧ 4002 ∈ last.weak

instance (e next last : Engine) : Decidable (Seen e next last) := instDecidableAnd

theorem longRun_seen : (run step initial letters).any (fun e => (step e counting).any fun next =>
    (run step next growing).any fun last => Seen e next last) = true := by
  decide +kernel

/-- The long run passes through a state with a counted atom above the predefined ones, and then
through growth and reuse of the array. -/
theorem longRun_states : ∃ e next last, run step initial letters = some e ∧
    step e counting = some next ∧ run step next growing = some last ∧ Seen e next last := by
  obtain ⟨e, first, seen⟩ := (Option.any_eq_true _ _).mp longRun_seen
  obtain ⟨next, taken, seen⟩ := (Option.any_eq_true _ _).mp seen
  obtain ⟨last, later, seen⟩ := (Option.any_eq_true _ _).mp seen
  exact ⟨e, next, last, first, taken, later, of_decide_eq_true seen⟩

theorem growing_allowed : Allowed step Permitted initial (letters ++ [counting] ++ growing) :=
  longRun_allowed.earlier

/-! ## Runs from the start -/

/-- No permitted run of the atom table fails: no assertion is violated, no loop along a chain runs
on, and the counts stay the numbers of references. -/
theorem atom_runs_complete (allowed : Allowed step Permitted initial actions) :
    ∃ e, run step initial actions = some e ∧ e.Consistent := by
  obtain ⟨e, reached, sound⟩ := run_sound initial_sound allowed
  exact ⟨e, reached, sound.consistent⟩

/-- The long run completes. -/
theorem atom_runs_complete_long :
    ∃ e, run step initial longRun = some e ∧ e.Consistent :=
  atom_runs_complete longRun_allowed

section

variable (allowed : Allowed step Permitted initial actions)
  (reached : run step initial actions = some e)
include allowed reached

/-- A string is in memory exactly as long as a reference leads to it, as a value or as an atom, as
it is that of a predefined atom, or as a symbol is weakly referred to. `js_weakref_is_live` tells
these cases apart. -/
theorem string_in_memory_iff (p : Ptr) :
    ((∃ s, e.rt.memory p = some s) ↔ e.Referenced p ∨ p ∈ e.weak) ∧
      (p ∈ e.weak → (e.rt.jsWeakrefIsLive p = true ↔ e.Referenced p)) := by
  have sound := sound_of_run initial_sound allowed reached
  refine ⟨memory_iff sound, fun member => ?_⟩
  obtain ⟨s, live, _⟩ := sound.weak.target member
  rw [jsWeakrefIsLive, decide_eq_true_eq]
  exact refCount_ne_zero_iff sound live

/-- Two atoms that can be found by their text are the same number exactly if they are of the same
type and text. -/
theorem atoms_equal_iff_key {a b : Nat} (word : a < 2 ^ 32) (other : b < 2 ^ 32) {t : AtomType}
    {units : List UInt16} (interned : t.IsInterned) (here : e.rt.key a = some (t, units)) :
    a = b ↔ e.rt.key b = some (t, units) := by
  have sound := sound_of_run initial_sound allowed reached
  constructor
  · rintro rfl
    exact here
  · exact sound.strong.table.key_injective word other interned here

/-- Whichever function is asked for the atom of a text, and whatever the allocator answers, it
gives an atom of the text or `JS_ATOM_NULL`; it gives the atom that has the text if there is one,
as long as it has memory for the string that it makes on the way. -/
theorem asked_text_finds_atom (permitted : e.Permitted action) {units : List UInt16}
    (asked : e.askedText action = some units) : ∃ i after,
      e.answer action = some (i, after) ∧ (i = 0 ∨ after.key i = some (.string, units)) ∧
        (HasString action → ∀ j < 2 ^ 32, e.rt.key j = some (.string, units) → i = j) := by
  obtain ⟨i, after, rest, answered, _, text, only⟩ :=
    answer_makes (sound_of_run initial_sound allowed reached) permitted asked
  exact ⟨i, after, answered, text.key, only⟩

end

/-- A symbol without references is kept by its weak reference. -/
theorem string_in_memory_iff_dead : ∃ e, run step initial (letters ++ [counting] ++ growing) =
    some e ∧ ((∃ s, e.rt.memory 4002 = some s) ↔ e.Referenced 4002 ∨ 4002 ∈ e.weak) ∧
      (4002 ∈ e.weak → (e.rt.jsWeakrefIsLive 4002 = true ↔ e.Referenced 4002)) := by
  obtain ⟨e, next, last, first, taken, later, _⟩ := longRun_states
  have reached := run_split.mpr ⟨next, run_snoc.mpr ⟨e, first, taken⟩, later⟩
  exact ⟨last, reached, string_in_memory_iff growing_allowed reached 4002⟩

/-- Two atoms of the long run with different texts. -/
theorem atoms_equal_iff_key_two : ∃ e, run step initial (letters ++ [counting] ++ growing) =
    some e ∧ (319 = 223 ↔ e.rt.key 223 = some (.string, [101])) := by
  obtain ⟨e, next, last, first, taken, later, _, _, _, _, _, _, second, _⟩ := longRun_states
  have reached := run_split.mpr ⟨next, run_snoc.mpr ⟨e, first, taken⟩, later⟩
  exact ⟨last, reached, atoms_equal_iff_key growing_allowed reached (by decide) (by decide)
    (.inl rfl) second⟩

theorem asking_text : e.askedText asking = some [98, 99] := by
  rw [asking, askedText, decoded_ascii rfl]
  rfl

/-- Asking again for a text of the long run. -/
theorem asked_text_finds_atom_again :
    ∃ e, run step initial (letters ++ [counting] ++ growing) = some e ∧ ∃ i after,
      e.answer asking = some (i, after) ∧ (i = 0 ∨ after.key i = some (.string, [98, 99])) ∧
        (HasString asking → ∀ j < 2 ^ 32, e.rt.key j = some (.string, [98, 99]) → i = j) := by
  obtain ⟨e, next, last, first, taken, later, _⟩ := longRun_states
  have reached := run_split.mpr ⟨next, run_snoc.mpr ⟨e, first, taken⟩, later⟩
  exact ⟨last, reached, asked_text_finds_atom growing_allowed reached
    (longRun_allowed.last reached) asking_text⟩

/-- As long as an atom is held it stands for the same type and text. -/
theorem held_atom_keeps_key (allowed : Allowed step Permitted initial (actions ++ more))
    (reached : run step initial actions = some e) (later : run step e more = some next)
    (held : isConst i = true ∨ HeldAlong e more (.atom i)) {t : AtomType} {units : List UInt16}
    (here : e.rt.key i = some (t, units)) : next.rt.key i = some (t, units) :=
  key_stays (sound_of_run initial_sound allowed.earlier reached) (allowed.later reached) later
    held here

/-- A counted atom keeps its text while the array grows and entries are reused. -/
theorem held_atom_keeps_key_counted :
    ∃ e, run step initial (letters ++ [counting] ++ growing) = some e ∧
      e.rt.key 223 = some (.string, [98, 99]) := by
  obtain ⟨e, next, last, first, taken, later, _, _, held, key, _⟩ := longRun_states
  have middle := run_snoc.mpr ⟨e, first, taken⟩
  exact ⟨last, run_split.mpr ⟨next, middle, later⟩,
    held_atom_keeps_key growing_allowed middle later (.inr held) key⟩

/-- A string that is held as a value stays in memory with its text in front, and with no other text
as long as more references lead to it. -/
theorem held_value_keeps_text (allowed : Allowed step Permitted initial (actions ++ more))
    (reached : run step initial actions = some e) (later : run step e more = some next)
    (held : HeldAlong e more (.value p)) (live : e.rt.memory p = some s) :
    ∃ r, next.rt.memory p = some r ∧ s.units <+: r.units ∧
      (SharedAlong e more p → r.units = s.units) :=
  text_stays (sound_of_run initial_sound allowed.earlier reached) (allowed.later reached) later
    held live

/-- Two strings, the first of which has two references. -/
def strings : List Action :=
  [.newString 10 (.ofBytes [97]), .newString 11 (.ofBytes [98]), .dupValue 10]

/-- The other string grows, and the first one becomes an atom. -/
def entering : List Action :=
  [.concatInPlace 11 10 true, .newAtomStr 10 { openRoom with nullEntry := some 20 }]

theorem entering_seen : (run step initial strings).any (fun e =>
    (run step e entering).any fun next => HeldAlong e entering (.value 10) ∧
      (e.rt.memory 10).any (·.units = [97]) ∧
      (next.rt.memory 10).any (·.atomType = some .string)) = true := by
  decide +kernel

/-- A string that becomes the string of an atom. -/
theorem held_value_keeps_text_atom : ∃ e next, run step initial strings = some e ∧
    run step e entering = some next ∧ ∃ r, next.rt.memory 10 = some r ∧ [97] <+: r.units ∧
      (SharedAlong e entering 10 → r.units = [97]) := by
  obtain ⟨e, reached, seen⟩ := (Option.any_eq_true _ _).mp entering_seen
  obtain ⟨next, later, seen⟩ := (Option.any_eq_true _ _).mp seen
  obtain ⟨held, text, _⟩ := of_decide_eq_true seen
  obtain ⟨s, live, units⟩ := (Option.any_eq_true _ _).mp text
  have allowed : Allowed step Permitted initial (strings ++ entering) := by decide +kernel
  have whole := held_value_keeps_text allowed reached later held live
  rw [of_decide_eq_true units] at whole
  exact ⟨e, next, reached, later, whole⟩

/-- Whoever asks twice for the atom of a text gets the same number twice, if the first one is held
in between and the second time there is memory for the string that is made on the way. -/
theorem same_text_same_atom {first second : Action} {last : Engine}
    (allowed : Allowed step Permitted initial (actions ++ [first] ++ more ++ [second]))
    (reached : run step initial actions = some e) (taken : step e first = some next)
    (later : run step next more = some last) {after : Runtime} {units : List UInt16}
    (asked : e.askedText first = some units) (made : e.answer first = some (i, after))
    (nonzero : i ≠ 0) (held : isConst i = true ∨ HeldAlong next more (.atom i))
    (again : last.askedText second = some units) (room : HasString second) :
    ∃ after, last.answer second = some (i, after) := by
  have sound := sound_of_run initial_sound allowed.earlier.earlier.earlier reached
  obtain ⟨j, middle, rest, answered, stepped, text, _⟩ :=
    answer_makes sound (allowed.earlier.earlier.last reached) asked
  obtain ⟨rfl, rfl⟩ := Prod.mk.inj (Option.some.inj (made.symm.trans answered))
  obtain rfl := Option.some.inj (taken.symm.trans stepped)
  have onward := run_snoc.mpr ⟨e, reached, taken⟩
  have known := key_stays (sound_of_run initial_sound allowed.earlier.earlier onward)
    (allowed.earlier.later onward) later held (text.key.resolve_left nonzero)
  have end_reached := run_split.mpr ⟨_, onward, later⟩
  have sound := sound_of_run initial_sound allowed.earlier end_reached
  obtain ⟨k, final, _, replied, _, _, only⟩ :=
    answer_makes sound (allowed.last end_reached) again
  obtain rfl := only room i text.word known
  exact ⟨final, replied⟩

/-- Asking for a text that was entered before the array grew gives the same atom. -/
theorem same_text_same_atom_counted :
    ∃ e, run step initial (letters ++ [counting] ++ growing) = some e ∧
      ∃ after, e.answer asking = some (223, after) := by
  obtain ⟨e, next, last, first, taken, later, answered, asked, held, _⟩ := longRun_states
  obtain ⟨⟨i, after⟩, made, same⟩ := (Option.any_eq_true _ _).mp answered
  obtain rfl : i = 223 := of_decide_eq_true same
  exact ⟨last, run_split.mpr ⟨next, run_snoc.mpr ⟨e, first, taken⟩, later⟩,
    same_text_same_atom longRun_allowed first taken later asked made (by decide) (.inr held)
      asking_text (.inl rfl)⟩

/-! ## Atoms, values and indices -/

/-- An atom is turned into a value and back into the same atom, without room for another. -/
theorem value_gives_atom_back (allowed : Allowed step Permitted initial actions)
    (reached : run step initial actions = some e) (found : e.rt.entry i = some (p, s)) :
    ∃ middle, e.rt.atomToValue i false none = some (some p, middle) ∧
      (s.atomType = some .string →
        ∀ room, ∃ after, middle.jsNewAtomStr p room = some (i, after)) ∧
      (s.atomType ≠ some .string → ∃ after, middle.jsValueToAtom p = some (i, after)) := by
  have sound := (sound_of_run initial_sound allowed reached).strong
  obtain ⟨q, middle, returned, more, _, entry, _, own⟩ :=
    sound.atomToValue_returns found false (fun force => by cases force) none
  obtain rfl := own (.inl rfl)
  have still : middle.entry i = some (q, s) := (entry i).trans found
  refine ⟨middle, returned, fun type room => more.jsNewAtomStr_own still type room, fun _ => ?_⟩
  have typed := (sound.table.entries.typed found).some_type
  obtain ⟨j, after, there, answered, _⟩ := more.jsValueToAtom_returns (entry_iff.mp still).2.2
    (more.counted.counted_entry still) typed
  obtain rfl := more.table.entries.apart still there
  exact ⟨after, answered⟩

/-- A counted atom comes back from its value. -/
theorem value_gives_atom_back_counted :
    ∃ e, run step initial (letters ++ [counting] ++ growing) = some e ∧ ∃ p middle,
      e.rt.atomToValue 223 false none = some (some p, middle) ∧
        ∀ room, ∃ after, middle.jsNewAtomStr p room = some (223, after) := by
  obtain ⟨e, next, last, first, taken, later, _, _, held, key, _⟩ := longRun_states
  have middle := run_snoc.mpr ⟨e, first, taken⟩
  have reached := run_split.mpr ⟨next, middle, later⟩
  have key := key_stays (sound_of_run initial_sound growing_allowed.earlier middle)
    (growing_allowed.later middle) later (.inr held) key
  rcases key_cases key with ⟨tagged, _⟩ | ⟨p, s, found, type, _⟩
  · rw [isTaggedInt_small (by decide)] at tagged
    cases tagged
  · obtain ⟨middle, returned, back, _⟩ := value_gives_atom_back growing_allowed reached found
    exact ⟨last, reached, p, middle, returned, back type⟩

/-- `JS_AtomIsArrayIndex` takes an atom for an index exactly if its text is the numeral of one,
whether the atom is a tagged number or has an entry. -/
theorem jsAtomIsArrayIndex_iff {rt : Runtime} {t : AtomType} {units : List UInt16}
    (here : rt.key i = some (t, units)) (n : Nat) :
    rt.jsAtomIsArrayIndex i = some (some n) ↔
      t = .string ∧ units = digits n ∧ n < 2 ^ 32 - 1 := by
  rw [jsAtomIsArrayIndex]
  rw [key] at here
  by_cases tagged : isTaggedInt i = true
  · rw [if_pos tagged] at here ⊢
    obtain ⟨rfl, rfl⟩ := Prod.mk.inj (Option.some.inj here)
    have bound : atomToUInt32 i < 2 ^ 32 - 1 := by
      rw [atomToUInt32_eq]
      omega
    rw [Option.some.injEq, Option.some.injEq]
    constructor
    · rintro rfl
      exact ⟨rfl, rfl, bound⟩
    · rintro ⟨_, text, _⟩
      exact digits_injective text
  · rw [if_neg tagged] at here ⊢
    obtain ⟨⟨p, s⟩, found, typed⟩ := Option.bind_eq_some_iff.mp here
    obtain ⟨u, type, same⟩ := Option.map_eq_some_iff.mp typed
    obtain ⟨rfl, rfl⟩ := Prod.mk.inj same
    rw [found, Option.map_some, Option.some.injEq, type]
    by_cases string : u = .string
    · rw [if_pos (congrArg some string), Option.filter_eq_some_iff, isNumString_iff,
        decide_eq_true_eq]
      constructor
      · rintro ⟨⟨below, text⟩, other⟩
        exact ⟨string, text, by omega⟩
      · rintro ⟨_, text, below⟩
        exact ⟨⟨by omega, text⟩, by omega⟩
    · rw [if_neg fun same => string (Option.some.inj same)]
      constructor
      · intro absurd
        cases absurd
      · rintro ⟨same, _⟩
        exact absurd same string

/-- A table whose first atom is the numeral of the last index. -/
def numeralTable : Runtime :=
  ((initial.rt.jsNewAtomUInt32 4294967294 (some 10)
    { openRoom with nullEntry := some 20 }).map Prod.snd).getD initial.rt

theorem numeralTable_key : numeralTable.key 1 = some (.string, digits 4294967294) := by
  decide +kernel

/-- A numeral in the table, which is too large for a tag, and a tagged number. -/
theorem jsAtomIsArrayIndex_iff_numerals :
    (numeralTable.jsAtomIsArrayIndex 1 = some (some 4294967294) ↔
      AtomType.string = .string ∧ digits 4294967294 = digits 4294967294 ∧
        4294967294 < 2 ^ 32 - 1) ∧
      (numeralTable.jsAtomIsArrayIndex (atomFromUInt32 7) = some (some 7) ↔
        AtomType.string = .string ∧ digits 7 = digits 7 ∧ 7 < 2 ^ 32 - 1) :=
  ⟨jsAtomIsArrayIndex_iff numeralTable_key 4294967294,
    jsAtomIsArrayIndex_iff (key_fromUInt32 (by decide)) 7⟩

end GoQuickjs.Atoms.Engine
