import GoQuickjs.AtomWeak
import GoQuickjs.Library.Runs

/-!
# Runs of the atom table

The engine makes strings, turns them into atoms and symbols, takes and gives references,
strong and weak, adds characters to strings, and goes back from atoms to their strings.
It starts with the table that `JS_InitAtoms` starts with, and fills in the predefined
atoms like any other ones. As long as it gives away only references that it has, the array
of atoms does not outgrow an `int`, and no atom gets other characters, every step returns
and leaves what is held as it was.
-/

namespace GoQuickjs.Atoms

open Runs
open GoQuickjs.Atoms.Runtime

/-- The runtime and the references that are held outside of it, strong and weak. -/
structure Engine where
  rt : Runtime
  held : Multiset Reference
  weak : Multiset Ptr

/-- What the engine does with strings and atoms. What the allocator answers is part of it. -/
inductive Action where
  | newString (p : Ptr) (str : Characters)
  | dupValue (p : Ptr)
  | freeValue (p : Ptr)
  | concatInPlace (p q : Ptr) (fits : Bool)
  | newAtomInit (str : List UInt8) (atomType : AtomType) (string : Option Ptr) (room : Room)
  | newAtomLen (str : List UInt8) (string : Option Ptr) (room : Room)
  | newAtomStr (p : Ptr) (room : Room)
  | newAtomUInt32 (n : Nat) (string : Option Ptr) (room : Room)
  | newAtomInt64 (n : Int) (string : Option Ptr) (room : Room)
  | newSymbol (p : Ptr) (atomType : AtomType) (room : Room)
  | newBareSymbol (room : Room)
  | newSymbolFromAtom (descr : Nat) (atomType : AtomType) (room : Room)
  | dupAtom (i : Nat)
  | freeAtom (i : Nat)
  | atomToValue (i : Nat) (forceString : Bool) (string : Option Ptr)
  | symbolToAtom (p : Ptr)
  | weakrefNew (p : Ptr)
  | weakrefFree (p : Ptr)
  | weakrefDeref (p : Ptr)

namespace Engine

/-- `JS_InitAtoms` before the first atom: a hash table of 256 buckets and no entries. -/
def initial : Engine where
  rt :=
    { memory := fun _ => none
      refCount := fun _ => 0
      hashNext := fun _ => 0
      atomHash := fun _ => 0
      atomHashSize := 256
      atomCount := 0
      atomCountResize := 512
      atomArray := fun _ => .free 0
      atomSize := 0
      atomFreeIndex := 0 }
  held := 0
  weak := 0

/-- The state after an action, or nothing where a function of the engine does not return. -/
def step (e : Engine) : Action → Option Engine
  | .newString p str => some { e with rt := e.rt.jsAllocString p str, held := .value p ::ₘ e.held }
  | .dupValue p => (e.rt.jsDupString p).map fun rt => { e with rt, held := .value p ::ₘ e.held }
  | .freeValue p =>
    (e.rt.jsFreeString p).map fun rt => { e with rt, held := e.held.erase (.value p) }
  | .concatInPlace p q fits =>
    (e.rt.jsConcatStringInPlace p q fits).map fun grown => { e with rt := grown.2 }
  | .newAtomInit str atomType string room =>
    (e.rt.newAtomInit str atomType string room).map fun made =>
      { e with rt := made.2, held := owned made.1 + e.held }
  | .newAtomLen str string room =>
    (e.rt.jsNewAtomLen str string room).map fun made =>
      { e with rt := made.2, held := owned made.1 + e.held }
  | .newAtomStr p room =>
    (e.rt.jsNewAtomStr p room).map fun made =>
      { e with rt := made.2, held := owned made.1 + e.held.erase (.value p) }
  | .newAtomUInt32 n string room =>
    (e.rt.jsNewAtomUInt32 n string room).map fun made =>
      { e with rt := made.2, held := owned made.1 + e.held }
  | .newAtomInt64 n string room =>
    (e.rt.jsNewAtomInt64 n string room).map fun made =>
      { e with rt := made.2, held := owned made.1 + e.held }
  | .newSymbol p atomType room =>
    (e.rt.jsNewSymbol (some p) atomType room).map fun made =>
      { e with rt := made.2, held := valueRefs made.1 + e.held.erase (.value p) }
  | .newBareSymbol room =>
    (e.rt.jsNewSymbol none .symbol room).map fun made =>
      { e with rt := made.2, held := valueRefs made.1 + e.held }
  | .newSymbolFromAtom descr atomType room =>
    (e.rt.jsNewSymbolFromAtom descr atomType room).map fun made =>
      { e with rt := made.2, held := valueRefs made.1 + e.held }
  | .dupAtom i => (e.rt.jsDupAtom i).map fun rt => { e with rt, held := owned i + e.held }
  | .freeAtom i => (e.rt.jsFreeAtom i).map fun rt => { e with rt, held := e.held - owned i }
  | .atomToValue i forceString string =>
    (e.rt.atomToValue i forceString string).map fun made =>
      { e with rt := made.2, held := valueRefs made.1 + e.held }
  | .symbolToAtom p =>
    (e.rt.jsValueToAtom p).map fun made =>
      { e with rt := made.2, held := owned made.1 + e.held }
  | .weakrefNew p => (e.rt.jsWeakrefNew p).map fun rt => { e with rt, weak := p ::ₘ e.weak }
  | .weakrefFree p => (e.rt.jsWeakrefFree p).map fun rt => { e with rt, weak := e.weak.erase p }
  | .weakrefDeref p =>
    (e.rt.jsWeakrefDeref p).map fun made =>
      { e with rt := made.2, held := valueRefs made.1 + e.held }

/-- The atom is in the table, and a reference to it is held unless it is predefined. -/
def HasEntry (e : Engine) (i : Nat) : Prop := (e.rt.entry i).isSome ∧ owned i ≤ e.held

/-- The atom is a number, or has an entry. -/
def HasAtom (e : Engine) (i : Nat) : Prop := isTaggedInt i = true ∨ e.HasEntry i

/-- An atom may be made: the array may grow, and the allocator answers with memory that is not
used. -/
def MayMake (e : Engine) (room : Room) : Prop :=
  e.rt.atomSize * 3 < 2 ^ 31 ∧ e.rt.Fresh room

/-- A string may be made on the way to an atom: in memory that is not used, nor needed again. -/
def MayAlloc (e : Engine) (string : Option Ptr) (room : Room) : Prop :=
  ∀ p, string = some p → e.rt.Spare room p

instance (rt : Runtime) (room : Room) : Decidable (rt.Fresh room) :=
  decidable_of_iff
    ((∀ p ∈ room.nullEntry, rt.memory p = none) ∧ (∀ p ∈ room.copy, rt.memory p = none) ∧
      ∀ p ∈ room.nullEntry, room.copy ≠ some p)
    ⟨fun ⟨nullEntry, copy, apart⟩ => ⟨nullEntry, copy, apart⟩,
      fun fresh => ⟨fresh.nullEntry, fresh.copy, fresh.apart⟩⟩

instance (rt : Runtime) (room : Room) (p : Ptr) : Decidable (rt.Spare room p) :=
  decidable_of_iff (rt.memory p = none ∧ room.nullEntry ≠ some p ∧ room.copy ≠ some p)
    ⟨fun ⟨free, nullEntry, copy⟩ => ⟨free, nullEntry, copy⟩,
      fun spare => ⟨spare.free, spare.nullEntry, spare.copy⟩⟩

instance (rt : Runtime) : Decidable rt.Predefined :=
  decidable_of_iff (∀ i < jsAtomEnd, (rt.entry i).isSome)
    (forall₂_congr fun _ _ => Option.isSome_iff_exists)

instance (e : Engine) (i : Nat) : Decidable (e.HasEntry i) := instDecidableAnd

instance (e : Engine) (i : Nat) : Decidable (e.HasAtom i) := instDecidableOr

instance (e : Engine) (room : Room) : Decidable (e.MayMake room) := instDecidableAnd

instance (e : Engine) (string : Option Ptr) (room : Room) : Decidable (e.MayAlloc string room) :=
  inferInstanceAs (Decidable (∀ p ∈ string, e.rt.Spare room p))

/-- What the engine keeps to. -/
def Permitted (e : Engine) : Action → Prop
  | .newString p _ => e.rt.memory p = none
  | .dupValue p => .value p ∈ e.held
  | .freeValue p => .value p ∈ e.held
  | .concatInPlace p q fits => .value p ∈ e.held ∧ .value q ∈ e.held ∧
      (e.rt.growsInPlace p q fits = true → (e.rt.memory p).any (·.atomType = none))
  | .newAtomInit str atomType string room => e.MayMake room ∧ e.MayAlloc string room ∧
      atomType ≠ .globalSymbol ∧
      (atomType = .string → isNumString (str.map UInt8.toUInt16) = none)
  | .newAtomLen str string room => e.MayMake room ∧ e.MayAlloc string room ∧
      (str = [] → e.rt.key jsAtomEmptyString = some (.string, []))
  | .newAtomStr p room => .value p ∈ e.held ∧ e.MayMake room
  | .newAtomUInt32 n string room => n < 2 ^ 32 ∧ e.MayMake room ∧ e.MayAlloc string room
  | .newAtomInt64 _ string room => e.MayMake room ∧ e.MayAlloc string room
  | .newSymbol p atomType room => .value p ∈ e.held ∧ e.MayMake room ∧ e.rt.Predefined ∧
      atomType ≠ .string
  | .newBareSymbol room => e.MayMake room ∧ e.rt.Predefined
  | .newSymbolFromAtom descr atomType room => e.HasEntry descr ∧ e.MayMake room ∧
      e.rt.Predefined ∧ atomType ≠ .string
  | .dupAtom i => e.HasAtom i
  | .freeAtom i => e.HasAtom i
  | .atomToValue i forceString string => e.HasAtom i ∧ (forceString = true → e.rt.Predefined) ∧
      ∀ p ∈ string, e.rt.memory p = none
  | .symbolToAtom p => .value p ∈ e.held ∧ (e.rt.memory p).any (·.atomType ≠ none)
  | .weakrefNew p => .value p ∈ e.held ∧ (e.rt.memory p).any fun s =>
      jsWeakrefIsTarget s && s.hash < jsAtomHashMask - 2
  | .weakrefFree p => p ∈ e.weak
  | .weakrefDeref p => p ∈ e.weak

instance (e : Engine) (action : Action) : Decidable (e.Permitted action) := by
  cases action <;> dsimp only [Permitted] <;> infer_instance

/-- The table is in order, and the references are counted, strong and weak. -/
structure Sound (e : Engine) : Prop where
  strong : e.rt.Sound e.held
  weak : e.rt.Weakly e.weak

/-- What a step leaves of what was there: the atoms that are held before and after it, but for the
weak references to symbols, and the texts of the strings, which grow only where no other
reference leads to them. -/
structure Stays (e next : Engine) : Prop where
  entry : ∀ {i p s}, e.rt.entry i = some (p, s) →
    isConst i = true ∨ (.atom i ∈ e.held ∧ .atom i ∈ next.held) →
      ∃ r, next.rt.entry i = some (p, r) ∧ Alike s r
  text : ∀ {p s}, e.rt.memory p = some s → .value p ∈ e.held → .value p ∈ next.held →
    ∃ r, next.rt.memory p = some r ∧ s.units <+: r.units ∧
      (e.rt.refCount p ≠ 1 → r.units = s.units)

/-- A step returns, keeps the table in order, and leaves what is held. -/
def Completes (e : Engine) (action : Action) : Prop :=
  ∃ next, e.step action = some next ∧ next.Sound ∧ Stays e next

end Engine

open Engine

variable {e next : Engine} {action : Action} {actions more : List Action}
  {p q : Ptr} {i j : Nat} {s : JSAtomStruct} {rest : Multiset Reference}

/-- The empty table is in order. -/
theorem initial_table : initial.rt.Table := by
  refine ⟨⟨?_, ?_, ?_, ?_, ?_⟩, fun b => ⟨[], ?_, fun i => ?_⟩, ⟨8, rfl⟩, rfl, Nat.zero_le _⟩
  · intro j q inside
    cases inside
  · intro j k q r r' there
    cases there
  · intro j q r there
    cases there
  · intro j k q q' r r' there
    cases there
  · intro j q r n there
    cases there
  · have empty : initial.rt.head b = 0 := by
      cases b with
      | none => rfl
      | some b => exact ite_self 0
    rw [empty]
    exact .nil
  · constructor
    · intro member
      cases member
    · intro placed
      cases placed

/-- Nothing is in memory, and nothing is held. -/
theorem initial_sound : initial.Sound := by
  refine ⟨⟨initial_table, ⟨fun live => ?_, fun live => ?_, fun live => ?_, fun member => ?_,
    fun member => ?_⟩, fun found => ?_⟩, fun live => ?_, fun member => ?_⟩
  · cases live
  · cases live
  · cases live
  · cases member
  · cases member
  · cases found
  · cases live
  · cases member

/-! ## What stays -/

/-- What comes with an atom is no value. -/
theorem not_value_owned : .value p ∉ owned i := by
  rw [owned]
  split <;> simp

/-- A tagged number needs no reference. -/
theorem owned_tagged (tagged : isTaggedInt i = true) : isConst i = true ∧ owned i = 0 := by
  have const : isConst i = true := isConst_iff.mpr (.inr (tagged_large tagged))
  exact ⟨const, by rw [owned, if_pos const]⟩

namespace Engine

/-- What the references keep stays, if those that are held before and after are among them. -/
theorem Stays.of_kept (kept : Kept rest e.rt next.rt)
    (atoms : ∀ i, .atom i ∈ e.held → .atom i ∈ next.held → .atom i ∈ rest)
    (values : ∀ p s, .value p ∈ e.held → .value p ∈ next.held → e.rt.memory p = some s →
      .value p ∈ rest ∨ ∃ r, next.rt.memory p = some r ∧ r.units = s.units) : Stays e next where
  entry {_ _ s} found held := ⟨s, kept.entry found
    (held.imp_right fun both => .inl (atoms _ both.1 both.2)), .refl s⟩
  text {p s} live before after := by
    have there : ∃ r, next.rt.memory p = some r ∧ r.units = s.units := by
      rcases values p s before after live with member | there
      · obtain ⟨r, there, same⟩ := kept.text live member
        exact ⟨r, there, congrArg Characters.units same⟩
      · exact there
    obtain ⟨r, there, same⟩ := there
    exact ⟨r, there, same ▸ List.prefix_rfl, fun _ => same⟩

/-- All references from before are held on. -/
theorem Stays.of_all (kept : Kept e.held e.rt next.rt) : Stays e next :=
  .of_kept kept (fun _ before _ => before) fun _ _ before _ _ => .inl before

/-- Nothing else is held afterwards. -/
theorem Stays.of_rest (kept : Kept next.held e.rt next.rt) : Stays e next :=
  .of_kept kept (fun _ _ after => after) fun _ _ _ after _ => .inl after

/-- A string is given away. -/
theorem Stays.of_consumed (held : e.held = .value p ::ₘ rest) (kept : Kept rest e.rt next.rt)
    (own : ∀ s, .value p ∈ next.held → e.rt.memory p = some s →
      .value p ∈ rest ∨ ∃ r, next.rt.memory p = some r ∧ r.units = s.units) : Stays e next := by
  refine .of_kept kept (fun i before _ => ?_) fun q s before after live => ?_
  · rw [held] at before
    simpa using before
  · by_cases same : q = p
    · subst same
      exact own s after live
    · rw [held] at before
      exact .inl (by simpa [same] using before)

/-! ## Steps -/

/-- A step completes if it returns and leaves everything in order. -/
theorem completes_of {after : Runtime} {held : Multiset Reference} {weak : Multiset Ptr}
    (taken : e.step action = some ⟨after, held, weak⟩) (strong : after.Sound held)
    (weakly : after.Weakly weak) (stays : Stays e ⟨after, held, weak⟩) : e.Completes action :=
  ⟨_, taken, ⟨strong, weakly⟩, stays⟩

section

variable (sound : e.Sound)
include sound

/-- Making a string in unused memory. -/
theorem completes_newString (free : e.rt.memory p = none) (str : Characters) :
    e.Completes (.newString p str) := by
  obtain ⟨more, kept, _⟩ := sound.strong.jsAllocString_sound free str
  exact completes_of rfl more (sound.weak.kept kept) (.of_all kept)

/-- Taking one more reference on a value. -/
theorem completes_dupValue (member : .value p ∈ e.held) : e.Completes (.dupValue p) := by
  obtain ⟨s, live⟩ := sound.strong.counted.target_live member rfl
  obtain ⟨after, returned, more, memory, entry, _⟩ :=
    sound.strong.jsDupString_returns live (sound.strong.counted.counted_target member rfl)
  have kept : Kept e.held e.rt after := .of_same memory entry
  exact completes_of (by rw [step, returned]; rfl) more (sound.weak.kept kept) (.of_all kept)

/-- A value that is held is one reference and the rest. -/
theorem split_value (member : .value p ∈ e.held) :
    e.held = .value p ::ₘ e.held.erase (.value p) ∧
      e.rt.Sound (.value p ::ₘ e.held.erase (.value p)) := by
  have split := (Multiset.cons_erase member).symm
  exact ⟨split, split ▸ sound.strong⟩

/-- Dropping a value. -/
theorem completes_freeValue (member : .value p ∈ e.held) : e.Completes (.freeValue p) := by
  obtain ⟨_, split⟩ := split_value sound member
  obtain ⟨after, returned, left, kept, _⟩ := split.jsFreeString_returns
  exact completes_of (by rw [step, returned]; rfl) left (sound.weak.kept kept) (.of_rest kept)

/-- Extending a string in place, or making a new one. -/
theorem completes_concatInPlace {fits : Bool}
    (permitted : e.Permitted (.concatInPlace p q fits)) :
    e.Completes (.concatInPlace p q fits) := by
  obtain ⟨first, second, plain⟩ := permitted
  obtain ⟨u, live⟩ := sound.strong.counted.target_live first rfl
  have none_yet : e.rt.growsInPlace p q fits = true →
      ∀ s, e.rt.memory p = some s → s.atomType = none := by
    intro grows s there
    have typed := plain grows
    rw [there, Option.any_some] at typed
    exact of_decide_eq_true typed
  obtain ⟨grown, after, returned, left, appended⟩ :=
    sound.strong.jsConcatStringInPlace_returns first second none_yet
  refine completes_of (by rw [step, returned]; rfl) left
    (sound.weak.congr fun is_weak => appended.weak_same live is_weak)
    ⟨fun {i r s} found _ => ⟨s, (appended.entry i).trans found, .refl s⟩,
      fun {r s} there _ _ => ?_⟩
  by_cases same : r = p
  · subst same
    rcases appended.own there with equal | ⟨alone, _, r', now, _, front⟩
    · exact ⟨s, equal, List.prefix_rfl, fun _ => rfl⟩
    · exact ⟨r', now, front, fun shared => absurd alone shared⟩
  · exact ⟨s, (appended.memory r same).trans there, List.prefix_rfl, fun _ => rfl⟩

/-- `__JS_NewAtomInit` makes what it is permitted to make. -/
theorem newAtomInit_made {str : List UInt8} {atomType : AtomType} {string : Option Ptr}
    {room : Room} (permitted : e.Permitted (.newAtomInit str atomType string room)) : ∃ i after,
      e.rt.newAtomInit str atomType string room = some (i, after) ∧
        Made e.held e.rt after (stored atomType) (str.map UInt8.toUInt16) i ∧
        (atomType = .string → string.isSome → e.rt.Only (str.map UInt8.toUInt16) i) := by
  obtain ⟨⟨fits, fresh⟩, spare, plain, text⟩ := permitted
  refine sound.strong.newAtomInit_makes string spare fits fresh str (fun key n number => ?_)
    fun key => absurd key plain
  rw [text key] at number
  cases number

/-- Making a predefined atom. -/
theorem completes_newAtomInit {str : List UInt8} {atomType : AtomType} {string : Option Ptr}
    {room : Room} (permitted : e.Permitted (.newAtomInit str atomType string room)) :
    e.Completes (.newAtomInit str atomType string room) := by
  obtain ⟨i, after, returned, made, _⟩ := newAtomInit_made sound permitted
  exact completes_of (by rw [step, returned]; rfl) made.sound
    (sound.weak.kept made.kept) (.of_all made.kept)

/-- Making an atom from bytes. -/
theorem completes_newAtomLen {str : List UInt8} {string : Option Ptr} {room : Room}
    (permitted : e.Permitted (.newAtomLen str string room)) :
    e.Completes (.newAtomLen str string room) := by
  obtain ⟨⟨fits, fresh⟩, spare, empty⟩ := permitted
  obtain ⟨i, after, returned, text, _⟩ :=
    sound.strong.jsNewAtomLen_makes str string spare empty fits fresh
  exact completes_of (by rw [step, returned]; rfl) text.sound
    (sound.weak.kept text.kept) (.of_all text.kept)

/-- Making an atom from a string value, which is consumed. -/
theorem completes_newAtomStr {room : Room} (member : .value p ∈ e.held) (may : e.MayMake room) :
    e.Completes (.newAtomStr p room) := by
  obtain ⟨held, split⟩ := split_value sound member
  obtain ⟨s, live⟩ := sound.strong.counted.target_live member rfl
  obtain ⟨i, after, returned, text, _⟩ := split.jsNewAtomStr_makes live may.1 may.2
  refine completes_of (by rw [step, returned]; rfl) text.sound
    (sound.weak.kept text.kept) (.of_consumed held text.kept fun s there _ => .inl ?_)
  exact (Multiset.mem_add.mp there).resolve_left not_value_owned

/-- Making an atom from a number below `2 ^ 32`. -/
theorem completes_newAtomUInt32 {n : Nat} {string : Option Ptr} {room : Room}
    (permitted : e.Permitted (.newAtomUInt32 n string room)) :
    e.Completes (.newAtomUInt32 n string room) := by
  obtain ⟨below, ⟨fits, fresh⟩, spare⟩ := permitted
  obtain ⟨i, after, returned, text, _⟩ :=
    sound.strong.jsNewAtomUInt32_makes string spare fits fresh below
  exact completes_of (by rw [step, returned]; rfl) text.sound
    (sound.weak.kept text.kept) (.of_all text.kept)

/-- Making an atom from a number of 64 bits. -/
theorem completes_newAtomInt64 {n : Int} {string : Option Ptr} {room : Room}
    (permitted : e.Permitted (.newAtomInt64 n string room)) :
    e.Completes (.newAtomInt64 n string room) := by
  obtain ⟨⟨fits, fresh⟩, spare⟩ := permitted
  obtain ⟨i, after, returned, text, _⟩ :=
    sound.strong.jsNewAtomInt64_makes string spare fits fresh n
  exact completes_of (by rw [step, returned]; rfl) text.sound
    (sound.weak.kept text.kept) (.of_all text.kept)

/-- Making a symbol with a description, which is consumed. -/
theorem completes_newSymbol {atomType : AtomType} {room : Room}
    (permitted : e.Permitted (.newSymbol p atomType room)) :
    e.Completes (.newSymbol p atomType room) := by
  obtain ⟨member, ⟨fits, fresh⟩, predefined, symbol⟩ := permitted
  obtain ⟨held, split⟩ := split_value sound member
  obtain ⟨s, live⟩ := sound.strong.counted.target_live member rfl
  obtain ⟨value, after, returned, left, kept, text⟩ :=
    split.jsNewSymbol_makes live symbol predefined fits fresh
  refine completes_of (by rw [step, returned]; rfl) left (sound.weak.kept kept)
    (.of_consumed held kept fun s' there known => ?_)
  rcases Multiset.mem_add.mp there with own | member
  · obtain rfl : value = some p := by
      cases value with
      | none => cases own
      | some q => rw [Reference.value.inj (Multiset.mem_singleton.mp own)]
    rw [live] at known
    obtain rfl := Option.some.inj known
    obtain ⟨r, there, _, units⟩ := text p rfl
    exact .inr ⟨r, there, units⟩
  · exact .inl member

/-- Making a symbol without a description. -/
theorem completes_newBareSymbol {room : Room} (permitted : e.Permitted (.newBareSymbol room)) :
    e.Completes (.newBareSymbol room) := by
  obtain ⟨⟨fits, fresh⟩, predefined⟩ := permitted
  obtain ⟨value, after, returned, more, kept⟩ :=
    sound.strong.jsNewSymbol_bare predefined fits fresh
  exact completes_of (by rw [step, returned]; rfl) more (sound.weak.kept kept) (.of_all kept)

/-- Making a symbol described by an atom. -/
theorem completes_newSymbolFromAtom {atomType : AtomType} {room : Room}
    (permitted : e.Permitted (.newSymbolFromAtom i atomType room)) :
    e.Completes (.newSymbolFromAtom i atomType room) := by
  obtain ⟨⟨present, _⟩, ⟨fits, fresh⟩, predefined, symbol⟩ := permitted
  obtain ⟨⟨q, r⟩, found⟩ := Option.isSome_iff_exists.mp present
  obtain ⟨value, after, returned, more, kept, _⟩ :=
    sound.strong.jsNewSymbolFromAtom_makes found symbol predefined fits fresh
  exact completes_of (by rw [step, returned]; rfl) more (sound.weak.kept kept) (.of_all kept)

/-- Taking one more reference on an atom. -/
theorem completes_dupAtom (has : e.HasAtom i) : e.Completes (.dupAtom i) := by
  rcases has with tagged | ⟨present, _⟩
  · obtain ⟨const, nothing⟩ := owned_tagged tagged
    refine ⟨{ e with held := owned i + e.held }, ?_, ⟨?_, sound.weak⟩, .of_all .refl⟩
    · rw [step, jsDupAtom, if_pos const]
      rfl
    · rw [nothing, zero_add]
      exact sound.strong
  · obtain ⟨⟨q, r⟩, found⟩ := Option.isSome_iff_exists.mp present
    obtain ⟨after, returned, more, memory, entry, _⟩ := sound.strong.jsDupAtom_returns found
    have kept : Kept e.held e.rt after := .of_same memory entry
    exact completes_of (by rw [step, returned]; rfl) more (sound.weak.kept kept) (.of_all kept)

/-- Dropping an atom. -/
theorem completes_freeAtom (has : e.HasAtom i) : e.Completes (.freeAtom i) := by
  rcases has with tagged | ⟨present, held⟩
  · obtain ⟨const, nothing⟩ := owned_tagged tagged
    refine ⟨{ e with held := e.held - owned i }, ?_, ⟨?_, sound.weak⟩, .of_rest .refl⟩
    · rw [step, jsFreeAtom, if_pos const]
      rfl
    · rw [nothing, tsub_zero]
      exact sound.strong
  · obtain ⟨⟨q, r⟩, found⟩ := Option.isSome_iff_exists.mp present
    have split : owned i + (e.held - owned i) = e.held := add_tsub_cancel_of_le held
    obtain ⟨after, returned, left, kept, _⟩ :=
      (split.symm ▸ sound.strong).jsFreeAtom_returns found
    exact completes_of (by rw [step, returned]; rfl) left (sound.weak.kept kept) (.of_rest kept)

/-- Turning an atom into a value. -/
theorem completes_atomToValue {forceString : Bool} {string : Option Ptr}
    (permitted : e.Permitted (.atomToValue i forceString string)) :
    e.Completes (.atomToValue i forceString string) := by
  obtain ⟨has, ready, free⟩ := permitted
  rcases has with tagged | ⟨present, _⟩
  · cases string with
    | none =>
      refine ⟨{ e with held := valueRefs none + e.held }, ?_, ⟨?_, sound.weak⟩, .of_all .refl⟩
      · rw [step, atomToValue, if_pos tagged]
        rfl
      · rw [valueRefs, zero_add]
        exact sound.strong
    | some p =>
      obtain ⟨more, kept, _⟩ := sound.strong.jsAllocString_sound (free p rfl)
        (.ofBytes (Numerals.numeral (atomToUInt32 i)))
      exact completes_of (by rw [step, atomToValue_tagged tagged]; rfl) more
        (sound.weak.kept kept) (.of_all kept)
  · obtain ⟨⟨q, r⟩, found⟩ := Option.isSome_iff_exists.mp present
    obtain ⟨q', after, returned, more, memory, entry, _⟩ :=
      sound.strong.atomToValue_returns found forceString (fun force => .inr (ready force)) string
    have kept : Kept e.held e.rt after := .of_same memory entry
    exact completes_of (by rw [step, returned]; rfl) more (sound.weak.kept kept) (.of_all kept)

/-- Turning a symbol value into its atom. -/
theorem completes_symbolToAtom (permitted : e.Permitted (.symbolToAtom p)) :
    e.Completes (.symbolToAtom p) := by
  obtain ⟨member, typed⟩ := permitted
  obtain ⟨s, live, type⟩ := (Option.any_eq_true _ _).mp typed
  obtain ⟨i, after, _, returned, more, memory, entry⟩ := sound.strong.jsValueToAtom_returns live
    (sound.strong.counted.counted_target member rfl) (of_decide_eq_true type)
  have kept : Kept e.held e.rt after := .of_same memory entry
  exact completes_of (by rw [step, returned]; rfl) more (sound.weak.kept kept) (.of_all kept)

/-- Weak references leave what is held as it was. -/
theorem Stays.of_weakened (weakened : Weakened e.rt next.rt) : Stays e next where
  entry found _ := weakened.entry found
  text {p s} live member _ := by
    have counted := sound.strong.counted.counted_target member rfl
    obtain ⟨r, there, alike⟩ := weakened.text live (by omega)
    have same : r.units = s.units := congrArg Characters.units alike.characters
    exact ⟨r, there, same ▸ List.prefix_rfl, fun _ => same⟩

/-- Taking a weak reference on a symbol. -/
theorem completes_weakrefNew (permitted : e.Permitted (.weakrefNew p)) :
    e.Completes (.weakrefNew p) := by
  obtain ⟨s, live, target⟩ := (Option.any_eq_true _ _).mp permitted.2
  obtain ⟨is_target, few⟩ := Bool.and_eq_true_iff.mp target
  obtain ⟨after, returned, strong, weakly, weakened⟩ :=
    sound.strong.jsWeakrefNew_returns sound.weak live is_target (of_decide_eq_true few)
  exact completes_of (by rw [step, returned]; rfl) strong weakly (.of_weakened sound weakened)

/-- Dropping a weak reference. -/
theorem completes_weakrefFree (member : p ∈ e.weak) : e.Completes (.weakrefFree p) := by
  have split : e.rt.Weakly (p ::ₘ e.weak.erase p) := by
    rw [Multiset.cons_erase member]
    exact sound.weak
  obtain ⟨after, returned, strong, weakly, weakened⟩ := sound.strong.jsWeakrefFree_returns split
  exact completes_of (by rw [step, returned]; rfl) strong weakly (.of_weakened sound weakened)

/-- Taking a reference by way of a weak one, if the symbol is live. -/
theorem completes_weakrefDeref (member : p ∈ e.weak) : e.Completes (.weakrefDeref p) := by
  obtain ⟨value, after, returned, more, memory, entry⟩ :=
    sound.strong.jsWeakrefDeref_returns sound.weak member
  have kept : Kept e.held e.rt after := .of_same memory entry
  exact completes_of (by rw [step, returned]; rfl) more (sound.weak.kept kept) (.of_all kept)

/-- Every permitted step completes. -/
theorem step_completes (permitted : e.Permitted action) : e.Completes action := by
  cases action with
  | newString p str => exact completes_newString sound permitted str
  | dupValue p => exact completes_dupValue sound permitted
  | freeValue p => exact completes_freeValue sound permitted
  | concatInPlace p q fits => exact completes_concatInPlace sound permitted
  | newAtomInit str atomType string room => exact completes_newAtomInit sound permitted
  | newAtomLen str string room => exact completes_newAtomLen sound permitted
  | newAtomStr p room => exact completes_newAtomStr sound permitted.1 permitted.2
  | newAtomUInt32 n string room => exact completes_newAtomUInt32 sound permitted
  | newAtomInt64 n string room => exact completes_newAtomInt64 sound permitted
  | newSymbol p atomType room => exact completes_newSymbol sound permitted
  | newBareSymbol room => exact completes_newBareSymbol sound permitted
  | newSymbolFromAtom descr atomType room =>
    exact completes_newSymbolFromAtom sound permitted
  | dupAtom i => exact completes_dupAtom sound permitted
  | freeAtom i => exact completes_freeAtom sound permitted
  | atomToValue i forceString string => exact completes_atomToValue sound permitted
  | symbolToAtom p => exact completes_symbolToAtom sound permitted
  | weakrefNew p => exact completes_weakrefNew sound permitted
  | weakrefFree p => exact completes_weakrefFree sound permitted
  | weakrefDeref p => exact completes_weakrefDeref sound permitted

end

/-! ## Runs -/

variable {start : Engine}

/-- A permitted run completes, and keeps the table in order. -/
theorem run_sound (sound : start.Sound) (allowed : Allowed step Permitted start actions) :
    ∃ e, run step start actions = some e ∧ e.Sound := by
  refine allowed_completes (motive := Engine.Sound) sound ?_ allowed
  intro e action sound permitted
  obtain ⟨next, taken, more, _⟩ := step_completes sound permitted
  exact ⟨next, taken, more⟩

/-- The invariant holds in every state that a permitted run reaches. -/
theorem sound_of_run (sound : start.Sound) (allowed : Allowed step Permitted start actions)
    (reached : run step start actions = some e) : e.Sound := by
  obtain ⟨other, same, sound⟩ := run_sound sound allowed
  obtain rfl : e = other := Option.some.inj (reached.symm.trans same)
  exact sound

/-- What is held stays through a permitted step. -/
theorem stays_of_step (sound : e.Sound) (permitted : e.Permitted action)
    (taken : step e action = some next) : Stays e next := by
  obtain ⟨other, same, _, stays⟩ := step_completes sound permitted
  obtain rfl : next = other := Option.some.inj (taken.symm.trans same)
  exact stays

/-- The reference is held in every state that a list of actions passes through. -/
def HeldAlong (start : Engine) (actions : List Action) (x : Reference) : Prop :=
  Along step (fun e => x ∈ e.held) start actions

instance (start : Engine) (actions : List Action) (x : Reference) :
    Decidable (HeldAlong start actions x) := decidableAlong start actions

/-- The reference is held before and after the last step. -/
theorem HeldAlong.around {x : Reference} (held : HeldAlong start (actions ++ [action]) x)
    (earlier : run step start actions = some e)
    (reached : run step start (actions ++ [action]) = some next) : x ∈ e.held ∧ x ∈ next.held :=
  ⟨held.earlier.last earlier, held.last reached⟩

/-- An atom that is held along a run, or needs no reference, keeps its entry, but for the weak
references to it.

Proof: induction along the run; the atom is held before and after the last step. -/
theorem entry_stays (sound : start.Sound) (allowed : Allowed step Permitted start actions)
    (reached : run step start actions = some e)
    (held : isConst i = true ∨ HeldAlong start actions (.atom i))
    (found : start.rt.entry i = some (p, s)) :
    ∃ r, e.rt.entry i = some (p, r) ∧ Alike s r := by
  induction actions using List.reverseRecOn generalizing e with
  | nil =>
    obtain rfl : start = e := Option.some.inj reached
    exact ⟨s, found, .refl s⟩
  | append_singleton actions action inductionHypothesis =>
    obtain ⟨before, earlier, taken⟩ := run_snoc.mp reached
    obtain ⟨r, still, alike⟩ :=
      inductionHypothesis allowed.earlier earlier (held.imp_right Along.earlier)
    have stays := stays_of_step (sound_of_run sound allowed.earlier earlier)
      (allowed.last earlier) taken
    obtain ⟨u, now, also⟩ :=
      stays.entry still (held.imp_right fun along => along.around earlier reached)
    exact ⟨u, now, alike.trans also⟩

/-- In every state that a list of actions passes through, not one reference alone leads to the
string. -/
def SharedAlong (start : Engine) (actions : List Action) (p : Ptr) : Prop :=
  Along step (fun e => e.rt.refCount p ≠ 1) start actions

instance (start : Engine) (actions : List Action) (p : Ptr) :
    Decidable (SharedAlong start actions p) := decidableAlong start actions

/-- A string that is held as a value along a run keeps its text in front, also where it becomes an
atom, and gets no other characters as long as it is shared.

Proof: induction along the run, as for entries. -/
theorem text_stays (sound : start.Sound) (allowed : Allowed step Permitted start actions)
    (reached : run step start actions = some e)
    (held : HeldAlong start actions (.value p)) (live : start.rt.memory p = some s) :
    ∃ r, e.rt.memory p = some r ∧ s.units <+: r.units ∧
      (SharedAlong start actions p → r.units = s.units) := by
  induction actions using List.reverseRecOn generalizing e with
  | nil =>
    obtain rfl : start = e := Option.some.inj reached
    exact ⟨s, live, List.prefix_rfl, fun _ => rfl⟩
  | append_singleton actions action inductionHypothesis =>
    obtain ⟨before, earlier, taken⟩ := run_snoc.mp reached
    obtain ⟨r, there, front, same⟩ := inductionHypothesis allowed.earlier earlier held.earlier
    have stays := stays_of_step (sound_of_run sound allowed.earlier earlier)
      (allowed.last earlier) taken
    obtain ⟨first, last⟩ := held.around earlier reached
    obtain ⟨r', after, further, again⟩ := stays.text there first last
    refine ⟨r', after, front.trans further, fun shared => ?_⟩
    exact (again (shared.earlier.last earlier)).trans (same shared.earlier)

/-- What an atom stands for stays as long as the atom is held. -/
theorem key_stays (sound : start.Sound) (allowed : Allowed step Permitted start actions)
    (reached : run step start actions = some e)
    (held : isConst i = true ∨ HeldAlong start actions (.atom i)) {t : AtomType}
    {units : List UInt16} (here : start.rt.key i = some (t, units)) :
    e.rt.key i = some (t, units) := by
  rcases key_cases here with ⟨tagged, rfl, rfl⟩ | ⟨p, s, found, type, rfl⟩
  · rw [key, if_pos tagged]
  · obtain ⟨r, still, alike⟩ := entry_stays sound allowed reached held found
    rw [(sound_of_run sound allowed reached).strong.table.key_entry still
      (alike.atomType.trans type), alike.characters]

end Engine

end GoQuickjs.Atoms
