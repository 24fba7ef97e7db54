import GoQuickjs.AtomEnter
import Mathlib.Data.Multiset.Count

/-!
# References to atoms and strings

The engine holds references: values, which point to a string or a symbol, and atoms,
which are indices. Both are counted in the one string they lead to, except for the
predefined atoms: those are not counted, and have one reference to stay forever. The
count of each string is the number of references that lead to it. A string without
references is not in memory, unless it is what weak references keep of a symbol.
-/

namespace GoQuickjs.Atoms

/-- A counted reference. -/
inductive Reference where
  | value (p : Ptr)
  | atom (i : Nat)
deriving DecidableEq

namespace Runtime

variable {rt after : Runtime} {p q : Ptr} {s r : JSAtomStruct} {i j : Nat}
  {x y : Reference} {held rest : Multiset Reference}

/-- The string that a reference leads to. -/
def target (rt : Runtime) : Reference → Option Ptr
  | .value p => some p
  | .atom i => (rt.entry i).map Prod.fst

/-- A string is that of a predefined atom. -/
def pinned (rt : Runtime) (p : Ptr) : Bool :=
  (List.range jsAtomEnd).any fun i => (rt.entry i).any fun found => found.1 = p

/-- Every string is counted by the references to it. -/
structure Counted (rt : Runtime) (held : Multiset Reference) : Prop where
  counts : ∀ {p s}, rt.memory p = some s →
    rt.refCount p = held.countP (fun x => rt.target x = some p) + if rt.pinned p then 1 else 0
  dead : ∀ {p s}, rt.memory p = some s → rt.refCount p = 0 →
    s.Weak ∧ ∀ i r, rt.entry i ≠ some (p, r)
  registered : ∀ {p s}, rt.memory p = some s → 0 < rt.refCount p → s.atomType ≠ none →
    ∃ i, rt.entry i = some (p, s)
  valid : ∀ {x}, x ∈ held → ∃ p s, rt.target x = some p ∧ rt.memory p = some s
  countable : ∀ {i}, .atom i ∈ held → isConst i = false

/-- The table is in order, the references are counted, and no predefined atom is found by the key
of a symbol. -/
structure Sound (rt : Runtime) (held : Multiset Reference) : Prop where
  table : rt.Table
  counted : rt.Counted held
  keyed : ∀ {i p s}, rt.entry i = some (p, s) → s.atomType = some .globalSymbol →
    isConst i = false

/-- What some references lead to is as it was, and so are the symbols with weak references. -/
structure Kept (rest : Multiset Reference) (before after : Runtime) : Prop where
  entry : ∀ {i p s}, before.entry i = some (p, s) →
    isConst i = true ∨ .atom i ∈ rest ∨ .value p ∈ rest → after.entry i = some (p, s)
  text : ∀ {p s}, before.memory p = some s → .value p ∈ rest →
    ∃ r, after.memory p = some r ∧ r.toCharacters = s.toCharacters
  weak : ∀ {p s}, s.Weak → (after.memory p = some s ↔ before.memory p = some s)

/-- `__JS_AtomIsConst` tells the predefined atoms and the tagged numbers. -/
theorem isConst_iff : isConst i = true ↔ i < jsAtomEnd ∨ jsAtomTagInt ≤ i := by
  rw [isConst, Bool.or_eq_true, decide_eq_true_iff, decide_eq_true_iff]

/-- The index of an entry is no tagged number. -/
theorem Table.index_lt (table : rt.Table) (found : rt.entry i = some (p, s)) :
    i < jsAtomMax := Nat.lt_of_lt_of_le (entry_iff.mp found).1 table.small

/-- Of the atoms with an entry only the predefined ones are constant. -/
theorem Table.const_iff (table : rt.Table) (found : rt.entry i = some (p, s)) :
    isConst i = true ↔ i < jsAtomEnd := by
  have small := table.index_lt found
  simp only [jsAtomMax] at small
  rw [isConst_iff, jsAtomTagInt]
  omega

/-- A string is pinned when it is the entry of a predefined atom. -/
theorem pinned_iff : rt.pinned p = true ↔
    ∃ i < jsAtomEnd, ∃ s, rt.entry i = some (p, s) := by
  rw [pinned, List.any_eq_true]
  simp only [List.mem_range, Option.any_eq_true, decide_eq_true_eq, Prod.exists]
  constructor
  · rintro ⟨i, inside, q, s, found, rfl⟩
    exact ⟨i, inside, s, found⟩
  · rintro ⟨i, inside, s, found⟩
    exact ⟨i, inside, p, s, found, rfl⟩

/-- A reference to an atom is one to the string of its entry. -/
theorem target_entry (found : rt.entry i = some (p, s)) : rt.target (.atom i) = some p := by
  rw [target, found]
  rfl

/-- Nothing is lost by a step that does not happen. -/
theorem Kept.refl : Kept rest rt rt :=
  ⟨fun found _ => found, fun live _ => ⟨_, live, rfl⟩, fun _ => Iff.rfl⟩

/-- What two steps keep, both together keep. -/
theorem Kept.trans {middle : Runtime} (first : Kept rest rt middle)
    (second : Kept rest middle after) : Kept rest rt after where
  entry found kept := second.entry (first.entry found kept) kept
  text live kept := by
    obtain ⟨r, there, same⟩ := first.text live kept
    obtain ⟨r', last, again⟩ := second.text there kept
    exact ⟨r', last, again.trans same⟩
  weak weakly := (second.weak weakly).trans (first.weak weakly)

/-- What is kept for more holders is kept for fewer. -/
theorem Kept.mono (kept : Kept held rt after) (fewer : rest ≤ held) : Kept rest rt after where
  entry found condition := kept.entry found
    (condition.imp_right (Or.imp (Multiset.mem_of_le fewer) (Multiset.mem_of_le fewer)))
  text live member := kept.text live (Multiset.mem_of_le fewer member)
  weak := kept.weak

namespace Counted

/-- A reference leads to a string in memory. -/
theorem target_live (counted : rt.Counted held) (member : x ∈ held)
    (leads : rt.target x = some p) : ∃ s, rt.memory p = some s := by
  obtain ⟨q, s, there, live⟩ := counted.valid member
  rw [leads] at there
  obtain rfl := Option.some.inj there
  exact ⟨s, live⟩

/-- What a reference leads to is counted. -/
theorem counted_target (counted : rt.Counted held) (member : x ∈ held)
    (leads : rt.target x = some p) : 0 < rt.refCount p := by
  obtain ⟨s, live⟩ := counted.target_live member leads
  have count := counted.counts live
  have some_left : 0 < held.countP fun x => rt.target x = some p :=
    Multiset.countP_pos.mpr ⟨x, member, leads⟩
  split at count <;> omega

/-- No count is negative. -/
theorem counted_nonneg (counted : rt.Counted held) (live : rt.memory p = some s) :
    0 ≤ rt.refCount p := by
  have count := counted.counts live
  split at count <;> omega

/-- What has an entry is counted. -/
theorem counted_entry (counted : rt.Counted held) (found : rt.entry i = some (p, s)) :
    0 < rt.refCount p := by
  have live := (entry_iff.mp found).2.2
  have least := counted.counted_nonneg live
  by_contra nothing
  exact (counted.dead live (by omega)).2 i s found

/-- Nobody holds a string that is not in memory. -/
theorem no_target (counted : rt.Counted held) (free : rt.memory p = none) :
    held.countP (fun x => rt.target x = some p) = 0 := by
  rw [Multiset.countP_eq_zero]
  intro x member leads
  obtain ⟨s, live⟩ := counted.target_live member leads
  rw [free] at live
  cases live

/-- Only what the references lead to matters. -/
theorem congr (counted : rt.Counted held) (memory : after.memory = rt.memory)
    (refCount : after.refCount = rt.refCount) (entry : ∀ i, after.entry i = rt.entry i) :
    after.Counted held := by
  have targets : ∀ x, after.target x = rt.target x := by
    intro x
    cases x with
    | value p => rfl
    | atom i => rw [target, target, entry]
  have pins : ∀ p, after.pinned p = rt.pinned p := by
    intro p
    rw [pinned, pinned]
    simp only [entry]
  refine ⟨fun live => ?_, fun live zero => ?_, fun live positive type => ?_,
    fun {x} member => ?_, counted.countable⟩
  · rw [memory] at live
    simp only [refCount, targets, pins]
    exact counted.counts live
  · rw [memory] at live
    rw [refCount] at zero
    simp only [entry]
    exact counted.dead live zero
  · rw [memory] at live
    rw [refCount] at positive
    simp only [entry]
    exact counted.registered live positive type
  · obtain ⟨p, s, leads, live⟩ := counted.valid member
    exact ⟨p, s, (targets x).trans leads, memory ▸ live⟩

/-- One more reference. -/
theorem bump (counted : rt.Counted held) (leads : rt.target x = some p)
    (live : rt.memory p = some s) (alive : 0 < rt.refCount p)
    (countable : ∀ i, x = .atom i → isConst i = false) :
    (rt.setRefCount p (rt.refCount p + 1)).Counted (x ::ₘ held) := by
  refine ⟨fun {q r} there => ?_, fun {q r} there zero => ?_,
    fun {q r} there positive => counted.registered there ?_, fun {y} member => ?_,
    fun {i} member => ?_⟩
  · change Function.update rt.refCount p _ q = _
    have before := counted.counts there
    rw [Multiset.countP_cons]
    change _ = ((Multiset.countP (fun x => rt.target x = some q) held +
      if rt.target x = some q then 1 else 0 : Nat) : Int) + if rt.pinned q then 1 else 0
    by_cases same : q = p
    · subst same
      rw [Function.update_self, before, if_pos leads]
      push_cast
      omega
    · have other : rt.target x ≠ some q := by
        rw [leads]
        exact fun equal => same (Option.some.inj equal).symm
      rw [Function.update_of_ne same, before, if_neg other]
      rfl
  · change Function.update rt.refCount p _ q = 0 at zero
    by_cases same : q = p
    · subst same
      rw [Function.update_self] at zero
      omega
    · rw [Function.update_of_ne same] at zero
      exact counted.dead there zero
  · by_cases same : q = p
    · rw [same]
      exact alive
    · change 0 < Function.update rt.refCount p _ q at positive
      rwa [Function.update_of_ne same] at positive
  · rcases Multiset.mem_cons.mp member with rfl | member
    · exact ⟨p, s, leads, live⟩
    · exact counted.valid member
  · rcases Multiset.mem_cons.mp member with same | member
    · exact countable i same.symm
    · exact counted.countable member

/-- One reference fewer, where others remain. -/
theorem lower (counted : rt.Counted (x ::ₘ rest)) (leads : rt.target x = some p)
    (more : 1 < rt.refCount p) : (rt.setRefCount p (rt.refCount p - 1)).Counted rest := by
  refine ⟨fun {q r} there => ?_, fun {q r} there zero => ?_,
    fun {q r} there positive => counted.registered there ?_,
    fun {y} member => counted.valid (Multiset.mem_cons_of_mem member),
    fun {i} member => counted.countable (Multiset.mem_cons_of_mem member)⟩
  · change Function.update rt.refCount p _ q =
      (Multiset.countP (fun x => rt.target x = some q) rest : Int) + if rt.pinned q then 1 else 0
    have before := counted.counts there
    rw [Multiset.countP_cons] at before
    by_cases same : q = p
    · subst same
      rw [if_pos leads] at before
      rw [Function.update_self, before]
      push_cast
      omega
    · have other : rt.target x ≠ some q := by
        rw [leads]
        exact fun equal => same (Option.some.inj equal).symm
      rw [if_neg other] at before
      rw [Function.update_of_ne same, before]
      rfl
  · change Function.update rt.refCount p _ q = 0 at zero
    by_cases same : q = p
    · subst same
      rw [Function.update_self] at zero
      omega
    · rw [Function.update_of_ne same] at zero
      exact counted.dead there zero
  · by_cases same : q = p
    · rw [same]
      omega
    · change 0 < Function.update rt.refCount p _ q at positive
      rwa [Function.update_of_ne same] at positive

/-- The last reference to a string is the only one, and the string is not predefined. -/
theorem last (counted : rt.Counted (x ::ₘ rest)) (leads : rt.target x = some p)
    (live : rt.memory p = some s) (few : ¬ 1 < rt.refCount p) :
    rt.pinned p = false ∧ ∀ y ∈ rest, rt.target y ≠ some p := by
  have before := counted.counts live
  rw [Multiset.countP_cons, if_pos leads] at before
  have nothing : Multiset.countP (fun x => rt.target x = some p) rest = 0 := by
    by_contra some_left
    push_cast at before
    split at before <;> omega
  refine ⟨?_, Multiset.countP_eq_zero.mp nothing⟩
  by_contra pinned
  rw [if_pos (Bool.not_eq_false _ ▸ pinned)] at before
  push_cast at before
  omega

/-- A string without references leaves the memory, or only its weak references keep it. -/
theorem remove {new : Option JSAtomStruct} (counted : rt.Counted (x ::ₘ rest))
    (others : ∀ y ∈ rest, rt.target y ≠ some p) (leads : rt.target x = some p)
    (memory : after.memory = Function.update rt.memory p new)
    (kept : ∀ r, new = some r → r.Weak ∧ after.refCount p = 0 ∧
      ∀ j r, after.entry j ≠ some (p, r))
    (refCount : ∀ q, q ≠ p → after.refCount q = rt.refCount q)
    (entry : ∀ j, after.entry j = rt.entry j ∨
      (after.entry j = none ∧ ∃ s, rt.entry j = some (p, s))) : after.Counted rest := by
  have pins : ∀ q, q ≠ p → after.pinned q = rt.pinned q := by
    intro q other
    rw [Bool.eq_iff_iff, pinned_iff, pinned_iff]
    refine exists_congr fun j => and_congr_right fun _ => ?_
    rcases entry j with same | ⟨gone, s, there⟩
    · rw [same]
    · rw [gone, there]
      simp [Ne.symm other]
  have targets : ∀ y ∈ rest, after.target y = rt.target y := by
    intro y member
    cases y with
    | value q => rfl
    | atom j =>
      rcases entry j with same | ⟨_, s, there⟩
      · rw [target, target, same]
      · exact absurd (target_entry there) (others _ member)
  have here : ∀ {q r}, after.memory q = some r → q = p ∧ new = some r ∨
      q ≠ p ∧ rt.memory q = some r := by
    intro q r there
    rw [memory, Function.update_apply] at there
    split at there
    · exact .inl ⟨‹_›, there⟩
    · exact .inr ⟨‹_›, there⟩
  refine ⟨fun {q r} there => ?_, fun {q r} there zero => ?_,
    fun {q r} there positive type => ?_, fun {y} member => ?_,
    fun member => counted.countable (Multiset.mem_cons_of_mem member)⟩
  · have same : rest.countP (fun y => after.target y = some q) =
        rest.countP fun y => rt.target y = some q :=
      Multiset.countP_congr rfl fun y member => by rw [targets y member]
    rw [same]
    rcases here there with ⟨rfl, weak⟩ | ⟨other, there⟩
    · obtain ⟨_, zero, gone⟩ := kept r weak
      have unpinned : ¬ after.pinned q = true := by
        rw [pinned_iff]
        rintro ⟨j, _, s, found⟩
        exact gone j s found
      rw [zero, if_neg unpinned, Multiset.countP_eq_zero.mpr others]
      rfl
    · have before := counted.counts there
      have elsewhere : rt.target x ≠ some q := by
        rw [leads]
        exact fun equal => other (Option.some.inj equal).symm
      rw [Multiset.countP_cons, if_neg elsewhere] at before
      rw [refCount q other, before, pins q other, Nat.add_zero]
  · rcases here there with ⟨rfl, weak⟩ | ⟨other, there⟩
    · exact ⟨(kept r weak).1, (kept r weak).2.2⟩
    · rw [refCount q other] at zero
      obtain ⟨weak, gone⟩ := counted.dead there zero
      refine ⟨weak, fun j s found => gone j s ?_⟩
      rcases entry j with same | ⟨nothing, _⟩
      · exact same.symm.trans found
      · rw [nothing] at found
        cases found
  · rcases here there with ⟨rfl, weak⟩ | ⟨other, there⟩
    · rw [(kept r weak).2.1] at positive
      exact absurd positive (lt_irrefl 0)
    · rw [refCount q other] at positive
      obtain ⟨j, found⟩ := counted.registered there positive type
      refine ⟨j, ?_⟩
      rcases entry j with same | ⟨_, s, mine⟩
      · exact same.trans found
      · rw [mine] at found
        exact absurd (Prod.mk.inj (Option.some.inj found)).1.symm other
  · obtain ⟨q, r, there, live⟩ := counted.valid (Multiset.mem_cons_of_mem member)
    refine ⟨q, r, (targets y member).trans there, ?_⟩
    rw [memory, Function.update_of_ne, live]
    rintro rfl
    exact others y member there

/-- A new string, with one reference to it. -/
theorem alloc (counted : rt.Counted held) (free : rt.memory p = none)
    (plain : s.atomType = none) (memory : after.memory = Function.update rt.memory p (some s))
    (refCount : after.refCount = Function.update rt.refCount p 1)
    (entry : ∀ j, after.entry j = rt.entry j) : after.Counted (.value p ::ₘ held) := by
  have targets : ∀ y, after.target y = rt.target y := by
    intro y
    cases y with
    | value q => rfl
    | atom j => rw [target, target, entry]
  have pins : ∀ q, after.pinned q = rt.pinned q := by
    intro q
    simp only [pinned, entry]
  have unpinned : rt.pinned p = false := by
    by_contra pinned
    obtain ⟨j, _, r, there⟩ := pinned_iff.mp (Bool.not_eq_false _ ▸ pinned)
    rw [(entry_iff.mp there).2.2] at free
    cases free
  refine ⟨fun {q r} there => ?_, fun {q r} there zero => ?_,
    fun {q r} there positive type => ?_, fun {y} member => ?_, fun {i} member => ?_⟩
  · rw [Multiset.countP_cons]
    simp only [targets, pins, refCount]
    by_cases same : q = p
    · subst same
      rw [Function.update_self, counted.no_target free, unpinned]
      simp [target]
    · rw [memory, Function.update_of_ne same] at there
      rw [Function.update_of_ne same, counted.counts there]
      simp [target, Ne.symm same]
  · rw [refCount] at zero
    simp only [entry]
    by_cases same : q = p
    · rw [same, Function.update_self] at zero
      cases zero
    · rw [memory, Function.update_of_ne same] at there
      rw [Function.update_of_ne same] at zero
      exact counted.dead there zero
  · rw [refCount] at positive
    simp only [entry]
    by_cases same : q = p
    · rw [memory, same, Function.update_self] at there
      obtain rfl := Option.some.inj there
      exact absurd plain type
    · rw [memory, Function.update_of_ne same] at there
      rw [Function.update_of_ne same] at positive
      exact counted.registered there positive type
  · rw [targets]
    rcases Multiset.mem_cons.mp member with rfl | member
    · exact ⟨p, s, rfl, by rw [memory, Function.update_self]⟩
    · obtain ⟨q, r, leads, live⟩ := counted.valid member
      refine ⟨q, r, leads, ?_⟩
      rw [memory, Function.update_of_ne, live]
      rintro rfl
      rw [live] at free
      cases free
  · rcases Multiset.mem_cons.mp member with same | member
    · cases same
    · exact counted.countable member

end Counted

/-- The reference that comes with an index: none if the atom is predefined. -/
def owned (i : Nat) : Multiset Reference := if isConst i then 0 else {.atom i}

namespace Counted

/-- A string becomes an atom: the reference to it becomes that of the atom. -/
theorem enter (counted : rt.Counted (.value p ::ₘ rest)) (table : rt.Table)
    (here : rt.memory p = some r) (plain : r.atomType = none)
    (entered : Entered rt after p s i) (free : rt.entry i = none) (size : after.Table) :
    after.Counted (owned i + rest) := by
  have new : after.entry i = some (p, s) := by
    rw [entered.entry, if_pos rfl]
  have absent : ∀ j q r', rt.entry j = some (q, r') → q ≠ p := by
    intro j q r' there
    obtain ⟨inside, used, _⟩ := entry_iff.mp there
    exact table.plain_string here plain inside used
  have unpinned : rt.pinned p = false := by
    by_contra pinned
    obtain ⟨j, _, r', there⟩ := pinned_iff.mp (Bool.not_eq_false _ ▸ pinned)
    exact absent j p r' there rfl
  have targets : ∀ y ∈ rest, after.target y = rt.target y := by
    intro y member
    cases y with
    | value q => rfl
    | atom j =>
      rw [target, target, entered.entry]
      split
      · rename_i same
        subst same
        obtain ⟨q, r', there, _⟩ := counted.valid (Multiset.mem_cons_of_mem member)
        rw [target, free] at there
        cases there
      · rfl
  have pins : ∀ q, after.pinned q = (rt.pinned q || (isConst i && q == p)) := by
    intro q
    rw [Bool.eq_iff_iff, Bool.or_eq_true, Bool.and_eq_true, pinned_iff, pinned_iff, beq_iff_eq,
      size.const_iff new]
    constructor
    · rintro ⟨j, inside, r', there⟩
      rw [entered.entry] at there
      split at there
      · rename_i same
        obtain ⟨rfl, rfl⟩ := Prod.mk.inj (Option.some.inj there)
        exact .inr ⟨same ▸ inside, rfl⟩
      · exact .inl ⟨j, inside, r', there⟩
    · rintro (⟨j, inside, r', there⟩ | ⟨inside, rfl⟩)
      · refine ⟨j, inside, r', ?_⟩
        rw [entered.entry, if_neg, there]
        rintro rfl
        rw [free] at there
        cases there
      · exact ⟨i, inside, s, new⟩
  have own : ∀ q, (owned i).countP (fun x => after.target x = some q) =
      if isConst i = false ∧ q = p then 1 else 0 := by
    intro q
    rw [owned]
    cases isConst i with
    | true => simp
    | false =>
      rw [if_neg (by simp), ← Multiset.cons_zero, Multiset.countP_cons, target_entry new]
      simp [eq_comm]
  have same_rest : ∀ q, rest.countP (fun x => after.target x = some q) =
      rest.countP (fun x => rt.target x = some q) := fun q =>
    Multiset.countP_congr rfl fun y member => by rw [targets y member]
  have alive : 0 < rt.refCount p := counted.counted_target (Multiset.mem_cons_self ..) rfl
  refine ⟨fun {q r'} there => ?_, fun {q r'} there zero => ?_,
    fun {q r'} there positive type => ?_, fun {y} member => ?_, fun {j} member => ?_⟩
  · rw [Multiset.countP_add, own, same_rest, pins, entered.refCount]
    by_cases same : q = p
    · subst same
      have before := counted.counts here
      rw [Multiset.countP_cons, target, if_pos rfl, unpinned] at before
      rw [before, unpinned]
      cases isConst i <;> simp
      omega
    · rw [entered.memory, Function.update_of_ne same] at there
      have before := counted.counts there
      have elsewhere : rt.target (.value p) ≠ some q :=
        fun equal => same (Option.some.inj equal).symm
      rw [Multiset.countP_cons, if_neg elsewhere] at before
      rw [before]
      simp [same]
  · rw [entered.refCount] at zero
    by_cases same : q = p
    · rw [same] at zero
      omega
    · rw [entered.memory, Function.update_of_ne same] at there
      obtain ⟨weak, gone⟩ := counted.dead there zero
      refine ⟨weak, fun j s' found => ?_⟩
      rw [entered.entry] at found
      split at found
      · exact same (Prod.mk.inj (Option.some.inj found)).1.symm
      · exact gone j s' found
  · rw [entered.refCount] at positive
    rw [entered.memory, Function.update_apply] at there
    split at there
    · rename_i same
      rw [same, ← Option.some.inj there]
      exact ⟨i, new⟩
    · obtain ⟨j, found⟩ := counted.registered there positive type
      refine ⟨j, ?_⟩
      rw [entered.entry, if_neg, found]
      rintro rfl
      rw [free] at found
      cases found
  · rcases Multiset.mem_add.mp member with mine | member
    · rw [owned] at mine
      split at mine
      · cases mine
      · obtain rfl := Multiset.mem_singleton.mp mine
        exact ⟨p, s, target_entry new, (entry_iff.mp new).2.2⟩
    · obtain ⟨q, r', leads, live⟩ := counted.valid (Multiset.mem_cons_of_mem member)
      refine (targets y member).symm ▸ ?_
      by_cases same : q = p
      · exact ⟨p, s, same ▸ leads, (entry_iff.mp new).2.2⟩
      · exact ⟨q, r', leads, by rw [entered.memory, Function.update_of_ne same, live]⟩
  · rcases Multiset.mem_add.mp member with mine | member
    · rw [owned] at mine
      split at mine
      · cases mine
      · rename_i counts
        obtain ⟨rfl⟩ := Reference.atom.inj (Multiset.mem_singleton.mp mine)
        exact Bool.eq_false_iff.mpr counts
    · exact counted.countable (Multiset.mem_cons_of_mem member)

/-- The longer array comes with at most one string, that of `JS_ATOM_NULL`. -/
theorem grow (counted : rt.Counted held) (grown : Grown rt after) : after.Counted held := by
  have live : ∀ {q r}, rt.memory q = some r → after.memory q = some r := by
    intro q r there
    rw [grown.memory q (by simp [there]), there]
  have targets : ∀ y ∈ held, after.target y = rt.target y := by
    intro y member
    cases y with
    | value q => rfl
    | atom j =>
      obtain ⟨q, r, there, _⟩ := counted.valid member
      rw [target, Option.map_eq_some_iff] at there
      obtain ⟨e, found, _⟩ := there
      rw [target, target, found, grown.entry j e found]
  have same_held : ∀ q, held.countP (fun x => after.target x = some q) =
      held.countP (fun x => rt.target x = some q) := fun q =>
    Multiset.countP_congr rfl fun y member => by rw [targets y member]
  have pins : ∀ {q r}, rt.memory q = some r → after.pinned q = rt.pinned q := by
    intro q r there
    rw [Bool.eq_iff_iff, pinned_iff, pinned_iff]
    constructor
    · rintro ⟨j, inside, r', found⟩
      exact ⟨j, inside, r', grown.old j q r' found (by simp [there])⟩
    · rintro ⟨j, inside, r', found⟩
      exact ⟨j, inside, r', grown.entry j _ found⟩
  have before : ∀ {q r r'}, rt.memory q = some r' → after.memory q = some r → r' = r := by
    intro q r r' old there
    exact Option.some.inj ((live old).symm.trans there)
  refine ⟨fun {q r} there => ?_, fun {q r} there zero => ?_,
    fun {q r} there positive type => ?_, fun {y} member => ?_, counted.countable⟩
  · cases old : rt.memory q with
    | some r' =>
      rw [grown.refCount q (by simp [old]), same_held, pins old]
      exact counted.counts old
    | none =>
      obtain ⟨first, count, _⟩ := grown.new q r old there
      have pinned : after.pinned q = true := pinned_iff.mpr ⟨0, by decide, r, first⟩
      rw [same_held, counted.no_target old, count, pinned]
      rfl
  · cases old : rt.memory q with
    | some r' =>
      obtain rfl := before old there
      rw [grown.refCount q (by simp [old])] at zero
      obtain ⟨weak, gone⟩ := counted.dead old zero
      exact ⟨weak, fun j s found => gone j s (grown.old j q s found (by simp [old]))⟩
    | none =>
      rw [(grown.new q r old there).2.1] at zero
      cases zero
  · cases old : rt.memory q with
    | some r' =>
      obtain rfl := before old there
      rw [grown.refCount q (by simp [old])] at positive
      obtain ⟨j, found⟩ := counted.registered old positive type
      exact ⟨j, grown.entry j _ found⟩
    | none => exact ⟨0, (grown.new q r old there).1⟩
  · obtain ⟨q, r, leads, there⟩ := counted.valid member
    exact ⟨q, r, (targets y member).trans leads, live there⟩

end Counted

end Runtime

end GoQuickjs.Atoms
