import GoQuickjs.AtomEntries

/-!
# A larger hash table

`JS_ResizeAtomHash` goes through the old buckets and moves each string to the front of a
bucket of the new table. While it runs, the moved strings are on chains of the new
table, and the others are linked as before.
-/

namespace GoQuickjs.Atoms.Runtime

open IndexChains

variable {rt : Runtime} {p q : Ptr} {s r : JSAtomStruct} {i j : Nat}

/-- Only buckets, and the links of strings that can be found again, differ. -/
structure Relinked (before after : Runtime) : Prop where
  memory : after.memory = before.memory
  refCount : after.refCount = before.refCount
  atomArray : after.atomArray = before.atomArray
  atomSize : after.atomSize = before.atomSize
  atomFreeIndex : after.atomFreeIndex = before.atomFreeIndex
  atomCount : after.atomCount = before.atomCount
  symbols : ∀ {i p s}, before.entry i = some (p, s) → s.atomType = some .symbol →
    after.hashNext p = before.hashNext p

namespace Relinked

variable {before after last : Runtime}

/-- A table is its own relinking. -/
theorem refl : Relinked rt rt := ⟨rfl, rfl, rfl, rfl, rfl, rfl, fun _ _ => rfl⟩

/-- Relinking changes no entry. -/
theorem entry (relinked : Relinked before after) (i : Nat) : after.entry i = before.entry i := by
  rw [Runtime.entry, Runtime.entry, relinked.atomSize, relinked.atomArray, relinked.memory]

/-- Two relinkings in a row are one. -/
theorem trans (first : Relinked before after) (second : Relinked after last) :
    Relinked before last where
  memory := second.memory.trans first.memory
  refCount := second.refCount.trans first.refCount
  atomArray := second.atomArray.trans first.atomArray
  atomSize := second.atomSize.trans first.atomSize
  atomFreeIndex := second.atomFreeIndex.trans first.atomFreeIndex
  atomCount := second.atomCount.trans first.atomCount
  symbols := by
    intro i p s found symbol
    rw [second.symbols (first.entry i ▸ found) symbol, first.symbols found symbol]

/-- Relinking adds and removes no atom. -/
theorem atoms (relinked : Relinked before after) : after.atoms = before.atoms := by
  ext i
  simp only [mem_atoms, relinked.entry]

/-- The entries stay sound when only links change. -/
theorem entries (relinked : Relinked before after) (entries : before.Entries) :
    after.Entries := by
  refine entries.congr relinked.entry ?_ relinked.symbols
  intro i p inside used
  rw [relinked.atomSize] at inside
  rw [relinked.atomArray] at used
  rw [relinked.memory]
  exact entries.live inside used

end Relinked

/-- An atom of a chain lies inside the array. -/
theorem lt_of_chain {place : Option Nat} (placed : rt.chain i = some place) : i < rt.atomSize := by
  by_contra outside
  rw [chain, if_neg outside] at placed
  cases placed

/-- A new link of a string is a new link of its entry, and of no other one. -/
theorem link_setNext (entries : rt.Entries) (found : rt.entry i = some (p, s)) (n : Nat)
    (inside : j < rt.atomSize) : (rt.setNext p n).link j = if j = i then n else rt.link j := by
  by_cases same : j = i
  · subst same
    have now : (rt.setNext p n).entry j = some (p, s) := found
    rw [if_pos rfl, link_entry now]
    exact Function.update_self ..
  · rw [if_neg same]
    refine link_congr rfl fun q used => Function.update_of_ne ?_ ..
    rintro rfl
    obtain ⟨r, here⟩ := entries.live inside used
    exact same (entries.apart (entry_iff.mpr ⟨inside, used, here⟩) found)

/-- A string that can be found again gets another link. -/
theorem relinked_setNext (entries : rt.Entries) (found : rt.entry i = some (p, s))
    (interned : s.atomType ≠ some .symbol) (n : Nat) : Relinked rt (rt.setNext p n) := by
  refine ⟨rfl, rfl, rfl, rfl, rfl, rfl, ?_⟩
  intro j q r there symbol
  refine Function.update_of_ne ?_ ..
  rintro rfl
  obtain rfl := entries.apart there found
  rw [there] at found
  obtain ⟨-, rfl⟩ := Prod.mk.inj (Option.some.inj found)
  exact interned symbol

/-! ## Moving the strings -/

/-- The bucket of an entry in a table with another mask. -/
def bucketOf (rt : Runtime) (mask i : Nat) : Option Nat :=
  (rt.entry i).map fun found => found.2.hash.toNat &&& mask

/-- The table while its strings are moved. -/
structure Moving (before rt : Runtime) (mask : Nat) (newHash : Nat → Nat) (done : List Nat) :
    Prop where
  relinked : Relinked before rt
  moved : Chains rt.link newHash fun i => if i ∈ done then before.bucketOf mask i else none
  kept : ∀ i < before.atomSize, i ∉ done → rt.link i = before.link i

/-- One string is moved. -/
theorem Moving.move {before : Runtime} {mask : Nat} {newHash : Nat → Nat} {done : List Nat}
    (moving : Moving before rt mask newHash done) (entries : before.Entries)
    (found : before.entry i = some (p, s)) (interned : s.atomType ≠ some .symbol) (used : i ≠ 0)
    (waiting : i ∉ done) :
    Moving before (rt.setNext p (newHash (s.hash.toNat &&& mask))) mask
      (Function.update newHash (s.hash.toNat &&& mask) i) (i :: done) := by
  have now := (moving.relinked.entry i).trans found
  have links : ∀ j < before.atomSize,
      (rt.setNext p (newHash (s.hash.toNat &&& mask))).link j =
        if j = i then newHash (s.hash.toNat &&& mask) else rt.link j := fun j inside =>
    link_setNext (moving.relinked.entries entries) now _ (moving.relinked.atomSize ▸ inside)
  refine ⟨?_, ?_, ?_⟩
  · exact moving.relinked.trans
      (relinked_setNext (moving.relinked.entries entries) now interned _)
  · refine moving.moved.push used (b := s.hash.toNat &&& mask) ?_ ?_ ?_ ?_ ?_
    · rw [if_neg waiting]
    · intro c
      exact Function.update_apply ..
    · rw [links i (entry_iff.mp found).1, if_pos rfl]
    · intro j
      by_cases same : j = i
      · subst same
        simp [bucketOf, found]
      · simp [same]
    · intro j placed
      have member : j ∈ done := by
        by_contra outside
        rw [if_neg outside] at placed
        exact placed rfl
      rw [if_pos member, bucketOf, ne_eq, Option.map_eq_none_iff] at placed
      obtain ⟨⟨q, r⟩, there⟩ := Option.ne_none_iff_exists'.mp placed
      rw [links j (entry_iff.mp there).1, if_neg (ne_of_mem_of_not_mem member waiting)]
  · intro j inside outside
    rw [links j inside, if_neg (List.ne_of_not_mem_cons outside)]
    exact moving.kept j inside (List.not_mem_of_not_mem_cons outside)

/-- The inner loop moves the strings of a chain.

Proof: induction on the chain. -/
theorem rehashChain_moves {before : Runtime} {mask : Nat} {newHash : Nat → Nat}
    {done list : List Nat} {h fuel : Nat} (entries : before.Entries)
    (moving : Moving before rt mask newHash done) (chain : Chain before.link h list)
    (waiting : ∀ i ∈ list, i ∉ done)
    (interned : ∀ i ∈ list, ∃ p s, before.entry i = some (p, s) ∧ s.atomType ≠ some .symbol)
    (enough : list.length < fuel) : ∃ after newer,
      rehashChain mask fuel h rt newHash = some (after, newer) ∧
        Moving before after mask newer (list.reverse ++ done) := by
  induction chain generalizing rt newHash done fuel with
  | nil =>
    obtain ⟨fuel, rfl⟩ := Nat.exists_eq_succ_of_ne_zero (Nat.ne_of_gt enough)
    exact ⟨rt, newHash, by rw [rehashChain, if_pos rfl], moving⟩
  | @cons first rest used tail inductionHypothesis =>
    obtain ⟨fuel, rfl⟩ := Nat.exists_eq_succ_of_ne_zero (Nat.ne_of_gt (Nat.zero_lt_of_lt enough))
    obtain ⟨p, s, found, type⟩ := interned first (List.mem_cons_self ..)
    have absent := waiting first (List.mem_cons_self ..)
    have onward : rt.hashNext p = before.link first := by
      rw [← link_entry ((moving.relinked.entry first).trans found)]
      exact moving.kept first (entry_iff.mp found).1 absent
    have next := moving.move entries found type used absent
    obtain ⟨fresh, _⟩ := List.nodup_cons.mp (Chain.cons used tail).nodup
    obtain ⟨after, newer, moved, whole⟩ := inductionHypothesis next
      (fun i member inside => by
        rcases List.mem_cons.mp inside with rfl | earlier
        · exact fresh member
        · exact waiting i (List.mem_cons_of_mem _ member) earlier)
      (fun i member => interned i (List.mem_cons_of_mem _ member))
      (Nat.lt_of_succ_lt_succ enough)
    refine ⟨after, newer, ?_, ?_⟩
    · rw [rehashChain, if_neg used, moving.relinked.entry, found, Option.bind_some, onward]
      exact moved
    · rw [List.reverse_cons, List.append_assoc]
      exact whole

/-- The old table stays in place while its strings are moved. -/
theorem rehashChain_atomHash {mask fuel h : Nat} {after : Runtime} {newHash newer : Nat → Nat}
    (moved : rehashChain mask fuel h rt newHash = some (after, newer)) :
    after.atomHash = rt.atomHash := by
  induction fuel generalizing h rt newHash with
  | zero => cases moved
  | succ fuel inductionHypothesis =>
    rw [rehashChain] at moved
    split at moved
    · cases moved
      rfl
    · obtain ⟨found, _, moved⟩ := Option.bind_eq_some_iff.mp moved
      exact (inductionHypothesis moved :)

/-- The outer loop moves the strings of the buckets it goes through.

Proof: induction on the list of buckets. -/
theorem rehash_moves {before : Runtime} (table : before.Table) {mask : Nat} {newHash : Nat → Nat}
    {done buckets : List Nat} (moving : Moving before rt mask newHash done)
    (same : rt.atomHash = before.atomHash)
    (below : ∀ b ∈ buckets, b < before.atomHashSize) (distinct : buckets.Nodup)
    (waiting : ∀ b ∈ buckets, ∀ i ∈ done, before.chain i ≠ some (some b)) :
    ∃ after newer moved, rehash mask buckets rt newHash = some (after, newer) ∧
      Moving before after mask newer moved ∧
      ∀ i, i ∈ moved ↔ i ∈ done ∨ ∃ b ∈ buckets, before.chain i = some (some b) := by
  induction buckets generalizing rt newHash done with
  | nil => exact ⟨rt, newHash, done, rfl, moving, by simp⟩
  | cons b buckets inductionHypothesis =>
    obtain ⟨list, chain, members, _, enough⟩ := table.bucket (below b (List.mem_cons_self ..))
    obtain ⟨absent, different⟩ := List.nodup_cons.mp distinct
    obtain ⟨after, newer, moved, next⟩ := rehashChain_moves table.entries moving chain
      (fun i member inside =>
        waiting b (List.mem_cons_self ..) i inside ((members i).mp member))
      (fun i member => by
        obtain ⟨p, s, found, type, _⟩ := chain_bucket_iff.mp ((members i).mp member)
        exact ⟨p, s, found, type⟩)
      enough
    obtain ⟨last, newest, all, rest, whole, exact_members⟩ := inductionHypothesis next
      ((rehashChain_atomHash moved).trans same)
      (fun c member => below c (List.mem_cons_of_mem _ member)) different
      (fun c member i inside placed => by
        rcases List.mem_append.mp inside with now | earlier
        · have here := (members i).mp (List.mem_reverse.mp now)
          rw [here] at placed
          exact absent (Option.some.inj (Option.some.inj placed) ▸ member)
        · exact waiting c (List.mem_cons_of_mem _ member) i earlier placed)
    refine ⟨last, newest, all, ?_, whole, fun i => ?_⟩
    · rw [rehash, same, moving.relinked.atomSize, moved, Option.bind_some]
      exact rest
    · rw [exact_members, List.mem_append, List.mem_reverse, members, List.exists_mem_cons_iff]
      tauto

/-! ## The new table -/

/-- A table in which every string has been moved is the table of the new size. -/
theorem Moving.finish {before : Runtime} {mask size : Nat} {newHash : Nat → Nat}
    {done : List Nat} (moving : Moving before rt mask newHash done) (table : before.Table)
    (masked : mask = size - 1) (positive : 0 < size)
    (all : ∀ i, i ∈ done ↔ ∃ b < before.atomHashSize, before.chain i = some (some b)) :
    Chains (rt.setHash newHash size).link (rt.setHash newHash size).head
      (rt.setHash newHash size).chain := by
  have entry : ∀ i, (rt.setHash newHash size).entry i = before.entry i := moving.relinked.entry
  have member : ∀ {i p s}, before.entry i = some (p, s) → s.atomType ≠ some .symbol →
      i ∈ done := by
    intro i p s found interned
    rw [all]
    refine ⟨before.slot s.hash, slot_lt table.hashSize_pos _, ?_⟩
    rw [chain_entry found, if_neg interned]
  intro place
  cases place with
  | none =>
    obtain ⟨list, chain, members⟩ := table.chains none
    refine ⟨list, ?_, fun i => ?_⟩
    · change Chain rt.link rt.atomFreeIndex list
      rw [moving.relinked.atomFreeIndex]
      refine chain.congr fun i free => ?_
      have here := (members i).mp free
      refine moving.kept i (lt_of_chain here) fun moved => ?_
      obtain ⟨b, _, there⟩ := (all i).mp moved
      rw [here] at there
      cases there
    · rw [members, chain_free_iff, chain_free_iff]
      change _ ↔ i < rt.atomSize ∧ ∃ next, rt.atomArray i = .free next
      rw [moving.relinked.atomSize, moving.relinked.atomArray]
  | some b =>
    by_cases inside : b < size
    · obtain ⟨list, chain, members⟩ := moving.moved b
      refine ⟨list, ?_, fun i => ?_⟩
      · change Chain rt.link (if b < size then newHash b else 0) list
        rw [if_pos inside]
        exact chain
      · rw [members, chain_bucket_iff]
        beta_reduce
        constructor
        · intro placed
          by_cases moved : i ∈ done
          · rw [if_pos moved] at placed
            obtain ⟨c, _, there⟩ := (all i).mp moved
            obtain ⟨p, s, found, interned, _⟩ := chain_bucket_iff.mp there
            refine ⟨p, s, (entry i).trans found, interned, ?_⟩
            rw [bucketOf, found] at placed
            rw [← Option.some.inj placed, masked]
            rfl
          · rw [if_neg moved] at placed
            cases placed
        · rintro ⟨p, s, found, interned, bucket⟩
          rw [entry] at found
          rw [if_pos (member found interned), bucketOf, found, ← bucket, masked]
          rfl
    · refine ⟨[], ?_, fun i => ?_⟩
      · change Chain rt.link (if b < size then newHash b else 0) []
        rw [if_neg inside]
        exact .nil
      · rw [chain_bucket_iff]
        constructor
        · intro member
          cases member
        · rintro ⟨p, s, _, _, rfl⟩
          have below : (rt.setHash newHash size).slot s.hash < size := slot_lt positive s.hash
          exact absurd below inside

/-- `JS_ResizeAtomHash` to twice the size changes nothing but the chains. -/
theorem Table.resizeAtomHash_returns (table : rt.Table) (room : Bool) : ∃ after,
    rt.resizeAtomHash (rt.atomHashSize * 2) room = some after ∧ Relinked rt after ∧
      after.Table := by
  obtain ⟨k, power⟩ := table.power
  have double : rt.atomHashSize * 2 = 2 ^ (k + 1) := by
    rw [power, Nat.pow_succ]
  have checked : rt.atomHashSize * 2 &&& (rt.atomHashSize * 2 - 1) = 0 := by
    rw [double, Nat.and_two_pow_sub_one_eq_mod, Nat.mod_self]
  rw [resizeAtomHash, if_neg (not_not_intro checked)]
  cases room with
  | false => exact ⟨rt, rfl, .refl, table⟩
  | true =>
    have initial : Moving rt rt (rt.atomHashSize * 2 - 1) (fun _ => 0) [] :=
      ⟨.refl, fun b => ⟨[], .nil, by simp⟩, fun i _ _ => rfl⟩
    have below : ∀ b ∈ List.range rt.atomHashSize, b < rt.atomHashSize :=
      fun b => List.mem_range.mp
    obtain ⟨after, newer, moved, returned, moving, members⟩ := rehash_moves table initial rfl
      below List.nodup_range (by simp)
    rw [if_neg (by simp), returned]
    have positive : 0 < rt.atomHashSize * 2 := by
      have := table.hashSize_pos
      omega
    have relinked : Relinked rt (after.setHash newer (rt.atomHashSize * 2)) :=
      moving.relinked.trans ⟨rfl, rfl, rfl, rfl, rfl, rfl, fun _ _ => rfl⟩
    refine ⟨_, rfl, relinked, relinked.entries table.entries, ?_, ⟨k + 1, double⟩, ?_,
      relinked.atomSize ▸ table.small⟩
    · exact moving.finish table rfl positive fun i => by
        rw [members]
        simp
    · rw [relinked.atomCount, relinked.atoms]
      exact table.count

end GoQuickjs.Atoms.Runtime
