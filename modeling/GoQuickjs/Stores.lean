import GoQuickjs.GoValue
import GoQuickjs.JsValue
import GoQuickjs.PtrStore

/-!
# The stores of all contexts

`InitPtrStore` in `go-ptr-id.go` keeps one handle store per context in a map keyed
by the C address of the context. The accessor creates a missing store; the
deletion clears the store and drops its entry. A store is used right after it was
looked up, so a use is modelled as one update of the entry.

The registered pointers are the addresses of Go variables of type `interface{}`.
-/

namespace GoQuickjs

/-- The variable `stores`. -/
abbrev Stores := Finmap fun _ : Ptr => PtrStore GoAddr

namespace Stores

/-- The accessor `getPtrStore`: the store of a context, created when missing. -/
def getPtrStore (stores : Stores) (ctx : Ptr) : PtrStore GoAddr × Stores :=
  match stores.lookup ctx with
  | some store => (store, stores)
  | none => (PtrStore.newPtrStore, stores.insert ctx PtrStore.newPtrStore)

/-- The function `delPtrStore`: clear the store, then drop its entry. -/
def delPtrStore (stores : Stores) (ctx : Ptr) : Stores :=
  match stores.lookup ctx with
  | some store => (stores.insert ctx store.clear).erase ctx
  | none => stores.erase ctx

/-- `getPtrStore(ctx).register(p)`; nothing when `register` does not return. -/
def registerIn (stores : Stores) (ctx : Ptr) (p : GoAddr) : Option (UInt32 × Stores) :=
  let found := stores.getPtrStore ctx
  (found.1.register p).map fun made => (made.1, found.2.insert ctx made.2)

/-- `getPtrStore(ctx).lookup(idx)`. -/
def lookupIn (stores : Stores) (ctx : Ptr) (idx : UInt32) : Option GoAddr × Stores :=
  let found := stores.getPtrStore ctx
  (found.1.lookup idx, found.2)

/-- The exported function `goFreeId`. -/
def goFreeId (stores : Stores) (ctx : Ptr) (idx : UInt32) : Stores :=
  let found := stores.getPtrStore ctx
  found.2.insert ctx (found.1.remove idx)

/-- The store a context sees: its own, or a new one where it has none. -/
def seen (stores : Stores) (ctx : Ptr) : PtrStore GoAddr :=
  (stores.lookup ctx).getD PtrStore.newPtrStore

/-! ## What each access does to the entries -/

variable (stores : Stores) (ctx other : Ptr)

/-- The store of a context is the one made for it, or a new one. -/
theorem getPtrStore_fst : (stores.getPtrStore ctx).1 = stores.seen ctx := by
  simp only [getPtrStore, seen]
  cases stores.lookup ctx <;> rfl

/-- Looking a store up changes no store that any context sees. -/
theorem seen_getPtrStore : (stores.getPtrStore ctx).2.seen other = stores.seen other := by
  cases found : stores.lookup ctx with
  | some store => simp [getPtrStore, found]
  | none =>
    by_cases same : other = ctx
    · subst same
      simp [getPtrStore, found, seen, Finmap.lookup_insert]
    · simp [getPtrStore, found, seen, Finmap.lookup_insert_of_ne _ same]

/-- A lookup reads the store of its own context. -/
theorem lookupIn_fst (idx : UInt32) :
    (stores.lookupIn ctx idx).1 = (stores.seen ctx).lookup idx := by
  rw [lookupIn, getPtrStore_fst]

/-- Asking for a store makes at most that of the context. -/
theorem mem_getPtrStore : other ∈ (stores.getPtrStore ctx).2 ↔ other = ctx ∨ other ∈ stores := by
  cases found : stores.lookup ctx with
  | some store =>
    have present : ctx ∈ stores := Finmap.mem_of_lookup_eq_some found
    simp only [getPtrStore, found]
    exact ⟨.inr, fun either => either.elim (fun same => same ▸ present) id⟩
  | none => simp [getPtrStore, found, Finmap.mem_insert]

/-- Deleting a store removes that of the context and no other. -/
theorem delPtrStore_eq : stores.delPtrStore ctx = stores.erase ctx := by
  cases found : stores.lookup ctx with
  | none => simp [delPtrStore, found]
  | some store =>
    apply Finmap.ext_lookup
    intro key
    by_cases same : key = ctx
    · subst same
      simp [delPtrStore, found, Finmap.lookup_erase]
    · simp [delPtrStore, found, Finmap.lookup_erase_ne same, Finmap.lookup_insert_of_ne _ same]

/-- A store written back is the one its context sees; other contexts see what
they saw. -/
theorem seen_insert (store : PtrStore GoAddr) :
    seen (Finmap.insert ctx store stores) other = if other = ctx then store else stores.seen other := by
  by_cases same : other = ctx
  · subst same
    simp [seen, Finmap.lookup_insert]
  · simp [seen, Finmap.lookup_insert_of_ne _ same, same]

/-- A context whose entry was dropped sees a new store. -/
theorem seen_erase : seen (Finmap.erase ctx stores) other =
    if other = ctx then PtrStore.newPtrStore else stores.seen other := by
  by_cases same : other = ctx
  · subst same
    simp [seen, Finmap.lookup_erase]
  · simp [seen, Finmap.lookup_erase_ne same, same]

/-- Everything a returning registration can have done. -/
theorem registerIn_cases {stores stores' : Stores} {ctx : Ptr} {p : GoAddr} {idx : UInt32}
    (returned : stores.registerIn ctx p = some (idx, stores')) :
    ∃ store, (stores.seen ctx).register p = some (idx, store) ∧ ctx ∈ stores' ∧
      (∀ other, other ∈ stores' ↔ other = ctx ∨ other ∈ stores) ∧
      ∀ other, stores'.seen other = if other = ctx then store else stores.seen other := by
  obtain ⟨⟨k, store⟩, registered, same⟩ := Option.map_eq_some_iff.mp returned
  obtain ⟨rfl, rfl⟩ := Prod.mk.inj same
  rw [getPtrStore_fst] at registered
  refine ⟨store, registered, Finmap.mem_insert.mpr (.inl rfl), ?_, ?_⟩
  · intro other
    rw [Finmap.mem_insert, mem_getPtrStore]
    tauto
  · intro other
    rw [seen_insert, seen_getPtrStore]

/-- `goFreeId` frees the id in the store of its own context and no other. -/
theorem seen_goFreeId (idx : UInt32) :
    (stores.goFreeId ctx idx).seen other =
      if other = ctx then (stores.seen ctx).remove idx else stores.seen other := by
  simp only [goFreeId, seen_insert, seen_getPtrStore, getPtrStore_fst]

/-- Freeing an id leaves an entry for the context, whether it had one or not. -/
theorem mem_goFreeId (idx : UInt32) :
    other ∈ stores.goFreeId ctx idx ↔ other = ctx ∨ other ∈ stores := by
  simp only [goFreeId, Finmap.mem_insert, mem_getPtrStore]
  tauto

end Stores

end GoQuickjs
