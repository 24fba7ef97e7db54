import GoQuickjs.Library.Runs
import GoQuickjs.Encode

/-!
# Creation and teardown of contexts

Runs of any number of contexts over the one map of stores. A context registers
values and frees proxies while it is live. Its teardown is `freeJsContext`, which
deletes the store and calls `JS_FreeContext`, and then `freeJsRuntime`. Inside these
two calls the engine finalizes the remaining proxies one by one and at some point
releases the memory of the `JSContext`: in `JS_FreeContext`, or later when other
engine objects still count references to it. From then on the allocator may hand the
address out again.

An access to a store locks the map and then the store; it is one step here. Steps of
different contexts interleave freely, since finalizers run on a goroutine of their
own.

A proxy records the address of its context and an id, and nothing tells it that the
store is gone or that the address has changed hands. Finalized late, it makes a new
entry for a context that is being torn down, or frees an id of another context.
-/

namespace GoQuickjs.Contexts

open PtrStore Runs

/-- Where a context stands: before `delPtrStore`, inside its teardown, and after both
finalizers. -/
inductive Phase where
  | live
  | tearing
  | freed
deriving DecidableEq, Repr

/-- A context with the address of its `JSContext`, whether that memory is still
allocated, and the opaque parts of its proxies that are not yet finalized. The memory
of a live context is allocated, and each proxy records the address it was made under. -/
structure Ctx where
  addr : Ptr
  phase : Phase
  allocated : Bool
  proxies : List GoOpaque
  held : phase = .live → allocated = true
  own : ∀ o ∈ proxies, o.ctx = addr

namespace Ctx

/-- The context that `NewContext` returns. -/
def newContext (addr : Ptr) : Ctx := ⟨addr, .live, true, [], fun _ => rfl, by simp⟩

/-- A proxy with the given id is made in the context. -/
def addProxy (x : Ctx) (idx : UInt32) : Ctx where
  addr := x.addr
  phase := x.phase
  allocated := x.allocated
  proxies := ⟨x.addr, idx⟩ :: x.proxies
  held := x.held
  own := by simpa using x.own

/-- A proxy is gone. -/
def dropProxy (x : Ctx) (o : GoOpaque) : Ctx where
  addr := x.addr
  phase := x.phase
  allocated := x.allocated
  proxies := x.proxies.erase o
  held := x.held
  own := fun found member => x.own found (List.mem_of_mem_erase member)

/-- The store was deleted and `JS_FreeContext` is about to run. -/
def startTeardown (x : Ctx) : Ctx :=
  ⟨x.addr, .tearing, x.allocated, x.proxies, by simp, x.own⟩

/-- The engine has released the memory of the context. -/
def releaseMemory (x : Ctx) : Ctx := ⟨x.addr, .tearing, false, x.proxies, by simp, x.own⟩

/-- Both finalizers have finished. -/
def finishTeardown (x : Ctx) : Ctx := ⟨x.addr, .freed, x.allocated, x.proxies, by simp, x.own⟩

end Ctx

/-- A step of one context. -/
inductive Move where
  | makeGoObject (p : GoAddr)
  | wrapGoFunc (p : GoAddr)
  | lookup (idx : UInt32)
  | finalize (o : GoOpaque)
  | delPtrStore
  | releaseMemory
  | freeRuntime
deriving DecidableEq

/-- The effect of a step on the stores and on the context that takes it. A registered
variable is new, so the store of the context does not know its address. The runtime
is freed when the memory is released and no proxy is left. -/
def move (stores : Stores) (x : Ctx) : Move → Option (Stores × Ctx)
  | .makeGoObject p =>
    if x.phase = .live ∧ (stores.seen x.addr).ptr2id.lookup p = none then
      (stores.registerIn x.addr p).map fun made => (made.2, x.addProxy made.1)
    else none
  | .wrapGoFunc p =>
    if x.phase = .live ∧ (stores.seen x.addr).ptr2id.lookup p = none then
      (stores.registerIn x.addr p).map fun made => (made.2, x)
    else none
  | .lookup idx =>
    if x.phase = .live then some ((stores.lookupIn x.addr idx).2, x) else none
  | .finalize o =>
    if o ∈ x.proxies ∧ x.phase ≠ .freed then
      some (stores.goFreeId o.ctx o.idx, x.dropProxy o)
    else none
  | .delPtrStore =>
    if x.phase = .live then some (stores.delPtrStore x.addr, x.startTeardown) else none
  | .releaseMemory =>
    if x.phase = .tearing ∧ x.allocated then some (stores, x.releaseMemory) else none
  | .freeRuntime =>
    if x.phase = .tearing ∧ ¬ x.allocated ∧ x.proxies = [] then
      some (stores, x.finishTeardown)
    else none

/-- The map of stores and every context made so far, in the order of creation. -/
structure State where
  stores : Stores
  ctxs : List Ctx

/-- The program at its start. -/
def initial : State := ⟨∅, []⟩

/-- A step of the program: a context is created, or an existing one takes a step. -/
inductive Action where
  | newContext (addr : Ptr)
  | moves (c : Nat) (taken : Move)
deriving DecidableEq

/-- One step. The allocator gives out an address only while no context has its memory
there. -/
def step (s : State) : Action → Option State
  | .newContext addr =>
    if ∀ x ∈ s.ctxs, x.allocated → x.addr ≠ addr then
      some ⟨s.stores, s.ctxs ++ [.newContext addr]⟩
    else none
  | .moves c taken =>
    match s.ctxs[c]? with
    | some x => (move s.stores x taken).map fun after => ⟨after.1, s.ctxs.set c after.2⟩
    | none => none

/-- The context that takes a step. -/
def actor (s : State) : Action → Nat
  | .newContext _ => s.ctxs.length
  | .moves c _ => c

/-! ## What one step does -/

/-- The stores after a registration or a lookup under an address: the address has an
entry, other stores are as before, and a new record counts one registration. -/
structure Used (addr : Ptr) (stores stores' : Stores) : Prop where
  keys : ∀ other, other ∈ stores' ↔ other = addr ∨ other ∈ stores
  elsewhere : ∀ other, other ≠ addr → stores'.seen other = stores.seen other
  records : ∀ idx r, (stores'.seen addr).id2ptr.lookup idx = some r →
    (stores.seen addr).id2ptr.lookup idx = some r ∨ r.count = 1

/-- What a step can have done to the stores and to the context that took it. -/
inductive Effect (stores : Stores) (x : Ctx) : Move → Stores → Ctx → Prop where
  | used {taken : Move} {stores' : Stores} {x' : Ctx} (live : x.phase = .live)
      (still : x'.phase = .live) (effect : Used x.addr stores stores') :
      Effect stores x taken stores' x'
  | finalized {x' : Ctx} (o : GoOpaque) (member : o ∈ x.proxies) (early : x.phase ≠ .freed)
      (still : x'.phase = x.phase) :
      Effect stores x (.finalize o) (stores.goFreeId o.ctx o.idx) x'
  | deleted {x' : Ctx} (live : x.phase = .live) (torn : x'.phase ≠ .live) :
      Effect stores x .delPtrStore (stores.erase x.addr) x'
  | advanced {taken : Move} {x' : Ctx} (torn : x.phase ≠ .live) (still : x'.phase ≠ .live) :
      Effect stores x taken stores x'

section steps

variable {stores stores' : Stores} {x x' : Ctx} {taken : Move}

/-- A registration of a new variable uses the store and nothing else. -/
theorem registerIn_used {addr : Ptr} {p : GoAddr} {idx : UInt32}
    (unknown : (stores.seen addr).ptr2id.lookup p = none)
    (returned : stores.registerIn addr p = some (idx, stores')) : Used addr stores stores' := by
  obtain ⟨store, registered, -, keys, seen⟩ := Stores.registerIn_cases returned
  refine ⟨keys, fun other apart => by rw [seen, if_neg apart], ?_⟩
  obtain ⟨_, known, -⟩ | ⟨-, -, rfl⟩ := register_cases registered
  · rw [unknown] at known
    cases known
  · intro found r stored
    rw [seen, if_pos rfl] at stored
    by_cases same : found = idx
    · subst same
      obtain rfl : _ = r := by simpa [Finmap.lookup_insert] using stored
      exact .inr rfl
    · exact .inl (by simpa [Finmap.lookup_insert_of_ne _ same] using stored)

theorem lookupIn_used (addr : Ptr) (idx : UInt32) :
    Used addr stores (stores.lookupIn addr idx).2 :=
  ⟨stores.mem_getPtrStore addr, fun other _ => stores.seen_getPtrStore addr other,
    fun _ _ stored => .inl (by rwa [Stores.lookupIn, Stores.seen_getPtrStore] at stored)⟩

/-- Everything a step of a context can do. Its address stays, and its memory is not
allocated again. -/
theorem move_effect (returned : move stores x taken = some (stores', x')) :
    x'.addr = x.addr ∧ (x'.allocated → x.allocated) ∧ Effect stores x taken stores' x' := by
  cases taken with
  | makeGoObject p =>
    simp only [move, Option.ite_none_right_eq_some, Option.map_eq_some_iff] at returned
    obtain ⟨⟨live, unknown⟩, ⟨idx, after⟩, registered, same⟩ := returned
    obtain ⟨rfl, rfl⟩ := Prod.mk.inj same
    exact ⟨rfl, id, .used live live (registerIn_used unknown registered)⟩
  | wrapGoFunc p =>
    simp only [move, Option.ite_none_right_eq_some, Option.map_eq_some_iff] at returned
    obtain ⟨⟨live, unknown⟩, ⟨idx, after⟩, registered, same⟩ := returned
    obtain ⟨rfl, rfl⟩ := Prod.mk.inj same
    exact ⟨rfl, id, .used live live (registerIn_used unknown registered)⟩
  | lookup idx =>
    simp only [move, Option.ite_none_right_eq_some, Option.some.injEq, Prod.mk.injEq] at returned
    obtain ⟨live, rfl, rfl⟩ := returned
    exact ⟨rfl, id, .used live live (lookupIn_used x.addr idx)⟩
  | finalize o =>
    simp only [move, Option.ite_none_right_eq_some, Option.some.injEq, Prod.mk.injEq] at returned
    obtain ⟨⟨member, early⟩, rfl, rfl⟩ := returned
    exact ⟨rfl, id, .finalized o member early rfl⟩
  | delPtrStore =>
    simp only [move, Option.ite_none_right_eq_some, Option.some.injEq, Prod.mk.injEq] at returned
    obtain ⟨live, rfl, rfl⟩ := returned
    rw [Stores.delPtrStore_eq]
    exact ⟨rfl, id, .deleted live nofun⟩
  | releaseMemory =>
    simp only [move, Option.ite_none_right_eq_some, Option.some.injEq, Prod.mk.injEq] at returned
    obtain ⟨⟨tearing, -⟩, rfl, rfl⟩ := returned
    exact ⟨rfl, nofun, .advanced (by simp [tearing]) nofun⟩
  | freeRuntime =>
    simp only [move, Option.ite_none_right_eq_some, Option.some.injEq, Prod.mk.injEq] at returned
    obtain ⟨⟨tearing, -⟩, rfl, rfl⟩ := returned
    exact ⟨rfl, id, .advanced (by simp [tearing]) nofun⟩

end steps

section runs

variable {s s' : State} {action : Action}

/-- Everything a step of the program can do. -/
theorem step_cases (taken : step s action = some s') :
    (∃ addr, action = .newContext addr ∧ (∀ x ∈ s.ctxs, x.allocated → x.addr ≠ addr) ∧
      s' = ⟨s.stores, s.ctxs ++ [.newContext addr]⟩) ∨
    (∃ c x m stores' x', action = .moves c m ∧ s.ctxs[c]? = some x ∧ x'.addr = x.addr ∧
      (x'.allocated → x.allocated) ∧ Effect s.stores x m stores' x' ∧
      s' = ⟨stores', s.ctxs.set c x'⟩) := by
  cases action with
  | newContext addr =>
    simp only [step, Option.ite_none_right_eq_some, Option.some.injEq] at taken
    exact .inl ⟨addr, rfl, taken.1, taken.2.symm⟩
  | moves c m =>
    cases found : s.ctxs[c]? with
    | none => simp [step, found] at taken
    | some x =>
      simp only [step, found, Option.map_eq_some_iff] at taken
      obtain ⟨⟨stores', x'⟩, returned, rfl⟩ := taken
      obtain ⟨addr, allocated, effect⟩ := move_effect returned
      exact .inr ⟨c, x, m, stores', x', rfl, found, addr, allocated, effect, rfl⟩

/-- A context of the list after one of them was replaced: the new one, or another
that is as before. -/
theorem getElem?_replaced {ctxs : List Ctx} {c d : Nat} {x x' y : Ctx}
    (found : ctxs[c]? = some x) :
    (ctxs.set c x')[d]? = some y ↔ (d = c ∧ y = x') ∨ (d ≠ c ∧ ctxs[d]? = some y) := by
  obtain ⟨inside, -⟩ := List.getElem?_eq_some_iff.mp found
  rw [List.getElem?_set]
  by_cases same : c = d
  · subst same
    simp [inside, eq_comm]
  · simp [same, Ne.symm same]

/-! ## What a torn down context leaves behind -/

/-- Every entry of the map belongs to a context that is not completely torn down. -/
def NothingLeft (s : State) : Prop :=
  ∀ key ∈ s.stores, ∃ x ∈ s.ctxs, x.phase ≠ .freed ∧ x.addr = key

/-- The step finalizes a proxy after the store of its context was deleted, and no live
context has the address that the proxy recorded. -/
def Revives (s : State) : Action → Prop
  | .moves c (.finalize o) =>
    (∃ x, s.ctxs[c]? = some x ∧ x.phase ≠ .live) ∧ ∀ y ∈ s.ctxs, y.phase = .live → y.addr ≠ o.ctx
  | _ => False

/-- A live context has its memory at the address. -/
def LiveAt (ctxs : List Ctx) (addr : Ptr) : Prop :=
  ∃ (c : Nat) (x : Ctx), ctxs[c]? = some x ∧ x.phase = .live ∧ x.addr = addr

/-- Every entry of the map belongs to a live context. -/
def KeysLive (s : State) : Prop := ∀ key ∈ s.stores, LiveAt s.ctxs key

theorem KeysLive.nothingLeft (live : KeysLive s) : NothingLeft s := by
  intro key member
  obtain ⟨c, x, found, alive, addr⟩ := live key member
  exact ⟨x, List.mem_of_getElem? found, by simp [alive], addr⟩

/-- A live context is still there after another one was replaced, and also after it
was replaced itself by a live one. -/
theorem LiveAt.replaced {ctxs : List Ctx} {c : Nat} {x x' : Ctx} {key : Ptr}
    (found : ctxs[c]? = some x) (addr : x'.addr = x.addr)
    (still : x.phase = .live → x.addr = key → x'.phase = .live)
    (before : LiveAt ctxs key) : LiveAt (ctxs.set c x') key := by
  obtain ⟨d, y, there, live, same⟩ := before
  by_cases here : d = c
  · subst here
    obtain rfl : x = y := Option.some.inj (found.symm.trans there)
    exact ⟨d, x', (getElem?_replaced found).mpr (.inl ⟨rfl, rfl⟩), still live same,
      addr.trans same⟩
  · exact ⟨d, y, (getElem?_replaced found).mpr (.inr ⟨here, there⟩), live, same⟩

/-- A step that revives no deleted store leaves entries of live contexts only.

Proof: a live context adds no entry but its own, and takes its entry with it when its
store is deleted. A finalized proxy adds an entry under the address it recorded: that
of its own live context, or of another one by the condition. -/
theorem step_keysLive (keys : KeysLive s) (kept : ¬ Revives s action)
    (taken : step s action = some s') : KeysLive s' := by
  obtain ⟨addr, rfl, -, rfl⟩ | ⟨c, x, m, stores', x', rfl, found, addr, -, effect, rfl⟩ :=
    step_cases taken
  · intro key member
    obtain ⟨d, y, there, live⟩ := keys key member
    have inside := (List.getElem?_eq_some_iff.mp there).1
    exact ⟨d, y, by rw [List.getElem?_append_left inside, there], live⟩
  · cases effect with
    | used live still effect =>
      intro key member
      refine LiveAt.replaced found addr (fun _ _ => still) ?_
      rcases (effect.keys key).mp member with rfl | older
      · exact ⟨c, x, found, live, rfl⟩
      · exact keys key older
    | finalized o member early still =>
      intro key present
      refine LiveAt.replaced found addr (fun live _ => still.trans live) ?_
      rcases (s.stores.mem_goFreeId o.ctx key o.idx).mp present with rfl | older
      · by_cases live : x.phase = .live
        · exact ⟨c, x, found, live, (x.own o member).symm⟩
        · simp only [Revives, not_and, not_forall, not_not] at kept
          obtain ⟨y, inside, alive, same⟩ := kept ⟨x, found, live⟩
          obtain ⟨d, there⟩ := List.mem_iff_getElem?.mp inside
          exact ⟨d, y, there, alive, same⟩
      · exact keys key older
    | deleted live torn =>
      intro key present
      obtain ⟨apart, older⟩ := Finmap.mem_erase.mp present
      exact LiveAt.replaced found addr (fun _ same => absurd same.symm apart) (keys key older)
    | advanced torn still =>
      intro key present
      exact LiveAt.replaced found addr (fun live _ => absurd live torn) (keys key present)

/-- In every run in which no proxy is finalized after the deletion of its store, unless
a live context has the recorded address, the map has entries only for contexts that
are not completely torn down. -/
theorem nothing_left (actions : List Action) (s : State)
    (allowed : Allowed step (fun s action => ¬ Revives s action) initial actions)
    (reached : run step initial actions = some s) : NothingLeft s := by
  have start : KeysLive initial := fun key member => absurd member Finmap.notMem_empty
  exact (allowed_invariant start
    (fun _ _ _ keys kept taken => step_keysLive keys kept taken) allowed reached).nothingLeft

/-- A proxy finalized before the teardown of its context leaves no entry. -/
theorem early_proxy_leaves_nothing : ∃ s, run step initial
      [.newContext 1, .moves 0 (.makeGoObject 5), .moves 0 (.finalize ⟨1, 1⟩),
        .moves 0 .delPtrStore, .moves 0 .releaseMemory, .moves 0 .freeRuntime] = some s ∧
    NothingLeft s := by
  refine ⟨_, rfl, nothing_left
    [.newContext 1, .moves 0 (.makeGoObject 5), .moves 0 (.finalize ⟨1, 1⟩),
        .moves 0 .delPtrStore, .moves 0 .releaseMemory, .moves 0 .freeRuntime] _ ?_ rfl⟩
  refine .cons id rfl (.cons id rfl (.cons ?_ rfl (.cons id rfl (.cons id rfl (.cons id rfl .nil)))))
  rintro ⟨⟨x, found, torn⟩, -⟩
  obtain rfl := Option.some.inj found
  exact torn rfl

/-- A proxy finalized inside `freeJsContext`, after `delPtrStore`, leaves an entry for
a context that both finalizers have left. -/
theorem late_proxy_leaves_entry : ∃ s, run step initial
      [.newContext 1, .moves 0 (.makeGoObject 5), .moves 0 .delPtrStore,
        .moves 0 (.finalize ⟨1, 1⟩), .moves 0 .releaseMemory, .moves 0 .freeRuntime] = some s ∧
    (∀ x ∈ s.ctxs, x.phase = .freed) ∧ 1 ∈ s.stores ∧ ¬ NothingLeft s := by
  obtain ⟨s, reached, freed, present⟩ : ∃ s, run step initial
        [.newContext 1, .moves 0 (.makeGoObject 5), .moves 0 .delPtrStore,
          .moves 0 (.finalize ⟨1, 1⟩), .moves 0 .releaseMemory, .moves 0 .freeRuntime] = some s ∧
      (∀ x ∈ s.ctxs, x.phase = .freed) ∧ 1 ∈ s.stores := ⟨_, rfl, by decide, by decide⟩
  refine ⟨s, reached, freed, present, fun nothing => ?_⟩
  obtain ⟨x, member, unfinished, -⟩ := nothing 1 present
  exact unfinished (freed x member)

/-! ## What a context does to the handles of another -/

/-- Contexts with allocated memory have different addresses, and every registered
variable was registered once. -/
structure Sound (s : State) : Prop where
  apart : ∀ {a b : Nat} {x y : Ctx}, s.ctxs[a]? = some x → s.ctxs[b]? = some y →
    x.allocated → y.allocated → x.addr = y.addr → a = b
  once : ∀ addr idx r, (s.stores.seen addr).id2ptr.lookup idx = some r → r.count = 1

/-- What the ids of every other live context resolve to is as before. -/
def Undisturbed (s : State) (action : Action) (s' : State) : Prop :=
  ∀ (b : Nat) (y : Ctx), b ≠ actor s action → s.ctxs[b]? = some y → y.phase = .live →
    ∀ idx p, (s.stores.seen y.addr).lookup idx = some p →
      (s'.stores.seen y.addr).lookup idx = some p

/-- The step finalizes a proxy whose recorded address is now that of another live
context, and whose recorded id that context has given out as well. -/
def TakesHandle (s : State) : Action → Prop
  | .moves c (.finalize o) => ∃ (x : Ctx) (b : Nat) (y : Ctx), s.ctxs[c]? = some x ∧
      o ∈ x.proxies ∧ x.phase ≠ .freed ∧ b ≠ c ∧ s.ctxs[b]? = some y ∧ y.phase = .live ∧
      y.addr = o.ctx ∧ (s.stores.seen o.ctx).lookup o.idx ≠ none
  | _ => False

theorem initial_sound : Sound initial :=
  ⟨fun found => by simp [initial] at found, by simp [initial, Stores.seen, newPtrStore]⟩

/-- A context that appears at the end of the list, at an address that no allocated
memory has, keeps the addresses apart. -/
theorem apart_created {addr : Ptr} (sound : Sound s)
    (free : ∀ x ∈ s.ctxs, x.allocated → x.addr ≠ addr) {a b : Nat} {x y : Ctx}
    (first : (s.ctxs ++ [.newContext addr])[a]? = some x)
    (second : (s.ctxs ++ [.newContext addr])[b]? = some y) (held : x.allocated)
    (kept : y.allocated) (same : x.addr = y.addr) : a = b := by
  have place : ∀ {d : Nat} {z : Ctx}, (s.ctxs ++ [.newContext addr])[d]? = some z →
      s.ctxs[d]? = some z ∨ (d = s.ctxs.length ∧ z = .newContext addr) := by
    intro d z found
    rw [List.getElem?_append] at found
    split at found
    · exact .inl found
    · rename_i outside
      obtain ⟨inside, rfl⟩ := List.getElem?_eq_some_iff.mp found
      simp only [List.length_singleton] at inside
      exact .inr ⟨by omega, by simp⟩
  rcases place first with older | ⟨rfl, rfl⟩ <;> rcases place second with earlier | ⟨rfl, rfl⟩
  · exact sound.apart older earlier held kept same
  · exact absurd same (free x (List.mem_of_getElem? older) held)
  · exact absurd same.symm (free y (List.mem_of_getElem? earlier) kept)
  · rfl

/-- A context that takes a step keeps its address and gets no memory back, so the
addresses stay apart. -/
theorem apart_replaced {c : Nat} {x' z : Ctx} (sound : Sound s) (found : s.ctxs[c]? = some z)
    (addr : x'.addr = z.addr) (held : x'.allocated → z.allocated) {a b : Nat} {x y : Ctx}
    (first : (s.ctxs.set c x')[a]? = some x) (second : (s.ctxs.set c x')[b]? = some y)
    (one : x.allocated) (two : y.allocated) (same : x.addr = y.addr) : a = b := by
  have place : ∀ {d : Nat} {w : Ctx}, (s.ctxs.set c x')[d]? = some w → w.allocated →
      ∃ v, s.ctxs[d]? = some v ∧ v.allocated ∧ v.addr = w.addr := by
    intro d w there allocated
    rcases (getElem?_replaced found).mp there with ⟨rfl, rfl⟩ | ⟨-, older⟩
    · exact ⟨z, found, held allocated, addr.symm⟩
    · exact ⟨w, older, allocated, rfl⟩
  obtain ⟨v, before, kept, sameFirst⟩ := place first one
  obtain ⟨w, earlier, still, sameSecond⟩ := place second two
  exact sound.apart before earlier kept still (by rw [sameFirst, sameSecond, same])

/-- Freeing an id changes no record that remains, when every count is one. -/
theorem goFreeId_once {stores : Stores}
    (once : ∀ addr idx r, (stores.seen addr).id2ptr.lookup idx = some r → r.count = 1)
    (ctx : Ptr) (freed : UInt32) (addr : Ptr) (idx : UInt32) (r : Ref GoAddr)
    (stored : ((stores.goFreeId ctx freed).seen addr).id2ptr.lookup idx = some r) :
    r.count = 1 := by
  rw [Stores.seen_goFreeId] at stored
  split at stored
  · obtain ⟨-, same⟩ | ⟨found, here, more, -⟩ | ⟨found, index, here, -, dropped⟩ :=
      (stores.seen ctx).remove_cases freed
    · exact once ctx idx r (by rwa [same] at stored)
    · have single := once ctx freed found here
      omega
    · rw [dropped] at stored
      by_cases same : idx = freed
      · subst same
        simp [Finmap.lookup_erase] at stored
      · exact once ctx idx r (by rwa [Finmap.lookup_erase_ne same] at stored)
  · exact once addr idx r stored

/-- Each step keeps the addresses apart and every count at one. -/
theorem step_sound (sound : Sound s) (taken : step s action = some s') : Sound s' := by
  obtain ⟨addr, rfl, free, rfl⟩ | ⟨c, x, m, stores', x', rfl, found, addr, held, effect, rfl⟩ :=
    step_cases taken
  · exact ⟨apart_created sound free, sound.once⟩
  · refine ⟨apart_replaced sound found addr held, ?_⟩
    cases effect with
    | used live still effect =>
      intro other idx r stored
      by_cases same : other = x.addr
      · subst same
        exact (effect.records idx r stored).elim (sound.once _ idx r) id
      · exact sound.once other idx r (by rwa [effect.elsewhere other same] at stored)
    | finalized o member early still => exact goFreeId_once sound.once o.ctx o.idx
    | deleted live torn =>
      intro other idx r stored
      rw [Stores.seen_erase] at stored
      split at stored
      · simp [newPtrStore] at stored
      · exact sound.once other idx r stored
    | advanced torn still => exact sound.once

/-- A step that takes no handle leaves the ids of other live contexts as they are.

Proof: two live contexts have different addresses, so a live context changes stores
that no other live context sees. A finalized proxy removes one id from the store at
the address it recorded; if another live context sees that store, the condition says
that the id is not one of its own. -/
theorem undisturbed_of_not_taken (sound : Sound s) (kept : ¬ TakesHandle s action)
    (taken : step s action = some s') : Undisturbed s action s' := by
  obtain ⟨addr, rfl, -, rfl⟩ | ⟨c, x, m, stores', x', rfl, found, -, -, effect, rfl⟩ :=
    step_cases taken
  · intro b y _ _ _ idx p resolved
    exact resolved
  · intro b y other there live idx p resolved
    have elsewhere : x.phase = .live → y.addr ≠ x.addr := fun alive same =>
      other (sound.apart there found (y.held live) (x.held alive) same)
    cases effect with
    | used alive still effect => rwa [effect.elsewhere y.addr (elsewhere alive)]
    | finalized o member early still =>
      rw [Stores.seen_goFreeId]
      split
      · rename_i same
        obtain ⟨r, stored, rfl⟩ := Option.map_eq_some_iff.mp resolved
        rw [same] at stored
        have apart : o.idx ≠ idx := by
          rintro rfl
          exact kept ⟨x, b, y, found, member, early, other, there, live, same,
            by simp [PtrStore.lookup, stored]⟩
        exact lookup_stored (remove_elsewhere stored apart)
      · exact resolved
    | deleted alive torn =>
      rwa [Stores.seen_erase, if_neg (elsewhere alive)]
    | advanced torn still => exact resolved

/-- A step that takes a handle is possible, and the id of the other context resolves
to nothing after it. -/
theorem taken_disturbs (sound : Sound s) (takes : TakesHandle s action) :
    ∃ s', step s action = some s' ∧ ¬ Undisturbed s action s' := by
  match action, takes with
  | .moves c (.finalize o), ⟨x, b, y, found, member, early, other, there, live, same, given⟩ =>
    refine ⟨⟨s.stores.goFreeId o.ctx o.idx, s.ctxs.set c (x.dropProxy o)⟩,
      by simp [step, found, move, member, early], ?_⟩
    intro undisturbed
    obtain ⟨p, resolved⟩ := Option.ne_none_iff_exists'.mp given
    obtain ⟨r, stored, -⟩ := Option.map_eq_some_iff.mp resolved
    have after := undisturbed b y other there live o.idx p (by rw [same, resolved])
    have gone := (remove_last stored (sound.once _ _ _ stored).le).1
    simp [same, Stores.seen_goFreeId, PtrStore.lookup, gone] at after

/-- For any interleaving of the steps of any contexts: each step leaves what the ids
of every other live context resolve to exactly when no step finalizes a proxy whose
recorded address and id both belong to another live context.

Proof: addresses of allocated contexts are apart and counts are one in every reached
state; there the two conditions agree step by step. -/
theorem undisturbed_iff (actions : List Action) :
    Allowed step (fun s action => ∀ s', step s action = some s' → Undisturbed s action s')
        initial actions ↔
      Allowed step (fun s action => ¬ TakesHandle s action) initial actions := by
  refine allowed_congr initial_sound (fun _ _ _ sound taken => step_sound sound taken) ?_
  intro s action sound
  constructor
  · intro undisturbed takes
    obtain ⟨s', taken, disturbed⟩ := taken_disturbs sound takes
    exact disturbed (undisturbed s' taken)
  · intro kept s' taken
    exact undisturbed_of_not_taken sound kept taken

/-- A second context gets the address of the first between `JS_FreeContext` and
`JS_FreeRuntime` of the first, and registers its first value. The last proxy of the
first context then takes the handle of that value away. -/
theorem late_proxy_takes_handle : ∃ s s', run step initial
      [.newContext 1, .moves 0 (.makeGoObject 5), .moves 0 .delPtrStore, .moves 0 .releaseMemory,
        .newContext 1, .moves 1 (.makeGoObject 6)] = some s ∧
    step s (.moves 0 (.finalize ⟨1, 1⟩)) = some s' ∧
    (s.stores.seen 1).lookup 1 = some 6 ∧ (s'.stores.seen 1).lookup 1 = none ∧
    ¬ Undisturbed s (.moves 0 (.finalize ⟨1, 1⟩)) s' := by
  obtain ⟨s, s', y, reached, taken, there, live, addr, before, after⟩ : ∃ s s' y, run step initial
        [.newContext 1, .moves 0 (.makeGoObject 5), .moves 0 .delPtrStore,
          .moves 0 .releaseMemory, .newContext 1, .moves 1 (.makeGoObject 6)] = some s ∧
      step s (.moves 0 (.finalize ⟨1, 1⟩)) = some s' ∧ s.ctxs[1]? = some y ∧
      y.phase = .live ∧ y.addr = 1 ∧
      (s.stores.seen 1).lookup 1 = some 6 ∧ (s'.stores.seen 1).lookup 1 = none :=
    ⟨_, _, _, rfl, rfl, rfl, rfl, rfl, by decide, by decide⟩
  refine ⟨s, s', reached, taken, before, after, fun undisturbed => ?_⟩
  have kept := undisturbed 1 y Nat.one_ne_zero there live 1 6 (by rw [addr, before])
  rw [addr, after] at kept
  cases kept

end runs

end GoQuickjs.Contexts
