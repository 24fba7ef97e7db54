import GoQuickjs.Library.Runs
import GoQuickjs.Encode

/-!
# Wrappers and the ids behind them

Runs of one live context: values are encoded, properties are read and written,
Go functions are called, and dead wrappers are collected in any order. Go code
that runs inside a call takes further steps of the same machine, so an arbitrary
nesting of calls is a flat list of steps.

Freshness is what the two allocators promise. A new Go variable is not one that
the store still refers to, since the store keeps its pointers reachable; a new
engine object is not one that is still alive. Addresses of collected objects and
of forgotten variables may come back.

The invariant ties each live wrapper to one store entry. From it follow that a
live wrapper always resolves to the value it was made from, and that ids and
wrappers correspond as long as no function wrapper was collected, because only
proxies give their id back.
-/

namespace GoQuickjs.Wrappers

open PtrStore Runs World

/-- The id a wrapper carries: in its opaque part, or as a number in its data. -/
def idOf : Wrapper → UInt32
  | .proxy o => o.idx
  | .goFunc funcData => (jsToUint32 funcData).getD 0

/-- A step of the context. -/
inductive Action where
  | make (memory : GoMemory) (fresh : Fresh) (depth : Nat) (v : GoVal) : Action
  | get (memory : GoMemory) (fresh : Fresh) (depth : Nat) (select : GoVal → List UInt8 → Member)
      (obj : Ptr) (key : List UInt8) : Action
  | set (obj : Ptr) : Action
  | call (memory : GoMemory) (fresh : Fresh) (depth : Nat)
      (callGolangFunc : GoVal → Except (List UInt8) GoVal) (obj : Ptr) : Action
  | collect (obj : Ptr) : Action

/-- The allocators' promise about the next addresses. -/
def Unused (ctx : Ptr) (w : World) (fresh : Fresh) : Prop :=
  (w.stores.seen ctx).ptr2id.lookup fresh.goVar = none ∧ w.wrappers.lookup fresh.object = none

instance (ctx : Ptr) (w : World) (fresh : Fresh) : Decidable (Unused ctx w fresh) :=
  inferInstanceAs (Decidable (_ ∧ _))

/-- One step. The engine reads and writes properties of live proxies only, calls
live functions only, and frees each wrapper once. -/
def step (ctx : Ptr) (w : World) : Action → Option World
  | .make memory fresh depth v =>
    if Unused ctx w fresh then (makeJsValue ctx memory fresh depth v w).map Prod.snd else none
  | .get memory fresh depth select obj key =>
    match w.wrappers.lookup obj with
    | some (.proxy _) =>
      if Unused ctx w fresh then
        (goObjGet ctx memory fresh depth select obj key w).map Prod.snd
      else none
    | _ => none
  | .set obj =>
    match w.wrappers.lookup obj with
    | some (.proxy _) => some (goObjSet ctx obj w)
    | _ => none
  | .call memory fresh depth callGolangFunc obj =>
    match w.wrappers.lookup obj with
    | some (.goFunc funcData) =>
      if Unused ctx w fresh then
        (goFuncBridge ctx memory fresh depth callGolangFunc funcData w).map Prod.snd
      else none
    | _ => none
  | .collect obj => if obj ∈ w.wrappers then some (w.collect obj) else none

/-- The step frees a wrapper that stands for a Go function. -/
def CollectsGoFunc (w : World) : Action → Prop
  | .collect obj => ∃ funcData, w.wrappers.lookup obj = some (.goFunc funcData)
  | _ => False

/-- The allocators never run out of addresses. -/
theorem exists_unused (ctx : Ptr) (w : World) : ∃ fresh, Unused ctx w fresh := by
  obtain ⟨goVar, unknown⟩ := Infinite.exists_notMem_finset (w.stores.seen ctx).ptr2id.keys
  obtain ⟨object, dead⟩ := Infinite.exists_notMem_finset w.wrappers.keys
  exact ⟨⟨goVar, object⟩, Finmap.lookup_eq_none.mpr (mt Finmap.mem_keys.mpr unknown),
    Finmap.lookup_eq_none.mpr (mt Finmap.mem_keys.mpr dead)⟩

/-- Everything a step can do: the effect of a call with fresh addresses, or the
collection of a live wrapper. -/
theorem step_cases {ctx : Ptr} {w w' : World} {action : Action}
    (taken : step ctx w action = some w') :
    ((∀ obj, action ≠ .collect obj) ∧ ∃ fresh, Unused ctx w fresh ∧ Effect ctx fresh w w') ∨
    (∃ obj wrapper, action = .collect obj ∧ w.wrappers.lookup obj = some wrapper ∧
      w' = w.collect obj) := by
  cases action with
  | make memory fresh depth v =>
    simp only [step] at taken
    split at taken
    · rename_i unused
      obtain ⟨⟨outcome, after⟩, returned, rfl⟩ := Option.map_eq_some_iff.mp taken
      exact .inl ⟨by simp, ⟨fresh, unused, makeJsValue_effect returned⟩⟩
    · cases taken
  | get memory fresh depth select obj key =>
    simp only [step] at taken
    split at taken
    · split at taken
      · rename_i unused
        obtain ⟨⟨outcome, after⟩, returned, rfl⟩ := Option.map_eq_some_iff.mp taken
        exact .inl ⟨by simp, ⟨fresh, unused, goObjGet_effect returned⟩⟩
      · cases taken
    · cases taken
  | set obj =>
    simp only [step] at taken
    split at taken
    · obtain rfl := Option.some.inj taken
      obtain ⟨fresh, unused⟩ := exists_unused ctx w
      exact .inl ⟨by simp, ⟨fresh, unused, Effect.after_lookup _ Effect.refl⟩⟩
    · cases taken
  | call memory fresh depth callGolangFunc obj =>
    simp only [step] at taken
    split at taken
    · split at taken
      · rename_i unused
        obtain ⟨⟨outcome, after⟩, returned, rfl⟩ := Option.map_eq_some_iff.mp taken
        exact .inl ⟨by simp, ⟨fresh, unused, goFuncBridge_effect returned⟩⟩
      · cases taken
    · cases taken
  | collect obj =>
    simp only [step] at taken
    split at taken
    · rename_i present
      obtain ⟨wrapper, live⟩ := Finmap.mem_iff.mp present
      exact .inr ⟨obj, wrapper, rfl, live, (Option.some.inj taken).symm⟩
    · cases taken

/-! ## The invariant -/

/-- A wrapper is one that `makeGoObject` or `wrapGoFunc` makes in this context for
the given value. -/
def Fits (ctx : Ptr) (v : GoVal) : Wrapper → Prop
  | .proxy o => o.ctx = ctx
  | .goFunc _ => v.isFunc

/-- Each live wrapper has an entry of its own, counted once, whose variable holds
the value the wrapper was made from. -/
structure Sound (ctx : Ptr) (w : World) : Prop where
  coherent : (w.stores.seen ctx).Coherent
  resolves : ∀ obj wrapper, w.wrappers.lookup obj = some wrapper →
    ∃ p v, (w.stores.seen ctx).id2ptr.lookup (idOf wrapper) = some ⟨p, 1⟩ ∧
      w.vars.lookup p = some v ∧ w.origin.lookup obj = some v ∧ Fits ctx v wrapper
  apart : ∀ obj other wrapper found, w.wrappers.lookup obj = some wrapper →
    w.wrappers.lookup other = some found → idOf wrapper = idOf found → obj = other

variable {ctx : Ptr} {w w' : World}

theorem initial_sound : Sound ctx World.initial :=
  ⟨newPtrStore_coherent, by simp [World.initial], by simp [World.initial]⟩

/-- What a fresh registration does to the store. -/
theorem registered_fresh {fresh : Fresh} {idx : UInt32} (unused : Unused ctx w fresh)
    (registered : (w.stores.seen ctx).register fresh.goVar = some (idx, w'.stores.seen ctx)) :
    (w.stores.seen ctx).id2ptr.lookup idx = none ∧
      (w'.stores.seen ctx).id2ptr =
        (w.stores.seen ctx).id2ptr.insert idx ⟨fresh.goVar, 1⟩ := by
  obtain ⟨_, known, _⟩ | ⟨_, free, after⟩ := register_cases registered
  · rw [unused.1] at known
    cases known
  · exact ⟨free, by rw [after]⟩

/-- The id of a new wrapper is the one its variable was registered under. -/
theorem wrapped_id {v : GoVal} {idx : UInt32} {wrapper : Wrapper}
    (kind : wrapper = .proxy ⟨ctx, idx⟩ ∨ (wrapper = .goFunc (jsNewUint32 idx) ∧ v.isFunc)) :
    idOf wrapper = idx ∧ Fits ctx v wrapper := by
  rcases kind with rfl | ⟨rfl, func⟩
  · exact ⟨rfl, rfl⟩
  · exact ⟨by simp [idOf, jsToUint32_jsNewUint32], func⟩

/-- Calls keep the invariant.

Proof: an unchanged world is immediate. A new wrapper gets an id that no entry had
and a variable that no entry pointed to, so the entries and variables of the older
wrappers are not touched and their ids differ from the new one. -/
theorem effect_sound {fresh : Fresh} (sound : Sound ctx w) (unused : Unused ctx w fresh)
    (effect : Effect ctx fresh w w') : Sound ctx w' := by
  cases effect with
  | unchanged sameStore sameVars sameWrappers sameOrigin =>
    refine ⟨?_, ?_, ?_⟩
    · rw [sameStore]
      exact sound.coherent
    · rw [sameStore, sameVars, sameWrappers, sameOrigin]
      exact sound.resolves
    · rw [sameWrappers]
      exact sound.apart
  | wrapped v idx wrapper registered vars wrappers origin kind =>
    obtain ⟨free, entries⟩ := registered_fresh unused registered
    obtain ⟨newId, fits⟩ := wrapped_id kind
    have older : ∀ obj found, obj ≠ fresh.object → w'.wrappers.lookup obj = some found →
        w.wrappers.lookup obj = some found := by
      intro obj found other live
      rwa [wrappers, Finmap.lookup_insert_of_ne _ other] at live
    have distinct : ∀ obj found, w.wrappers.lookup obj = some found → idOf found ≠ idx := by
      intro obj found live same
      obtain ⟨p, _, stored, _⟩ := sound.resolves obj found live
      rw [same, free] at stored
      cases stored
    refine ⟨register_coherent sound.coherent registered, ?_, ?_⟩
    · intro obj found live
      by_cases same : obj = fresh.object
      · subst same
        obtain rfl : wrapper = found := by simpa [wrappers, Finmap.lookup_insert] using live
        exact ⟨fresh.goVar, v, by rw [entries, newId, Finmap.lookup_insert],
          by rw [vars, Finmap.lookup_insert], by rw [origin, Finmap.lookup_insert], fits⟩
      · have before := older obj found same live
        obtain ⟨p, value, stored, held, made, fit⟩ := sound.resolves obj found before
        have otherVar : p ≠ fresh.goVar := by
          rintro rfl
          have known := sound.coherent.inverse.known stored
          rw [unused.1] at known
          cases known
        exact ⟨p, value, by rw [entries, Finmap.lookup_insert_of_ne _ (distinct obj found before), stored],
          by rw [vars, Finmap.lookup_insert_of_ne _ otherVar, held],
          by rw [origin, Finmap.lookup_insert_of_ne _ same, made], fit⟩
    · have newest : ∀ obj found, w'.wrappers.lookup obj = some found → idOf found = idx →
          obj = fresh.object := by
        intro obj found live same
        by_contra other
        exact distinct obj found (older obj found other live) same
      intro obj other found match' here there same
      by_cases first : obj = fresh.object
      · subst first
        obtain rfl : wrapper = found := by simpa [wrappers, Finmap.lookup_insert] using here
        exact (newest other match' there (same.symm.trans newId)).symm
      · by_cases second : other = fresh.object
        · subst second
          obtain rfl : wrapper = match' := by simpa [wrappers, Finmap.lookup_insert] using there
          exact newest obj found here (same.trans newId)
        · exact sound.apart obj other found match' (older obj found first here)
            (older other match' second there) same

/-- The world after a proxy of this context was collected. -/
theorem collect_proxy {obj : Ptr} {o : GoOpaque}
    (live : w.wrappers.lookup obj = some (.proxy o)) (here : o.ctx = ctx) :
    (w.collect obj).stores.seen ctx = (w.stores.seen ctx).remove o.idx ∧
      (w.collect obj).vars = w.vars ∧ (w.collect obj).origin = w.origin ∧
      (w.collect obj).wrappers = w.wrappers.erase obj := by
  subst here
  simp [World.collect, live, Stores.seen_goFreeId]

/-- The world after a function wrapper was collected: its id is still registered. -/
theorem collect_goFunc {obj : Ptr} {funcData : JSValue}
    (live : w.wrappers.lookup obj = some (.goFunc funcData)) :
    w.collect obj = { w with wrappers := w.wrappers.erase obj } := by
  simp [World.collect, live]

/-- Collection keeps the invariant for the wrappers that remain: the entry that may
go with the collected wrapper belongs to no other. -/
theorem collect_sound {obj : Ptr} {wrapper : Wrapper} (sound : Sound ctx w)
    (live : w.wrappers.lookup obj = some wrapper) : Sound ctx (w.collect obj) := by
  have remaining : ∀ other found, (w.wrappers.erase obj).lookup other = some found →
      other ≠ obj ∧ w.wrappers.lookup other = some found := by
    intro other found kept
    by_cases same : other = obj
    · subst same
      rw [Finmap.lookup_erase] at kept
      cases kept
    · exact ⟨same, by rwa [Finmap.lookup_erase_ne same] at kept⟩
  have apart : ∀ first second found match', (w.wrappers.erase obj).lookup first = some found →
      (w.wrappers.erase obj).lookup second = some match' → idOf found = idOf match' →
      first = second := by
    intro first second found match' here there same
    exact sound.apart first second found match' (remaining first found here).2
      (remaining second match' there).2 same
  cases wrapper with
  | proxy o =>
    obtain ⟨_, _, _, _, _, here⟩ := sound.resolves obj _ live
    obtain ⟨store, vars, origin, wrappers⟩ := collect_proxy live here
    refine ⟨?_, ?_, ?_⟩
    · rw [store]
      exact remove_coherent sound.coherent o.idx
    · intro other found kept
      rw [wrappers] at kept
      obtain ⟨different, before⟩ := remaining other found kept
      obtain ⟨p, v, stored, held, made, fit⟩ := sound.resolves other found before
      have otherId : o.idx ≠ idOf found := fun same =>
        different (sound.apart obj other _ found live before same).symm
      rw [store, vars, origin]
      exact ⟨p, v, remove_elsewhere stored otherId, held, made, fit⟩
    · rw [wrappers]
      exact apart
  | goFunc funcData =>
    rw [collect_goFunc live]
    refine ⟨sound.coherent, ?_, apart⟩
    intro other found kept
    exact sound.resolves other found (remaining other found kept).2

/-- Every step keeps the invariant. -/
theorem step_sound {action : Action} (sound : Sound ctx w)
    (taken : step ctx w action = some w') : Sound ctx w' := by
  obtain ⟨_, fresh, unused, effect⟩ | ⟨obj, wrapper, _, live, rfl⟩ := step_cases taken
  · exact effect_sound sound unused effect
  · exact collect_sound sound live

theorem reached_sound {actions : List Action}
    (reached : run (step ctx) World.initial actions = some w) : Sound ctx w :=
  run_invariant initial_sound (fun _ _ _ sound taken => step_sound sound taken) reached

/-! ## Wrappers resolve to what they were made from -/

/-- In every run of one context, `getTargetValue` on a live proxy returns the value
its `makeGoObject` was given, and `goFuncBridge` on a live function wrapper finds
the function its `wrapGoFunc` was given, whatever ids and addresses were freed and
reused before. -/
theorem live_wrapper_resolves (ctx : Ptr) (actions : List Action) (w : World)
    (reached : run (step ctx) World.initial actions = some w) (obj : Ptr) (wrapper : Wrapper)
    (live : w.wrappers.lookup obj = some wrapper) :
    ∃ v, w.origin.lookup obj = some v ∧
      match wrapper with
      | .proxy _ => (w.getTargetValue ctx obj).1 = some v
      | .goFunc funcData => (w.bridgeTarget ctx funcData).1 = some v := by
  obtain ⟨p, v, stored, held, made, fit⟩ := (reached_sound reached).resolves obj wrapper live
  refine ⟨v, made, ?_⟩
  have found : (w.stores.seen ctx).lookup (idOf wrapper) = some p := lookup_stored stored
  cases wrapper with
  | proxy o =>
    have idx : w.getTargetIdx obj = o.idx := by simp [World.getTargetIdx, live]
    change (w.stores.lookupIn ctx (w.getTargetIdx obj)).1.bind _ = some v
    rw [Stores.lookupIn_fst, idx]
    change ((w.stores.seen ctx).lookup (idOf (.proxy o))).bind _ = some v
    rw [found, Option.bind_some, held]
  | goFunc funcData =>
    have func : v.isFunc = true := fit
    change Option.filter GoVal.isFunc ((w.stores.lookupIn ctx _).1.bind _) = some v
    rw [Stores.lookupIn_fst]
    change Option.filter GoVal.isFunc
      (((w.stores.seen ctx).lookup (idOf (.goFunc funcData))).bind _) = some v
    rw [found, Option.bind_some, held, Option.filter_some, if_pos func]

/-- A run that frees a proxy and reuses its id, variable and address for a function:
the function is found through the reused id. -/
theorem reused_id_resolves :
    ∃ w, run (step 100) World.initial
        [.make (fun _ => .nil) ⟨1, 10⟩ 1 (.slice 5 2), .make (fun _ => .nil) ⟨2, 11⟩ 1 (.map none),
          .collect 10, .make (fun _ => .nil) ⟨1, 10⟩ 1 (.func (some 8))] = some w ∧
      w.wrappers.lookup 10 = some (.goFunc (.int 1)) ∧
      ∃ v, w.origin.lookup 10 = some v ∧ (w.bridgeTarget 100 (.int 1)).1 = some v := by
  refine ⟨_, rfl, rfl, ?_⟩
  exact live_wrapper_resolves 100
    [.make (fun _ => .nil) ⟨1, 10⟩ 1 (.slice 5 2), .make (fun _ => .nil) ⟨2, 11⟩ 1 (.map none),
      .collect 10, .make (fun _ => .nil) ⟨1, 10⟩ 1 (.func (some 8))] _ rfl 10 _ rfl

/-! ## Ids and wrappers -/

/-- The id of the wrapper at an address; zero where there is none. -/
def idAt (w : World) (obj : Ptr) : UInt32 := (w.wrappers.lookup obj).elim 0 idOf

/-- The live wrappers and the live ids of the context's store correspond one to one:
each wrapper has a live id, no two have the same, and each live id has a wrapper. -/
def OneToOne (ctx : Ptr) (w : World) : Prop :=
  Set.BijOn (idAt w) {obj | obj ∈ w.wrappers} {k | k ∈ (w.stores.seen ctx).id2ptr}

theorem idAt_live {obj : Ptr} {wrapper : Wrapper} (live : w.wrappers.lookup obj = some wrapper) :
    idAt w obj = idOf wrapper := by
  simp [idAt, live]

/-- Each live id belongs to a live wrapper. -/
def Owned (ctx : Ptr) (w : World) : Prop :=
  ∀ k r, (w.stores.seen ctx).id2ptr.lookup k = some r →
    ∃ obj wrapper, w.wrappers.lookup obj = some wrapper ∧ idOf wrapper = k

/-- The invariant gives two thirds of the correspondence; owned ids are the rest. -/
theorem oneToOne_iff (sound : Sound ctx w) : OneToOne ctx w ↔ Owned ctx w := by
  constructor
  · rintro ⟨_, _, onto⟩ k r stored
    obtain ⟨obj, present, same⟩ := onto (Finmap.mem_of_lookup_eq_some stored)
    obtain ⟨wrapper, live⟩ := Finmap.mem_iff.mp present
    exact ⟨obj, wrapper, live, (idAt_live live).symm.trans same⟩
  · intro owned
    refine ⟨?_, ?_, ?_⟩
    · intro obj present
      obtain ⟨wrapper, live⟩ := Finmap.mem_iff.mp present
      obtain ⟨p, _, stored, _⟩ := sound.resolves obj wrapper live
      rw [idAt_live live]
      exact Finmap.mem_of_lookup_eq_some stored
    · intro obj here other there same
      obtain ⟨wrapper, live⟩ := Finmap.mem_iff.mp here
      obtain ⟨found, alive⟩ := Finmap.mem_iff.mp there
      rw [idAt_live live, idAt_live alive] at same
      exact sound.apart obj other wrapper found live alive same
    · intro k present
      obtain ⟨r, stored⟩ := Finmap.mem_iff.mp present
      obtain ⟨obj, wrapper, live, same⟩ := owned k r stored
      exact ⟨obj, Finmap.mem_of_lookup_eq_some live, (idAt_live live).trans same⟩

/-- An id that is live after `remove` was live before and is not the removed one,
when the removed one was counted once. -/
theorem kept_by_remove {store : PtrStore GoAddr} {k idx : UInt32} {p : GoAddr} {r : Ref GoAddr}
    (once : store.id2ptr.lookup idx = some ⟨p, 1⟩)
    (stored : (store.remove idx).id2ptr.lookup k = some r) :
    k ≠ idx ∧ store.id2ptr.lookup k = some r := by
  obtain ⟨absent, _⟩ | ⟨found, entry, more, _⟩ | ⟨found, index, _, _, dropped⟩ :=
    store.remove_cases idx
  · rw [once] at absent
    cases absent
  · rw [once] at entry
    obtain rfl := Option.some.inj entry
    exact absurd more (lt_irrefl 1)
  · by_cases same : k = idx
    · subst same
      rw [dropped, Finmap.lookup_erase] at stored
      cases stored
    · rw [dropped, Finmap.lookup_erase_ne same] at stored
      exact ⟨same, stored⟩

/-- A step that collects no function wrapper leaves every live id owned. -/
theorem step_owned {action : Action} (sound : Sound ctx w) (owned : Owned ctx w)
    (kept : ¬ CollectsGoFunc w action) (taken : step ctx w action = some w') :
    Owned ctx w' := by
  obtain ⟨_, fresh, unused, effect⟩ | ⟨obj, wrapper, rfl, live, rfl⟩ := step_cases taken
  · cases effect with
    | unchanged sameStore sameVars sameWrappers sameOrigin =>
      intro k r stored
      rw [sameStore] at stored
      rw [sameWrappers]
      exact owned k r stored
    | wrapped v idx wrapper registered vars wrappers origin kind =>
      obtain ⟨free, entries⟩ := registered_fresh unused registered
      intro k r stored
      rw [wrappers]
      by_cases same : k = idx
      · exact ⟨fresh.object, wrapper, Finmap.lookup_insert _, (wrapped_id kind).1.trans same.symm⟩
      · rw [entries, Finmap.lookup_insert_of_ne _ same] at stored
        obtain ⟨obj, found, live, idFound⟩ := owned k r stored
        have other : obj ≠ fresh.object := by
          rintro rfl
          rw [unused.2] at live
          cases live
        exact ⟨obj, found, by rw [Finmap.lookup_insert_of_ne _ other, live], idFound⟩
  · cases wrapper with
    | goFunc funcData => exact absurd ⟨funcData, live⟩ kept
    | proxy o =>
      obtain ⟨p, _, once, _, _, here⟩ := sound.resolves obj _ live
      obtain ⟨store, _, _, wrappers⟩ := collect_proxy live here
      intro k r stored
      rw [store] at stored
      obtain ⟨different, before⟩ := kept_by_remove once stored
      obtain ⟨other, found, alive, idFound⟩ := owned k r before
      have notCollected : other ≠ obj := by
        rintro rfl
        rw [live] at alive
        obtain rfl := Option.some.inj alive
        exact different idFound.symm
      exact ⟨other, found, by rw [wrappers, Finmap.lookup_erase_ne notCollected, alive], idFound⟩

/-- The id is registered and no live wrapper carries it. -/
def Lost (ctx : Ptr) (k : UInt32) (w : World) : Prop :=
  (∃ r, (w.stores.seen ctx).id2ptr.lookup k = some r) ∧
    ∀ obj wrapper, w.wrappers.lookup obj = some wrapper → idOf wrapper ≠ k

/-- Collecting a function wrapper loses its id. -/
theorem collect_loses {obj : Ptr} {funcData : JSValue} (sound : Sound ctx w)
    (live : w.wrappers.lookup obj = some (.goFunc funcData)) :
    Lost ctx (idOf (.goFunc funcData)) (w.collect obj) := by
  obtain ⟨p, _, stored, _⟩ := sound.resolves obj _ live
  rw [collect_goFunc live]
  refine ⟨⟨_, stored⟩, ?_⟩
  intro other found kept same
  have different : other ≠ obj := by
    rintro rfl
    rw [Finmap.lookup_erase] at kept
    cases kept
  rw [Finmap.lookup_erase_ne different] at kept
  exact different (sound.apart other obj found _ kept live same)

/-- A lost id stays lost: it is never issued again and no proxy gives it back. -/
theorem step_lost {action : Action} {k : UInt32} (sound : Sound ctx w) (lost : Lost ctx k w)
    (taken : step ctx w action = some w') : Lost ctx k w' := by
  obtain ⟨⟨r, stored⟩, unowned⟩ := lost
  obtain ⟨_, fresh, unused, effect⟩ | ⟨obj, wrapper, rfl, live, rfl⟩ := step_cases taken
  · cases effect with
    | unchanged sameStore sameVars sameWrappers sameOrigin =>
      refine ⟨⟨r, by rw [sameStore, stored]⟩, ?_⟩
      rw [sameWrappers]
      exact unowned
    | wrapped v idx wrapper registered vars wrappers origin kind =>
      obtain ⟨free, entries⟩ := registered_fresh unused registered
      have different : k ≠ idx := by
        rintro rfl
        rw [free] at stored
        cases stored
      refine ⟨⟨r, by rw [entries, Finmap.lookup_insert_of_ne _ different, stored]⟩, ?_⟩
      intro obj found alive same
      by_cases newest : obj = fresh.object
      · subst newest
        obtain rfl : wrapper = found := by simpa [wrappers, Finmap.lookup_insert] using alive
        exact different (same.symm.trans (wrapped_id kind).1)
      · rw [wrappers, Finmap.lookup_insert_of_ne _ newest] at alive
        exact unowned obj found alive same
  · have fewer : ∀ other found, (w.wrappers.erase obj).lookup other = some found →
        idOf found ≠ k := by
      intro other found kept
      by_cases same : other = obj
      · subst same
        rw [Finmap.lookup_erase] at kept
        cases kept
      · rw [Finmap.lookup_erase_ne same] at kept
        exact unowned other found kept
    cases wrapper with
    | goFunc funcData =>
      rw [collect_goFunc live]
      exact ⟨⟨r, stored⟩, fewer⟩
    | proxy o =>
      obtain ⟨_, _, _, _, _, here⟩ := sound.resolves obj _ live
      obtain ⟨store, _, _, wrappers⟩ := collect_proxy live here
      refine ⟨⟨r, ?_⟩, ?_⟩
      · rw [store]
        exact remove_elsewhere stored (unowned obj _ live)
      · rw [wrappers]
        exact fewer

theorem lost_not_owned {k : UInt32} (lost : Lost ctx k w) : ¬ Owned ctx w := by
  intro owned
  obtain ⟨⟨r, stored⟩, unowned⟩ := lost
  obtain ⟨obj, wrapper, live, same⟩ := owned k r stored
  exact unowned obj wrapper live same

/-- In every state reached by a run of one context, live ids and live wrappers
correspond one to one exactly when no step of the run collected a wrapper of a Go
function.

Proof: without such a step ownership of every live id is an invariant. A step that
collects a function wrapper loses its id, and a lost id stays registered and
unowned through every later step. -/
theorem ids_match_wrappers_iff (ctx : Ptr) (actions : List Action) (w : World)
    (reached : run (step ctx) World.initial actions = some w) :
    OneToOne ctx w ↔
      Allowed (step ctx) (fun s action => ¬ CollectsGoFunc s action) World.initial actions := by
  rw [oneToOne_iff (reached_sound reached)]
  constructor
  · intro owned before action after split s earlier collects
    cases action with
    | collect obj =>
      obtain ⟨funcData, live⟩ := collects
      rw [split] at reached
      obtain ⟨middle, there, onward⟩ := run_split.mp reached
      obtain rfl : s = middle := Option.some.inj (earlier.symm.trans there)
      have present : obj ∈ s.wrappers := Finmap.mem_of_lookup_eq_some live
      have rest : run (step ctx) (s.collect obj) after = some w := by
        simpa [run, step, present] using onward
      have start : Sound ctx (s.collect obj) ∧
          Lost ctx (idOf (.goFunc funcData)) (s.collect obj) :=
        ⟨collect_sound (reached_sound earlier) live, collect_loses (reached_sound earlier) live⟩
      have final := run_invariant
        (motive := fun w => Sound ctx w ∧ Lost ctx (idOf (.goFunc funcData)) w) start
        (fun _ _ _ holds taken => ⟨step_sound holds.1 taken, step_lost holds.1 holds.2 taken⟩) rest
      exact lost_not_owned final.2 owned
    | make memory fresh depth v => exact collects
    | get memory fresh depth select obj key => exact collects
    | set obj => exact collects
    | call memory fresh depth callGolangFunc obj => exact collects
  · intro allowed
    have initially : Sound ctx World.initial ∧ Owned ctx World.initial :=
      ⟨initial_sound, by simp [Owned, World.initial, Stores.seen, newPtrStore]⟩
    exact (allowed_invariant (motive := fun w => Sound ctx w ∧ Owned ctx w) initially
      (fun _ _ _ holds kept taken =>
        ⟨step_sound holds.1 taken, step_owned holds.1 holds.2 kept taken⟩) allowed reached).2

/-- A run that makes and collects a proxy satisfies the condition. -/
theorem collected_proxy_leaves_no_id :
    ∃ w, run (step 100) World.initial
        [.make (fun _ => .nil) ⟨1, 10⟩ 1 (.slice 5 2), .collect 10] = some w ∧
      (OneToOne 100 w ↔ Allowed (step 100) (fun s action => ¬ CollectsGoFunc s action)
        World.initial [.make (fun _ => .nil) ⟨1, 10⟩ 1 (.slice 5 2), .collect 10]) := by
  exact ⟨_, rfl, ids_match_wrappers_iff 100
    [.make (fun _ => .nil) ⟨1, 10⟩ 1 (.slice 5 2), .collect 10] _ rfl⟩

/-- One Go function handed to the engine and collected: no wrapper is left, but its
id is. -/
theorem collected_function_keeps_its_id :
    ∃ w, run (step 100) World.initial
        [.make (fun _ => .nil) ⟨1, 10⟩ 1 (.func (some 8)), .collect 10] = some w ∧
      w.wrappers = ∅ ∧ (w.stores.seen 100).id2ptr.lookup 1 = some ⟨1, 1⟩ ∧
      ¬ OneToOne 100 w := by
  obtain ⟨w, reached, empty, kept⟩ : ∃ w, run (step 100) World.initial
        [.make (fun _ => .nil) ⟨1, 10⟩ 1 (.func (some 8)), .collect 10] = some w ∧
      w.wrappers = ∅ ∧ (w.stores.seen 100).id2ptr.lookup 1 = some ⟨1, 1⟩ :=
    ⟨_, rfl, by decide, by decide⟩
  refine ⟨w, reached, empty, kept, ?_⟩
  rintro ⟨_, _, onto⟩
  obtain ⟨obj, present, _⟩ := onto (Finmap.mem_of_lookup_eq_some kept)
  have live : obj ∈ w.wrappers := present
  rw [empty] at live
  exact Finmap.notMem_empty live

end GoQuickjs.Wrappers
