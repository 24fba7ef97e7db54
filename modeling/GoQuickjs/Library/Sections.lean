import Mathlib.Data.List.Pairwise
import Mathlib.Logic.Function.Basic

/-!
# Nested sections under locks that are not reentrant

Threads open and close sections of resources, one inside the other. A section is
opened by taking the resource's lock, which must be free and is given back when the
section is closed, or without touching the lock. When a thread opens sections without
the lock only for resources whose lock it holds, no two threads have sections of one
resource open.
-/

namespace Sections

/-- Who holds each lock, and the open sections of each thread with the innermost one
first. The flag tells whether the section took the lock. -/
structure Monitor (T R : Type) where
  holder : R → Option T
  opened : T → List (R × Bool)

namespace Monitor

section opening

variable {T R : Type} [DecidableEq T] [DecidableEq R]

/-- The thread opens a section by taking the lock. -/
def acquire (m : Monitor T R) (t : T) (r : R) : Monitor T R where
  holder := Function.update m.holder r (some t)
  opened := Function.update m.opened t ((r, true) :: m.opened t)

/-- The thread opens a section without the lock. -/
def enter (m : Monitor T R) (t : T) (r : R) : Monitor T R where
  holder := m.holder
  opened := Function.update m.opened t ((r, false) :: m.opened t)

/-- The thread closes its innermost section and gives the lock back if that section
took it. -/
def leave (m : Monitor T R) (t : T) : Monitor T R :=
  match m.opened t with
  | [] => m
  | (r, true) :: rest => ⟨Function.update m.holder r none, Function.update m.opened t rest⟩
  | (_, false) :: rest => ⟨m.holder, Function.update m.opened t rest⟩

end opening

variable {T R : Type}

/-- The thread has a section of the resource open. -/
def Inside (m : Monitor T R) (t : T) (r : R) : Prop := ∃ locked, (r, locked) ∈ m.opened t

/-- A thread with an open section holds the lock of the resource, and a section that
took the lock is the outermost one of its resource. -/
structure Guarded (m : Monitor T R) : Prop where
  owner : ∀ {t r}, m.Inside t r → m.holder r = some t
  outermost : ∀ t, (m.opened t).Pairwise fun inner outer => inner.2 = true → outer.1 ≠ inner.1

variable {m : Monitor T R} {t : T} {r : R}

/-- Sections of one resource are open in one thread at most. -/
theorem Guarded.exclusive {other : T} (guarded : m.Guarded) (inside : m.Inside t r)
    (also : m.Inside other r) : t = other :=
  Option.some.inj ((guarded.owner inside).symm.trans (guarded.owner also))

variable [DecidableEq T]

/-- An open section after one more was opened is that one or an older one. -/
theorem mem_pushed {top q : R × Bool} {u : T}
    (member : q ∈ Function.update m.opened t (top :: m.opened t) u) :
    (u = t ∧ q = top) ∨ q ∈ m.opened u := by
  by_cases same : u = t
  · subst same
    rw [Function.update_self] at member
    exact (List.mem_cons.mp member).imp (⟨rfl, ·⟩) id
  · rw [Function.update_of_ne same] at member
    exact .inr member

theorem outermost_pushed {top : R × Bool} (guarded : m.Guarded)
    (first : top.2 = true → ¬ m.Inside t top.1) (u : T) :
    (Function.update m.opened t (top :: m.opened t) u).Pairwise
      fun inner outer => inner.2 = true → outer.1 ≠ inner.1 := by
  by_cases same : u = t
  · subst same
    rw [Function.update_self]
    refine List.pairwise_cons.mpr ⟨?_, guarded.outermost u⟩
    rintro ⟨q, locked⟩ member taken rfl
    exact first taken ⟨locked, member⟩
  · rw [Function.update_of_ne same]
    exact guarded.outermost u

/-- The sections that are open after the innermost one of a thread was closed were
open before. -/
theorem mem_of_popped {rest : List (R × Bool)} {closed : R × Bool}
    (top : m.opened t = closed :: rest) {u : T} {q : R × Bool}
    (member : q ∈ Function.update m.opened t rest u) : q ∈ m.opened u := by
  by_cases same : u = t
  · subst same
    rw [Function.update_self] at member
    exact top ▸ List.mem_cons_of_mem closed member
  · rwa [Function.update_of_ne same] at member

theorem outermost_of_popped {rest : List (R × Bool)} {closed : R × Bool} (guarded : m.Guarded)
    (top : m.opened t = closed :: rest) (u : T) :
    (Function.update m.opened t rest u).Pairwise
      fun inner outer => inner.2 = true → outer.1 ≠ inner.1 := by
  by_cases same : u = t
  · subst same
    have before := guarded.outermost u
    rw [top] at before
    rw [Function.update_self]
    exact (List.pairwise_cons.mp before).2
  · rw [Function.update_of_ne same]
    exact guarded.outermost u

/-- Opening a section without the lock keeps the sections guarded when the thread
holds the lock. -/
theorem Guarded.enter (guarded : m.Guarded) (holds : m.holder r = some t) :
    (m.enter t r).Guarded := by
  refine ⟨?_, outermost_pushed guarded nofun⟩
  rintro u q ⟨locked, member⟩
  rcases mem_pushed member with ⟨rfl, same⟩ | older
  · obtain ⟨rfl, -⟩ := Prod.mk.inj same
    exact holds
  · exact guarded.owner ⟨locked, older⟩

variable [DecidableEq R]

/-- Taking a free lock keeps the sections guarded: nobody was inside. -/
theorem Guarded.acquire (guarded : m.Guarded) (free : m.holder r = none) :
    (m.acquire t r).Guarded := by
  have outside : ∀ u, ¬ m.Inside u r := by
    intro u inside
    have held := guarded.owner inside
    rw [free] at held
    cases held
  refine ⟨?_, outermost_pushed guarded fun _ => outside t⟩
  rintro u q ⟨locked, member⟩
  change Function.update m.holder r (some t) q = some u
  rcases mem_pushed member with ⟨rfl, same⟩ | older
  · obtain ⟨rfl, -⟩ := Prod.mk.inj same
    exact Function.update_self ..
  · have apart : q ≠ r := by
      rintro rfl
      exact outside u ⟨locked, older⟩
    rw [Function.update_of_ne apart]
    exact guarded.owner ⟨locked, older⟩

/-- Closing a section keeps the sections guarded.

Proof: when the section took the lock, it was the outermost one of its resource, so
no section of the resource is left in this thread, and none was open in another. -/
theorem Guarded.leave (guarded : m.Guarded) (t : T) : (m.leave t).Guarded := by
  cases top : m.opened t with
  | nil => simpa only [Monitor.leave, top] using guarded
  | cons closed rest =>
    obtain ⟨r, locked⟩ := closed
    cases locked with
    | false =>
      simp only [Monitor.leave, top]
      exact ⟨fun ⟨locked, member⟩ => guarded.owner ⟨locked, mem_of_popped top member⟩,
        outermost_of_popped guarded top⟩
    | true =>
      simp only [Monitor.leave, top]
      refine ⟨?_, outermost_of_popped guarded top⟩
      rintro u q ⟨locked, member⟩
      have inside : m.Inside u q := ⟨locked, mem_of_popped top member⟩
      have apart : q ≠ r := by
        rintro rfl
        have here : m.Inside t q := ⟨true, by simp [top]⟩
        obtain rfl := guarded.exclusive inside here
        have before := guarded.outermost u
        rw [top] at before
        have remains : (q, locked) ∈ rest := by simpa using member
        exact (List.pairwise_cons.mp before).1 (q, locked) remains rfl rfl
      change Function.update m.holder r none q = some u
      rw [Function.update_of_ne apart]
      exact guarded.owner inside

end Monitor

end Sections
