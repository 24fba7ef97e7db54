import Mathlib.Logic.Function.Iterate

/-!
# Probing a cyclic sequence of slots

A cursor advances one slot at a time until it meets a slot that is not in use.
The search has no bound of its own, so the executable probe counts its steps:
running out of steps stands for a search that is still going. A probe that stops
names a free slot; one that does not has seen a used slot at every step, and a
successor that visits every slot therefore stops as soon as one slot is free.
-/

namespace CyclicProbe

variable {K : Type*}

/-- Advance first, then test: the slot under the initial cursor is only reached
again after a full turn. -/
def probe (next : K → K) (used : K → Bool) : Nat → K → Option K
  | 0, _ => none
  | fuel + 1, cursor =>
      if used (next cursor) then probe next used fuel (next cursor) else some (next cursor)

/-- The slot a probe stops at is free. -/
theorem probe_free (next : K → K) (used : K → Bool) (fuel : Nat) (cursor slot : K)
    (stopped : probe next used fuel cursor = some slot) : used slot = false := by
  induction fuel generalizing cursor with
  | zero => simp [probe] at stopped
  | succ fuel inductionHypothesis =>
    by_cases taken : used (next cursor) = true
    · exact inductionHypothesis (next cursor) (by simpa [probe, taken] using stopped)
    · have same : next cursor = slot := by simpa [probe, taken] using stopped
      exact same ▸ Bool.eq_false_iff.mpr taken

/-- A probe that stops has seen a used slot at every step before. -/
theorem probe_first (next : K → K) (used : K → Bool) (fuel : Nat) (cursor slot : K)
    (stopped : probe next used fuel cursor = some slot) :
    ∃ distance < fuel, next^[distance + 1] cursor = slot ∧
      ∀ earlier < distance, used (next^[earlier + 1] cursor) = true := by
  induction fuel generalizing cursor with
  | zero => simp [probe] at stopped
  | succ fuel inductionHypothesis =>
    by_cases taken : used (next cursor) = true
    · obtain ⟨distance, inside, reached, earlier⟩ :=
        inductionHypothesis (next cursor) (by simpa [probe, taken] using stopped)
      refine ⟨distance + 1, by omega, by rwa [Function.iterate_succ_apply], ?_⟩
      intro step before
      cases step with
      | zero => exact taken
      | succ step =>
        rw [Function.iterate_succ_apply]
        exact earlier step (by omega)
    · have same : next cursor = slot := by simpa [probe, taken] using stopped
      exact ⟨0, by omega, same, fun step before => absurd before (Nat.not_lt_zero step)⟩

/-- A probe that runs out of steps met a used slot at each of them. -/
theorem probe_exhausted (next : K → K) (used : K → Bool) (fuel : Nat) (cursor : K)
    (running : probe next used fuel cursor = none) (distance : Nat) (inside : distance < fuel) :
    used (next^[distance + 1] cursor) = true := by
  induction fuel generalizing cursor distance with
  | zero => omega
  | succ fuel inductionHypothesis =>
    by_cases taken : used (next cursor) = true
    · cases distance with
      | zero => simpa using taken
      | succ distance =>
        have tail : probe next used fuel (next cursor) = none := by
          simpa [probe, taken] using running
        rw [Function.iterate_succ_apply]
        exact inductionHypothesis (next cursor) tail distance (by omega)
    · simp [probe, taken] at running

/-- When the successor reaches every slot within the given number of steps, one
free slot is enough for the probe to stop. -/
theorem probe_stops (next : K → K) (used : K → Bool) (fuel : Nat) (cursor free : K)
    (visited : ∃ distance < fuel, next^[distance + 1] cursor = free)
    (available : used free = false) : ∃ slot, probe next used fuel cursor = some slot := by
  by_contra missing
  have running : probe next used fuel cursor = none := by
    cases found : probe next used fuel cursor with
    | none => rfl
    | some slot => exact absurd ⟨slot, found⟩ missing
  obtain ⟨distance, inside, reached⟩ := visited
  have taken := probe_exhausted next used fuel cursor running distance inside
  rw [reached, available] at taken
  cases taken

end CyclicProbe
