/-
  Subject:   COUNTERS OF JOBS THAT ARE UNDER WAY.

  Jobs belong to owners. A counter per owner is raised before a job is handed over and lowered when
  it ends, and may be deleted in between; a job may only act while its owner has a counter:

  * `Books` -- every counter is the number of its owner's jobs, with one that is counted and not
    handed over yet; an owner without a counter has no job that may act.
-/
import Mathlib

open Function

variable {ρ : Type} [DecidableEq ρ]

/-- `get` are the counters, `jobs` how many jobs are queued or running, `counted` an owner whose job
    is not enqueued yet, `admitted` the owner of a job that may act. -/
structure Books (get : ρ → Option Int) (jobs : ρ → Nat) (counted admitted : Option ρ) : Prop where
  counter : ∀ r n, get r = some n → n = jobs r + if counted = some r then 1 else 0
  absent : ∀ r, get r = none → counted ≠ some r ∧ admitted ≠ some r

namespace Books

variable {get : ρ → Option Int} {js : ρ → Nat} {c a : Option ρ} {r : ρ} {n : Int}

theorem count (h : Books get js none a) (hr : get r = none → js r = 0) :
    Books (update get r (some ((get r).getD 0 + 1))) js (some r) a := by
  refine ⟨fun s n hs => ?_, fun s hs => ?_⟩
  · by_cases heq : s = r
    · subst heq
      rw [update_self, Option.some.injEq] at hs
      rw [if_pos rfl, ← hs]
      cases hg : get s with
      | none => simp [hr hg]
      | some n => simp [h.counter s n hg]
    · rw [update_of_ne heq] at hs
      have hne : r ≠ s := fun h => heq h.symm
      simpa [hne] using h.counter s n hs
  · by_cases heq : s = r
    · rw [heq, update_self] at hs
      cases hs
    · rw [update_of_ne heq] at hs
      exact ⟨fun h => heq (Option.some.inj h).symm, (h.absent s hs).2⟩

theorem enqueue (h : Books get js (some r) a) : Books get (update js r (js r + 1)) none a := by
  refine ⟨fun s n hs => ?_, fun s hs => ⟨nofun, (h.absent s hs).2⟩⟩
  have hn := h.counter s n hs
  by_cases heq : s = r
  · subst heq
    rw [if_pos rfl] at hn
    rw [update_self, hn]
    simp
  · have hne : r ≠ s := fun h => heq h.symm
    rw [update_of_ne heq, hn]
    simp [hne]

theorem forget (h : Books get js none a) (hr : a ≠ some r) :
    Books (update get r none) js none a := by
  refine ⟨fun s n hs => ?_, fun s hs => ⟨nofun, ?_⟩⟩
  · by_cases heq : s = r
    · rw [heq, update_self] at hs
      cases hs
    · rw [update_of_ne heq] at hs
      exact h.counter s n hs
  · by_cases heq : s = r
    · rwa [heq]
    · rw [update_of_ne heq] at hs
      exact (h.absent s hs).2

theorem release (h : Books get js c a) : Books get js c none :=
  ⟨h.counter, fun s hs => ⟨(h.absent s hs).1, nofun⟩⟩

theorem allow (h : Books get js c none) (hr : get r ≠ none) : Books get js c (some r) :=
  ⟨h.counter, fun s hs => ⟨(h.absent s hs).1, fun heq => hr (Option.some.inj heq ▸ hs)⟩⟩

theorem drop (h : Books get js c none) (hr : get r = none) (k : Nat) :
    Books get (update js r k) c none := by
  refine ⟨fun s n hs => ?_, h.absent⟩
  have hne : s ≠ r := fun heq => by rw [heq, hr] at hs; cases hs
  rw [update_of_ne hne]
  exact h.counter s n hs

theorem countDown (h : Books get (update js r (js r + 1)) c none) (hr : get r = some n) :
    Books (update get r (some (n - 1))) js c none := by
  refine ⟨fun s m hs => ?_, fun s hs => ⟨?_, nofun⟩⟩
  · by_cases heq : s = r
    · subst heq
      rw [update_self, Option.some.injEq] at hs
      have hn := h.counter s n hr
      rw [update_self] at hn
      rw [← hs, hn]
      push_cast
      ring
    · rw [update_of_ne heq] at hs
      have hm := h.counter s m hs
      rwa [update_of_ne heq] at hm
  · by_cases heq : s = r
    · rw [heq, update_self] at hs
      cases hs
    · rw [update_of_ne heq] at hs
      exact (h.absent s hs).1

end Books
