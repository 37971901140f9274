/-
  Subject:   REFERENCE COUNTS AGAINST THE TABLES THAT HOLD THE REFERENCES.

  Tables (lists indexed by some key) hold references to items, and a counter per item is meant to
  cover them. The tables may be infinitely many, so the cover is said over every finite set:

  * `held` -- how often an item stands in them; `Covered` -- the counter is at least that;
  * `Covered.update` -- replacing one table keeps the cover when the counter moves with it.
-/
import Mathlib

namespace Holders

variable {κ β : Type} [DecidableEq β]

/-- How often `b` stands in the tables of `S`. -/
def held (tables : κ → List β) (S : Finset κ) (b : β) : Nat := ∑ k ∈ S, (tables k).count b

/-- The counter covers every reference to `b`. -/
def Covered (tables : κ → List β) (ref : Int) (b : β) : Prop := ∀ S, (held tables S b : Int) ≤ ref

variable {ts : κ → List β} {S : Finset κ} {b : β} {k : κ} {l : List β} {ref ref' : Int}

theorem Covered.count_le (h : Covered ts ref b) (k : κ) : ((ts k).count b : Int) ≤ ref := by
  simpa [held] using h {k}

theorem Covered.pos (h : Covered ts ref b) (hb : b ∈ ts k) : 0 < ref := by
  have hc := h.count_le k
  have hp := List.count_pos_iff.mpr hb
  omega

theorem Covered.notMem (h : Covered ts ref b) (h0 : ref ≤ 0) (k : κ) : b ∉ ts k :=
  fun hb => absurd (h.pos hb) (by omega)

variable [DecidableEq κ]

theorem held_insert (hk : k ∉ S) : held ts (insert k S) b = (ts k).count b + held ts S b :=
  Finset.sum_insert hk

theorem held_update_of_notMem (hk : k ∉ S) : held (Function.update ts k l) S b = held ts S b := by
  refine Finset.sum_congr rfl fun i hi => ?_
  rw [Function.update_of_ne fun h : i = k => hk (h ▸ hi)]

theorem held_update (hk : k ∈ S) :
    held (Function.update ts k l) S b + (ts k).count b = held ts S b + l.count b := by
  obtain ⟨T, hT, rfl⟩ : ∃ T, k ∉ T ∧ S = insert k T :=
    ⟨S.erase k, Finset.notMem_erase k S, (Finset.insert_erase hk).symm⟩
  rw [held_insert hT, held_insert hT, held_update_of_notMem hT, Function.update_self]
  omega

theorem Covered.update (h : Covered ts ref b) (hr : ref + l.count b ≤ ref' + (ts k).count b) :
    Covered (Function.update ts k l) ref' b := by
  intro S
  by_cases hk : k ∈ S
  · have hS := h S
    have hup : held (Function.update ts k l) S b + (ts k).count b = held ts S b + l.count b :=
      held_update hk
    omega
  · have hS := h (insert k S)
    rw [held_insert hk] at hS
    rw [held_update_of_notMem hk]
    omega

end Holders
