/-
  Subject:   SORTING PAIRS, AND THE OVERLAP CHECK ON A SORTED LIST OF HALF-OPEN INTERVALS.

  Code that must know that intervals do not overlap sorts the pairs `(start, stop)` and compares
  each with its successor. On nonempty intervals that check is exact:

  * `sortTuples`, `adjacentOverlap` -- the sort, and the comparison of neighbours;
  * `pairwise_apart_of_not_adjacentOverlap` -- when it finds nothing, no two intervals overlap.
-/
import Mathlib

namespace Intervals

variable {α : Type} [LinearOrder α] {l : List (α × α)}

def tupleLE (r t : α × α) : Prop := r.1 < t.1 ∨ (r.1 = t.1 ∧ r.2 ≤ t.2)

instance : DecidableRel (tupleLE : α × α → α × α → Prop) :=
  fun _ _ => inferInstanceAs (Decidable (_ ∨ _))

instance : Std.Total (tupleLE : α × α → α × α → Prop) where
  total r t := by
    unfold tupleLE
    rcases lt_trichotomy r.1 t.1 with h | h | h
    · exact .inl (.inl h)
    · rcases le_total r.2 t.2 with h2 | h2
      · exact .inl (.inr ⟨h, h2⟩)
      · exact .inr (.inr ⟨h.symm, h2⟩)
    · exact .inr (.inl h)

instance : IsTrans (α × α) tupleLE where
  trans r t u := by
    unfold tupleLE
    intro h1 h2
    rcases h1 with h1 | ⟨h1, h1'⟩ <;> rcases h2 with h2 | ⟨h2, h2'⟩
    · exact .inl (h1.trans h2)
    · exact .inl (h2 ▸ h1)
    · exact .inl (h1 ▸ h2)
    · exact .inr ⟨h1.trans h2, h1'.trans h2'⟩

def sortTuples (l : List (α × α)) : List (α × α) := l.insertionSort tupleLE

theorem sortTuples_perm (l : List (α × α)) : (sortTuples l).Perm l :=
  List.perm_insertionSort tupleLE l

theorem sortTuples_sorted (l : List (α × α)) : (sortTuples l).Pairwise fun r t => r.1 ≤ t.1 := by
  refine (List.pairwise_insertionSort tupleLE l).imp fun h => ?_
  rcases h with h | h
  · exact h.le
  · exact h.1.le

def adjacentOverlap (l : List (α × α)) : Bool := (l.zip l.tail).any fun p => p.2.1 < p.1.2

def Apart (r t : α × α) : Prop := r.2 ≤ t.1 ∨ t.2 ≤ r.1

theorem Apart.symm {r t : α × α} (h : Apart r t) : Apart t r := Or.symm h

theorem pairwise_le_of_not_adjacentOverlap (hne : ∀ r ∈ l, r.1 < r.2)
    (h : adjacentOverlap l = false) : l.Pairwise fun r t => r.2 ≤ t.1 := by
  induction l with
  | nil => exact .nil
  | cons r l ih =>
    cases l with
    | nil => simp
    | cons t l =>
      simp only [adjacentOverlap, List.tail_cons, List.zip_cons_cons, List.any_cons,
        Bool.or_eq_false_iff, decide_eq_false_iff_not, not_lt] at h
      have hr := ih (fun x hx => hne x (List.mem_cons_of_mem _ hx)) h.2
      refine List.pairwise_cons.mpr ⟨fun x hx => ?_, hr⟩
      rcases List.mem_cons.mp hx with hx | hx
      · exact hx ▸ h.1
      · exact h.1.trans ((hne t (by simp)).le.trans ((List.pairwise_cons.mp hr).1 x hx))

/-- **The overlap check is sound**: when sorting and comparing neighbours finds nothing, no two of
    the nonempty intervals overlap. -/
theorem pairwise_apart_of_not_adjacentOverlap (hne : ∀ r ∈ l, r.1 < r.2)
    (h : adjacentOverlap (sortTuples l) = false) : l.Pairwise Apart := by
  have hs :=
    pairwise_le_of_not_adjacentOverlap (fun r hr => hne r ((sortTuples_perm l).mem_iff.mp hr)) h
  have ha : (sortTuples l).Pairwise Apart := hs.imp fun hle => .inl hle
  exact (List.Perm.pairwise_iff Apart.symm (sortTuples_perm l)).mp ha

end Intervals
