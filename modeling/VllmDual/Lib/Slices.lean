/-
  Subject:   A LIST OF BLOCKS OF ONE LENGTH, FLAT, AND ITS SLICES.

  Results for many blocks are asked for in one flat list and cut up again by index arithmetic:

  * `slices` -- `[l[i * k : (i + 1) * k] for i in range(n)]`;
  * `slices_flatMap` -- cutting up what was put together gives the blocks back;
  * `length_splitBy_le` -- splitting a list where a relation fails gives the fewest runs of it.
-/
import Mathlib

namespace Slices

open List

variable {α β : Type} {k : Nat} {f : β → List α} {vs : List β}

/-- The first `n` slices of length `k`. -/
def slices (k n : Nat) (l : List α) : List (List α) :=
  (range n).map fun i => (l.drop (i * k)).take k

theorem slices_succ (n : Nat) (l : List α) :
    slices k (n + 1) l = l.take k :: slices k n (l.drop k) := by
  unfold slices
  rw [range_succ_eq_map, map_cons, Nat.zero_mul, drop_zero, map_map]
  refine congrArg _ (map_congr_left fun i _ => ?_)
  rw [Function.comp, drop_drop, Nat.succ_mul, Nat.add_comm]

theorem slices_flatMap (h : ∀ v ∈ vs, (f v).length = k) :
    slices k vs.length (vs.flatMap f) = vs.map f := by
  induction vs with
  | nil => rfl
  | cons v vs ih =>
    have hv := h v mem_cons_self
    rw [length_cons, slices_succ, flatMap_cons, map_cons, ← hv, take_left,
      drop_left, hv, ih fun w hw => h w (mem_cons_of_mem _ hw)]

theorem length_flatMap (h : ∀ v ∈ vs, (f v).length = k) :
    (vs.flatMap f).length = vs.length * k := by
  induction vs with
  | nil => simp
  | cons v vs ih =>
    rw [flatMap_cons, length_append, h v mem_cons_self, ih fun w hw => h w (mem_cons_of_mem _ hw),
      length_cons]
    ring

/-- Every `step`-th element from `start` on. -/
def strided (start step : Nat) (l : List α) : List α :=
  (l.zipIdx.filter fun e => start ≤ e.2 ∧ (e.2 - start) % step = 0).map Prod.fst

theorem mem_strided {s st : Nat} {l : List α} {a : α} :
    a ∈ strided s st l ↔ ∃ i, l[i]? = some a ∧ s ≤ i ∧ (i - s) % st = 0 := by
  simp only [strided, mem_map, mem_filter, decide_eq_true_eq]
  constructor
  · rintro ⟨⟨b, i⟩, ⟨hmem, hle, hm⟩, rfl⟩
    exact ⟨i, mem_zipIdx_iff_getElem?.mp hmem, hle, hm⟩
  · rintro ⟨i, hg, hle, hm⟩
    exact ⟨(a, i), ⟨mem_zipIdx_iff_getElem?.mpr hg, hle, hm⟩, rfl⟩

variable {r : α → α → Bool} {l : List α}

theorem length_splitByLoop (a : α) (g : List α) (gs : List (List α)) :
    (splitBy.loop r l a g gs).length = (splitBy.loop r l a [] []).length + gs.length := by
  induction l generalizing a g gs with
  | nil => simp [splitBy.loop, Nat.add_comm]
  | cons b l ih =>
    unfold splitBy.loop
    split
    · rw [ih, ih b [a]]
      rfl
    · rw [ih, ih b [] [_], length_cons, length_singleton]
      omega

theorem length_splitBy_cons_cons (a b : α) (l : List α) : ((a :: b :: l).splitBy r).length
    = ((b :: l).splitBy r).length + if r a b then 0 else 1 := by
  show (splitBy.loop r (b :: l) a [] []).length = (splitBy.loop r l b [] []).length + _
  conv_lhs => unfold splitBy.loop
  split <;> rw [length_splitByLoop] <;> simp [*]

theorem length_splitBy_append_le {g : List α} (hg : g.IsChain fun a b => r a b = true) :
    ((g ++ l).splitBy r).length ≤ (l.splitBy r).length + 1 := by
  induction g with
  | nil => exact Nat.le_succ _
  | cons a g ih =>
    cases g with
    | nil =>
      cases l with
      | nil => exact Nat.le_refl _
      | cons b l =>
        rw [singleton_append, length_splitBy_cons_cons]
        split <;> omega
    | cons b g =>
      obtain ⟨hab, hr⟩ := isChain_cons_cons.mp hg
      rw [cons_append, cons_append, length_splitBy_cons_cons, if_pos hab]
      exact ih hr

theorem length_splitBy_le {rs : List (List α)}
    (h : ∀ run ∈ rs, run.IsChain fun a b => r a b = true) :
    (rs.flatten.splitBy r).length ≤ rs.length := by
  induction rs with
  | nil => exact Nat.le_refl _
  | cons run rs ih =>
    obtain ⟨hrun, hr⟩ := forall_mem_cons.mp h
    exact (length_splitBy_append_le hrun).trans (Nat.succ_le_succ (ih hr))

end Slices
