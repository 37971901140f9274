/-
  Subject:   SCATTERS WITH ANY WINNER, AND RANKS.

  A scatter writes many positions at once. Where several positions write to one index the device
  chooses; the model takes the order of the writes as a parameter, and what follows holds for every
  order:

  * `scatter_of_ne`, `scatter_of_eq` -- what an index holds after a scatter;
  * `scatterFlat`, `cell_eq_iff` -- rows of a flat array (`reshape(-1)`) do not overlap;
  * `getElem?_filter_range` -- the element of rank `k` is the `k`-th of the list of all elements.
-/
import Mathlib

namespace Scatter

open Nat List

variable {α : Type}

/-! ## 1. Scatters -/

/-- Write `src j` at `idx j`, for the positions `j` in their order. -/
def scatter (order : List Nat) (dst : Nat → α) (idx : Nat → Nat) (src : Nat → α) : Nat → α :=
  order.foldl (fun d j => Function.update d (idx j) (src j)) dst

section Scatter

variable {o : List Nat} {dst : Nat → α} {idx : Nat → Nat} {src : Nat → α} {i j : Nat} {v : α}

theorem scatter_cons :
    scatter (j :: o) dst idx src = scatter o (Function.update dst (idx j) (src j)) idx src :=
  rfl

theorem scatter_of_ne (h : ∀ j ∈ o, idx j ≠ i) : scatter o dst idx src i = dst i := by
  induction o generalizing dst with
  | nil => rfl
  | cons j o ih =>
    rw [scatter_cons, ih fun k hk => h k (mem_cons_of_mem _ hk),
      Function.update_of_ne (h j mem_cons_self).symm]

theorem scatter_of_eq (hj : j ∈ o) (hi : idx j = i)
    (h : ∀ k ∈ o, idx k = i → src k = v) : scatter o dst idx src i = v := by
  induction o generalizing dst j with
  | nil => cases hj
  | cons k o ih =>
    rw [scatter_cons]
    by_cases hex : ∃ k' ∈ o, idx k' = i
    · obtain ⟨k', hk', hidx⟩ := hex
      exact ih hk' hidx fun k hk => h k (mem_cons_of_mem _ hk)
    · have hne : ∀ k' ∈ o, idx k' ≠ i := fun k' hk' hidx => hex ⟨k', hk', hidx⟩
      have hkj : j = k := by
        cases mem_cons.mp hj with
        | inl heq => exact heq
        | inr hm => exact absurd hi (hne j hm)
      rw [scatter_of_ne hne, ← hi, hkj, Function.update_self]
      exact h k mem_cons_self (hkj ▸ hi)

theorem scatter_of_same (h : ∀ j ∈ o, idx j = i → src j = dst i) :
    scatter o dst idx src i = dst i := by
  by_cases hex : ∃ j ∈ o, idx j = i
  · obtain ⟨j, hj, hi⟩ := hex
    exact scatter_of_eq hj hi h
  · exact scatter_of_ne fun j hj hi => hex ⟨j, hj, hi⟩

end Scatter

/-! ## 2. Matrices in flat arrays -/

def flat {β : Type} (width : Nat) (x : Nat → Nat → β) (p : Nat) : β := x (p / width) (p % width)

def scatterFlat (order : List Nat) (width : Nat) (dst : Nat → α) (idx : Nat → Nat → Nat)
    (src : Nat → Nat → α) : Nat → α :=
  scatter order dst (flat width idx) (flat width src)

section Flat

variable {od : List Nat} {rs w : Nat} {dst : Nat → α} {idx : Nat → Nat → Nat}
  {src : Nat → Nat → α} {i r j : Nat} {v : α}

variable (horder : od.Perm (range (rs * w)))
include horder

theorem div_lt_of_mem {p : Nat} (hp : p ∈ od) : p / w < rs ∧ p % w < w := by
  have hlt : p < rs * w := mem_range.mp (horder.mem_iff.mp hp)
  have hw : 0 < w := Nat.pos_of_ne_zero fun h => by simp [h] at hlt
  exact ⟨(Nat.div_lt_iff_lt_mul hw).mpr hlt, mod_lt p hw⟩

theorem scatterFlat_of_ne (h : ∀ r j, r < rs → j < w → idx r j ≠ i) :
    scatterFlat od w dst idx src i = dst i := by
  refine scatter_of_ne fun p hp => ?_
  have hlt := div_lt_of_mem horder hp
  exact h _ _ hlt.1 hlt.2

theorem scatterFlat_of_eq (hr : r < rs) (hj : j < w) (hi : idx r j = i)
    (h : ∀ r' j', r' < rs → j' < w → idx r' j' = i → src r' j' = v) :
    scatterFlat od w dst idx src i = v := by
  have hw : 0 < w := zero_lt_of_lt hj
  have hd : (r * w + j) / w = r := by
    rw [Nat.mul_comm, mul_add_div hw, div_eq_of_lt hj, Nat.add_zero]
  have hm : (r * w + j) % w = j := by
    rw [Nat.mul_comm, mul_add_mod, mod_eq_of_lt hj]
  have hmem : r * w + j ∈ od := by
    rw [horder.mem_iff, mem_range]
    calc r * w + j < r * w + w := by omega
      _ = (r + 1) * w := by ring
      _ ≤ rs * w := Nat.mul_le_mul_right _ hr
  refine scatter_of_eq hmem (by simp only [flat, hd, hm, hi]) fun p hp hidx => ?_
  have hlt := div_lt_of_mem horder hp
  exact h _ _ hlt.1 hlt.2 hidx

theorem scatterFlat_of_same (h : ∀ r j, r < rs → j < w → idx r j = i → src r j = dst i) :
    scatterFlat od w dst idx src i = dst i := by
  refine scatter_of_same fun p hp => ?_
  have hlt := div_lt_of_mem horder hp
  exact h _ _ hlt.1 hlt.2

end Flat

theorem cell_eq_iff {st s s' i i' : Nat} (hi : i < st) (hi' : i' < st) :
    s * st + i = s' * st + i' ↔ s = s' ∧ i = i' := by
  constructor
  · intro heq
    have hd := congrArg (· / st) heq
    have hm := congrArg (· % st) heq
    have hst : 0 < st := zero_lt_of_lt hi
    simp only [Nat.mul_comm _ st, mul_add_div hst, div_eq_of_lt hi,
      div_eq_of_lt hi', Nat.add_zero, mul_add_mod, mod_eq_of_lt hi,
      mod_eq_of_lt hi'] at hd hm
    exact ⟨hd, hm⟩
  · intro ⟨hs, hi⟩
    rw [hs, hi]

/-! ## 3. Ranks -/

section Ranks

variable {p : Nat → Prop} [DecidablePred p] {n a : Nat}

theorem length_filter_range : ((range n).filter (p ·)).length = Nat.count p n := by
  induction n with
  | zero => rfl
  | succ n ih =>
    rw [range_succ, filter_append, length_append, ih, count_succ]
    by_cases hn : p n <;> simp [hn]

theorem getElem?_filter_range (ha : p a) (hlt : a < n) :
    ((range n).filter (p ·))[Nat.count p a]? = some a := by
  induction n with
  | zero => omega
  | succ n ih =>
    rw [range_succ, filter_append]
    by_cases heq : a = n
    · subst heq
      rw [getElem?_append_right (by rw [length_filter_range]), length_filter_range]
      simp [ha]
    · have hlt' : a < n := by omega
      rw [getElem?_append_left]
      · exact ih hlt'
      · rw [length_filter_range]
        exact count_strict_mono ha hlt'

theorem count_congr {q : Nat → Prop} [DecidablePred q] (h : ∀ i < n, p i ↔ q i) :
    Nat.count p n = Nat.count q n := by
  rw [count_eq_card_filter_range, count_eq_card_filter_range]
  exact congrArg _ (Finset.filter_congr fun i hi => h i (Finset.mem_range.mp hi))

theorem count_succ_sub_one (ha : p a) : Nat.count p (a + 1) - 1 = Nat.count p a := by
  rw [count_succ, if_pos ha, Nat.add_sub_cancel]

theorem exists_count_eq {k : Nat} (hk : k < Nat.count p n) : ∃ a < n, p a ∧ Nat.count p a = k := by
  induction n with
  | zero => simp at hk
  | succ n ih =>
    by_cases hlt : k < Nat.count p n
    · obtain ⟨a, ha, hpa, hc⟩ := ih hlt
      exact ⟨a, by omega, hpa, hc⟩
    · have hn : p n := by
        by_contra hn
        rw [count_succ, if_neg hn] at hk
        exact hlt hk
      rw [count_succ, if_pos hn] at hk
      exact ⟨n, by omega, hn, by omega⟩

end Ranks

end Scatter
