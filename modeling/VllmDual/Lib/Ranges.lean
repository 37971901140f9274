/-
  Subject:   LISTS OF INCLUSIVE RANGES OF NATURAL NUMBERS, AS FREE LISTS KEEP THEM.

  The free numbers are a finite set (`cover`); a list of ranges `(first, last)` is canonical when
  they are nonempty, in order, and neither overlap nor touch (`Gapped`). What a free list needs:

  * `Taken` -- numbers were taken out of a list of ranges;
  * `takeFront`, `takeFront_taken` -- taking a number of elements from the front;
  * `coalesce`, `coalesce_spec` -- the sweep that joins touching ranges of a sorted list.
-/
import Mathlib

namespace Ranges

open List

/-! ## 1. The set and its canonical form -/

def size (r : Nat × Nat) : Nat := r.2 + 1 - r.1

def total (rs : List (Nat × Nat)) : Nat := (rs.map size).sum

def cover : List (Nat × Nat) → Finset Nat
  | [] => ∅
  | r :: rs => Finset.Icc r.1 r.2 ∪ cover rs

/-- Nonempty ranges in order, with a gap of at least one number between two of them. -/
structure Gapped (rs : List (Nat × Nat)) : Prop where
  nonempty : ∀ r ∈ rs, r.1 ≤ r.2
  gaps : rs.Pairwise fun a b => a.2 + 1 < b.1

@[simp] theorem total_nil : total [] = 0 := rfl

@[simp] theorem total_cons (r : Nat × Nat) (rs : List (Nat × Nat)) :
    total (r :: rs) = size r + total rs := by
  simp [total]

@[simp] theorem cover_nil : cover [] = ∅ := rfl

variable {rs ts l t : List (Nat × Nat)} {i : Nat} {r : Nat × Nat}

theorem mem_cover : i ∈ cover rs ↔ ∃ r ∈ rs, r.1 ≤ i ∧ i ≤ r.2 := by
  induction rs with
  | nil => simp
  | cons r rs ih => simp [cover, ih]

theorem mem_cover_cons : i ∈ cover (r :: rs) ↔ (r.1 ≤ i ∧ i ≤ r.2) ∨ i ∈ cover rs := by
  simp [cover]

theorem mem_cover_append : i ∈ cover (rs ++ ts) ↔ i ∈ cover rs ∨ i ∈ cover ts := by
  simp only [mem_cover, mem_append, or_and_right, exists_or]

theorem cover_perm (h : rs.Perm ts) : cover rs = cover ts := by
  ext i
  simp only [mem_cover, h.mem_iff]

theorem gapped_nil : Gapped [] := ⟨by simp, Pairwise.nil⟩

theorem gapped_cons : Gapped (r :: rs) ↔ r.1 ≤ r.2 ∧ (∀ t ∈ rs, r.2 + 1 < t.1) ∧ Gapped rs := by
  constructor
  · rintro ⟨hne, hg⟩
    rw [pairwise_cons] at hg
    exact ⟨hne r mem_cons_self, hg.1,
      fun t ht => hne t (mem_cons_of_mem _ ht), hg.2⟩
  · rintro ⟨hr, hlt, hne, hg⟩
    refine ⟨fun t ht => ?_, pairwise_cons.mpr ⟨hlt, hg⟩⟩
    rcases mem_cons.mp ht with rfl | ht
    · exact hr
    · exact hne t ht

theorem Gapped.lt_of_mem_cover (h : Gapped (r :: rs)) (hi : i ∈ cover rs) : r.2 + 1 < i := by
  obtain ⟨t, ht, hle, _⟩ := mem_cover.mp hi
  have := (gapped_cons.mp h).2.1 t ht
  omega

/-- **The range sum counts the covered set**: canonical ranges do not overlap. -/
theorem Gapped.card_cover (h : Gapped rs) : (cover rs).card = total rs := by
  induction rs with
  | nil => rfl
  | cons r rs ih =>
    have hd : Disjoint (Finset.Icc r.1 r.2) (cover rs) := by
      rw [Finset.disjoint_left]
      intro i hi hc
      have := h.lt_of_mem_cover hc
      rw [Finset.mem_Icc] at hi
      omega
    rw [cover, Finset.card_union_of_disjoint hd, Nat.card_Icc, ih (gapped_cons.mp h).2.2,
      total_cons, size]

theorem Gapped.head_le {x : Nat × Nat} (h : Gapped (r :: rs)) (h' : Gapped (x :: ts))
    (hc : ∀ i, i ∈ cover (r :: rs) ↔ i ∈ cover (x :: ts)) : x.1 ≤ r.1 ∧ x.2 ≤ r.2 := by
  have hr := (gapped_cons.mp h).1
  have hx := (gapped_cons.mp h').1
  have h1 : x.1 ≤ r.1 := by
    rcases mem_cover_cons.mp ((hc r.1).mp
      (mem_cover_cons.mpr (.inl ⟨Nat.le_refl _, hr⟩))) with hi | hi
    · exact hi.1
    · have := h'.lt_of_mem_cover hi
      omega
  refine ⟨h1, Nat.le_of_not_lt fun hlt => ?_⟩
  -- the number right behind `r` is in the gap of the one list and in `x`
  rcases mem_cover_cons.mp ((hc (r.2 + 1)).mpr
    (mem_cover_cons.mpr (.inl ⟨by omega, hlt⟩))) with hi | hi
  · omega
  · exact Nat.lt_irrefl _ (h.lt_of_mem_cover hi)

theorem Gapped.ext (h : Gapped rs) (h' : Gapped ts) (hc : ∀ i, i ∈ cover rs ↔ i ∈ cover ts) :
    rs = ts := by
  induction rs generalizing ts with
  | nil =>
    cases ts with
    | nil => rfl
    | cons x ts =>
      simpa using (hc x.1).mpr (mem_cover_cons.mpr (.inl ⟨Nat.le_refl _, (gapped_cons.mp h').1⟩))
  | cons r rs ih =>
    cases ts with
    | nil =>
      simpa using (hc r.1).mp (mem_cover_cons.mpr (.inl ⟨Nat.le_refl _, (gapped_cons.mp h).1⟩))
    | cons x ts =>
      have hle := h.head_le h' hc
      have hge := h'.head_le h fun i => (hc i).symm
      obtain rfl : r = x := Prod.ext (by omega) (by omega)
      rw [ih (gapped_cons.mp h).2.2 (gapped_cons.mp h').2.2 fun i => ?_]
      have hi := hc i
      rw [mem_cover_cons, mem_cover_cons] at hi
      have := @Gapped.lt_of_mem_cover _ i _ h
      have := @Gapped.lt_of_mem_cover _ i _ h'
      grind

theorem Gapped.replace {r' : Nat × Nat} (h : Gapped (l ++ r :: t)) (hne : r'.1 ≤ r'.2)
    (hlo : r.1 ≤ r'.1) (hhi : r'.2 ≤ r.2) : Gapped (l ++ r' :: t) := by
  obtain ⟨hn, hg⟩ := h
  rw [pairwise_append, pairwise_cons] at hg
  obtain ⟨hl, ⟨hrt, ht⟩, hlt⟩ := hg
  refine ⟨fun x hx => ?_, pairwise_append.mpr ⟨hl, pairwise_cons.mpr ⟨fun x hx => ?_, ht⟩,
    fun a ha b hb => ?_⟩⟩
  · rw [mem_append, mem_cons] at hx
    rcases hx with hx | rfl | hx
    · exact hn x (mem_append_left _ hx)
    · exact hne
    · exact hn x (mem_append_right _ (mem_cons_of_mem _ hx))
  · have := hrt x hx
    omega
  · rcases mem_cons.mp hb with rfl | hb
    · have := hlt a ha r mem_cons_self
      omega
    · exact hlt a ha b (mem_cons_of_mem _ hb)

theorem Gapped.erase (h : Gapped (l ++ r :: t)) : Gapped (l ++ t) := by
  have hs : (l ++ t).Sublist (l ++ r :: t) :=
    (Sublist.refl l).append (sublist_cons_self r t)
  exact ⟨fun x hx => h.nonempty x (hs.subset hx), h.gaps.sublist hs⟩

/-! ## 2. Taking numbers out -/

/-- `ids` were taken out of the ranges `rs` and `rs'` is left. -/
structure Taken (rs : List (Nat × Nat)) (ids : List Nat) (rs' : List (Nat × Nat)) : Prop where
  gapped : Gapped rs'
  nodup : ids.Nodup
  split : ∀ i, i ∈ cover rs ↔ i ∈ ids ∨ i ∈ cover rs'
  apart : ∀ i ∈ ids, i ∉ cover rs'

/-- What a range of the middle leaves when its first `n` elements are taken. -/
def leftOver (r : Nat × Nat) (n : Nat) : List (Nat × Nat) :=
  if r.1 + n ≤ r.2 then [(r.1 + n, r.2)] else []

theorem taken_from_range {n : Nat} (h : Gapped (l ++ r :: t)) (hn : n ≤ size r) :
    Taken (l ++ r :: t) (range' r.1 n) (l ++ leftOver r n ++ t) := by
  have hr : r.1 ≤ r.2 := h.nonempty r (by simp)
  have hm : ∀ i, i ∈ cover (leftOver r n) ↔ r.1 + n ≤ i ∧ i ≤ r.2 := by
    intro i
    unfold leftOver
    split
    · simp [cover]
    · simp only [cover_nil, Finset.notMem_empty, false_iff]
      omega
  have ho : ∀ i, r.1 ≤ i → i ≤ r.2 → i ∉ cover l ∧ i ∉ cover t := by
    intro i hlo hhi
    obtain ⟨_, hg⟩ := h
    rw [pairwise_append, pairwise_cons] at hg
    constructor
    · intro hi
      obtain ⟨x, hx, _, hle⟩ := mem_cover.mp hi
      have := hg.2.2 x hx r mem_cons_self
      omega
    · intro hi
      obtain ⟨x, hx, hle, _⟩ := mem_cover.mp hi
      have := hg.2.1.1 x hx
      omega
  refine ⟨?_, nodup_range', fun i => ?_, fun i hi => ?_⟩
  · unfold leftOver
    split
    · rw [append_assoc]
      exact h.replace (show (r.1 + n, r.2).1 ≤ (r.1 + n, r.2).2 by omega) (by omega) (by omega)
    · rw [append_nil]
      exact h.erase
  · simp only [mem_cover_append, mem_cover_cons, hm, mem_range'_1]
    have hs : r.1 + n ≤ r.2 + 1 := by
      simp only [size] at hn
      omega
    constructor
    · rintro (hi | hi | hi)
      · exact .inr (.inl (.inl hi))
      · by_cases hlt : i < r.1 + n
        · exact .inl ⟨hi.1, hlt⟩
        · exact .inr (.inl (.inr ⟨by omega, hi.2⟩))
      · exact .inr (.inr hi)
    · rintro (hi | (hi | hi) | hi)
      · exact .inr (.inl ⟨hi.1, by omega⟩)
      · exact .inl hi
      · exact .inr (.inl ⟨by omega, hi.2⟩)
      · exact .inr (.inr hi)
  · rw [mem_range'_1] at hi
    simp only [size] at hn
    have := ho i hi.1 (by omega)
    simp only [mem_cover_append, hm]
    rintro ((hc | hc) | hc)
    · exact this.1 hc
    · omega
    · exact this.2 hc

theorem Taken.append {rs' rs'' : List (Nat × Nat)} {ids ids' : List Nat} (h : Taken rs ids rs')
    (h' : Taken rs' ids' rs'') : Taken rs (ids ++ ids') rs'' := by
  refine ⟨h'.gapped, nodup_append.mpr ⟨h.nodup, h'.nodup, ?_⟩, fun i => ?_, fun i hi => ?_⟩
  · rintro x hx y hy rfl
    exact h.apart x hx ((h'.split x).mpr (.inl hy))
  · rw [h.split, h'.split, mem_append, or_assoc]
  · rcases mem_append.mp hi with hi | hi
    · exact fun hc => h.apart i hi ((h'.split i).mpr (.inr hc))
    · exact h'.apart i hi

/-- Taking `need` elements from the front, range after range: `pop(0)`, put back what is left of
    the last one. `none` is the `pop` of an empty list. -/
def takeFront : Nat → List (Nat × Nat) → Option (List Nat × List (Nat × Nat))
  | 0, rs => some ([], rs)
  | _ + 1, [] => none
  | need + 1, r :: rs =>
    let take := min (need + 1) (size r)
    if r.1 + take ≤ r.2 then
      -- a remainder goes back only when `take` was all that was needed: the loop ends
      some (range' r.1 take, (r.1 + take, r.2) :: rs)
    else
      (takeFront (need + 1 - take) rs).map fun (ids, rest) => (range' r.1 take ++ ids, rest)

theorem takeFront_taken {ne : Nat} (h : Gapped rs) (hn : ne ≤ total rs) :
    ∃ ids rs', takeFront ne rs = some (ids, rs') ∧ Taken rs ids rs' ∧ ids.length = ne := by
  induction rs generalizing ne with
  | nil =>
    rw [total_nil, Nat.le_zero] at hn
    subst hn
    exact ⟨[], [], rfl, ⟨h, nodup_nil, by simp, by simp⟩, rfl⟩
  | cons r rs ih =>
    obtain ⟨hr, _, hrs⟩ := gapped_cons.mp h
    cases ne with
    | zero => exact ⟨[], r :: rs, rfl, ⟨h, nodup_nil, by simp, by simp⟩, rfl⟩
    | succ ne =>
      rw [total_cons] at hn
      have ht := taken_from_range (l := []) (n := min (ne + 1) (size r)) h (Nat.min_le_right ..)
      simp only [nil_append, leftOver] at ht
      by_cases hle : r.1 + min (ne + 1) (size r) ≤ r.2
      · rw [if_pos hle, singleton_append] at ht
        refine ⟨_, _, by simp only [takeFront, if_pos hle], ht, ?_⟩
        simp only [size] at hle ⊢
        rw [length_range']
        omega
      · rw [if_neg hle, nil_append] at ht
        obtain ⟨ids, rs', hrun, hi, hl⟩ :=
          ih hrs (show ne + 1 - min (ne + 1) (size r) ≤ total rs by omega)
        refine ⟨_, _, by simp only [takeFront, if_neg hle, hrun, Option.map_some], ht.append hi, ?_⟩
        rw [length_append, length_range', hl]
        omega

/-! ## 3. Joining touching ranges -/

/-- One step of the sweep: a range that neither overlaps nor touches the last one is appended,
    any other extends it. -/
def coalesceStep (merged : List (Nat × Nat)) (r : Nat × Nat) : List (Nat × Nat) :=
  match merged.getLast? with
  | none => merged ++ [r]
  | some last =>
    if last.2 + 1 < r.1 then
      merged ++ [r]
    else
      merged.dropLast ++ [(last.1, max last.2 r.2)]

def coalesce (rs : List (Nat × Nat)) : List (Nat × Nat) := rs.foldl coalesceStep []

theorem coalesceStep_spec {mg : List (Nat × Nat)} (h : Gapped mg) (hr : r.1 ≤ r.2)
    (hs : ∀ m ∈ mg, m.1 ≤ r.1) : Gapped (coalesceStep mg r) ∧
      (∀ i, i ∈ cover (coalesceStep mg r) ↔ i ∈ cover mg ∨ (r.1 ≤ i ∧ i ≤ r.2)) ∧
      ∀ m ∈ coalesceStep mg r, m.1 ≤ r.1 := by
  unfold coalesceStep
  rcases eq_nil_or_concat' mg with rfl | ⟨init, la, rfl⟩
  · simp [gapped_cons, gapped_nil, hr, mem_cover_cons]
  · rw [getLast?_concat]
    have hl : la.1 ≤ r.1 := hs la (by simp)
    have hne : la.1 ≤ la.2 := h.nonempty la (by simp)
    have hg := h.gaps
    rw [pairwise_append] at hg
    by_cases hlt : la.2 + 1 < r.1
    · simp only [if_pos hlt]
      refine ⟨⟨fun m hm => ?_, pairwise_append.mpr ⟨h.gaps, by simp, fun a ha b hb => ?_⟩⟩,
        fun i => ?_, fun m hm => ?_⟩
      · rcases mem_append.mp hm with hm | hm
        · exact h.nonempty m hm
        · rwa [mem_singleton.mp hm]
      · rw [mem_singleton.mp hb]
        rcases mem_append.mp ha with ha | ha
        · have := hg.2.2 a ha la (by simp)
          omega
        · rwa [mem_singleton.mp ha]
      · rw [mem_cover_append, mem_cover_cons]
        simp
      · rcases mem_append.mp hm with hm | hm
        · exact hs m hm
        · rw [mem_singleton.mp hm]
    · simp only [if_neg hlt, dropLast_concat]
      refine ⟨⟨fun m hm => ?_, pairwise_append.mpr ⟨hg.1, by simp, fun a ha b hb => ?_⟩⟩,
        fun i => ?_, fun m hm => ?_⟩
      · rcases mem_append.mp hm with hm | hm
        · exact h.nonempty m (mem_append_left _ hm)
        · rw [mem_singleton.mp hm]
          exact Nat.le_trans hne (Nat.le_max_left _ _)
      · rw [mem_singleton.mp hb]
        exact hg.2.2 a ha la (by simp)
      · simp only [mem_cover_append, mem_cover_cons, cover_nil, Finset.notMem_empty, or_false,
          or_assoc]
        refine or_congr Iff.rfl ?_
        -- the joined range is the union: `r` starts inside `la` or right behind it
        omega
      · rcases mem_append.mp hm with hm | hm
        · exact hs m (mem_append_left _ hm)
        · rw [mem_singleton.mp hm]
          exact hl

/-- **The sweep is canonical**: on nonempty ranges sorted by start it returns the canonical ranges
    of the same set. -/
theorem coalesce_spec (hne : ∀ r ∈ rs, r.1 ≤ r.2) (hso : rs.Pairwise fun a b => a.1 ≤ b.1) :
    Gapped (coalesce rs) ∧ cover (coalesce rs) = cover rs := by
  -- the accumulator is canonical and none of its ranges starts past what is still to come
  have sweep : ∀ (ts mg : List (Nat × Nat)), Gapped mg → (∀ r ∈ ts, r.1 ≤ r.2) →
      ts.Pairwise (fun a b => a.1 ≤ b.1) → (∀ m ∈ mg, ∀ r ∈ ts, m.1 ≤ r.1) →
      Gapped (ts.foldl coalesceStep mg) ∧ ∀ i, i ∈ cover (ts.foldl coalesceStep mg) ↔ i ∈ cover mg ∨
        i ∈ cover ts := by
    intro ts
    induction ts with
    | nil =>
      intro mg hm _ _ _
      exact ⟨hm, by simp⟩
    | cons r ts ih =>
      intro mg hm hne hs hst
      rw [pairwise_cons] at hs
      obtain ⟨hg, hc, hle⟩ := coalesceStep_spec hm (hne r mem_cons_self)
        fun m hmem => hst m hmem r mem_cons_self
      obtain ⟨hg', hc'⟩ := ih (coalesceStep mg r) hg (fun t ht => hne t (mem_cons_of_mem _ ht)) hs.2
        fun m hmem t ht => Nat.le_trans (hle m hmem) (hs.1 t ht)
      refine ⟨hg', fun i => ?_⟩
      rw [foldl_cons, hc', hc, mem_cover_cons, or_assoc]
  obtain ⟨hg, hc⟩ := sweep rs [] gapped_nil hne hso (by simp)
  refine ⟨hg, Finset.ext fun i => ?_⟩
  rw [coalesce, hc]
  simp

end Ranges
