/-
  Subject:   REPEATED PATTERNS AT THE END OF AN OUTPUT (`check_sequence_repetition`,
  `v1/core/sched/utils.py`).

  * `repetition_iff` -- the nested scan finds a pattern exactly if there is one of an allowed
    length.
-/
import Mathlib

namespace VllmDual.Sched

open List

/-- What `__post_init__` accepts. -/
structure RepetitionDetectionParams where
  maxPatternSize : Int
  minPatternSize : Int
  minCount : Int
  sizes : 0 ≤ minPatternSize ∧ minPatternSize ≤ maxPatternSize
  count : 0 < maxPatternSize → 2 ≤ minCount

variable (tokenIds : List Nat)

/-- `token_ids[-n]` for a positive `n`; none is an `IndexError`. -/
def fromEnd (n : Nat) : Option Nat := tokenIds.reverse[n - 1]?

/-- `_has_repeating_pattern`; both loops end at the first other token. -/
def hasRepeatingPattern (patternLen repetitionMinCount : Nat) : Option Bool :=
  (range' 1 patternLen).allM fun n => do
    let target ← fromEnd tokenIds n
    (range' 1 (repetitionMinCount - 1)).allM fun m => do
      return (← fromEnd tokenIds (patternLen * m + n)) = target

/-- The loop of `check_sequence_repetition`. -/
def checkSizes (minCount : Nat) : List Nat → Option Bool
  | [] => some false
  | patternLen :: sizes => do
    if tokenIds.length < patternLen * minCount then return false
    if ← hasRepeatingPattern tokenIds patternLen minCount then return true
    checkSizes minCount sizes

def checkSequenceRepetition (params : RepetitionDetectionParams) : Option Bool :=
  let minPatternSize := if params.minPatternSize ≤ 0 then 1 else params.minPatternSize
  if params.maxPatternSize ≤ 0 ∨ params.minCount < 2 ∨ params.maxPatternSize < minPatternSize then
    some false
  else checkSizes tokenIds params.minCount.toNat
    (range' minPatternSize.toNat (params.maxPatternSize + 1 - minPatternSize).toNat)

/-- The last `p * c` tokens are `c` copies of the last `p`. -/
def Repeats (p c : Nat) : Prop :=
  p * c ≤ tokenIds.length ∧ tokenIds.drop (tokenIds.length - p * c)
    = (replicate c (tokenIds.drop (tokenIds.length - p))).flatten

variable {l : List Nat} {p c : Nat}

theorem allM_eq_some {β : Type} {f : β → Option Bool} {g : β → Bool} {xs : List β}
    (h : ∀ x ∈ xs, f x = some (g x)) : xs.allM f = some (xs.all g) := by
  induction xs with
  | nil => rfl
  | cons x xs ih =>
    rw [allM, h x mem_cons_self]
    cases hx : g x with
    | false => simp [hx]
    | true => simpa [hx] using ih fun y hy => h y (mem_cons_of_mem _ hy)

theorem take_eq_copies_iff (h : p * c ≤ l.length) :
    l.take (p * c) = (replicate c (l.take p)).flatten ↔
    ∀ m < c, ∀ k < p, l[p * m + k]? = l[k]? := by
  induction c with
  | zero => simp
  | succ c ih =>
    rw [Nat.mul_succ] at h ⊢
    have hlen : (l.take (p * c)).length = (replicate c (l.take p)).flatten.length := by
      have hp := min_eq_left (show p ≤ l.length by omega)
      simp [hp, Nat.mul_comm c]
      omega
    have hlast : (l.drop (p * c)).take p = l.take p ↔ ∀ k < p, l[p * c + k]? = l[k]? := by
      rw [List.ext_getElem?_iff]
      refine forall_congr' fun k => ?_
      by_cases hk : k < p <;> simp [hk]
    rw [take_add, replicate_succ', flatten_append, flatten_singleton, Nat.forall_lt_succ_right,
      ← ih (by omega), ← hlast]
    exact ⟨fun e => append_inj e hlen, fun ⟨e, e'⟩ => e ▸ e' ▸ rfl⟩

theorem hasRepeatingPattern_iff (hc : 0 < c) (h : p * c ≤ l.length) :
    ∃ b, hasRepeatingPattern l p c = some b ∧ (b = true ↔ Repeats l p c) := by
  have hin : ∀ m < c, ∀ k < p, ∃ t, l.reverse[p * m + k]? = some t := fun m hm k hk => by
    have := Nat.mul_le_mul_left p (Nat.succ_le_of_lt hm)
    rw [Nat.mul_succ] at this
    exact ⟨_, getElem?_eq_getElem (by simp; omega)⟩
  refine ⟨_, allM_eq_some (g := fun n => (range' 1 (c - 1)).all fun m =>
    l.reverse[p * m + (n - 1)]? = l.reverse[n - 1]?) fun n hn => ?_, ?_⟩
  · have hn := mem_range'_1.1 hn
    obtain ⟨t, ht⟩ := hin 0 hc (n - 1) (by omega)
    rw [Nat.mul_zero, Nat.zero_add] at ht
    rw [fromEnd, ht]
    refine allM_eq_some fun m hm => ?_
    have hm := mem_range'_1.1 hm
    obtain ⟨x, hx⟩ := hin m (by omega) (n - 1) (by omega)
    rw [fromEnd, Nat.add_sub_assoc hn.1, hx]
    simp
  · have hr : Repeats l p c ↔ l.reverse.take (p * c)
      = (replicate c (l.reverse.take p)).flatten := by
      rw [take_reverse, take_reverse, ← reverse_inj, reverse_reverse, reverse_flatten]
      simp [Repeats, h]
    rw [hr, take_eq_copies_iff (by simpa)]
    simp only [all_eq_true, decide_eq_true_eq, mem_range'_1]
    refine ⟨fun H m hm k hk => ?_, fun H n hn m hm => H m (by omega) (n - 1) (by omega)⟩
    rcases Nat.eq_zero_or_pos m with rfl | h0
    · simp
    · exact H (k + 1) (by omega) m (by omega)

theorem checkSizes_iff (hc : 0 < c) (n : Nat) :
    ∃ b, checkSizes l c (range' p n) = some b ∧ (b = true ↔ ∃ q ∈ range' p n, Repeats l q c) := by
  induction n generalizing p with
  | zero => exact ⟨false, rfl, by simp⟩
  | succ n ih =>
    rw [range'_succ, checkSizes]
    by_cases hl : l.length < p * c
    · -- longer patterns do not fit either
      refine ⟨false, by simp [hl], by simp, fun ⟨q, hq, hr⟩ => ?_⟩
      have hle : p ≤ q := by
        rw [← range'_succ] at hq
        exact (mem_range'_1.1 hq).1
      have := Nat.mul_le_mul_right c hle
      have := hr.1
      omega
    · obtain ⟨b, hb, hiff⟩ := hasRepeatingPattern_iff hc (Nat.le_of_not_lt hl)
      cases b with
      | true => exact ⟨true, by simp [hl, hb], by simp [← hiff]⟩
      | false =>
        obtain ⟨b, hb', hiff'⟩ := ih (p := p + 1)
        exact ⟨b, by simp [hl, hb, hb'], by simp [hiff', ← hiff]⟩

/-- **A repetition is reported exactly if there is one**, and the scan never reads past the list. -/
theorem repetition_iff (tokenIds : List Nat) (params : RepetitionDetectionParams) :
    ∃ b, checkSequenceRepetition tokenIds params = some b ∧ (b = true ↔
      ∃ p : Nat, 0 < p ∧ params.minPatternSize ≤ p ∧ p ≤ params.maxPatternSize ∧
        Repeats tokenIds p params.minCount.toNat) := by
  have hs := params.sizes
  unfold checkSequenceRepetition
  by_cases h0 : params.maxPatternSize ≤ 0
  · exact ⟨false, by simp [h0], by simp, fun ⟨p, hp⟩ => by omega⟩
  · have hc := params.count (by omega)
    rw [if_neg (by split <;> omega)]
    refine (checkSizes_iff (by omega) _).imp fun b ⟨hb, hiff⟩ => ⟨hb, hiff.trans ?_⟩
    simp only [mem_range'_1]
    refine exists_congr fun p => ?_
    rw [← and_assoc, ← and_assoc]
    refine and_congr_left fun _ => ?_
    split <;> omega

end VllmDual.Sched
