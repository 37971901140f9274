/-
  Subject:   ONE STEP OF A RESIDENT CACHE, AS IT IS MEANT.

  A request keeps latents of tokens in scratch slots. A step selects a set of tokens: those that are
  resident stay where they are, the others go, in order, to the lowest slots that no resident one
  holds. This file states the step without saying how it is computed.
-/
import VllmDual.Lib.Scatter

namespace VllmDual.Resident

open Scatter Finset Int Nat

/-- A request's maps, slot to token (`slots`) and token to slot (`reverse`), with -1 for nothing,
    and the tokens a step selects. Reverse entries go up to `stride`, the last is a sentinel. -/
structure Row where
  capacity : Nat
  stride : Nat
  count : Nat
  tokens : Nat → Int
  slots : Nat → Int
  reverse : Nat → Int

/-- A live entry: the slot holds a token, and the token's reverse entry is the slot. -/
def Live (capacity stride : Nat) (slots reverse : Nat → Int) : Prop :=
  ∀ a < capacity, 0 ≤ slots a → slots a < (stride : Int) - 1 ∧ reverse (slots a).toNat = a

namespace Row

variable {x : Row} {i j a t : Nat}

/-- The tokens are distinct and in range, no more than the slots; no reverse entry is beyond the
    slots; and the entries of the slots are live. -/
structure WF (x : Row) : Prop where
  count_le : x.count ≤ x.capacity
  nonneg : ∀ {j}, j < x.count → 0 ≤ x.tokens j
  lt : ∀ {j}, j < x.count → x.tokens j < (x.stride : Int) - 1
  inj : ∀ {i j}, i < x.count → j < x.count → x.tokens i = x.tokens j → i = j
  reverse_lt : ∀ {t}, t < x.stride → x.reverse t < x.capacity
  live : Live x.capacity x.stride x.slots x.reverse

theorem WF.toNat_lt (h : x.WF) (hj : j < x.count) : (x.tokens j).toNat < x.stride := by
  have h₀ := h.nonneg hj
  have h₁ := h.lt hj
  omega

/-! ## 1. Hits and misses -/

def oldSlot (x : Row) (j : Nat) : Int := x.reverse (x.tokens j).toNat

def Hit (x : Row) (j : Nat) : Prop :=
  0 ≤ x.oldSlot j ∧ x.oldSlot j < x.capacity ∧ x.slots (x.oldSlot j).toNat = x.tokens j

instance (x : Row) : DecidablePred x.Hit := fun _ => inferInstanceAs (Decidable (_ ∧ _ ∧ _))

def Miss (x : Row) (j : Nat) : Prop := j < x.count ∧ ¬ x.Hit j

instance (x : Row) : DecidablePred x.Miss := fun _ => inferInstanceAs (Decidable (_ ∧ _))

def Free (x : Row) (a : Nat) : Prop := ∀ j < x.count, x.Hit j → x.oldSlot j ≠ a

instance (x : Row) : DecidablePred x.Free :=
  fun a => inferInstanceAs (Decidable (∀ j < x.count, x.Hit j → x.oldSlot j ≠ a))

def freeSlots (x : Row) : List Nat := (List.range x.capacity).filter (x.Free ·)

/-- Resident tokens keep their slots, the others get the free ones in order. -/
def assign (x : Row) (j : Nat) : Int :=
  if x.Hit j then x.oldSlot j else (x.freeSlots[Nat.count x.Miss j]?).elim (-1) Nat.cast

theorem mem_freeSlots : a ∈ x.freeSlots ↔ a < x.capacity ∧ x.Free a := by
  rw [freeSlots, List.mem_filter, List.mem_range, decide_eq_true_eq]

theorem count_not_free_le :
    Nat.count (fun a => ¬ x.Free a) x.capacity ≤ Nat.count x.Hit x.count := by
  rw [count_eq_card_filter_range, count_eq_card_filter_range]
  refine (card_le_card (t := ((Finset.range x.count).filter x.Hit).image
    fun j => (x.oldSlot j).toNat) fun a ha => ?_).trans card_image_le
  obtain ⟨-, hf⟩ := mem_filter.mp ha
  obtain ⟨j, hj, hh, hsl⟩ : ∃ j < x.count, x.Hit j ∧ x.oldSlot j = a := by
    simpa [Free] using hf
  refine mem_image.mpr ⟨j, mem_filter.mpr ⟨mem_range.mpr hj, hh⟩, ?_⟩
  rw [hsl, toNat_natCast]

theorem count_miss_add_hit : Nat.count x.Miss x.count + Nat.count x.Hit x.count = x.count := by
  have hm : Nat.count x.Miss x.count = Nat.count (fun j => ¬ x.Hit j) x.count := by
    rw [count_eq_card_filter_range, count_eq_card_filter_range]
    congr 1
    refine filter_congr fun j hj => ?_
    exact and_iff_right (mem_range.mp hj)
  rw [hm, count_eq_card_filter_range, count_eq_card_filter_range, Nat.add_comm,
    card_filter_add_card_filter_not, card_range]

theorem count_miss_le (h : x.WF) : Nat.count x.Miss x.count ≤ x.freeSlots.length := by
  have hle := x.count_not_free_le
  have hsum := x.count_miss_add_hit
  have hc := h.count_le
  have hf : Nat.count x.Free x.capacity + Nat.count (fun a => ¬ x.Free a) x.capacity
      = x.capacity := by
    rw [count_eq_card_filter_range, count_eq_card_filter_range, card_filter_add_card_filter_not,
      card_range]
  rw [freeSlots, length_filter_range]
  omega

/-! ## 2. The assignment -/

theorem assign_of_hit (h : x.Hit j) : x.assign j = x.oldSlot j := if_pos h

theorem exists_assign_of_miss (h : x.WF) (hm : x.Miss j) :
    ∃ a : Nat, x.freeSlots[Nat.count x.Miss j]? = some a ∧ x.assign j = a := by
  have hlt : Nat.count x.Miss j < x.freeSlots.length :=
    (count_strict_mono hm hm.1).trans_le (x.count_miss_le h)
  refine ⟨_, List.getElem?_eq_getElem hlt, ?_⟩
  rw [assign, if_neg hm.2, List.getElem?_eq_getElem hlt]
  rfl

theorem assign_free (h : x.WF) (hm : x.Miss j) :
    ∃ a : Nat, x.assign j = a ∧ a < x.capacity ∧ x.Free a := by
  obtain ⟨a, hg, ha⟩ := x.exists_assign_of_miss h hm
  exact ⟨a, ha, mem_freeSlots.mp (List.mem_of_getElem? hg)⟩

theorem assign_bounds (h : x.WF) (hj : j < x.count) : 0 ≤ x.assign j ∧ x.assign j < x.capacity := by
  by_cases hh : x.Hit j
  · rw [assign_of_hit hh]
    exact ⟨hh.1, hh.2.1⟩
  · obtain ⟨a, ha, hlt, -⟩ := x.assign_free h ⟨hj, hh⟩
    omega

theorem assign_inj (h : x.WF) (hi : i < x.count) (hj : j < x.count)
    (heq : x.assign i = x.assign j) : i = j := by
  -- a resident token and one that misses are apart: the latter's slot is free
  have hm : ∀ {i j}, i < x.count → x.Hit i → x.Miss j → x.assign i ≠ x.assign j := by
    intro i j hi hh hmi heq
    obtain ⟨a, ha, -, hf⟩ := x.assign_free h hmi
    exact hf i hi hh (by rw [← assign_of_hit hh, heq, ha])
  by_cases hhi : x.Hit i
  · by_cases hhj : x.Hit j
    · rw [assign_of_hit hhi, assign_of_hit hhj] at heq
      refine h.inj hi hj ?_
      rw [← hhi.2.2, ← hhj.2.2, heq]
    · exact absurd heq (hm hi hhi ⟨hj, hhj⟩)
  · by_cases hhj : x.Hit j
    · exact absurd heq.symm (hm hj hhj ⟨hi, hhi⟩)
    · obtain ⟨a, hg, ha⟩ := x.exists_assign_of_miss h ⟨hi, hhi⟩
      obtain ⟨b, hg', ha'⟩ := x.exists_assign_of_miss h ⟨hj, hhj⟩
      have hab : a = b := by
        rw [ha, ha'] at heq
        exact_mod_cast heq
      rw [← hab] at hg'
      have hn : x.freeSlots.Nodup := List.nodup_range.filter _
      have hc := (List.getElem?_inj (List.getElem?_eq_some_iff.mp hg).1 hn).mp (hg.trans hg'.symm)
      exact count_injective (⟨hi, hhi⟩ : x.Miss i) (⟨hj, hhj⟩ : x.Miss j) hc

theorem evicted_ne (h : x.WF) (hm : x.Miss j) (hi : i < x.count)
    (hold : 0 ≤ x.slots (x.assign j).toNat) : x.slots (x.assign j).toNat ≠ x.tokens i := by
  intro heq
  obtain ⟨a, ha, hlt, hf⟩ := x.assign_free h hm
  rw [ha, toNat_natCast] at heq hold
  have hl := (h.live a hlt hold).2
  rw [heq] at hl
  have hh : x.Hit i := by
    refine ⟨?_, ?_, ?_⟩ <;> rw [oldSlot, hl]
    · omega
    · omega
    · rw [toNat_natCast, heq]
  exact hf i hi hh hl

/-! ## 3. The outcome -/

/-- The outcome of the step: the selected tokens are in their slots and have reverse entries; the
    tokens they have displaced lose theirs; everything else stays. -/
structure Done (x : Row) (slots reverse : Nat → Int) : Prop where
  slot : ∀ {j}, j < x.count → slots (x.assign j).toNat = x.tokens j
  slot_else : ∀ {a : Nat}, a < x.capacity → (∀ j < x.count, x.assign j ≠ a) → slots a = x.slots a
  entry : ∀ {j}, j < x.count → reverse (x.tokens j).toNat = x.assign j
  entry_evicted : ∀ {j}, x.Miss j → 0 ≤ x.slots (x.assign j).toNat →
    reverse (x.slots (x.assign j).toNat).toNat = -1
  entry_else : ∀ {t : Nat}, (t : Int) < (x.stride : Int) - 1 → (∀ j < x.count, x.tokens j ≠ t) →
    (∀ j, x.Miss j → x.slots (x.assign j).toNat ≠ t) → reverse t = x.reverse t

variable {ss ss' r r' : Nat → Int}

theorem Done.slots_eq (hd : x.Done ss r) (hd' : x.Done ss' r') (ha : a < x.capacity) :
    ss a = ss' a := by
  by_cases hex : ∃ j < x.count, x.assign j = a
  · obtain ⟨j, hj, heq⟩ := hex
    have h := (hd.slot hj).trans (hd'.slot hj).symm
    rwa [heq, toNat_natCast] at h
  · have hne : ∀ j < x.count, x.assign j ≠ a := fun j hj heq => hex ⟨j, hj, heq⟩
    rw [hd.slot_else ha hne, hd'.slot_else ha hne]

theorem Done.reverse_eq (hd : x.Done ss r) (hd' : x.Done ss' r')
    (ht : (t : Int) < (x.stride : Int) - 1) : r t = r' t := by
  by_cases hsel : ∃ j < x.count, x.tokens j = t
  · obtain ⟨j, hj, heq⟩ := hsel
    have h := (hd.entry hj).trans (hd'.entry hj).symm
    rwa [heq, toNat_natCast] at h
  · by_cases hev : ∃ j, x.Miss j ∧ x.slots (x.assign j).toNat = t
    · obtain ⟨j, hm, heq⟩ := hev
      have hold : 0 ≤ x.slots (x.assign j).toNat := by omega
      have h := (hd.entry_evicted hm hold).trans (hd'.entry_evicted hm hold).symm
      rwa [heq, toNat_natCast] at h
    · have hne : ∀ j < x.count, x.tokens j ≠ t := fun j hj heq => hsel ⟨j, hj, heq⟩
      have hne' : ∀ j, x.Miss j → x.slots (x.assign j).toNat ≠ t :=
        fun j hm heq => hev ⟨j, hm, heq⟩
      rw [hd.entry_else ht hne hne', hd'.entry_else ht hne hne']

theorem Done.live (h : x.WF) (hd : x.Done ss r) : Live x.capacity x.stride ss r := by
  intro a ha hn
  by_cases hex : ∃ j < x.count, x.assign j = a
  · obtain ⟨j, hj, heq⟩ := hex
    have hsl := hd.slot hj
    rw [heq, toNat_natCast] at hsl
    rw [hsl, hd.entry hj]
    exact ⟨h.lt hj, heq⟩
  · have hne : ∀ j < x.count, x.assign j ≠ a := fun j hj heq => hex ⟨j, hj, heq⟩
    rw [hd.slot_else ha hne] at hn ⊢
    obtain ⟨hlt, hr⟩ := h.live a ha hn
    refine ⟨hlt, ?_⟩
    -- the token is neither selected, else it would be a hit in this slot, nor displaced
    have hc : ((x.slots a).toNat : Int) = x.slots a := toNat_of_nonneg hn
    rw [hd.entry_else (by rw [hc]; exact hlt), hr]
    · intro j hj ht
      rw [hc] at ht
      have hold : x.oldSlot j = a := by rw [oldSlot, ht, hr]
      have hh : x.Hit j := by
        refine ⟨?_, ?_, ?_⟩ <;> rw [hold]
        · omega
        · omega
        · rw [toNat_natCast, ht]
      exact hne j hj ((assign_of_hit hh).trans hold)
    · intro j hm heq
      obtain ⟨b, has, hb, -⟩ := x.assign_free h hm
      rw [hc, has, toNat_natCast] at heq
      have hr' := (h.live b hb (by omega)).2
      rw [heq, hr] at hr'
      exact hne j hm.1 (by rw [has]; exact_mod_cast hr'.symm)

theorem Done.reverse_lt (h : x.WF) (hd : x.Done ss r) (ht : (t : Int) < (x.stride : Int) - 1) :
    r t < x.capacity := by
  by_cases hsel : ∃ j < x.count, x.tokens j = t
  · obtain ⟨j, hj, heq⟩ := hsel
    have hr := hd.entry hj
    rw [heq, toNat_natCast] at hr
    rw [hr]
    exact (x.assign_bounds h hj).2
  · by_cases hev : ∃ j, x.Miss j ∧ x.slots (x.assign j).toNat = t
    · obtain ⟨j, hm, heq⟩ := hev
      have hr := hd.entry_evicted hm (by omega)
      rw [heq, toNat_natCast] at hr
      rw [hr]
      omega
    · rw [hd.entry_else ht (fun j hj heq => hsel ⟨j, hj, heq⟩)
        fun j hm heq => hev ⟨j, hm, heq⟩]
      exact h.reverse_lt (by omega)

/-! ## 4. A row's end

Only the slots below the capacity and the reverse entries below the stride are a request's own. -/

section Congr

variable {s v : Nat → Int} (h : x.WF) (hs : ∀ a < x.capacity, x.slots a = s a)
  (hv : ∀ t < x.stride, x.reverse t = v t)
include h hs hv

theorem hit_congr (hj : j < x.count) :
    ({ x with slots := s, reverse := v } : Row).Hit j ↔ x.Hit j := by
  have hold : ({ x with slots := s, reverse := v } : Row).oldSlot j = x.oldSlot j :=
    (hv _ (h.toNat_lt hj)).symm
  unfold Hit
  rw [hold]
  dsimp only
  constructor
  · rintro ⟨h₀, h₁, hsl⟩
    exact ⟨h₀, h₁, (hs _ (by omega)).trans hsl⟩
  · rintro ⟨h₀, h₁, hsl⟩
    exact ⟨h₀, h₁, (hs _ (by omega)).symm.trans hsl⟩

theorem miss_congr : ({ x with slots := s, reverse := v } : Row).Miss j ↔ x.Miss j :=
  and_congr_right fun hj => not_congr (hit_congr h hs hv hj)

theorem assign_congr (hj : j < x.count) :
    ({ x with slots := s, reverse := v } : Row).assign j = x.assign j := by
  have hold : ∀ {i}, i < x.count →
      ({ x with slots := s, reverse := v } : Row).oldSlot i = x.oldSlot i :=
    fun hi => (hv _ (h.toNat_lt hi)).symm
  have hf : ({ x with slots := s, reverse := v } : Row).freeSlots = x.freeSlots := by
    refine List.filter_congr fun a _ => decide_eq_decide.mpr ?_
    refine forall_congr' fun i => forall_congr' fun hi => ?_
    exact imp_congr (hit_congr h hs hv hi) (by rw [hold hi])
  have hc : Nat.count ({ x with slots := s, reverse := v } : Row).Miss j = Nat.count x.Miss j :=
    count_congr fun _ _ => miss_congr h hs hv
  unfold assign
  rw [hf, hc, hold hj]
  simp only [hit_congr h hs hv hj]

theorem wf_congr : ({ x with slots := s, reverse := v } : Row).WF where
  count_le := h.count_le
  nonneg := h.nonneg
  lt := h.lt
  inj := h.inj
  reverse_lt {t} ht := by
    have hlt := h.reverse_lt ht
    rwa [hv t ht] at hlt
  live a ha hnonneg := by
    dsimp only at ha hnonneg ⊢
    rw [← hs a ha] at hnonneg ⊢
    obtain ⟨hlt, hr⟩ := h.live a ha hnonneg
    exact ⟨hlt, (hv _ (by omega)).symm.trans hr⟩

theorem Done.congr (hd : ({ x with slots := s, reverse := v } : Row).Done ss r) : x.Done ss r := by
  have has : ∀ {j}, j < x.count →
      ({ x with slots := s, reverse := v } : Row).assign j = x.assign j := assign_congr h hs hv
  have hh : ∀ {j}, x.Miss j → s (x.assign j).toNat = x.slots (x.assign j).toNat := by
    intro j hm
    have hb := x.assign_bounds h hm.1
    exact (hs _ (by omega)).symm
  refine ⟨fun {j} hj => ?_, fun {a} ha hne => ?_, fun {j} hj => ?_, fun {j} hm hn => ?_,
    fun {t} ht hne hne' => ?_⟩
  · exact has hj ▸ hd.slot hj
  · refine (hd.slot_else ha fun j hj => ?_).trans (hs a ha).symm
    rw [has hj]
    exact hne j hj
  · exact (hd.entry hj).trans (has hj)
  · have he := hd.entry_evicted ((miss_congr h hs hv).mpr hm)
    rw [has hm.1] at he
    rw [← hh hm] at hn ⊢
    exact he hn
  · refine (hd.entry_else ht hne fun j hm => ?_).trans (hv t (by omega)).symm
    have hm' := (miss_congr h hs hv).mp hm
    rw [has hm.1]
    exact fun heq => hne' j hm' ((hh hm').symm.trans heq)

end Congr

/-! ## 5. An empty row -/

section Empty

variable (h : x.WF) (hempty : ∀ a < x.capacity, x.slots a = -1)
include h hempty

theorem miss_of_empty (hj : j < x.count) : x.Miss j := by
  refine ⟨hj, fun ⟨h₀, h₁, hsl⟩ => ?_⟩
  have hn := h.nonneg hj
  rw [← hsl, hempty _ (by omega)] at hn
  omega

theorem count_miss_of_empty (hj : j ≤ x.count) : Nat.count x.Miss j = j := by
  rw [count_congr (q := fun _ => True)
    fun i hi => iff_true_intro (miss_of_empty h hempty (by omega)), count_true]

theorem assign_of_empty (hj : j < x.count) : x.assign j = j := by
  have hm := miss_of_empty h hempty hj
  have hf : x.freeSlots = List.range x.capacity := by
    refine List.filter_eq_self.mpr fun a _ => decide_eq_true fun i hi hh => ?_
    exact absurd hh (miss_of_empty h hempty hi).2
  have hlt : j < (List.range x.capacity).length := by
    rw [List.length_range]
    exact hj.trans_le h.count_le
  rw [assign, if_neg hm.2, count_miss_of_empty h hempty hj.le, hf, List.getElem?_eq_getElem hlt,
    List.getElem_range]
  rfl

end Empty

end Row

end VllmDual.Resident
