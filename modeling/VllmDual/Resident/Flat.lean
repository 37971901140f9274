/-
  Subject:   THE PLANNER'S FLAT MAPS DO THE STEP, ROW BY ROW.

  The planner's maps hold the rows of all states one after the other, and its scatters write to the
  rows of all requests of a batch at once. Requests have states of their own, so a request finds in
  its row what its own step has written there.
-/
import VllmDual.Resident.Planner

namespace VllmDual.Resident

open Scatter Row

/-! ## 1. Valid steps -/

structure Dims.Valid (d : Dims) : Prop where
  capacity_pos : 0 < d.capacity
  capacity_lt : d.capacity < 2 ^ 15
  slotStride : d.capacity < d.slotStride
  tokenStride : 0 < d.tokenStride
  generationStride : 8 ≤ d.generationStride

/-- Distinct valid states, or -1; and for each request distinct tokens in range. -/
structure Batch.Valid (d : Dims) (b : Batch) : Prop where
  state : ∀ {r}, r < b.requestCount → b.requestStateIndices r = -1 ∨
    0 ≤ b.requestStateIndices r ∧ b.requestStateIndices r < d.maxRequests
  distinct : ∀ {r r'}, r < b.requestCount → r' < b.requestCount → 0 ≤ b.requestStateIndices r →
    b.requestStateIndices r = b.requestStateIndices r' → r = r'
  count_le : ∀ {r}, r < b.requestCount → b.selectedCounts r ≤ d.capacity
  nonneg : ∀ {r j}, r < b.requestCount → j < b.selectedCounts r → 0 ≤ b.selectedPacked r j
  lt : ∀ {r j}, r < b.requestCount → j < b.selectedCounts r →
    b.selectedPacked r j < (d.tokenStride : Int) - 1
  inj : ∀ {r i j}, r < b.requestCount → i < b.selectedCounts r → j < b.selectedCounts r →
    b.selectedPacked r i = b.selectedPacked r j → i = j

/-- Each scatter writes every one of its positions once. -/
structure Orders.Valid (d : Dims) (b : Batch) (o : Orders) : Prop where
  rows : ∀ {r}, r < b.requestCount → (o.rows r).Valid d.capacity
  clear : o.clear.Perm (List.range (b.requestCount * d.capacity))
  invalidate : o.invalidate.Perm (List.range (b.requestCount * d.capacity))
  reverse : o.reverse.Perm (List.range (b.requestCount * d.capacity))
  forward : o.forward.Perm (List.range (b.requestCount * d.capacity))
  generations : o.generations.Perm (List.range b.requestCount)

namespace Maps

variable (d : Dims) (m : Maps)

def slotRow (st a : Nat) : Int := m.slotToToken (st * d.slotStride + a)

def tokenRow (st t : Nat) : Int := m.tokenToSlot (st * d.tokenStride + t)

/-- Between steps the entries of every row's slots are live, no reverse entry is beyond the slots,
    and the sentinels hold nothing. -/
structure Inv : Prop where
  live : ∀ st, Live d.capacity d.tokenStride (m.slotRow d st) (m.tokenRow d st)
  reverse_lt : ∀ st {t}, t < d.tokenStride → m.tokenRow d st t < d.capacity
  slot_sentinel : ∀ st, m.slotRow d st d.capacity = -1
  token_sentinel : ∀ st, m.tokenRow d st (d.tokenStride - 1) = -1

end Maps

theorem toInt16_eq {v : Int} (h₀ : -1 ≤ v) (h₁ : v < 2 ^ 15) : toInt16 v = v := by
  unfold toInt16
  exact Int.bmod_eq_of_le (by omega) (by omega)

section Step

variable {d : Dims} {o : Orders} {m : Maps} {w : Workspace} {b : Batch} {r r' j st a t : Nat}

/-! ## 2. Rows are apart -/

theorem safeState_cases (hb : b.Valid d) (hr : r < b.requestCount) :
    (b.requestStateIndices r < 0 ∧ safeState d b r = d.maxRequests + r) ∨
      0 ≤ b.requestStateIndices r ∧ (safeState d b r : Int) = b.requestStateIndices r ∧
        safeState d b r < d.maxRequests := by
  unfold safeState
  rcases hb.state hr with hneg | ⟨hn, hlt⟩
  · left
    rw [if_neg (by omega)]
    exact ⟨by omega, rfl⟩
  · right
    rw [if_pos hn]
    omega

theorem safeState_inj (hb : b.Valid d) (hr : r < b.requestCount) (hr' : r' < b.requestCount)
    (heq : safeState d b r = safeState d b r') : r = r' := by
  rcases safeState_cases hb hr with ⟨_, h⟩ | ⟨hn, h, hlt⟩ <;>
    rcases safeState_cases hb hr' with ⟨_, h'⟩ | ⟨_, h', hlt'⟩
  · omega
  · omega
  · omega
  · exact hb.distinct hr hr' hn (by omega)

/-! ## 3. The cleared slots -/

theorem clearedSlots_of_lt (hd : d.Valid) (hb : b.Valid d) (ho : o.Valid d b)
    (hr : r < b.requestCount) (ha : a < d.capacity) :
    clearedSlots d o m b (safeState d b r * d.slotStride + a)
      = if generationMatches d m b r then m.slotRow d (safeState d b r) a else -1 := by
  have hs := hd.slotStride
  refine scatterFlat_of_eq ho.clear hr ha rfl fun r' a' hr' ha' hi => ?_
  obtain ⟨hst, hc⟩ := (cell_eq_iff (by omega) (by omega)).mp hi
  rw [safeState_inj hb hr' hr hst, hc]
  rfl

theorem clearedSlots_of_ne (hd : d.Valid) (ho : o.Valid d b) (ha : a < d.slotStride)
    (hne : ∀ r < b.requestCount, safeState d b r = st → d.capacity ≤ a) :
    clearedSlots d o m b (st * d.slotStride + a) = m.slotRow d st a := by
  have hs := hd.slotStride
  refine scatterFlat_of_ne ho.clear fun r' a' hr' ha' hi => ?_
  obtain ⟨hst, hc⟩ := (cell_eq_iff (by omega) ha).mp hi
  have hle := hne r' hr' hst
  omega

structure StepOk (d : Dims) (o : Orders) (m : Maps) (b : Batch) : Prop where
  dims : d.Valid
  batch : b.Valid d
  orders : o.Valid d b
  maps : m.Inv d

theorem rowOf_wf (hok : StepOk d o m b) (hr : r < b.requestCount) : (rowOf d o m b r).WF where
  count_le := hok.batch.count_le hr
  nonneg := hok.batch.nonneg hr
  lt := hok.batch.lt hr
  inj := hok.batch.inj hr
  reverse_lt := hok.maps.reverse_lt _
  live := by
    intro a ha hn
    have hs : (rowOf d o m b r).slots a
        = if generationMatches d m b r then m.slotRow d (safeState d b r) a else -1 :=
      clearedSlots_of_lt hok.dims hok.batch hok.orders hr ha
    rw [hs] at hn ⊢
    by_cases hg : generationMatches d m b r = true
    · rw [if_pos hg] at hn ⊢
      exact hok.maps.live _ a ha hn
    · rw [if_neg hg] at hn
      omega

/-! ## 4. The step on the flat maps -/

section Row

variable (hok : StepOk d o m b) (hr : r < b.requestCount)
include hok hr

theorem batchUnionToSlot_eq : batchUnionToSlot d o m w b r j
      = if j < b.selectedCounts r then (rowOf d o m b r).assign j else -1 :=
  unionToSlot_eq (rowOf_wf hok hr) (hok.orders.rows hr)

theorem toInt16_batchUnionToSlot : toInt16 (batchUnionToSlot d o m w b r j)
      = if j < b.selectedCounts r then (rowOf d o m b r).assign j else -1 := by
  have hc := hok.dims.capacity_lt
  rw [batchUnionToSlot_eq hok hr]
  by_cases hj : j < b.selectedCounts r
  · rw [if_pos hj]
    have hb := assign_bounds (rowOf_wf hok hr) hj
    have hlt : (rowOf d o m b r).assign j < d.capacity := hb.2
    exact toInt16_eq (by omega) (by omega)
  · rw [if_neg hj]
    exact toInt16_eq (by omega) (by omega)

theorem forwardIndex_eq :
    (if j < b.selectedCounts r then (batchUnionToSlot d o m w b r j).toNat else d.capacity)
      = if j < b.selectedCounts r then ((rowOf d o m b r).assign j).toNat else d.capacity := by
  by_cases hj : j < b.selectedCounts r
  · rw [if_pos hj, if_pos hj, batchUnionToSlot_eq hok hr, if_pos hj]
  · rw [if_neg hj, if_neg hj]

theorem forwardIndex_lt :
    (if j < b.selectedCounts r then (batchUnionToSlot d o m w b r j).toNat else d.capacity)
      < d.slotStride := by
  have hs := hok.dims.slotStride
  rw [forwardIndex_eq hok hr]
  by_cases hj : j < b.selectedCounts r
  · rw [if_pos hj]
    have hlt : (rowOf d o m b r).assign j < d.capacity :=
      (assign_bounds (rowOf_wf hok hr) hj).2
    omega
  · rwa [if_neg hj]

theorem slotRow_assign (hj : j < b.selectedCounts r) :
    newSlotToToken d o m w b (safeState d b r * d.slotStride + ((rowOf d o m b r).assign j).toNat)
      = b.selectedPacked r j := by
  have hwf := rowOf_wf hok hr
  have hs := hok.dims.slotStride
  have hb := assign_bounds hwf hj
  have hlt : (rowOf d o m b r).assign j < d.capacity := hb.2
  refine scatterFlat_of_eq hok.orders.forward hr (hj.trans_le (hok.batch.count_le hr))
    (by rw [forwardIndex_eq hok hr, if_pos hj]) fun r' j' hr' hj' hi => ?_
  obtain ⟨hst, hc⟩ := (cell_eq_iff (forwardIndex_lt hok hr') (by omega)).mp hi
  cases safeState_inj hok.batch hr' hr hst
  rw [forwardIndex_eq hok hr] at hc
  by_cases hj'' : j' < b.selectedCounts r
  · rw [if_pos hj''] at hc ⊢
    have hb' := assign_bounds hwf hj''
    rw [assign_inj hwf hj'' hj (by omega)]
  · rw [if_neg hj''] at hc
    omega

omit hr in
theorem slotRow_else (ha : a < d.slotStride)
    (hne : ∀ r < b.requestCount, safeState d b r = st →
      ∀ j < b.selectedCounts r, (rowOf d o m b r).assign j ≠ a) :
    newSlotToToken d o m w b (st * d.slotStride + a)
      = clearedSlots d o m b (st * d.slotStride + a) := by
  refine scatterFlat_of_same hok.orders.forward fun r' j' hr' hj' hi => ?_
  obtain ⟨hst, hc⟩ := (cell_eq_iff (forwardIndex_lt hok hr') ha).mp hi
  rw [forwardIndex_eq hok hr'] at hc
  by_cases hj'' : j' < b.selectedCounts r'
  · rw [if_pos hj''] at hc
    have hb := assign_bounds (rowOf_wf hok hr') hj''
    exact absurd (by omega) (hne r' hr' hst j' hj'')
  · -- the positions beyond the count write nothing to the sentinel, which holds nothing
    rw [if_neg hj''] at hc ⊢
    rw [clearedSlots_of_ne hok.dims hok.orders ha fun _ _ _ => hc.le, ← hc]
    exact (hok.maps.slot_sentinel st).symm

theorem evicted_lt (hm : (rowOf d o m b r).Miss j)
    (hn : 0 ≤ (rowOf d o m b r).slots ((rowOf d o m b r).assign j).toNat) :
    (rowOf d o m b r).slots ((rowOf d o m b r).assign j).toNat < (d.tokenStride : Int) - 1 := by
  have hwf := rowOf_wf hok hr
  have hb := assign_bounds hwf hm.1
  exact (hwf.live _ (by omega) hn).1

theorem overwritten_eq (hm : (rowOf d o m b r).Miss j) :
    (rowOf d o m b r).overwritten (o.rows r) (w.availableByRank r) j
      = (rowOf d o m b r).slots ((rowOf d o m b r).assign j).toNat := by
  have hwf := rowOf_wf hok hr
  have hb := assign_bounds hwf hm.1
  rw [overwritten, freeSource_of_miss hwf (hok.orders.rows hr) hm, clampSlot_eq hb.1 hb.2]

theorem invalidateIndex_of_miss (hm : (rowOf d o m b r).Miss j)
    (hn : 0 ≤ (rowOf d o m b r).slots ((rowOf d o m b r).assign j).toNat) :
    invalidateIndex d o m w b r j = safeState d b r * d.tokenStride
      + ((rowOf d o m b r).slots ((rowOf d o m b r).assign j).toNat).toNat := by
  have hwf := rowOf_wf hok hr
  have hlt := evicted_lt hok hr hm hn
  simp only [invalidateIndex, overwritten_eq hok hr hm]
  rw [if_pos ⟨hn, (missMask_iff hwf).mpr hm⟩]
  congr 2
  omega

theorem invalidateIndex_cases :
    invalidateIndex d o m w b r j = safeState d b r * d.tokenStride + (d.tokenStride - 1) ∨
      (rowOf d o m b r).Miss j ∧
        0 ≤ (rowOf d o m b r).slots ((rowOf d o m b r).assign j).toNat := by
  by_cases hc : 0 ≤ (rowOf d o m b r).overwritten (o.rows r) (w.availableByRank r) j ∧
    (rowOf d o m b r).missMask j
  · right
    have hm := (missMask_iff (rowOf_wf hok hr)).mp hc.2
    rw [← overwritten_eq hok (w := w) hr hm]
    exact ⟨hm, hc.1⟩
  · left
    exact if_neg hc

theorem invalidated_of_miss (hm : (rowOf d o m b r).Miss j)
    (hn : 0 ≤ (rowOf d o m b r).slots ((rowOf d o m b r).assign j).toNat) :
    scatterFlat o.invalidate d.capacity m.tokenToSlot (invalidateIndex d o m w b) (fun _ _ => -1)
      (safeState d b r * d.tokenStride
        + ((rowOf d o m b r).slots ((rowOf d o m b r).assign j).toNat).toNat) = -1 :=
  scatterFlat_of_eq hok.orders.invalidate hr (hm.1.trans_le (hok.batch.count_le hr))
    (invalidateIndex_of_miss hok hr hm hn) fun _ _ _ _ _ => rfl

omit hr in
theorem invalidated_else (ht : t < d.tokenStride)
    (hne : ∀ r < b.requestCount, safeState d b r = st → ∀ j, (rowOf d o m b r).Miss j →
      (rowOf d o m b r).slots ((rowOf d o m b r).assign j).toNat ≠ t) :
    scatterFlat o.invalidate d.capacity m.tokenToSlot (invalidateIndex d o m w b) (fun _ _ => -1)
      (st * d.tokenStride + t) = m.tokenRow d st t := by
  refine scatterFlat_of_same hok.orders.invalidate fun r' j' hr' hj' hi => ?_
  rcases invalidateIndex_cases hok (w := w) (j := j') hr' with heq | ⟨hm, hn⟩
  · obtain ⟨hst, hc⟩ := (cell_eq_iff (by omega) ht).mp (heq.symm.trans hi)
    rw [← hc]
    exact (hok.maps.token_sentinel st).symm
  · have hlt := evicted_lt hok hr' hm hn
    rw [invalidateIndex_of_miss hok hr' hm hn] at hi
    obtain ⟨hst, hc⟩ := (cell_eq_iff (by omega) ht).mp hi
    exact absurd (by omega) (hne r' hr' hst j' hm)

theorem reverseIndex_lt :
    (if j < b.selectedCounts r then (b.selectedPacked r j).toNat else d.tokenStride - 1)
      < d.tokenStride := by
  have hs := hok.dims.tokenStride
  by_cases hj : j < b.selectedCounts r
  · rw [if_pos hj]
    exact Row.WF.toNat_lt (rowOf_wf hok hr) hj
  · rw [if_neg hj]
    omega

theorem tokenRow_token (hj : j < b.selectedCounts r) :
    newTokenToSlot d o m w b (safeState d b r * d.tokenStride + (b.selectedPacked r j).toNat)
      = (rowOf d o m b r).assign j := by
  have hwf := rowOf_wf hok hr
  have hlt : (b.selectedPacked r j).toNat < d.tokenStride := Row.WF.toNat_lt hwf hj
  refine scatterFlat_of_eq hok.orders.reverse hr (hj.trans_le (hok.batch.count_le hr))
    (by rw [if_pos hj]) fun r' j' hr' hj' hi => ?_
  obtain ⟨hst, hc⟩ := (cell_eq_iff (reverseIndex_lt hok hr') hlt).mp hi
  cases safeState_inj hok.batch hr' hr hst
  rw [toInt16_batchUnionToSlot hok hr]
  have hn := hok.batch.nonneg hr hj
  by_cases hj'' : j' < b.selectedCounts r
  · rw [if_pos hj''] at hc ⊢
    have hn' := hok.batch.nonneg hr hj''
    rw [hok.batch.inj hr hj'' hj (by omega)]
  · rw [if_neg hj''] at hc
    have hlt' := hok.batch.lt hr hj
    omega

omit hr in
theorem tokenRow_else (ht : t < d.tokenStride)
    (hne : ∀ r < b.requestCount, safeState d b r = st →
      ∀ j < b.selectedCounts r, b.selectedPacked r j ≠ t) :
    newTokenToSlot d o m w b (st * d.tokenStride + t)
      = scatterFlat o.invalidate d.capacity m.tokenToSlot (invalidateIndex d o m w b)
        (fun _ _ => -1) (st * d.tokenStride + t) := by
  refine scatterFlat_of_same hok.orders.reverse fun r' j' hr' hj' hi => ?_
  obtain ⟨hst, hc⟩ := (cell_eq_iff (reverseIndex_lt hok hr') ht).mp hi
  rw [toInt16_batchUnionToSlot hok hr']
  by_cases hj'' : j' < b.selectedCounts r'
  · rw [if_pos hj''] at hc
    have hn := hok.batch.nonneg hr' hj''
    exact absurd (by omega) (hne r' hr' hst j' hj'')
  · rw [if_neg hj''] at hc ⊢
    rw [invalidated_else hok ht, ← hc]
    · exact (hok.maps.token_sentinel st).symm
    · intro r hr _ j hm heq
      have hlt := evicted_lt hok hr hm (by omega)
      omega

theorem done_rowOf :
    (rowOf d o m b r).Done (fun a => newSlotToToken d o m w b (safeState d b r * d.slotStride + a))
      (fun t => newTokenToSlot d o m w b (safeState d b r * d.tokenStride + t)) := by
  have hwf := rowOf_wf hok hr
  have hs := hok.dims.slotStride
  -- only this request has this state
  have ho : ∀ {P : Nat → Prop}, P r → ∀ r' < b.requestCount, safeState d b r' = safeState d b r →
      P r' := by
    intro P h r' hr' hst
    rwa [safeState_inj hok.batch hr' hr hst]
  refine ⟨fun {j} hj => slotRow_assign hok hr hj, fun {a} ha hne => ?_,
    fun {j} hj => tokenRow_token hok hr hj, fun {j} hm hn => ?_,
    fun {t} ht hne hne' => ?_⟩
  · have hlt : a < d.capacity := ha
    exact slotRow_else hok (by omega) (ho hne)
  · have hlt := evicted_lt hok hr hm hn
    rw [tokenRow_else hok (by omega), invalidated_of_miss hok hr hm hn]
    refine ho fun i hi heq => evicted_ne hwf hm hi hn ?_
    rw [Int.toNat_of_nonneg hn] at heq
    exact heq.symm
  · have hlt : (t : Int) < (d.tokenStride : Int) - 1 := ht
    rw [tokenRow_else hok (by omega) (ho hne), invalidated_else hok (by omega) (ho hne')]
    rfl

omit hr

/-! ## 5. The rest stays -/

theorem slotRow_keep (ha : a < d.slotStride)
    (hne : ∀ r < b.requestCount, safeState d b r = st → d.capacity ≤ a) :
    newSlotToToken d o m w b (st * d.slotStride + a) = m.slotRow d st a := by
  rw [slotRow_else hok ha, clearedSlots_of_ne hok.dims hok.orders ha hne]
  intro r hr hst j hj heq
  have hle := hne r hr hst
  have hlt : (rowOf d o m b r).assign j < d.capacity :=
    (assign_bounds (rowOf_wf hok hr) hj).2
  omega

theorem tokenRow_keep (ht : t < d.tokenStride)
    (hne : ∀ r < b.requestCount, safeState d b r = st → d.tokenStride ≤ t + 1) :
    newTokenToSlot d o m w b (st * d.tokenStride + t) = m.tokenRow d st t := by
  rw [tokenRow_else hok ht, invalidated_else hok ht]
  · intro r hr hst j hm heq
    have hle := hne r hr hst
    have hlt := evicted_lt hok hr hm (by omega)
    omega
  · intro r hr hst j hj heq
    have hle := hne r hr hst
    have hlt := hok.batch.lt hr hj
    omega

end Row

theorem newGenerations_of_eq (hd : d.Valid) (hb : b.Valid d) (ho : o.Valid d b)
    (hr : r < b.requestCount) :
    newGenerations d o m b (safeState d b r * d.generationStride)
      = b.requestStateGenerations r := by
  have hs := hd.generationStride
  refine scatter_of_eq (ho.generations.mem_iff.mpr (List.mem_range.mpr hr)) rfl
    fun r' hr' hi => ?_
  have hst := Nat.eq_of_mul_eq_mul_right (by omega) hi
  rw [safeState_inj hb (List.mem_range.mp (ho.generations.mem_iff.mp hr')) hr hst]

theorem newGenerations_of_ne (hd : d.Valid) (ho : o.Valid d b)
    (hne : ∀ r < b.requestCount, safeState d b r ≠ st) :
    newGenerations d o m b (st * d.generationStride)
      = m.stateGenerations (st * d.generationStride) := by
  have hs := hd.generationStride
  refine scatter_of_ne fun r' hr' hi => ?_
  have hst := Nat.eq_of_mul_eq_mul_right (by omega) hi
  exact hne r' (List.mem_range.mp (ho.generations.mem_iff.mp hr')) hst

/-! ## 6. The invariant -/

def newMaps (d : Dims) (o : Orders) (m : Maps) (w : Workspace) (b : Batch) : Maps :=
  ⟨newTokenToSlot d o m w b, newSlotToToken d o m w b, newGenerations d o m b⟩

theorem Maps.Inv.step (hok : StepOk d o m b) : (newMaps d o m w b).Inv d := by
  have hsr := hok.dims.tokenStride
  have hs : ∀ st, (newMaps d o m w b).tokenRow d st (d.tokenStride - 1) = -1 := by
    intro st
    exact (tokenRow_keep hok (by omega) fun _ _ _ => by omega).trans (hok.maps.token_sentinel st)
  refine ⟨fun st => ?_, fun st t ht => ?_, fun st => ?_, hs⟩
  · by_cases hst : ∃ r < b.requestCount, safeState d b r = st
    · obtain ⟨r, hr, rfl⟩ := hst
      exact (done_rowOf hok hr).live (rowOf_wf hok hr)
    · have hne : ∀ r < b.requestCount, safeState d b r ≠ st := fun r hr heq => hst ⟨r, hr, heq⟩
      have hss := hok.dims.slotStride
      intro a ha hn
      have hsl : (newMaps d o m w b).slotRow d st a = m.slotRow d st a :=
        slotRow_keep hok (by omega) fun r hr heq => absurd heq (hne r hr)
      rw [hsl] at hn ⊢
      obtain ⟨hlt, hrev⟩ := hok.maps.live st a ha hn
      refine ⟨hlt, Eq.trans ?_ hrev⟩
      exact tokenRow_keep hok (by omega) fun r hr heq => absurd heq (hne r hr)
  · by_cases hst : ∃ r < b.requestCount, safeState d b r = st
    · obtain ⟨r, hr, rfl⟩ := hst
      by_cases hl : t = d.tokenStride - 1
      · rw [hl, hs]
        omega
      · have hlt : (t : Int) < (d.tokenStride : Int) - 1 := by omega
        exact (done_rowOf hok hr).reverse_lt (rowOf_wf hok hr) hlt
    · have hk : (newMaps d o m w b).tokenRow d st t = m.tokenRow d st t :=
        tokenRow_keep hok ht fun r hr heq => absurd ⟨r, hr, heq⟩ hst
      rw [hk]
      exact hok.maps.reverse_lt st ht
  · exact (slotRow_keep hok hok.dims.slotStride fun _ _ _ => le_rfl).trans
      (hok.maps.slot_sentinel st)

end Step

end VllmDual.Resident
