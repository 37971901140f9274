/-
  Subject:   THE VECTORISED PLANNER (`prepare_resident_sparse_cache_` with `parallel_map=False`,
             `vllm/distributed/kv_transfer/ascend/sparse_offload/resident_sparse_cache.py`).

  The planner has no loops: it gathers, compares, sums up and scatters tensors of fixed shape, one
  row per request, over flat maps that hold a row for every state. Positions that have nothing to
  write go to a sentinel column, and the workspaces keep what earlier steps left in them.
-/
import VllmDual.Resident.Step

namespace VllmDual.Resident

open Scatter List Nat

/-! ## 1. The tensors of one request -/

structure RowOrders where
  protect : List Nat
  byRank : List Nat
  payload : List Nat
  slotPayload : List Nat

/-- Every column is written once. -/
structure RowOrders.Valid (o : RowOrders) (capacity : Nat) : Prop where
  protect : o.protect.Perm (range capacity)
  byRank : o.byRank.Perm (range capacity)
  payload : o.payload.Perm (range capacity)
  slotPayload : o.slotPayload.Perm (range capacity)

namespace Row

variable (x : Row) (o : RowOrders) (before : Nat → Int) (j : Nat)

def validUnion : Bool := j < x.count

/-- `old_slots`: a column that is not valid looks token zero up. -/
def oldSlots : Int :=
  x.reverse (if x.validUnion j then x.tokens j else 0).toNat

/-- `clamp_(min=0, max=scratch_capacity - 1)`. -/
def clampSlot (v : Int) : Nat := (max 0 (min v ((x.capacity : Int) - 1))).toNat

def hitMask : Bool :=
  x.slots (x.clampSlot (x.oldSlots j)) = x.tokens j && x.validUnion j && 0 ≤ x.oldSlots j

/-- `protected`. -/
def protectedSlots : Nat → Int :=
  scatter o.protect (fun _ => 0)
    (fun j => if x.hitMask j then (x.oldSlots j).toNat else x.capacity)
    (fun j => if x.hitMask j then 1 else 0)

def availableMask (a : Nat) : Bool := x.protectedSlots o a = 0

/-- `available_prefix`, a sum up to and with the column. -/
def availablePrefix (a : Nat) : Nat :=
  Nat.count (x.availableMask o · = true) (a + 1)

/-- `available_by_rank`, over what it held before. -/
def availableByRank : Nat → Int :=
  scatter o.byRank before
    (fun a => if x.availableMask o a then x.availablePrefix o a - 1 else x.capacity)
    (fun a => a)

def missMask : Bool := !x.hitMask j && x.validUnion j

def missPrefix : Nat := Nat.count (x.missMask · = true) (j + 1)

def missIndex : Nat := if x.missMask j then x.missPrefix j - 1 else x.capacity

/-- The free slots handed to the misses (`int_sources`). -/
def freeSource : Int :=
  if x.missMask j then x.availableByRank o before (x.missIndex j) else -1

def unionToSlot : Int :=
  if x.hitMask j then x.oldSlots j else x.freeSource o before j

/-- `miss_payload`, over what it held before. -/
def missPayload : Nat → Int :=
  scatter o.payload before x.missIndex x.tokens

/-- `miss_slot_payload`, over what it held before. -/
def missSlotPayload (beforeRank before : Nat → Int) : Nat → Int :=
  scatter o.slotPayload before x.missIndex (x.freeSource o beforeRank)

/-- The new `selected_counts`: the last prefix. -/
def missCount : Nat := x.missPrefix (x.capacity - 1)

/-- What the slot of a miss held (`candidate_tokens`). -/
def overwritten : Int :=
  x.slots (x.clampSlot (x.freeSource o before j))

end Row

/-! ## 2. The batch -/

structure Dims where
  maxRequests : Nat
  capacity : Nat
  tokenStride : Nat
  slotStride : Nat
  generationStride : Nat
  blockSize : Nat

/-- The persistent maps, flat, with rows for the states and as many for dummies. -/
structure Maps where
  tokenToSlot : Nat → Int
  slotToToken : Nat → Int
  stateGenerations : Nat → Int

/-- The workspaces that are not written whole. -/
structure Workspace where
  availableByRank : Nat → Nat → Int
  missPayload : Nat → Nat → Int
  missSlotPayload : Nat → Nat → Int

/-- The other arguments. `requestStateIndices` is -1 for a dummy row. -/
structure Batch where
  requestCount : Nat
  selectedPacked : Nat → Nat → Int
  selectedCounts : Nat → Nat
  requestStateIndices : Nat → Int
  requestStateGenerations : Nat → Int
  positionToUnion : Nat → Nat → Int
  topkIndices : Nat → Nat → Int
  requestBlockTable : Nat → Nat → Int

structure Orders where
  rows : Nat → RowOrders
  clear : List Nat
  invalidate : List Nat
  reverse : List Nat
  forward : List Nat
  generations : List Nat

inductive PlanError where
  | valueError (message : String)
  | indexError

def validateResidentShapes (d : Dims) : Except PlanError Unit :=
  if d.capacity = 0 ∨ 2 ^ 15 ≤ d.capacity then
    .error (.valueError ("resident sparse scratch requires 0 < scratch_capacity < 32768, got " ++
      toString d.capacity))
  else if d.slotStride < d.capacity + 1 then
    .error (.valueError ("slot_to_token needs one request-local sentinel entry: shape=("
      ++ toString (2 * d.maxRequests) ++ ", " ++ toString d.slotStride ++ "), capacity="
      ++ toString d.capacity))
  else
    .ok ()

def validateGenerations (d : Dims) : Except PlanError Unit :=
  if d.generationStride < 8 then
    .error (.valueError "resident generation table has different state rows")
  else
    .ok ()

def toInt16 (v : Int) : Int := v.bmod (2 ^ 16)

section Batch

variable (d : Dims) (o : Orders) (m : Maps) (w : Workspace) (b : Batch) (r : Nat)

/-- `safe_states`: a dummy row has a state of its own. -/
def safeState : Nat :=
  if 0 ≤ b.requestStateIndices r then (b.requestStateIndices r).toNat else d.maxRequests + r

def generationMatches : Bool :=
  m.stateGenerations (safeState d b r * d.generationStride) = b.requestStateGenerations r && 0
    ≤ b.requestStateIndices r

def clearedSlots : Nat → Int :=
  scatterFlat o.clear d.capacity m.slotToToken (fun r a => safeState d b r * d.slotStride + a)
    (fun r a => if generationMatches d m b r then
      m.slotToToken (safeState d b r * d.slotStride + a) else -1)

def rowOf : Row where
  capacity := d.capacity
  stride := d.tokenStride
  count := b.selectedCounts r
  tokens := b.selectedPacked r
  slots a := clearedSlots d o m b (safeState d b r * d.slotStride + a)
  reverse t := m.tokenToSlot (safeState d b r * d.tokenStride + t)

/-- `union_to_slot` of the batch. -/
def batchUnionToSlot (j : Nat) : Int :=
  (rowOf d o m b r).unionToSlot (o.rows r) (w.availableByRank r) j

/-- The index of a reverse entry to invalidate: the token that a miss displaces, or the sentinel. -/
def invalidateIndex (j : Nat) : Nat :=
  let old := (rowOf d o m b r).overwritten (o.rows r) (w.availableByRank r) j
  if 0 ≤ old ∧ (rowOf d o m b r).missMask j then
    safeState d b r * d.tokenStride + (max 0 (min old ((d.tokenStride : Int) - 1))).toNat
  else
    safeState d b r * d.tokenStride + (d.tokenStride - 1)

/-- `token_to_slot` after the step: displaced entries are invalidated, then the new ones written. -/
def newTokenToSlot : Nat → Int :=
  let invalidated := scatterFlat o.invalidate d.capacity m.tokenToSlot
    (invalidateIndex d o m w b) (fun _ _ => -1)
  scatterFlat o.reverse d.capacity invalidated
    (fun r j => safeState d b r * d.tokenStride
      + if j < b.selectedCounts r then (b.selectedPacked r j).toNat else d.tokenStride - 1)
    (fun r j => toInt16 (batchUnionToSlot d o m w b r j))

/-- `slot_to_token` after the step. -/
def newSlotToToken : Nat → Int :=
  scatterFlat o.forward d.capacity (clearedSlots d o m b)
    (fun r j => safeState d b r * d.slotStride
      + if j < b.selectedCounts r then (batchUnionToSlot d o m w b r j).toNat else d.capacity)
    (fun r j => if j < b.selectedCounts r then b.selectedPacked r j else -1)

/-- `state_generations` after the step. -/
def newGenerations : Nat → Int :=
  scatter o.generations m.stateGenerations (fun r => safeState d b r * d.generationStride)
    b.requestStateGenerations

/-- What a step leaves and returns. Of the tokens and slots that miss, the columns from the count on
    are whatever the workspace holds. -/
structure Plan where
  maps : Maps
  workspace : Workspace
  unionToSlot : Nat → Nat → Int
  selectedPacked : Nat → Nat → Int
  selectedCounts : Nat → Nat
  targetSlotMapping : Nat → Nat → Int
  topkIndices : Nat → Nat → Int

def newWorkspace : Workspace where
  availableByRank r := if r < b.requestCount then
    (rowOf d o m b r).availableByRank (o.rows r) (w.availableByRank r) else w.availableByRank r
  missPayload r := if r < b.requestCount then
    (rowOf d o m b r).missPayload (o.rows r) (w.missPayload r) else w.missPayload r
  missSlotPayload r := if r < b.requestCount then
    (rowOf d o m b r).missSlotPayload (o.rows r) (w.availableByRank r) (w.missSlotPayload r)
    else w.missSlotPayload r

def prepare : Except PlanError Plan := do
  validateResidentShapes d
  validateGenerations d
  let workspace := newWorkspace d o m w b
  let unionToSlot := batchUnionToSlot d o m w b
  return {
    maps := ⟨newTokenToSlot d o m w b, newSlotToToken d o m w b, newGenerations d o m b⟩
    workspace
    unionToSlot
    selectedPacked := workspace.missPayload
    selectedCounts := fun r => (rowOf d o m b r).missCount
    targetSlotMapping := fun r k =>
      let slot := workspace.missSlotPayload r k
      b.requestBlockTable r (slot / d.blockSize).toNat * d.blockSize + slot % d.blockSize
    topkIndices := fun r p =>
      if 0 ≤ b.positionToUnion r p then unionToSlot r (b.positionToUnion r p).toNat
      else b.topkIndices r p }

end Batch

/-! ## 3. The tensors are the step -/

namespace Row

variable {x : Row} {o : RowOrders} {bf : Nat → Int} {j a k : Nat}

theorem oldSlots_eq (hj : j < x.count) : x.oldSlots j = x.oldSlot j := by
  simp [oldSlots, validUnion, hj, oldSlot]

theorem clampSlot_eq {v : Int} (h₀ : 0 ≤ v) (h₁ : v < x.capacity) : x.clampSlot v = v.toNat := by
  unfold clampSlot
  omega

variable (h : x.WF)
include h

theorem hitMask_iff : x.hitMask j = true ↔ j < x.count ∧ x.Hit j := by
  by_cases hj : j < x.count
  · have hlt := h.reverse_lt (h.toNat_lt hj)
    have hold : x.oldSlot j < x.capacity := hlt
    simp only [hitMask, validUnion, oldSlots_eq hj, Bool.and_eq_true, decide_eq_true_eq, hj,
      and_true, true_and, Hit, hold]
    constructor
    · intro ⟨hs, hn⟩
      rw [clampSlot_eq hn hold] at hs
      exact ⟨hn, hs⟩
    · intro ⟨hn, hs⟩
      rw [clampSlot_eq hn hold]
      exact ⟨hs, hn⟩
  · simp [hitMask, validUnion, hj]

theorem missMask_iff : x.missMask j = true ↔ x.Miss j := by
  have hh := x.hitMask_iff h (j := j)
  rw [missMask, Bool.and_eq_true, Bool.not_eq_true', ← Bool.not_eq_true, hh, validUnion,
    decide_eq_true_eq, Miss]
  tauto

theorem availableMask_iff (ho : o.Valid x.capacity) (ha : a < x.capacity) :
    x.availableMask o a = true ↔ x.Free a := by
  rw [availableMask, decide_eq_true_eq]
  -- a position that writes to a slot is a hit in that slot
  have hw : ∀ j, (if x.hitMask j then (x.oldSlots j).toNat else x.capacity) = a →
      x.hitMask j = true := by
    intro j hj
    by_contra hm
    rw [if_neg hm] at hj
    omega
  by_cases hf : x.Free a
  · refine iff_of_true (scatter_of_ne fun j hj hi => ?_) hf
    have hm := hw j hi
    obtain ⟨hlt, hh⟩ := (x.hitMask_iff h).mp hm
    rw [if_pos hm, oldSlots_eq hlt] at hi
    refine hf j hlt hh ?_
    rw [← hi, Int.toNat_of_nonneg hh.1]
  · obtain ⟨j, hj, hh, hs⟩ : ∃ j < x.count, x.Hit j ∧ x.oldSlot j = a := by
      simpa [Free] using hf
    have hm := (x.hitMask_iff h).mpr ⟨hj, hh⟩
    have hone : x.protectedSlots o a = 1 := by
      refine scatter_of_eq (j := j) ?_ ?_ fun k _ hi => if_pos (hw k hi)
      · rw [ho.protect.mem_iff, mem_range]
        exact hj.trans_le h.count_le
      · rw [if_pos hm, oldSlots_eq hj, hs, Int.toNat_natCast]
    rw [hone]
    simpa using hf

theorem availablePrefix_eq (ho : o.Valid x.capacity) (ha : a < x.capacity) :
    x.availablePrefix o a = Nat.count x.Free (a + 1) :=
  count_congr fun _ hi => x.availableMask_iff h ho (by omega)

theorem availableByRank_eq (ho : o.Valid x.capacity) (ha : a < x.capacity) (hf : x.Free a) :
    x.availableByRank o bf (Nat.count x.Free a) = a := by
  have hr : ∀ b < x.capacity, x.Free b →
      (if x.availableMask o b then x.availablePrefix o b - 1 else x.capacity)
        = Nat.count x.Free b := by
    intro b hb hb'
    rw [if_pos ((x.availableMask_iff h ho hb).mpr hb'), availablePrefix_eq h ho hb,
      count_succ_sub_one hb']
  refine scatter_of_eq (j := a) (ho.byRank.mem_iff.mpr (mem_range.mpr ha)) (hr a ha hf)
    fun b hb hi => ?_
  have hlt := mem_range.mp (ho.byRank.mem_iff.mp hb)
  by_cases hb' : x.Free b
  · rw [hr b hlt hb'] at hi
    exact congrArg _ (count_injective hb' hf hi)
  · rw [if_neg fun hm => hb' ((x.availableMask_iff h ho hlt).mp hm)] at hi
    have hle : Nat.count x.Free a ≤ a := Nat.count_le _
    omega

theorem missIndex_of_miss (hm : x.Miss j) : x.missIndex j = Nat.count x.Miss j := by
  rw [missIndex, if_pos ((x.missMask_iff h).mpr hm), missPrefix,
    count_congr (q := x.Miss) fun _ _ => x.missMask_iff h, count_succ_sub_one hm]

theorem missIndex_of_not (hm : ¬ x.Miss j) : x.missIndex j = x.capacity :=
  if_neg fun hma => hm ((x.missMask_iff h).mp hma)

theorem freeSource_of_miss (ho : o.Valid x.capacity) (hm : x.Miss j) :
    x.freeSource o bf j = x.assign j := by
  obtain ⟨a, hg, ha⟩ := x.exists_assign_of_miss h hm
  have hmem := mem_freeSlots.mp (mem_of_getElem? hg)
  have hc : Nat.count x.Miss j = Nat.count x.Free a := by
    have hn : x.freeSlots.Nodup := nodup_range.filter _
    have hr := getElem?_filter_range hmem.2 hmem.1
    exact (List.getElem?_inj (List.getElem?_eq_some_iff.mp hg).1 hn).mp (hg.trans hr.symm)
  rw [freeSource, if_pos ((x.missMask_iff h).mpr hm), missIndex_of_miss h hm, hc,
    availableByRank_eq h ho hmem.1 hmem.2, ha]

theorem unionToSlot_eq (ho : o.Valid x.capacity) :
    x.unionToSlot o bf j = if j < x.count then x.assign j else -1 := by
  unfold unionToSlot
  by_cases hj : j < x.count
  · rw [if_pos hj]
    by_cases hh : x.Hit j
    · rw [if_pos ((x.hitMask_iff h).mpr ⟨hj, hh⟩), oldSlots_eq hj, assign_of_hit hh]
    · rw [if_neg fun hm => hh ((x.hitMask_iff h).mp hm).2, freeSource_of_miss h ho ⟨hj, hh⟩]
  · rw [if_neg hj, if_neg fun hm => hj ((x.hitMask_iff h).mp hm).1, freeSource,
      if_neg fun hm => hj ((x.missMask_iff h).mp hm).1]

theorem missCount_eq (hp : 0 < x.capacity) : x.missCount = Nat.count x.Miss x.count := by
  rw [missCount, missPrefix, Nat.sub_add_cancel hp,
    count_congr (q := x.Miss) fun _ _ => x.missMask_iff h]
  refine le_antisymm ?_ (count_monotone _ h.count_le)
  rw [count_eq_card_filter_range, count_eq_card_filter_range]
  refine Finset.card_le_card fun j hj => ?_
  obtain ⟨-, hm⟩ := Finset.mem_filter.mp hj
  exact Finset.mem_filter.mpr ⟨Finset.mem_range.mpr hm.1, hm⟩

theorem missPayload_eq (ho : o.Valid x.capacity) (hm : x.Miss j) :
    x.missPayload o bf (Nat.count x.Miss j) = x.tokens j := by
  refine scatter_of_eq (j := j) ?_ (missIndex_of_miss h hm) fun k hk hi => ?_
  · rw [ho.payload.mem_iff, mem_range]
    exact hm.1.trans_le h.count_le
  · by_cases hm' : x.Miss k
    · rw [missIndex_of_miss h hm'] at hi
      rw [count_injective hm' hm hi]
    · rw [missIndex_of_not h hm'] at hi
      have hle : Nat.count x.Miss j ≤ j := Nat.count_le _
      have hlt := hm.1.trans_le h.count_le
      omega

end Row

end VllmDual.Resident
