/-
  Subject:   THE ORACLE (`_resident_sparse_cache_reference`,
             `vllm/distributed/kv_transfer/ascend/sparse_offload/resident_sparse_cache.py`).

  The oracle plans one request after the other with plain loops: one loop looks the tokens up, a
  second gives the misses their slots and changes the maps as it goes.
-/
import VllmDual.Lib.Outcome
import VllmDual.Resident.Planner

namespace VllmDual.Resident

open Scatter Outcome Function List Int

/-! ## 1. The code -/

/-- The variables of the first loop: `union_to_slot`, `protected` and `missing_positions`. -/
structure Lookups where
  unionToSlot : Nat → Int
  protectedSlots : List Nat
  missingPositions : List Nat

variable (x : Row)

def lookupStep (l : Lookups) (pos : Nat) : Lookups :=
  let token := x.tokens pos
  let slot := x.reverse token.toNat
  if 0 ≤ slot ∧ slot < x.capacity ∧ x.slots slot.toNat = token then
    { l with
      unionToSlot := update l.unionToSlot pos slot
      protectedSlots := l.protectedSlots ++ [slot.toNat] }
  else
    { l with missingPositions := l.missingPositions ++ [pos] }

/-- The variables of the second loop: the maps, `union_to_slot` and `misses`. -/
structure Misses where
  slots : Nat → Int
  reverse : Nat → Int
  unionToSlot : Nat → Int
  misses : Nat → Int

def missStep (available : List Nat) (l : Misses) (e : Nat × Nat) : Except PlanError Misses :=
  let (pos, missRank) := e
  let token := x.tokens pos
  match available[missRank]? with
  | none => .error .indexError
  | some slot =>
    let oldToken := l.slots slot
    let reverse := if 0 ≤ oldToken then update l.reverse oldToken.toNat (-1) else l.reverse
    .ok {
      slots := update l.slots slot token
      reverse := update reverse token.toNat slot
      unionToSlot := update l.unionToSlot pos slot
      misses := update l.misses missRank token }

structure ReferenceRow where
  slots : Nat → Int
  reverse : Nat → Int
  unionToSlot : Nat → Int
  misses : Nat → Int
  missCount : Nat

def referenceRow : Except PlanError ReferenceRow := do
  let l := (List.range x.count).foldl (lookupStep x) ⟨fun _ => -1, [], []⟩
  let available := (List.range x.capacity).filter (· ∉ l.protectedSlots)
  let l' ← l.missingPositions.zipIdx.foldlM (missStep x available)
    ⟨x.slots, x.reverse, l.unionToSlot, fun _ => 0⟩
  return ⟨l'.slots, l'.reverse, l'.unionToSlot, l'.misses, l.missingPositions.length⟩

def dummyRow : ReferenceRow :=
  ⟨x.slots, x.reverse, fun j => if j < x.count then j else -1,
    fun j => if j < x.count then x.tokens j else 0, x.count⟩

/-! ## 2. The first loop -/

section Lookup

variable {x : Row} {j a n : Nat} {l : Lookups}

theorem lookupStep_of_hit (h : x.Hit j) : lookupStep x l j = { l with
      unionToSlot := update l.unionToSlot j (x.oldSlot j)
      protectedSlots := l.protectedSlots ++ [(x.oldSlot j).toNat] } := if_pos h

theorem lookupStep_of_not_hit (h : ¬ x.Hit j) :
    lookupStep x l j = { l with missingPositions := l.missingPositions ++ [j] } := if_neg h

/-- What the first loop has found in the first `n` positions. -/
structure Found (x : Row) (n : Nat) (l : Lookups) : Prop where
  unionToSlot : ∀ j, l.unionToSlot j = if j < n ∧ x.Hit j then x.oldSlot j else -1
  mem_protectedSlots : ∀ a, a ∈ l.protectedSlots ↔ ∃ j < n, x.Hit j ∧ (x.oldSlot j).toNat = a
  missingPositions : l.missingPositions = (List.range n).filter (¬ x.Hit ·)

theorem found (x : Row) (n : Nat) :
    Found x n ((List.range n).foldl (lookupStep x) ⟨fun _ => -1, [], []⟩) := by
  induction n with
  | zero => exact ⟨fun j => by simp, fun a => by simp, rfl⟩
  | succ n ih =>
    have hs : ∀ j, j < n + 1 ↔ j < n ∨ j = n := fun j => Nat.lt_succ_iff_lt_or_eq
    rw [range_succ, foldl_concat]
    by_cases hh : x.Hit n
    · rw [lookupStep_of_hit hh]
      refine ⟨fun j => ?_, fun a => ?_, ?_⟩
      · simp only [update_apply, ih.unionToSlot, hs]
        by_cases hj : j = n <;> simp [hj, hh]
      · rw [mem_append, mem_singleton, ih.mem_protectedSlots, eq_comm (a := a)]
        simp only [hs, or_and_right, exists_or, exists_eq_left, hh, true_and]
      · rw [ih.missingPositions, range_succ, filter_append]
        simp [hh]
    · rw [lookupStep_of_not_hit hh]
      refine ⟨fun j => ?_, fun a => ?_, ?_⟩
      · simp only [ih.unionToSlot, hs]
        by_cases hj : j = n <;> simp [hj, hh]
      · simp only [ih.mem_protectedSlots, hs, or_and_right, exists_or, exists_eq_left, hh,
          false_and, or_false]
      · simp only [ih.missingPositions, range_succ, filter_append]
        simp [hh]

theorem Found.available (h : Found x x.count l) :
    (List.range x.capacity).filter (· ∉ l.protectedSlots) = x.freeSlots := by
  refine filter_congr fun a _ => ?_
  rw [decide_eq_decide, h.mem_protectedSlots]
  constructor
  · intro hn j hj hh heq
    exact hn ⟨j, hj, hh, by rw [heq, toNat_natCast]⟩
  · intro hf ⟨j, hj, hh, heq⟩
    exact hf j hj hh (by rw [← heq, toNat_of_nonneg hh.1])

theorem Found.missing (h : Found x x.count l) :
    l.missingPositions = (List.range x.count).filter (x.Miss ·) := by
  rw [h.missingPositions]
  refine filter_congr fun j hj => ?_
  rw [decide_eq_decide]
  exact (and_iff_right (mem_range.mp hj)).symm

end Lookup

/-! ## 3. The second loop -/

section Place

variable {x : Row} {j a n : Nat} {uts : Nat → Int} {l : Misses}

/-- What the second loop has done for the misses among the first `n` positions. -/
structure Placed (x : Row) (unionToSlot : Nat → Int) (n : Nat) (l : Misses) : Prop where
  slot : ∀ {j}, j < n → x.Miss j → l.slots (x.assign j).toNat = x.tokens j
  slot_else : ∀ {a : Nat}, (∀ j < n, x.Miss j → x.assign j ≠ a) → l.slots a = x.slots a
  entry : ∀ {j}, j < n → x.Miss j → l.reverse (x.tokens j).toNat = x.assign j
  entry_evicted : ∀ {j}, j < n → x.Miss j → 0 ≤ x.slots (x.assign j).toNat →
    l.reverse (x.slots (x.assign j).toNat).toNat = -1
  entry_else : ∀ {t : Nat}, (∀ j < n, x.Miss j → x.tokens j ≠ t) →
    (∀ j < n, x.Miss j → x.slots (x.assign j).toNat ≠ t) → l.reverse t = x.reverse t
  unionToSlot : ∀ j, l.unionToSlot j = if j < n ∧ x.Miss j then x.assign j else unionToSlot j
  misses : ∀ {j}, j < n → x.Miss j → l.misses (Nat.count x.Miss j) = x.tokens j

theorem placed_zero : Placed x uts 0 ⟨x.slots, x.reverse, uts, fun _ => 0⟩ where
  slot h := absurd h (Nat.not_lt_zero _)
  slot_else _ := rfl
  entry h := absurd h (Nat.not_lt_zero _)
  entry_evicted h := absurd h (Nat.not_lt_zero _)
  entry_else _ _ := rfl
  unionToSlot j := by simp
  misses h := absurd h (Nat.not_lt_zero _)

theorem Placed.hit (h : Placed x uts n l) (hm : ¬ x.Miss n) : Placed x uts (n + 1) l := by
  have hlt : ∀ {j}, j < n + 1 → x.Miss j → j < n := by
    intro j hj hj'
    have hne : j ≠ n := fun heq => hm (heq ▸ hj')
    omega
  refine ⟨fun hj hj' => h.slot (hlt hj hj') hj', fun hne => ?_,
    fun hj hj' => h.entry (hlt hj hj') hj', fun hj hj' => h.entry_evicted (hlt hj hj') hj',
    fun hne hne' => ?_, fun j => ?_, fun hj hj' => h.misses (hlt hj hj') hj'⟩
  · exact h.slot_else fun j hj => hne j (by omega)
  · exact h.entry_else (fun j hj => hne j (by omega)) fun j hj => hne' j (by omega)
  · rw [h.unionToSlot]
    by_cases hj : j = n
    · simp [hj, hm]
    · have hi : j < n + 1 ↔ j < n := by omega
      simp only [hi]

theorem Placed.miss (hx : x.WF) (h : Placed x uts n l) (hm : x.Miss n) :
    ∃ l', missStep x x.freeSlots l (n, Nat.count x.Miss n) = .ok l' ∧ Placed x uts (n + 1) l' := by
  obtain ⟨a, hg, ha⟩ := x.exists_assign_of_miss hx hm
  have htn : (x.assign n).toNat = a := by rw [ha, toNat_natCast]
  -- the slot is still as it was, since the slots of the misses are distinct
  have ho : ∀ j, j < n → x.Miss j → x.assign j ≠ a := by
    intro j hj hj' heq
    have hjn := x.assign_inj hx hj'.1 hm.1 (heq.trans ha.symm)
    omega
  have hold : l.slots a = x.slots a := h.slot_else ho
  have hs : ∀ {j}, j < n + 1 → j = n ∨ j < n := by
    intro j hj
    omega
  have hto : ∀ {i j}, i < x.count → j < x.count → i ≠ j →
      (x.tokens i).toNat ≠ (x.tokens j).toNat := by
    intro i j hi hj hne heq
    have h₀ := hx.nonneg hi
    have h₁ := hx.nonneg hj
    exact hne (hx.inj hi hj (by omega))
  -- what a displaced token's entry was is not a selected token's
  have he : ∀ {i j}, x.Miss j → i < x.count → 0 ≤ x.slots (x.assign j).toNat →
      (x.slots (x.assign j).toNat).toNat ≠ (x.tokens i).toNat := by
    intro i j hj hi hno heq
    have h₀ := hx.nonneg hi
    exact x.evicted_ne hx hj hi hno (by omega)
  have hsl : ∀ {j}, j < n → x.Miss j → (x.assign j).toNat ≠ a := by
    intro j hj hj' heq
    refine ho j hj hj' ?_
    rw [← heq, toNat_of_nonneg (x.assign_bounds hx hj'.1).1]
  generalize hr : (if 0 ≤ x.slots a then update l.reverse (x.slots a).toNat (-1)
    else l.reverse) = reverse
  have hk : ∀ {t}, (0 ≤ x.slots a → t ≠ (x.slots a).toNat) → reverse t = l.reverse t := by
    intro t ht
    rw [← hr]
    split
    · rename_i hno
      exact update_of_ne (ht hno) _ _
    · rfl
  refine ⟨_, by simp only [missStep, hg, hold, hr]; rfl, ?_⟩
  refine ⟨fun {j} hj hj' => ?_, fun {b} hne => ?_, fun {j} hj hj' => ?_,
    fun {j} hj hj' hno => ?_, fun {t} hne hne' => ?_, fun j => ?_, fun {j} hj hj' => ?_⟩ <;>
    dsimp only
  · rcases hs hj with rfl | hj
    · rw [htn, update_self]
    · rw [update_of_ne (hsl hj hj'), h.slot hj hj']
  · have hb : b ≠ a := fun heq => hne n (by omega) hm (by rw [ha, heq])
    rw [update_of_ne hb]
    exact h.slot_else fun j hj => hne j (by omega)
  · rcases hs hj with rfl | hj
    · rw [update_self, ha]
    · rw [update_of_ne (hto hj'.1 hm.1 hj.ne), hk, h.entry hj hj']
      intro hno heq
      exact he hm hj'.1 (by rwa [htn]) (by rw [htn, heq])
  · rw [update_of_ne (he hj' hm.1 hno)]
    by_cases ht : 0 ≤ x.slots a ∧ (x.slots (x.assign j).toNat).toNat = (x.slots a).toNat
    · rw [ht.2, ← hr, if_pos ht.1, update_self]
    · rcases hs hj with rfl | hj
      · exact absurd ⟨htn ▸ hno, by rw [htn]⟩ ht
      · rw [hk fun h₀ heq => ht ⟨h₀, heq⟩, h.entry_evicted hj hj' hno]
  · have hn : t ≠ (x.tokens n).toNat := by
      intro heq
      have h₀ := hx.nonneg hm.1
      exact hne n (by omega) hm (by omega)
    rw [update_of_ne hn, hk]
    · exact h.entry_else (fun j hj => hne j (by omega)) fun j hj => hne' j (by omega)
    · intro hno heq
      exact hne' n (by omega) hm (by rw [htn]; omega)
  · simp only [update_apply, h.unionToSlot]
    by_cases hj : j = n
    · simp [hj, hm, ha]
    · have hiff : j < n + 1 ↔ j < n := by omega
      simp only [hj, if_false, hiff]
  · rcases hs hj with rfl | hj
    · rw [update_self]
    · rw [update_of_ne (Nat.count_strict_mono hj' hj).ne, h.misses hj hj']

theorem placed (hx : x.WF) (uts : Nat → Int) (n : Nat) :
    ∃ l, ((List.range n).filter (x.Miss ·)).zipIdx.foldlM (missStep x x.freeSlots)
        ⟨x.slots, x.reverse, uts, fun _ => 0⟩ = .ok l ∧ Placed x uts n l := by
  induction n with
  | zero => exact ⟨_, rfl, placed_zero⟩
  | succ n ih =>
    obtain ⟨l, hl, hp⟩ := ih
    rw [range_succ, filter_append, zipIdx_append, foldlM_append, hl, ok_bind]
    by_cases hm : x.Miss n
    · obtain ⟨l', hl', hp'⟩ := hp.miss hx hm
      refine ⟨l', ?_, hp'⟩
      rw [length_filter_range]
      simp only [hm, decide_true, filter_cons_of_pos, filter_nil, zipIdx_singleton,
        foldlM_cons, foldlM_nil, Nat.zero_add, hl', ok_bind]
      rfl
    · refine ⟨l, ?_, hp.hit hm⟩
      simp [hm]
      rfl

theorem Placed.done (hx : x.WF) (h : Placed x uts x.count l) : x.Done l.slots l.reverse := by
  refine ⟨fun {j} hj => ?_, fun {a} _ hne => ?_, fun {j} hj => ?_, fun {j} hm => ?_,
    fun {t} _ hne hne' => ?_⟩
  · by_cases hh : x.Hit j
    · have ha := Row.assign_of_hit hh
      rw [h.slot_else, ha]
      · exact hh.2.2
      · intro i hi hm heq
        rw [toNat_of_nonneg (x.assign_bounds hx hj).1] at heq
        have hij := x.assign_inj hx hi hj heq
        exact hm.2 (hij ▸ hh)
    · exact h.slot hj ⟨hj, hh⟩
  · exact h.slot_else fun j hj _ => hne j hj
  · by_cases hh : x.Hit j
    · have hc : ((x.tokens j).toNat : Int) = x.tokens j := toNat_of_nonneg (hx.nonneg hj)
      rw [h.entry_else, Row.assign_of_hit hh, Row.oldSlot]
      · intro i hi hm heq
        have hij := hx.inj hi hj (heq.trans hc)
        exact hm.2 (hij ▸ hh)
      · intro i hi hm heq
        rw [hc] at heq
        exact x.evicted_ne hx hm hj (heq ▸ hx.nonneg hj) heq
    · exact h.entry hj ⟨hj, hh⟩
  · exact h.entry_evicted hm.1 hm
  · exact h.entry_else (fun j hj _ => hne j hj) fun j _ => hne' j

theorem Placed.tails (hx : x.WF) (h : Placed x uts n l) :
    (∀ a, x.capacity ≤ a → l.slots a = x.slots a) ∧ ∀ t, x.stride ≤ t + 1 →
      l.reverse t = x.reverse t := by
  refine ⟨fun a ha => h.slot_else fun j _ hm heq => ?_, fun t ht => h.entry_else ?_ ?_⟩
  · have hlt := (x.assign_bounds hx hm.1).2
    omega
  · intro j _ hm heq
    have hlt := hx.lt hm.1
    omega
  · intro j _ hm heq
    obtain ⟨a, has, ha, -⟩ := x.assign_free hx hm
    rw [has, toNat_natCast] at heq
    have hlt := (hx.live a ha (by omega)).1
    omega

end Place

/-! ## 4. A request -/

/-- A request's plan and maps are those of the step; `k`-th miss is the token that misses at rank
    `k`. -/
structure Row.Referenced (x : Row) (z : ReferenceRow) : Prop where
  done : x.Done z.slots z.reverse
  slots_tail : ∀ a, x.capacity ≤ a → z.slots a = x.slots a
  reverse_tail : ∀ t, x.stride ≤ t + 1 → z.reverse t = x.reverse t
  unionToSlot : ∀ j, z.unionToSlot j = if j < x.count then x.assign j else -1
  missCount : z.missCount = Nat.count x.Miss x.count
  misses : ∀ {j}, x.Miss j → z.misses (Nat.count x.Miss j) = x.tokens j

theorem referenceRow_eq {x : Row} (hx : x.WF) : ∃ z, referenceRow x = .ok z ∧ x.Referenced z := by
  have hf := found x x.count
  obtain ⟨l', hl', hp⟩ := placed hx
    ((List.range x.count).foldl (lookupStep x) ⟨fun _ => -1, [], []⟩).unionToSlot x.count
  refine ⟨⟨l'.slots, l'.reverse, l'.unionToSlot, l'.misses,
    ((List.range x.count).filter (x.Miss ·)).length⟩, ?_, hp.done hx, (hp.tails hx).1,
      (hp.tails hx).2, fun j => ?_,
    length_filter_range, fun {j} hm => hp.misses hm.1 hm⟩
  · simp only [referenceRow, hf.available, hf.missing, hl', ok_bind]
    rfl
  · dsimp only
    rw [hp.unionToSlot, hf.unionToSlot]
    by_cases hj : j < x.count
    · by_cases hh : x.Hit j
      · simp [hj, hh, Row.Miss, Row.assign_of_hit hh]
      · simp [hj, hh, Row.Miss]
    · simp [hj]

/-! ## 5. The batch -/

structure Reference where
  tokenToSlot : Nat → Nat → Int
  slotToToken : Nat → Nat → Int
  unionToSlot : Nat → Nat → Int
  misses : Nat → Nat → Int
  missCounts : Nat → Nat

/-- The request `r` over the maps of the oracle. -/
def referenceOf (d : Dims) (b : Batch) (y : Reference) (r : Nat) : Row where
  capacity := d.capacity
  stride := d.tokenStride
  count := b.selectedCounts r
  tokens := b.selectedPacked r
  slots := y.slotToToken (b.requestStateIndices r).toNat
  reverse := y.tokenToSlot (b.requestStateIndices r).toNat

def referenceStep (d : Dims) (b : Batch) (y : Reference) (r : Nat) : Except PlanError Reference :=
  let state := b.requestStateIndices r
  if state < 0 then
    let z := dummyRow (referenceOf d b y r)
    .ok { y with
      unionToSlot := update y.unionToSlot r z.unionToSlot
      misses := update y.misses r z.misses
      missCounts := update y.missCounts r z.missCount }
  else do
    let z ← referenceRow (referenceOf d b y r)
    .ok {
      tokenToSlot := update y.tokenToSlot state.toNat z.reverse
      slotToToken := update y.slotToToken state.toNat z.slots
      unionToSlot := update y.unionToSlot r z.unionToSlot
      misses := update y.misses r z.misses
      missCounts := update y.missCounts r z.missCount }

/-- `_resident_sparse_cache_reference`. -/
def reference (d : Dims) (b : Batch) (tokenToSlot slotToToken : Nat → Nat → Int) :
    Except PlanError Reference := do
  validateResidentShapes d
  (List.range b.requestCount).foldlM (referenceStep d b)
    ⟨tokenToSlot, slotToToken, fun _ _ => -1, fun _ _ => 0, fun _ => 0⟩

section Requests

variable {d : Dims} {b : Batch} {y₀ y : Reference} {n r : Nat}

/-- What the requests before `n` have left: each has the outcome of its own row, and the rows of the
    states that none of them has are as before. -/
structure Referred (d : Dims) (b : Batch) (y₀ : Reference) (n : Nat) (y : Reference) : Prop where
  real : ∀ {r}, r < n → 0 ≤ b.requestStateIndices r → (referenceOf d b y₀ r).Referenced
    ⟨y.slotToToken (b.requestStateIndices r).toNat, y.tokenToSlot (b.requestStateIndices r).toNat,
      y.unionToSlot r, y.misses r, y.missCounts r⟩
  dummy : ∀ {r}, r < n → b.requestStateIndices r < 0 →
    (∀ j, y.unionToSlot r j = if j < b.selectedCounts r then (j : Int) else -1) ∧
    (∀ j < b.selectedCounts r, y.misses r j = b.selectedPacked r j) ∧
    y.missCounts r = b.selectedCounts r
  rest : ∀ {st : Nat}, (∀ r < n, b.requestStateIndices r ≠ st) →
    y.slotToToken st = y₀.slotToToken st ∧ y.tokenToSlot st = y₀.tokenToSlot st

theorem Referred.step (h : Referred d b y₀ n y)
    (hd : ∀ r < n, 0 ≤ b.requestStateIndices r → b.requestStateIndices r ≠ b.requestStateIndices n)
    (hwf : 0 ≤ b.requestStateIndices n → (referenceOf d b y₀ n).WF) :
    ∃ y', referenceStep d b y n = .ok y' ∧ Referred d b y₀ (n + 1) y' := by
  have hs : ∀ {r}, r < n + 1 → r = n ∨ r < n := by
    intro r hr
    omega
  by_cases hdu : b.requestStateIndices n < 0
  · refine ⟨_, if_pos hdu, fun {r} hr hn => ?_, fun {r} hr hneg => ?_, fun {st} hne => ?_⟩
    · rcases hs hr with rfl | hr
      · omega
      · dsimp only
        rw [update_of_ne hr.ne, update_of_ne hr.ne, update_of_ne hr.ne]
        exact h.real hr hn
    · rcases hs hr with rfl | hr
      · dsimp only
        rw [update_self, update_self, update_self]
        exact ⟨fun j => rfl, fun j hj => if_pos hj, rfl⟩
      · dsimp only
        rw [update_of_ne hr.ne, update_of_ne hr.ne, update_of_ne hr.ne]
        exact h.dummy hr hneg
    · exact h.rest fun r hr => hne r (by omega)
  · have hn : 0 ≤ b.requestStateIndices n := by omega
    -- none of the requests before has this state
    have hrow : referenceOf d b y n = referenceOf d b y₀ n := by
      have ho : ∀ r < n, b.requestStateIndices r ≠ ((b.requestStateIndices n).toNat : Int) := by
        intro r hr heq
        rw [toNat_of_nonneg hn] at heq
        exact hd r hr (by omega) heq
      have hre := h.rest ho
      simp only [referenceOf, hre]
    obtain ⟨z, hz, href⟩ := referenceRow_eq (hwf hn)
    refine ⟨_, by rw [referenceStep, if_neg hdu, hrow, hz]; rfl, fun {r} hr hn' => ?_,
      fun {r} hr hneg => ?_, fun {st} hne => ?_⟩
    · rcases hs hr with rfl | hr
      · dsimp only
        rw [update_self, update_self, update_self, update_self, update_self]
        exact href
      · have hst : (b.requestStateIndices r).toNat ≠ (b.requestStateIndices n).toNat := by
          intro heq
          exact hd r hr hn' (by omega)
        dsimp only
        rw [update_of_ne hr.ne, update_of_ne hr.ne, update_of_ne hr.ne, update_of_ne hst,
          update_of_ne hst]
        exact h.real hr hn'
    · rcases hs hr with rfl | hr
      · exact absurd hneg hdu
      · dsimp only
        rw [update_of_ne hr.ne, update_of_ne hr.ne, update_of_ne hr.ne]
        exact h.dummy hr hneg
    · have hst : st ≠ (b.requestStateIndices n).toNat := by
        intro heq
        exact hne n (by omega) (by omega)
      dsimp only
      rw [update_of_ne hst, update_of_ne hst]
      exact h.rest fun r hr => hne r (by omega)

theorem referred (hd : ∀ r r', r < r' → r' < n → 0 ≤ b.requestStateIndices r →
      b.requestStateIndices r ≠ b.requestStateIndices r')
    (hwf : ∀ r < n, 0 ≤ b.requestStateIndices r → (referenceOf d b y₀ r).WF) :
    ∃ y, (List.range n).foldlM (referenceStep d b) y₀ = .ok y ∧ Referred d b y₀ n y := by
  induction n with
  | zero =>
    exact ⟨y₀, rfl, fun hr => absurd hr (Nat.not_lt_zero _),
      fun hr => absurd hr (Nat.not_lt_zero _), fun _ => ⟨rfl, rfl⟩⟩
  | succ n ih =>
    obtain ⟨y, hy, hre⟩ := ih (fun r r' hlt hr' => hd r r' hlt (by omega))
      fun r hr => hwf r (by omega)
    obtain ⟨y', hy', hre'⟩ := hre.step (fun r hr => hd r n hr (by omega)) (hwf n (by omega))
    refine ⟨y', ?_, hre'⟩
    rw [range_succ, foldlM_append, hy, ok_bind, foldlM_cons, hy', ok_bind]
    rfl

end Requests

end VllmDual.Resident
