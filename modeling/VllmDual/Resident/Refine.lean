/-
  Subject:   THE PLANNER REFINES ITS ORACLE, OVER EVERY SEQUENCE OF STEPS.

  The planner and the oracle run side by side, the planner on flat maps with re-used workspaces and
  a generation table, the oracle on maps whose slot row is cleared when a state's generation
  differs.
-/
import VllmDual.Resident.Flat
import VllmDual.Resident.Reference

namespace VllmDual.Resident

open Scatter Outcome Row List

/-! ## 1. The oracle's run -/

structure Oracle where
  tokenToSlot : Nat → Nat → Int
  slotToToken : Nat → Nat → Int
  generations : Nat → Int

variable (d : Dims) (b : Batch)

def realRequests : List Nat :=
  (range b.requestCount).filter (0 ≤ b.requestStateIndices ·)

def clearStale (g : Oracle) : Nat → Nat → Int :=
  scatter (realRequests b) g.slotToToken (fun r => (b.requestStateIndices r).toNat)
    fun r a => if g.generations (b.requestStateIndices r).toNat ≠ b.requestStateGenerations r
        ∧ a < d.capacity then -1
      else g.slotToToken (b.requestStateIndices r).toNat a

def setGenerations (g : Oracle) : Nat → Int :=
  scatter (realRequests b) g.generations (fun r => (b.requestStateIndices r).toNat)
    b.requestStateGenerations

/-- The oracle applied to states whose slot row is first cleared when the generation differs. -/
def oracleStep (g : Oracle) : Except PlanError (Oracle × Reference) := do
  let y ← reference d b g.tokenToSlot (clearStale d b g)
  return (⟨y.tokenToSlot, y.slotToToken, setGenerations b g⟩, y)

def runOracle (steps : List Batch) (g : Oracle) : Except PlanError Oracle :=
  steps.foldlM (fun g b => Prod.fst <$> oracleStep d b g) g

def runPlanner (steps : List (Orders × Batch)) (x : Maps × Workspace) :
    Except PlanError (Maps × Workspace) :=
  steps.foldlM (fun x s => (fun plan => (plan.maps, plan.workspace))
    <$> prepare d s.1 x.1 x.2 s.2) x

/-! ## 2. What is compared -/

structure Same (d : Dims) (m : Maps) (g : Oracle) : Prop where
  slots : ∀ {st}, st < d.maxRequests → ∀ a < d.slotStride, m.slotRow d st a = g.slotToToken st a
  tokens : ∀ {st}, st < d.maxRequests → ∀ t < d.tokenStride, m.tokenRow d st t = g.tokenToSlot st t
  generations : ∀ {st}, st < d.maxRequests →
    m.stateGenerations (st * d.generationStride) = g.generations st

structure SamePlan (d : Dims) (b : Batch) (plan : Plan) (y : Reference) : Prop where
  counts : ∀ {r}, r < b.requestCount → plan.selectedCounts r = y.missCounts r
  misses : ∀ {r}, r < b.requestCount → ∀ k < y.missCounts r, plan.selectedPacked r k = y.misses r k
  unionToSlot : ∀ {r}, r < b.requestCount →
    ∀ j < d.capacity, plan.unionToSlot r j = y.unionToSlot r j

def liveSlots (m : Maps) (st : Nat) : Set Nat :=
  {a | a < d.capacity ∧ 0 ≤ m.slotRow d st a}

def liveTokens (m : Maps) (st : Nat) : Set Nat :=
  {t | (t : Int) < (d.tokenStride : Int) - 1 ∧ 0 ≤ m.tokenRow d st t ∧
    m.tokenRow d st t < d.capacity ∧ m.slotRow d st (m.tokenRow d st t).toNat = t}

structure Consistent (d : Dims) (b : Batch) (plan : Plan) : Prop where
  bijOn : ∀ st, Set.BijOn (fun a => (plan.maps.slotRow d st a).toNat) (liveSlots d plan.maps st)
    (liveTokens d plan.maps st)
  invOn : ∀ st, Set.InvOn (fun t => (plan.maps.tokenRow d st t).toNat)
    (fun a => (plan.maps.slotRow d st a).toNat) (liveSlots d plan.maps st)
    (liveTokens d plan.maps st)
  resident : ∀ {r j}, r < b.requestCount → j < b.selectedCounts r →
    0 ≤ plan.unionToSlot r j ∧ plan.unionToSlot r j < d.capacity ∧
    plan.maps.slotRow d (safeState d b r) (plan.unionToSlot r j).toNat = b.selectedPacked r j ∧
    plan.maps.tokenRow d (safeState d b r) (b.selectedPacked r j).toNat = plan.unionToSlot r j
  distinct : ∀ {r i j}, r < b.requestCount → i < b.selectedCounts r → j < b.selectedCounts r →
    plan.unionToSlot r i = plan.unionToSlot r j → i = j
  remapped : ∀ {r p}, r < b.requestCount → 0 ≤ b.positionToUnion r p →
    b.positionToUnion r p < b.selectedCounts r →
    0 ≤ plan.topkIndices r p ∧ plan.topkIndices r p < d.capacity ∧
    plan.maps.slotRow d (safeState d b r) (plan.topkIndices r p).toNat
      = b.selectedPacked r (b.positionToUnion r p).toNat

/-! ## 3. The clearing -/

section Step

variable {d : Dims} {o : Orders} {m : Maps} {w : Workspace} {b : Batch} {g : Oracle}
  {r st a j : Nat}

theorem mem_realRequests :
    r ∈ realRequests b ↔ r < b.requestCount ∧ 0 ≤ b.requestStateIndices r := by
  rw [realRequests, mem_filter, mem_range, decide_eq_true_eq]

theorem eq_of_toNat_eq (hb : b.Valid d) {r' : Nat} (hr : r ∈ realRequests b)
    (hr' : r' ∈ realRequests b)
    (heq : (b.requestStateIndices r').toNat = (b.requestStateIndices r).toNat) : r' = r := by
  obtain ⟨hlt, hn⟩ := mem_realRequests.mp hr
  obtain ⟨hlt', hn'⟩ := mem_realRequests.mp hr'
  exact hb.distinct hlt' hlt hn' (by omega)

theorem clearStale_of_eq (hb : b.Valid d) (hr : r ∈ realRequests b) :
    clearStale d b g (b.requestStateIndices r).toNat a
      = if g.generations (b.requestStateIndices r).toNat ≠ b.requestStateGenerations r
        ∧ a < d.capacity then -1 else g.slotToToken (b.requestStateIndices r).toNat a := by
  unfold clearStale
  rw [scatter_of_eq hr rfl fun r' hr' hi => by rw [eq_of_toNat_eq hb hr hr' hi]]

theorem clearStale_of_ne (hne : ∀ r < b.requestCount, b.requestStateIndices r ≠ st) :
    clearStale d b g st = g.slotToToken st := by
  refine scatter_of_ne fun r' hr' hi => ?_
  obtain ⟨hlt, hn⟩ := mem_realRequests.mp hr'
  exact hne r' hlt (by omega)

theorem setGenerations_of_eq (hb : b.Valid d) (hr : r ∈ realRequests b) :
    setGenerations b g (b.requestStateIndices r).toNat = b.requestStateGenerations r := by
  refine scatter_of_eq hr rfl fun r' hr' hi => ?_
  rw [eq_of_toNat_eq hb hr hr' hi]

theorem setGenerations_of_ne (hne : ∀ r < b.requestCount, b.requestStateIndices r ≠ st) :
    setGenerations b g st = g.generations st := by
  refine scatter_of_ne fun r' hr' hi => ?_
  obtain ⟨hlt, hn⟩ := mem_realRequests.mp hr'
  exact hne r' hlt (by omega)

theorem safeState_of_real (hr : r ∈ realRequests b) :
    safeState d b r = (b.requestStateIndices r).toNat :=
  if_pos (mem_realRequests.mp hr).2

theorem toNat_lt_of_real (hb : b.Valid d) (hr : r ∈ realRequests b) :
    (b.requestStateIndices r).toNat < d.maxRequests := by
  obtain ⟨hlt, hn⟩ := mem_realRequests.mp hr
  rcases hb.state hlt with hneg | ⟨_, hm⟩ <;> omega

theorem rowOf_slots (hok : StepOk d o m b) (hsame : Same d m g) (hr : r ∈ realRequests b)
    (ha : a < d.slotStride) :
    (rowOf d o m b r).slots a = clearStale d b g (b.requestStateIndices r).toNat a := by
  obtain ⟨hlt, hn⟩ := mem_realRequests.mp hr
  have hs : safeState d b r = (b.requestStateIndices r).toNat := safeState_of_real hr
  have hmax := toNat_lt_of_real hok.batch hr
  have hg : generationMatches d m b r = true ↔
      g.generations (b.requestStateIndices r).toNat = b.requestStateGenerations r := by
    rw [← hsame.generations hmax, generationMatches, hs, Bool.and_eq_true, decide_eq_true_eq,
      decide_eq_true_eq, and_iff_left hn]
  rw [clearStale_of_eq hok.batch hr]
  by_cases hc : a < d.capacity
  · refine (clearedSlots_of_lt hok.dims hok.batch hok.orders hlt hc).trans ?_
    rw [hs]
    by_cases hm : generationMatches d m b r = true
    · rw [if_pos hm, if_neg fun h => h.1 (hg.mp hm), hsame.slots hmax a ha]
    · rw [if_neg hm, if_pos ⟨fun h => hm (hg.mpr h), hc⟩]
  · refine (clearedSlots_of_ne hok.dims hok.orders ha fun _ _ _ => by omega).trans ?_
    rw [if_neg fun h => hc h.2, hs, hsame.slots hmax a ha]

theorem rowOf_reverse (hb : b.Valid d) (hsame : Same d m g) (hr : r ∈ realRequests b) {t : Nat}
    (ht : t < d.tokenStride) :
    (rowOf d o m b r).reverse t = g.tokenToSlot (b.requestStateIndices r).toNat t := by
  rw [← hsame.tokens (toNat_lt_of_real hb hr) t ht, ← safeState_of_real (d := d) hr]
  rfl

theorem rowOf_slots_dummy (hok : StepOk d o m b) (hr : r < b.requestCount)
    (hneg : b.requestStateIndices r < 0) (ha : a < d.capacity) :
    (rowOf d o m b r).slots a = -1 := by
  refine (clearedSlots_of_lt hok.dims hok.batch hok.orders hr ha).trans (if_neg ?_)
  rw [generationMatches, Bool.and_eq_true, decide_eq_true_eq, decide_eq_true_eq]
  rintro ⟨-, hn⟩
  omega

/-! ## 4. One step -/

theorem validateResidentShapes_eq_ok :
    validateResidentShapes d = .ok () ↔ 0 < d.capacity ∧ d.capacity < 2 ^ 15 ∧
      d.capacity < d.slotStride := by
  unfold validateResidentShapes
  split_ifs with h₀ h₁
  · exact iff_of_false (by simp) (by omega)
  · exact iff_of_false (by simp) (by omega)
  · exact iff_of_true rfl (by omega)

theorem Dims.Valid.shapes (hd : d.Valid) : validateResidentShapes d = .ok () :=
  validateResidentShapes_eq_ok.mpr ⟨hd.capacity_pos, hd.capacity_lt, hd.slotStride⟩

theorem prepare_eq (hd : d.Valid) : ∃ pl, prepare d o m w b = .ok pl ∧
    pl.maps = newMaps d o m w b ∧ pl.workspace = newWorkspace d o m w b ∧
    pl.unionToSlot = batchUnionToSlot d o m w b ∧
    pl.selectedPacked = (newWorkspace d o m w b).missPayload ∧
    (pl.selectedCounts = fun r => (rowOf d o m b r).missCount) ∧
    ∀ r p, 0 ≤ b.positionToUnion r p →
      pl.topkIndices r p = batchUnionToSlot d o m w b r (b.positionToUnion r p).toNat := by
  have hg : validateGenerations d = .ok () := if_neg (by have := hd.generationStride; omega)
  refine ⟨_, by rw [prepare, hd.shapes, ok_bind, hg, ok_bind]; rfl, rfl, rfl, rfl, rfl, rfl, ?_⟩
  intro r p hp
  exact if_pos hp

theorem Maps.Inv.bijOn (hm : m.Inv d) (st : Nat) :
    Set.BijOn (fun a => (m.slotRow d st a).toNat) (liveSlots d m st) (liveTokens d m st) ∧
      Set.InvOn (fun t => (m.tokenRow d st t).toNat) (fun a => (m.slotRow d st a).toNat)
        (liveSlots d m st) (liveTokens d m st) := by
  have hs : ∀ a ∈ liveSlots d m st, (m.tokenRow d st (m.slotRow d st a).toNat) = a := by
    rintro a ⟨ha, hn⟩
    exact (hm.live st a ha hn).2
  have hi : Set.InvOn (fun t => (m.tokenRow d st t).toNat) (fun a => (m.slotRow d st a).toNat)
      (liveSlots d m st) (liveTokens d m st) := by
    refine ⟨fun a ha => ?_, fun t ht => ?_⟩
    · dsimp only
      rw [hs a ha, Int.toNat_natCast]
    · dsimp only
      rw [ht.2.2.2, Int.toNat_natCast]
  refine ⟨hi.bijOn (fun a ha => ?_) fun t ht => ?_, hi⟩
  · have hr := hs a ha
    obtain ⟨hc, hn⟩ := ha
    have hlt := (hm.live st a hc hn).1
    beta_reduce
    refine ⟨by omega, by rw [hr]; omega, by rw [hr]; omega, ?_⟩
    rw [hr, Int.toNat_natCast, Int.toNat_of_nonneg hn]
  · obtain ⟨-, h₀, h₁, heq⟩ := ht
    beta_reduce
    exact ⟨by omega, by rw [heq]; omega⟩

section Rows

variable (hok : StepOk d o m b)
include hok

theorem consistent {pl : Plan} (hpl : prepare d o m w b = .ok pl) : Consistent d b pl := by
  obtain ⟨pl', hpl', hm, -, hu, -, -, ht⟩ := prepare_eq (o := o) (m := m) (w := w) (b := b) hok.dims
  cases hpl.symm.trans hpl'
  have hs : ∀ {r j}, r < b.requestCount → j < b.selectedCounts r →
      pl.unionToSlot r j = (rowOf d o m b r).assign j := by
    intro r j hr hj
    rw [hu, batchUnionToSlot_eq hok hr, if_pos hj]
  have hre : ∀ {r j}, r < b.requestCount → j < b.selectedCounts r →
      0 ≤ pl.unionToSlot r j ∧ pl.unionToSlot r j < d.capacity ∧
      pl.maps.slotRow d (safeState d b r) (pl.unionToSlot r j).toNat = b.selectedPacked r j ∧
      pl.maps.tokenRow d (safeState d b r) (b.selectedPacked r j).toNat = pl.unionToSlot r j := by
    intro r j hr hj
    have hb := assign_bounds (rowOf_wf hok hr) hj
    rw [hs hr hj, hm]
    exact ⟨hb.1, hb.2, slotRow_assign hok hr hj, tokenRow_token hok hr hj⟩
  have hinv := Maps.Inv.step (w := w) hok
  refine ⟨fun st => ?_, fun st => ?_, hre, fun {r i j} hr hi hj heq => ?_,
    fun {r p} hr hp hlt => ?_⟩
  · rw [hm]
    exact (hinv.bijOn st).1
  · rw [hm]
    exact (hinv.bijOn st).2
  · rw [hs hr hi, hs hr hj] at heq
    exact assign_inj (rowOf_wf hok hr) hi hj heq
  · have hres := hre (j := (b.positionToUnion r p).toNat) hr (by omega)
    rw [hu] at hres
    rw [ht r p hp]
    exact ⟨hres.1, hres.2.1, hres.2.2.1⟩

variable (hsame : Same d m g)
include hsame

theorem referenceOf_wf (y₀ : Reference) (htokens : y₀.tokenToSlot = g.tokenToSlot)
    (hslots : y₀.slotToToken = clearStale d b g) (hr : r ∈ realRequests b) :
    (referenceOf d b y₀ r).WF := by
  have hs := hok.dims.slotStride
  unfold referenceOf
  rw [htokens, hslots]
  exact wf_congr (rowOf_wf hok (mem_realRequests.mp hr).1)
    (fun a ha => rowOf_slots hok hsame hr (lt_trans ha hs))
    fun t ht => rowOf_reverse hok.batch hsame hr ht

variable {y₀ y : Reference} (htokens : y₀.tokenToSlot = g.tokenToSlot)
  (hslots : y₀.slotToToken = clearStale d b g) (hy : Referred d b y₀ b.requestCount y)
include htokens hslots hy

theorem referenced (hr : r ∈ realRequests b) :
    (rowOf d o m b r).Done (y.slotToToken (b.requestStateIndices r).toNat)
        (y.tokenToSlot (b.requestStateIndices r).toNat) ∧
      (∀ j, y.unionToSlot r j
        = if j < b.selectedCounts r then (rowOf d o m b r).assign j else -1) ∧
      y.missCounts r = Nat.count (rowOf d o m b r).Miss (b.selectedCounts r) ∧
      ∀ {j}, (rowOf d o m b r).Miss j →
        y.misses r (Nat.count (rowOf d o m b r).Miss j) = b.selectedPacked r j := by
  obtain ⟨hlt, hn⟩ := mem_realRequests.mp hr
  have hwf := rowOf_wf hok hlt
  have hst := hok.dims.slotStride
  have hs : ∀ a < (rowOf d o m b r).capacity, (rowOf d o m b r).slots a
      = y₀.slotToToken (b.requestStateIndices r).toNat a := by
    intro a ha
    rw [hslots]
    exact rowOf_slots hok hsame hr (lt_trans ha hst)
  have hv : ∀ t < (rowOf d o m b r).stride, (rowOf d o m b r).reverse t
      = y₀.tokenToSlot (b.requestStateIndices r).toNat t := by
    intro t ht
    rw [htokens]
    exact rowOf_reverse hok.batch hsame hr ht
  have href := hy.real hlt hn
  have hc : ∀ n, Nat.count (referenceOf d b y₀ r).Miss n = Nat.count (rowOf d o m b r).Miss n :=
    fun n => count_congr fun _ _ => miss_congr hwf hs hv
  refine ⟨Row.Done.congr hwf hs hv href.done, fun j => ?_, href.missCount.trans (hc _),
    fun {j} hm => ?_⟩
  · refine (href.unionToSlot j).trans ?_
    by_cases hj : j < b.selectedCounts r
    · rw [if_pos hj]
      exact (if_pos hj).trans (assign_congr hwf hs hv hj)
    · rw [if_neg hj]
      exact if_neg hj
  · rw [← hc]
    exact href.misses ((miss_congr hwf hs hv).mpr hm)

theorem samePlan {pl : Plan} (hp : prepare d o m w b = .ok pl) : SamePlan d b pl y := by
  obtain ⟨pl', hp', -, -, hu, hpa, hcn, -⟩ :=
    prepare_eq (o := o) (m := m) (w := w) (b := b) hok.dims
  cases hp.symm.trans hp'
  have hco : ∀ {r}, r < b.requestCount →
      pl.selectedCounts r = Nat.count (rowOf d o m b r).Miss (b.selectedCounts r) := by
    intro r hr
    rw [hcn]
    exact missCount_eq (rowOf_wf hok hr) hok.dims.capacity_pos
  have hm : ∀ {r j}, r < b.requestCount → (rowOf d o m b r).Miss j →
      pl.selectedPacked r (Nat.count (rowOf d o m b r).Miss j) = b.selectedPacked r j := by
    intro r j hr hm
    rw [hpa]
    simp only [newWorkspace, if_pos hr]
    exact missPayload_eq (rowOf_wf hok hr) (hok.orders.rows hr) hm
  have hs : ∀ {r} j, r < b.requestCount → pl.unionToSlot r j
      = if j < b.selectedCounts r then (rowOf d o m b r).assign j else -1 := by
    intro r j hr
    rw [hu]
    exact batchUnionToSlot_eq hok hr
  -- a request has a state, or is a dummy
  have hc : ∀ {r}, r < b.requestCount → r ∈ realRequests b ∨ b.requestStateIndices r < 0 := by
    intro r hr
    by_cases hn : 0 ≤ b.requestStateIndices r
    · exact .inl (mem_realRequests.mpr ⟨hr, hn⟩)
    · exact .inr (by omega)
  refine ⟨fun {r} hr => ?_, fun {r} hr k hk => ?_, fun {r} hr j _ => ?_⟩
  · rcases hc hr with hre | hneg
    · rw [hco hr, (referenced hok hsame htokens hslots hy hre).2.2.1]
    · rw [hco hr, (hy.dummy hr hneg).2.2]
      exact count_miss_of_empty (rowOf_wf hok hr)
        (fun a ha => rowOf_slots_dummy hok hr hneg ha) le_rfl
  · rcases hc hr with hre | hneg
    · have href := referenced hok hsame htokens hslots hy hre
      rw [href.2.2.1] at hk
      obtain ⟨j, -, hm', rfl⟩ := exists_count_eq hk
      rw [hm hr hm', href.2.2.2 hm']
    · rw [(hy.dummy hr hneg).2.2] at hk
      have he : ∀ a < (rowOf d o m b r).capacity, (rowOf d o m b r).slots a = -1 :=
        fun a ha => rowOf_slots_dummy hok hr hneg ha
      have hm' := hm hr (miss_of_empty (rowOf_wf hok hr) he hk)
      rw [count_miss_of_empty (rowOf_wf hok hr) he (le_of_lt hk)] at hm'
      rw [hm', (hy.dummy hr hneg).2.1 k hk]
  · rw [hs j hr]
    rcases hc hr with hre | hneg
    · rw [(referenced hok hsame htokens hslots hy hre).2.1]
    · rw [(hy.dummy hr hneg).1]
      by_cases hj : j < b.selectedCounts r
      · rw [if_pos hj, if_pos hj]
        exact assign_of_empty (rowOf_wf hok hr) (fun a ha => rowOf_slots_dummy hok hr hneg ha) hj
      · rw [if_neg hj, if_neg hj]

theorem Same.step :
    Same d (newMaps d o m w b) ⟨y.tokenToSlot, y.slotToToken, setGenerations b g⟩ := by
  have hcap := hok.dims.slotStride
  -- a real state is a request's, or it is in no request
  have hc : ∀ {st}, st < d.maxRequests →
      (∃ r ∈ realRequests b, (b.requestStateIndices r).toNat = st) ∨
      (∀ r < b.requestCount, b.requestStateIndices r ≠ st) ∧
        ∀ r < b.requestCount, safeState d b r ≠ st := by
    intro st hst
    by_cases hex : ∃ r ∈ realRequests b, (b.requestStateIndices r).toNat = st
    · exact .inl hex
    · refine .inr ⟨fun r hr heq => hex ⟨r, mem_realRequests.mpr ⟨hr, by omega⟩, by omega⟩,
        fun r hr heq => ?_⟩
      rcases safeState_cases hok.batch hr with ⟨-, hs⟩ | ⟨hn, hs, -⟩
      · omega
      · exact hex ⟨r, mem_realRequests.mpr ⟨hr, hn⟩, by omega⟩
  refine ⟨fun {st} hst a ha => ?_, fun {st} hst t ht => ?_, fun {st} hst => ?_⟩ <;> dsimp only
  · rcases hc hst with ⟨r, hre, rfl⟩ | ⟨hne, hne'⟩
    · obtain ⟨hlt, hn⟩ := mem_realRequests.mp hre
      have hs := safeState_of_real (d := d) hre
      by_cases hin : a < d.capacity
      · have hd := (referenced hok hsame htokens hslots hy hre).1
        have heq := (done_rowOf hok (w := w) hlt).slots_eq hd hin
        rwa [hs] at heq
      · refine (slotRow_keep hok ha fun _ _ _ => by omega).trans ?_
        have hta := (hy.real hlt hn).slots_tail a (Nat.le_of_not_lt hin)
        refine Eq.trans ?_ hta.symm
        rw [hsame.slots hst a ha]
        change _ = y₀.slotToToken _ a
        rw [hslots, clearStale_of_eq hok.batch hre, if_neg fun h => hin h.2]
    · refine (slotRow_keep hok ha fun r hr heq => absurd heq (hne' r hr)).trans ?_
      rw [hsame.slots hst a ha, (hy.rest hne).1, hslots, clearStale_of_ne hne]
  · rcases hc hst with ⟨r, hre, rfl⟩ | ⟨hne, hne'⟩
    · obtain ⟨hlt, hn⟩ := mem_realRequests.mp hre
      have hs := safeState_of_real (d := d) hre
      by_cases hin : (t : Int) < (d.tokenStride : Int) - 1
      · have hd := (referenced hok hsame htokens hslots hy hre).1
        have heq := (done_rowOf hok (w := w) hlt).reverse_eq hd hin
        rwa [hs] at heq
      · have hle : d.tokenStride ≤ t + 1 := by omega
        refine (tokenRow_keep hok ht fun _ _ _ => hle).trans ?_
        have hta := (hy.real hlt hn).reverse_tail t hle
        refine Eq.trans ?_ hta.symm
        rw [hsame.tokens hst t ht]
        change _ = y₀.tokenToSlot _ t
        rw [htokens]
    · refine (tokenRow_keep hok ht fun r hr heq => absurd heq (hne' r hr)).trans ?_
      rw [hsame.tokens hst t ht, (hy.rest hne).2, htokens]
  · rcases hc hst with ⟨r, hre, rfl⟩ | ⟨hne, hne'⟩
    · rw [setGenerations_of_eq hok.batch hre, ← safeState_of_real (d := d) hre]
      exact newGenerations_of_eq hok.dims hok.batch hok.orders (mem_realRequests.mp hre).1
    · rw [setGenerations_of_ne hne, ← hsame.generations hst]
      exact newGenerations_of_ne hok.dims hok.orders hne'

end Rows

theorem step_refines (hok : StepOk d o m b) (hsame : Same d m g) :
    ∃ pl g' y, prepare d o m w b = .ok pl ∧ oracleStep d b g = .ok (g', y) ∧
      pl.maps.Inv d ∧ Same d pl.maps g' ∧ SamePlan d b pl y ∧ Consistent d b pl := by
  obtain ⟨pl, hp, hm, -⟩ := prepare_eq (o := o) (m := m) (w := w) (b := b) hok.dims
  have hd : ∀ r r', r < r' → r' < b.requestCount → 0 ≤ b.requestStateIndices r →
      b.requestStateIndices r ≠ b.requestStateIndices r' := by
    intro r r' hlt hr' hn heq
    have hrr' := hok.batch.distinct (by omega) hr' hn heq
    omega
  obtain ⟨y, hy, hre⟩ := referred (d := d) hd fun r hr hn =>
    referenceOf_wf hok hsame ⟨g.tokenToSlot, clearStale d b g, fun _ _ => -1, fun _ _ => 0,
      fun _ => 0⟩ rfl rfl (mem_realRequests.mpr ⟨hr, hn⟩)
  refine ⟨pl, ⟨y.tokenToSlot, y.slotToToken, setGenerations b g⟩, y, hp, ?_, ?_, ?_,
    samePlan hok hsame rfl rfl hre hp, consistent hok hp⟩
  · rw [oracleStep, reference, hok.dims.shapes, ok_bind, hy, ok_bind]
    rfl
  · rw [hm]
    exact Maps.Inv.step hok
  · rw [hm]
    exact Same.step hok hsame rfl rfl hre

/-! ## 5. Runs -/

theorem run_refines (hd : d.Valid) (hm : m.Inv d) (hsame : Same d m g)
    {ss : List (Orders × Batch)} (hs : ∀ s ∈ ss, s.2.Valid d ∧ s.1.Valid d s.2) :
    ∃ m' w' g', runPlanner d ss (m, w) = .ok (m', w') ∧
      runOracle d (ss.map Prod.snd) g = .ok g' ∧ m'.Inv d ∧ Same d m' g' := by
  induction ss generalizing m w g with
  | nil => exact ⟨m, w, g, rfl, rfl, hm, hsame⟩
  | cons s ss ih =>
    obtain ⟨hb, ho⟩ := hs s mem_cons_self
    obtain ⟨pl, g₁, y, hp, hor, hm₁, hsame₁, -, -⟩ :=
      step_refines (w := w) ⟨hd, hb, ho, hm⟩ hsame
    obtain ⟨m', w', g', hr, hr', hm', hsame'⟩ := ih (w := pl.workspace) hm₁ hsame₁
      fun s' hs' => hs s' (mem_cons_of_mem _ hs')
    refine ⟨m', w', g', ?_, ?_, hm', hsame'⟩
    · rw [runPlanner, foldlM_cons, hp]
      exact hr
    · rw [runOracle, map_cons, foldlM_cons, hor]
      exact hr'

def emptyMaps (generations : Nat → Int) : Maps := ⟨fun _ => -1, fun _ => -1, generations⟩

def emptyOracle (d : Dims) (generations : Nat → Int) : Oracle :=
  ⟨fun _ _ => -1, fun _ _ => -1, fun st => generations (st * d.generationStride)⟩

theorem emptyMaps_inv (gs : Nat → Int) : (emptyMaps gs).Inv d := by
  have hs : ∀ st a, (emptyMaps gs).slotRow d st a = -1 := fun _ _ => rfl
  have ht : ∀ st t, (emptyMaps gs).tokenRow d st t = -1 := fun _ _ => rfl
  refine ⟨fun st a _ hn => ?_, fun st t _ => ?_, fun st => hs st _, fun st => ht st _⟩
  · rw [hs] at hn
    omega
  · rw [ht]
    omega

theorem emptyMaps_same {gs : Nat → Int} : Same d (emptyMaps gs) (emptyOracle d gs) :=
  ⟨fun _ _ _ => rfl, fun _ _ _ => rfl, fun _ => rfl⟩

end Step

/-- **The resident planner refines its oracle.** Shapes that the planner rejects the oracle rejects
    with the same error. Otherwise, from empty maps and after any valid steps, one more leaves the
    same, consistent maps for the real states and returns the same plan, whatever the generations,
    the workspaces and the order of the scatters. -/
theorem resident_cache_refines (d : Dims) (htoken : 0 < d.tokenStride)
    (hgeneration : 8 ≤ d.generationStride) :
    (∃ e, (∀ o m w b, prepare d o m w b = .error e) ∧ ∀ b g, oracleStep d b g = .error e) ∨
    ∀ (generations : Nat → Int) (w : Workspace) (steps : List (Orders × Batch)),
      (∀ s ∈ steps, s.2.Valid d ∧ s.1.Valid d s.2) →
      ∀ (o : Orders) (b : Batch), b.Valid d → o.Valid d b →
      ∃ m w' g plan g' y, runPlanner d steps (emptyMaps generations, w) = .ok (m, w') ∧
        runOracle d (steps.map Prod.snd) (emptyOracle d generations) = .ok g ∧
        prepare d o m w' b = .ok plan ∧ oracleStep d b g = .ok (g', y) ∧
        Same d plan.maps g' ∧ SamePlan d b plan y ∧ Consistent d b plan := by
  cases hs : validateResidentShapes d with
  | error e =>
    left
    refine ⟨e, fun o m w b => ?_, fun b g => ?_⟩
    · rw [prepare, hs]
      rfl
    · rw [oracleStep, reference, hs]
      rfl
  | ok u =>
    right
    intro generations w steps hss o b hb ho
    obtain ⟨hpos, hlt, hst⟩ := validateResidentShapes_eq_ok.mp hs
    have hd : d.Valid := ⟨hpos, hlt, hst, htoken, hgeneration⟩
    obtain ⟨m, w', g, hr, hr', hm, hsame⟩ :=
      run_refines (w := w) hd (emptyMaps_inv generations) emptyMaps_same hss
    obtain ⟨plan, g', y, hp, hor, -, hsame', hsp, hc⟩ :=
      step_refines (w := w') ⟨hd, hb, ho, hm⟩ hsame
    exact ⟨m, w', g, plan, g', y, hr, hr', hp, hor, hsame', hsp, hc⟩

def testDims : Dims := ⟨2, 2, 5, 3, 8, 1⟩

def testBatch : Batch where
  requestCount := 2
  selectedPacked _ j := if j = 0 then 3 else 0
  selectedCounts _ := 2
  requestStateIndices r := if r = 0 then 1 else -1
  requestStateGenerations _ := 7
  positionToUnion _ p := p
  topkIndices _ _ := 0
  requestBlockTable _ _ := 0

def testOrders : Orders where
  rows _ := ⟨range 2, range 2, range 2, range 2⟩
  clear := range 4
  invalidate := range 4
  reverse := range 4
  forward := range 4
  generations := range 2

theorem testBatch_valid : testBatch.Valid testDims where
  state {r} hr := by
    have hr' : r < 2 := hr
    interval_cases r <;> decide
  distinct {r r'} hr hr' hnonneg heq := by
    have hlt : r < 2 := hr
    have hlt' : r' < 2 := hr'
    revert heq hnonneg
    interval_cases r <;> interval_cases r' <;> decide
  count_le _ := le_rfl
  nonneg {r j} _ _ := by
    change 0 ≤ if j = 0 then (3 : Int) else 0
    split_ifs <;> decide
  lt {r j} _ _ := by
    change (if j = 0 then (3 : Int) else 0) < 4
    split_ifs <;> decide
  inj {r i j} _ hi hj heq := by
    have hlt : i < 2 := hi
    have hlt' : j < 2 := hj
    revert heq
    interval_cases i <;> interval_cases j <;> simp [testBatch]

theorem testOrders_valid : testOrders.Valid testDims testBatch where
  rows _ := ⟨.refl _, .refl _, .refl _, .refl _⟩
  clear := .refl _
  invalidate := .refl _
  reverse := .refl _
  forward := .refl _
  generations := .refl _

theorem resident_cache_refines_two :
    ∃ m w' g plan g' y,
      runPlanner testDims [(testOrders, testBatch)]
        (emptyMaps fun _ => -1, ⟨fun _ _ => 9, fun _ _ => 9, fun _ _ => 0⟩) = .ok (m, w') ∧
      runOracle testDims [testBatch] (emptyOracle testDims fun _ => -1) = .ok g ∧
      prepare testDims testOrders m w' testBatch = .ok plan ∧
      oracleStep testDims testBatch g = .ok (g', y) ∧
      Same testDims plan.maps g' ∧ SamePlan testDims testBatch plan y ∧
      Consistent testDims testBatch plan := by
  rcases resident_cache_refines testDims (by decide) (by decide) with ⟨e, he, -⟩ | hr
  · obtain ⟨plan, hp, -⟩ := prepare_eq (d := testDims) (o := testOrders) (b := testBatch)
      (m := emptyMaps fun _ => -1) (w := ⟨fun _ _ => 9, fun _ _ => 9, fun _ _ => 0⟩)
      ⟨by decide, by decide, by decide, by decide, by decide⟩
    rw [he] at hp
    cases hp
  · refine hr _ _ [(testOrders, testBatch)] (fun s hs => ?_)
      testOrders testBatch testBatch_valid testOrders_valid
    rw [mem_singleton.mp hs]
    exact ⟨testBatch_valid, testOrders_valid⟩

end VllmDual.Resident
