/-
  Subject:   A LIVE-SPLIT TRANSFER STAYS INSIDE REGISTERED MEMORY.

  A plain segment is checked against the tables directly, a compact one through the layers and pages
  it was expanded from. Both give the same guarantee for every batch that reaches the engine:

  * `transfer_stays_inside` -- a submitted batch reads and writes registered memory only, its
    extents do not overlap and its bytes are the plan's;
  * `hostAndDevice_overlap` -- CPU and NPU extents are not compared with each other.
-/
import VllmDual.Split.Transfer

namespace VllmDual.Split

open Outcome Intervals Align List SplitTransferSegment

/-! ## 1. Plans from the wire -/

/-- A plan that was parsed, or merged from a parsed source descriptor. -/
inductive WirePlan : SplitTransferPlan → Prop
  | parsed {v : PyVal} {plan : SplitTransferPlan} (h : parseSplitPlan v
    = .ok (some plan)) : WirePlan plan
  | merged {v destination : PyVal} {sources : List SplitSourceDescriptor}
    {source : SplitSourceDescriptor} {supportedGroups : List Int} {plan : SplitTransferPlan}
    (hparse : parseSourceDescriptor v = .ok (some sources)) (hsource : source ∈ sources)
    (hmerge : mergeSourceAndDestinations source destination supportedGroups = .ok plan) :
    WirePlan plan

variable {plan : SplitTransferPlan} {t : BufferTable} {gr x : Int} {b : Int × Int} {u : Unit}
  {rg : List Int} {s : SplitTransferSegment} {segments : List SplitTransferSegment}
  {ly : SplitCompactLayer}

theorem WirePlan.valid (h : WirePlan plan) : PlanLayoutsValid plan := by
  cases h with
  | parsed h => exact parseSplitPlan_valid h
  | merged hp hs hm =>
    rename_i v dst sources src sg
    have hv := parseSourceDescriptor_valid hp src hs
    obtain ⟨r, tpRank, dr, de, rp, lp, hd, -, h | h⟩ :=
      mergeSourceAndDestinations_spec hm
    · unfold mergeCompact at h
      split at h
      · rename_i co target hc
        replace h := of_ensure h
        obtain ⟨-, rfl⟩ := ensure_bind_pure_eq_ok.mp h
        refine ⟨fun c hc' => ?_, fun c hc' => hd c hc', fun l hl => ?_⟩
        · exact hv.compactValid c (hc.trans hc')
        · by_cases h0 : 0 ∈ r
          · exact hv.latentValid l (by simpa [h0] using hl)
          · simp [h0] at hl
      · cases h
    · obtain ⟨_, -, h⟩ := of_bind h
      obtain ⟨_, -, rfl⟩ := bind_pure_eq_ok.mp h
      exact ⟨by simp, by simp, by simp⟩

/-! ## 2. Memory -/

/-- `length` bytes from `address` on lie in a registered buffer of the group. -/
def BufferTable.Inside (t : BufferTable) (group address length : Int) : Prop :=
  ∃ (i : Nat) (base size : Int), t.bases[i]? = some base ∧ t.sizes[i]? = some size ∧
    t.groups[i]? = some group ∧ base ≤ address ∧ address + length ≤ base + size

def BufferTable.Disjoint (t : BufferTable) (group : Int) : Prop :=
  ((t.ofGroup group).map fun b => (b.1, b.1 + b.2)).Pairwise Apart

/-- The group-0 destinations of a plan: inside a listed page, or a listed CPU segment. -/
def Listed (plan : SplitTransferPlan) (address length : Int) : Prop :=
  (∃ page ∈ plan.latentDestinationPages, page.destinationAddress ≤ address ∧
      address + length ≤ page.destinationAddress + page.length) ∨
    ∃ s ∈ plan.segments, s.groupId = 0 ∧ s.destinationKind = "cpu" ∧
      s.destinationAddress = address ∧ s.length = length

structure SafeSegment (receiver : Receiver) (table : BufferTable) (plan : SplitTransferPlan)
    (s : SplitTransferSegment) : Prop where
  group : s.groupId ∈ plan.requestedGroups
  positive : 0 < s.length
  reads : table.Inside s.groupId (s.triple table).source s.length
  device : s.groupId = 1 → receiver.registry.Inside 1 s.destinationAddress s.length
  host : s.groupId = 0 → Listed plan s.destinationAddress s.length

theorem BufferTable.mem_indicesOf {i : Nat} (h : i ∈ t.indicesOf gr) : t.groups[i]? = some gr := by
  simpa [indicesOf] using (mem_filter.mp h).2

theorem BufferTable.exists_of_mem_ofGroup (h : b ∈ t.ofGroup gr) :
    ∃ i : Nat, t.bases[i]? = some b.1 ∧ t.sizes[i]? = some b.2 ∧ t.groups[i]? = some gr := by
  obtain ⟨⟨ba, size, g⟩, hm, rfl⟩ := mem_map.mp h
  obtain ⟨hz, hg⟩ := mem_filter.mp hm
  obtain ⟨i, hi, heq⟩ := mem_iff_getElem.mp hz
  simp only [length_zip, lt_inf_iff] at hi
  simp only [getElem_zip, Prod.mk.injEq] at heq
  obtain ⟨hb, hs, hgr⟩ := heq
  have hg' : g = gr := by simpa using hg
  refine ⟨i, ?_, ?_, ?_⟩
  · rw [getElem?_eq_getElem hi.1, hb]
  · rw [getElem?_eq_getElem hi.2.1, hs]
  · rw [getElem?_eq_getElem hi.2.2, hgr, hg']

/-! ## 3. The plain path -/

theorem bisectRight_le {l : List (Int × Int)} {ow : Nat} (h : ow < bisectRight (l.map (·.1)) x)
    (hb : l[ow]? = some b) : b.1 ≤ x := by
  induction l generalizing ow with
  | nil => cases hb
  | cons c l ih =>
    rw [map_cons, bisectRight] at h
    split at h
    · rename_i hle
      cases ow with
      | zero =>
        obtain rfl : c = b := by simpa using hb
        exact hle
      | succ ow => exact ih (Nat.lt_of_succ_lt_succ h) (by simpa using hb)
    · omega

theorem inside_of_checkNpuExtent {e : Int × Int}
    (h : checkNpuExtent (sortTuples (t.ofGroup 1)) e = .ok u) : t.Inside 1 e.1 (e.2 - e.1) := by
  unfold checkNpuExtent at h
  split at h
  · cases h
  · rename_i ow ho
    split at h
    · cases h
    · rename_i ba size hb
      have hlt : ow < bisectRight ((sortTuples (t.ofGroup 1)).map (·.1)) e.1 := by omega
      have hle := bisectRight_le hlt hb
      have hm : (ba, size) ∈ t.ofGroup 1 :=
        (sortTuples_perm _).mem_iff.mp (mem_of_getElem? hb)
      obtain ⟨i, hba, hs, hg⟩ := BufferTable.exists_of_mem_ofGroup hm
      have he := ensure_eq_ok.mp h
      exact ⟨i, ba, size, hba, hs, hg, hle, by omega⟩

theorem checkSegment_eq_ok : checkSegment rg s = .ok u ↔ s.groupId ∈ rg ∧
    s.destinationKind = expectedKind s.groupId ∧
      0 < s.length ∧ 0 ≤ s.sourceOffset ∧ 0 < s.destinationAddress := by
  simp only [checkSegment, ensure_bind_eq_ok, ensure_eq_ok]

theorem inside_of_checkPlainSource (hs : t.sizes.length = t.bases.length) (ho : 0 ≤ s.sourceOffset)
    (h : checkPlainSource t s = .ok u) : t.Inside s.groupId (s.triple t).source s.length := by
  simp only [checkPlainSource, ensure_bind_eq_ok, ensure_eq_ok] at h
  obtain ⟨⟨h0, hlt⟩, -, hg, hsi⟩ := h
  have hi : s.sourceBufferIndex.toNat < t.bases.length := by omega
  have hb : t.bases[s.sourceBufferIndex.toNat]?
      = some (t.bases.getD s.sourceBufferIndex.toNat 0) := by
    simp [List.getD, getElem?_eq_getElem hi]
  have hso : t.sizes[s.sourceBufferIndex.toNat]?
      = some (t.sizes.getD s.sourceBufferIndex.toNat 0) := by
    simp [List.getD, getElem?_eq_getElem (hs ▸ hi)]
  refine ⟨_, _, _, hb, hso, hg, ?_, ?_⟩ <;> simp only [triple] <;> omega

theorem checkPlainDestinations_spec {registry : BufferTable} (hp : ∀ s ∈ segments, 0 < s.length)
    (h : checkPlainDestinations registry segments = .ok u) :
    (destinationsOf "cpu" segments).Pairwise Apart ∧
      (destinationsOf "npu" segments).Pairwise Apart ∧
      ∀ s ∈ segments, s.destinationKind = "npu" →
        registry.Inside 1 s.destinationAddress s.length := by
  obtain ⟨⟨hc, hn⟩, h⟩ := ensure_bind_eq_ok.mp h
  obtain ⟨hre, h⟩ := ensure_bind_eq_ok.mp h
  have hne : ∀ kind, ∀ r ∈ destinationsOf kind segments, r.1 < r.2 := by
    intro kind r hr
    obtain ⟨s, hs, rfl⟩ := mem_map.mp hr
    have := hp s (mem_of_mem_filter hs)
    simp only [extent]
    omega
  refine ⟨pairwise_apart_of_not_adjacentOverlap (hne "cpu") hc,
    pairwise_apart_of_not_adjacentOverlap (hne "npu") hn, fun s hs hk => ?_⟩
  have hm : s.extent ∈ destinationsOf "npu" segments :=
    mem_map.mpr ⟨s, mem_filter.mpr ⟨hs, by simp [hk]⟩, rfl⟩
  split at h
  · -- an empty registry has been refused
    rename_i hem
    exact absurd hem.1 (hre (ne_nil_of_mem hm)).1
  · replace h := of_ensure h
    obtain ⟨_, ha, -⟩ := of_bind h
    obtain ⟨_, -, he⟩ := exists_of_mem_left (mapM_eq_ok.mp ha) ((sortTuples_perm _).mem_iff.mpr hm)
    have hi := inside_of_checkNpuExtent he
    simpa [extent] using hi

/-! ## 4. The compact path -/

theorem slots_inside (hp : ly.Positive) {sl c : Int} (h0 : 0 ≤ sl)
    (hle : sl + c ≤ ly.slotCapacity) : 0 ≤ sl * ly.tokenBytes ∧
      sl * ly.tokenBytes + c * ly.tokenBytes ≤ ly.slotCapacity * ly.tokenBytes := by
  refine ⟨mul_nonneg h0 hp.2.1.le, ?_⟩
  rw [← add_mul]
  exact mul_le_mul_of_nonneg_right hle hp.2.1.le

theorem inside_of_validateRemote {ls : List SplitCompactLayer}
    (hs : t.sizes.length = t.bases.length)
    (h : validateRemoteCompactSource t gr ls = .ok u) (hl : ly ∈ ls) {off len : Int}
    (h0 : 0 ≤ off) (hle : off + len ≤ ly.slotCapacity * ly.tokenBytes) :
    t.Inside gr (t.bases.getD ly.bufferIndex.toNat 0 + off) len := by
  simp only [validateRemoteCompactSource, ensure_bind_eq_ok, ensure_eq_ok] at h
  obtain ⟨hlen, ha⟩ := h
  obtain ⟨j, hj, rfl⟩ := mem_iff_getElem.mp hl
  have hj' : j < (t.indicesOf gr).length := hlen ▸ hj
  have hm : (ls[j], (t.indicesOf gr)[j]) ∈ ls.zip (t.indicesOf gr) :=
    mem_iff_getElem.mpr ⟨j, by simp [hj, hj'], by simp⟩
  obtain ⟨hi, hb, hsi⟩ := ha _ hm
  simp only at hi hb hsi
  have hg := BufferTable.mem_indicesOf (getElem_mem hj')
  have hlt := (List.getElem?_eq_some_iff.mp hb).1
  have hso : t.sizes[(t.indicesOf gr)[j]]? = some (t.sizes.getD (t.indicesOf gr)[j] 0) := by
    simp [List.getD, getElem?_eq_getElem (hs ▸ hlt)]
  have hget : t.bases.getD ls[j].bufferIndex.toNat 0 = ls[j].bufferBase := by
    rw [hi, Int.toNat_natCast, List.getD, hb, Option.getD_some]
  exact ⟨_, _, _, hb, hso, hg, by rw [hget]; omega, by rw [hget]; omega⟩

section Local

variable {registry : BufferTable} {layout : SplitCompactLayout}

variable (h : validateLocalCompactDestination registry layout = .ok u)
include h

theorem validateLocal_spec : layout.layers.length = (registry.ofGroup layout.groupId).length ∧
      ∀ p ∈ layout.layers.zip (registry.ofGroup layout.groupId),
        p.1.bufferBase = p.2.1 ∧ p.1.slotCapacity * p.1.tokenBytes ≤ p.2.2 := by
  simp only [validateLocalCompactDestination, ensure_bind_eq_ok, ensure_eq_ok] at h
  exact h.2

theorem inside_of_validateLocal {ly : SplitCompactLayer} (hl : ly ∈ layout.layers) {off len : Int}
    (h0 : 0 ≤ off) (hle : off + len ≤ ly.slotCapacity * ly.tokenBytes) :
    registry.Inside layout.groupId (ly.bufferBase + off) len := by
  obtain ⟨hlen, ha⟩ := validateLocal_spec h
  obtain ⟨j, hj, rfl⟩ := mem_iff_getElem.mp hl
  have hj' : j < (registry.ofGroup layout.groupId).length := hlen ▸ hj
  have hm : (layout.layers[j], (registry.ofGroup layout.groupId)[j])
      ∈ layout.layers.zip (registry.ofGroup layout.groupId) :=
    mem_iff_getElem.mpr ⟨j, by simp [hj, hj'], by simp⟩
  obtain ⟨hba, hsi⟩ := ha _ hm
  simp only at hba hsi
  obtain ⟨i, hb, hs, hg⟩ := BufferTable.exists_of_mem_ofGroup (getElem_mem hj')
  exact ⟨i, _, _, hb, hs, hg, by omega, by omega⟩

theorem extents_apart_of_validateLocal (hd : registry.Disjoint layout.groupId) :
    (layout.layers.map (·.extent)).Pairwise Apart := by
  obtain ⟨hl, hall⟩ := validateLocal_spec h
  have hb := pairwise_map.mp hd
  rw [pairwise_iff_getElem] at hb
  rw [pairwise_map, pairwise_iff_getElem]
  intro i j hi hj hij
  have hp :
      ∀ (k : Nat) (hk : k < layout.layers.length)
        (hk' : k < (registry.ofGroup layout.groupId).length),
      layout.layers[k].bufferBase = (registry.ofGroup layout.groupId)[k].1 ∧
        layout.layers[k].slotCapacity * layout.layers[k].tokenBytes
          ≤ (registry.ofGroup layout.groupId)[k].2 :=
    fun k hk hk' => hall (layout.layers[k], (registry.ofGroup layout.groupId)[k])
      (mem_iff_getElem.mpr ⟨k, by simp [hk, hk'], by simp⟩)
  have ha := hb i j (hl ▸ hi) (hl ▸ hj) hij
  obtain ⟨hbi, hsi⟩ := hp i hi (hl ▸ hi)
  obtain ⟨hbj, hsj⟩ := hp j hj (hl ▸ hj)
  simp only [Apart, SplitCompactLayer.extent] at ha ⊢
  omega

end Local

section Bounds

variable {so d : SplitCompactLayout}

theorem compactSegments_bounds (h : Matching so d) (hs : s ∈ compactSegments so d) :
    ∃ src ∈ so.layers, ∃ dst ∈ d.layers, ∃ off, s.sourceBufferIndex = src.bufferIndex ∧
      0 ≤ s.sourceOffset ∧ s.sourceOffset + s.length ≤ src.slotCapacity * src.tokenBytes ∧
      s.destinationAddress = dst.bufferBase + off ∧ 0 ≤ off ∧
      off + s.length ≤ dst.slotCapacity * dst.tokenBytes := by
  obtain ⟨p, hp, hs⟩ := mem_flatMap.mp hs
  obtain ⟨l, hl, rfl⟩ := mem_map.mp hs
  have hsrc := (of_mem_zip hl).1
  have hd := (of_mem_zip hl).2
  have hpi := walk_forall (Q := fun p => p.left ∈ so.runs ∧ p.right ∈ d.runs ∧
      0 ≤ p.leftOffset ∧ p.leftOffset + p.count ≤ p.left.tokenCount ∧ 0 ≤ p.rightOffset ∧
      p.rightOffset + p.count ≤ p.right.tokenCount)
    h.validSource.runs.inside h.validDestination.runs.inside
    (fun p hl hr _ h1 h2 h3 h4 => ⟨hl, hr, h1, h2, h3, h4⟩) p hp
  obtain ⟨hle, hri, ho₁, hc₁, ho₂, hc₂⟩ := hpi
  have hr₁ := h.validSource.runs.pos _ hle
  have hr₂ := h.validDestination.runs.pos _ hri
  have hcap₁ := minCapacity_le hsrc
  have hcap₂ := minCapacity_le hd
  have hslot₁ : 0 ≤ p.left.physicalSlotStart + p.leftOffset := by omega
  have hslot₂ : 0 ≤ p.right.physicalSlotStart + p.rightOffset := by omega
  have hfit₁ : p.left.physicalSlotStart + p.leftOffset + p.count ≤ l.1.slotCapacity := by omega
  have hfit₂ : p.right.physicalSlotStart + p.rightOffset + p.count ≤ l.2.slotCapacity := by omega
  obtain ⟨hs0, hsle⟩ := slots_inside (h.validSource.positive _ hsrc) hslot₁ hfit₁
  obtain ⟨hd0, hdle⟩ := slots_inside (h.validDestination.positive _ hd) hslot₂ hfit₂
  refine ⟨l.1, hsrc, l.2, hd, _, rfl, hs0, hsle, rfl, hd0, ?_⟩
  rw [compactSegment, h.width hl]
  exact hdle

theorem mem_destinations {x : Int} :
    x ∈ s.moves.map (·.destination) ↔ s.extent.1 ≤ x ∧ x < s.extent.2 := by
  simp only [moves, extent, map_map, mem_map, mem_range, Function.comp_apply]
  constructor
  · intro ⟨k, hk, hx⟩
    omega
  · intro ⟨hle, hlt⟩
    exact ⟨(x - s.destinationAddress).toNat, by omega, by omega⟩

theorem Expandable.latentSegments_bounds (h : Expandable plan so d) (hs : s ∈ latentSegments plan) :
    ∃ latent, plan.latentSource = some latent ∧ latent.groupId = 0 ∧ ∃ ly ∈ latent.layers,
      ∃ pg ∈ plan.latentDestinationPages,
      s.sourceBufferIndex = ly.bufferIndex ∧ 0 ≤ s.sourceOffset ∧
      s.sourceOffset + s.length ≤ ly.slotCapacity * ly.tokenBytes ∧
      pg.destinationAddress ≤ s.destinationAddress ∧
      s.destinationAddress + s.length ≤ pg.destinationAddress + pg.length := by
  have hln := (h.latentSegments_forall s hs).2
  unfold latentSegments at hs
  split at hs
  · rename_i latent hla
    have hr := h.latent latent hla
    obtain ⟨pair, hp, hs⟩ := mem_flatMap.mp hs
    obtain ⟨hco, hc⟩ := hr.runs hp
    have hso : plan.latentSource = some latent := by
      unfold SplitTransferPlan.latent at hla
      split at hla
      · exact hla
      · cases hla
    -- what the segment writes is part of what the page receives
    have hb : ∀ x, s.extent.1 ≤ x → x < s.extent.2 →
        pair.2.destinationAddress ≤ x ∧ x < pair.2.destinationAddress + pair.2.length := by
      intro x hle hlt
      obtain ⟨m, hm, rfl⟩ := mem_map.mp (mem_destinations.mpr ⟨hle, hlt⟩)
      have hmem := mem_map_of_mem (f := (·.destination)) (mem_flatMap.mpr ⟨s, hs, hm⟩)
      rw [moves_pageSegments hc hr.valid.positive,
        destination_pageMoves hco hr.valid.positive, ← hr.lengths pair hp] at hmem
      obtain ⟨k, hk, hk'⟩ := mem_map.mp hmem
      have := mem_range.mp hk
      omega
    have hf := hb s.extent.1 le_rfl (by simp only [extent]; omega)
    have hls := hb (s.extent.2 - 1) (by simp only [extent]; omega) (by omega)
    simp only [extent] at hf hls
    obtain ⟨ly, hly, hs⟩ := mem_flatMap.mp hs
    obtain ⟨run, hrun, rfl⟩ := mem_map.mp hs
    have hl := fst_mem_of_mem_zipIdx hly
    have hpos := hc.pos run hrun
    have hcap := minCapacity_le hl
    have hfit : run.physicalSlotStart + run.tokenCount ≤ ly.1.slotCapacity := by omega
    obtain ⟨h0, hle⟩ := slots_inside (hr.valid.positive _ hl) hpos.1 hfit
    exact ⟨latent, hso, hr.valid.group, ly.1, hl, pair.2, (of_mem_zip hp).2, rfl, h0, hle,
      hf.1, by omega⟩
  · cases hs

theorem pairwise_apart_of_nodup {ss : List SplitTransferSegment} (hp : ∀ s ∈ ss, 0 < s.length)
    (h : ((ss.flatMap (·.moves)).map fun m => (m.groupId, m.destination)).Nodup) :
    ss.Pairwise fun s t => s.groupId = t.groupId → Apart s.extent t.extent := by
  rw [map_flatMap, nodup_flatMap] at h
  refine h.2.imp_of_mem fun {s t} hs ht hd hg => ?_
  by_contra hover
  -- the later of the two starts is written by both
  have hk : ∀ r : SplitTransferSegment, ∀ x, r.extent.1 ≤ x → x < r.extent.2 →
      (r.groupId, x) ∈ r.moves.map fun m => (m.groupId, m.destination) := by
    intro r x hle hlt
    obtain ⟨m, hm, rfl⟩ := mem_map.mp (mem_destinations.mpr ⟨hle, hlt⟩)
    obtain ⟨k, -, rfl⟩ := mem_map.mp hm
    exact mem_map.mpr ⟨_, hm, rfl⟩
  have hs' := hp s hs
  have ht' := hp t ht
  simp only [Apart, extent, not_or, not_le] at hover hk
  have hx := hk s (max s.destinationAddress t.destinationAddress) (by omega) (by omega)
  have hy := hk t (max s.destinationAddress t.destinationAddress) (by omega) (by omega)
  exact hd hx (hg ▸ hy)

end Bounds

/-! ## 5. Every segment is safe -/

structure SafeSegments (receiver : Receiver) (table : BufferTable) (plan : SplitTransferPlan)
    (segments : List SplitTransferSegment) : Prop where
  each : ∀ s ∈ segments, SafeSegment receiver table plan s
  apart : segments.Pairwise fun s t => s.groupId = t.groupId → Apart s.extent t.extent

section Segments

variable {re : Receiver} {peer : RemotePeer} {e : SplitTransferPlan}
  {so d : SplitCompactLayout}

theorem plain_safe (hsi : peer.table.sizes.length = peer.table.bases.length)
    (hch : ∀ s ∈ plan.segments, checkSegment plan.requestedGroups s = .ok ())
    (hd : checkPlainDestinations re.registry plan.segments = .ok ())
    (hso : ∀ s ∈ plan.segments, checkPlainSource peer.table s = .ok ()) :
    SafeSegments re peer.table plan plan.segments := by
  have hc := fun s hs => checkSegment_eq_ok.mp (hch s hs)
  obtain ⟨hcpu, hn, hi⟩ :=
    checkPlainDestinations_spec (fun s hs => (hc s hs).2.2.1) hd
  refine ⟨fun s hs => ?_, ?_⟩
  · obtain ⟨hg, hk, hp, ho, -⟩ := hc s hs
    refine ⟨hg, hp, inside_of_checkPlainSource hsi ho (hso s hs), fun h1 => ?_,
      fun h0 => .inr ⟨s, hs, h0, ?_, rfl, rfl⟩⟩
    · exact hi s hs (by rw [hk, h1]; rfl)
    · rw [hk, h0]
      rfl
  · -- the kind is that of the group, so one group is one of the two sorted lists
    have hcpu' := pairwise_filter.mp (pairwise_map.mp hcpu)
    have hn' := pairwise_filter.mp (pairwise_map.mp hn)
    refine (hcpu'.and hn').imp_of_mem fun {s t} hs ht h hg => ?_
    have hks := (hc s hs).2.1
    have hkt := (hc t ht).2.1
    by_cases h0 : s.groupId = 0
    · exact h.1 (by simp [hks, h0, expectedKind]) (by simp [hkt, ← hg, h0, expectedKind])
    · exact h.2 (by simp [hks, h0, expectedKind]) (by simp [hkt, ← hg, h0, expectedKind])

theorem Expandable.pages_apart (h : Expandable plan so d) (hpg : checkLatentPages plan = .ok ())
    (hla : plan.latent.isSome) : (plan.latentDestinationPages.map (·.extent)).Pairwise Apart := by
  obtain ⟨latent, hl⟩ := Option.isSome_iff_exists.mp hla
  have hre := h.latent latent hl
  have hs : plan.latentSource.isSome := by
    unfold SplitTransferPlan.latent at hl
    split at hl
    · simp [hl]
    · cases hl
  refine pairwise_apart_of_not_adjacentOverlap (fun r hr => ?_) (ensure_eq_ok.mp hpg hs)
  obtain ⟨pg, hpa, rfl⟩ := mem_map.mp hr
  -- a page is as long as its tokens, and there is at least one of them in at least one layer
  have hsnd : (latent.pages.zip plan.latentDestinationPages).map (·.2)
      = plan.latentDestinationPages := map_snd_zip hre.pages.le
  rw [← hsnd] at hpa
  obtain ⟨pair, hp, rfl⟩ := mem_map.mp hpa
  have hwi : 0 < tokenWidth latent.layers :=
    sum_pos _ (fun w hw => by
      obtain ⟨ly, hly, rfl⟩ := mem_map.mp hw
      exact (hre.valid.positive ly hly).2.1) (by simpa using hre.valid.nonempty)
  have hle := mul_pos (hre.runs hp).1 hwi
  rw [← hre.lengths pair hp] at hle
  simp only [SplitLatentDestinationPage.extent]
  omega

theorem compact_safe (h : Expandable plan so d)
    (hsi : peer.table.sizes.length = peer.table.bases.length) (hd : re.registry.Disjoint 1)
    (hlo : validateLocalCompactDestination re.registry d = .ok ())
    (hp : checkLatentPages plan = .ok ()) (hrm : checkCompactSources peer.table plan = .ok ()) :
    SafeSegments re peer.table plan (latentSegments plan ++ compactSegments so d) := by
  have hco := compactSegments_forall h.matching
  have hl := h.latentSegments_forall
  have hgr := h.matching.validDestination.group
  have ho : 1 ∈ plan.requestedGroups := by rcases h.groups with hg | hg <;> simp [hg]
  simp only [checkCompactSources, h.compactSource] at hrm
  obtain ⟨_, hr, hre⟩ := of_bind hrm
  rw [h.matching.validSource.group] at hr
  refine ⟨fun s hs => ?_, ?_⟩
  · rcases mem_append.mp hs with hs | hs
    · obtain ⟨hg, hpos⟩ := hl s hs
      obtain ⟨latent, hso, hg0, ly, hla, page, hpa, hi, h0, hle, hf, hls⟩ :=
        h.latentSegments_bounds hs
      simp only [hso, hg0] at hre
      have hrd := inside_of_validateRemote hsi hre hla h0 hle
      refine ⟨?_, hpos, ?_, fun h1 => ?_, fun _ => .inl ⟨page, hpa, hf, hls⟩⟩
      · by_contra hnot
        simp [latentSegments, SplitTransferPlan.latent, hg ▸ hnot] at hs
      · rw [triple, hg, hi]
        exact hrd
      · omega
    · obtain ⟨hg, hpos⟩ := hco s hs
      obtain ⟨src, hsrc, dst, hdst, offset, hi, h0, hle, ha, h0', hle'⟩ :=
        compactSegments_bounds h.matching hs
      have hrd := inside_of_validateRemote hsi hr hsrc h0 hle
      have hw := inside_of_validateLocal hlo hdst h0' hle'
      refine ⟨hg ▸ ho, hpos, ?_, fun _ => ?_, fun hz => ?_⟩
      · rw [triple, hg, hi]
        exact hrd
      · rw [ha, ← hgr]
        exact hw
      · omega
  · have hdi : DisjointDestinations plan := by
      refine ⟨h.pages_apart hp, fun c hc => ?_⟩
      obtain rfl : d = c := Option.some.inj (h.compactDestination.symm.trans hc)
      exact extents_apart_of_validateLocal hlo (hgr ▸ hd)
    refine pairwise_apart_of_nodup (fun s hs => ?_) ?_
    · rcases mem_append.mp hs with hs | hs
      · exact (hl s hs).2
      · exact (hco s hs).2
    · exact (h.moves_perm.map _).nodup_iff.mpr (h.required_nodup hdi)

end Segments

/-! ## 6. Batches -/

def Triple.extent (t : Triple) : Int × Int := (t.destination, t.destination + t.length)

structure SafeBatch (receiver : Receiver) (table : BufferTable) (plan : SplitTransferPlan)
    (b : Batch) : Prop where
  group : b.groupId ∈ plan.requestedGroups ∧ (b.groupId = 0 ∨ b.groupId = 1)
  positive : ∀ t ∈ b.triples, 0 < t.length
  reads : ∀ t ∈ b.triples, table.Inside b.groupId t.source t.length
  device : b.groupId = 1 → ∀ t ∈ b.triples, receiver.registry.Inside 1 t.destination t.length
  host : b.groupId = 0 → ∀ t ∈ b.triples, Listed plan t.destination t.length
  apart : (b.triples.map (·.extent)).Pairwise Apart
  bytes : (b.triples.map (·.length)).sum = groupTotal plan.groupByteTotals b.groupId
  nonempty : 0 < (b.triples.map (·.length)).sum

theorem mem_sortedSet {xs : List Int} : x ∈ sortedSet xs ↔ x ∈ xs := by
  simp [sortedSet]

theorem sortedSet_nodup (xs : List Int) : (sortedSet xs).Nodup :=
  (perm_insertionSort _ _).nodup_iff.mpr (nodup_dedup xs)

theorem nativeBatches_eq (h : ∀ s ∈ segments, s.groupId ∈ rg) :
    nativeBatches rg segments = (sortedSet rg).map fun gr =>
      (gr, segments.filter fun s => s.groupId = gr) := by
  unfold nativeBatches
  split
  · -- a single group: its segments are all segments
    rename_i gr hg
    have ha : ∀ s ∈ segments, s.groupId = gr := fun s hs => by
      simpa [hg] using mem_sortedSet.mpr (h s hs)
    rw [hg, map_singleton, filter_eq_self.mpr fun s hs => by simp [ha s hs]]
  · rfl

theorem checkTotals_spec (h : checkTotals rg plan = .ok ()) :
    ∀ gr : Int, gr = 0 ∨ gr = 1 → transferBytes gr plan.segments
      = groupTotal plan.groupByteTotals gr ∧ (gr ∈ rg → 0 < transferBytes gr plan.segments) ∧
      (gr ∉ rg → transferBytes gr plan.segments = 0) := by
  obtain ⟨ht, h⟩ := ensure_bind_eq_ok.mp h
  obtain ⟨_, hl, -⟩ := of_bind h
  intro gr hg
  have hm : gr ∈ [(0 : Int), 1] := by simpa using hg
  obtain ⟨_, -, hr⟩ := exists_of_mem_left (mapM_eq_ok.mp hl) hm
  obtain ⟨ha, ho⟩ := ensure_bind_eq_ok.mp hr
  refine ⟨?_, ha, ensure_eq_ok.mp ho⟩
  rw [← ht]
  rcases hg with rfl | rfl <;> rfl

section Batches

variable {receiver : Receiver} {peer : Except PyExc RemotePeer} {pr : Prepared}

theorem SafeSegments.batch {tb : BufferTable} {ss : List SplitTransferSegment}
    (h : SafeSegments receiver tb plan ss) {gr : Int}
    (hm : gr ∈ plan.requestedGroups) (hk : gr = 0 ∨ gr = 1)
    (hb : transferBytes gr ss = groupTotal plan.groupByteTotals gr)
    (hp : 0 < transferBytes gr ss) :
    SafeBatch receiver tb plan ⟨gr, (ss.filter fun s => s.groupId = gr).map (·.triple tb)⟩ := by
  have he : ∀ t ∈ (ss.filter fun s => s.groupId = gr).map (·.triple tb),
      ∃ s, SafeSegment receiver tb plan s ∧ s.groupId = gr ∧ s.triple tb = t := by
    intro t ht
    obtain ⟨s, hs, rfl⟩ := mem_map.mp ht
    obtain ⟨hs, hg⟩ := mem_filter.mp hs
    exact ⟨s, h.each s hs, by simpa using hg, rfl⟩
  have hsum : (((ss.filter fun s => s.groupId = gr).map (·.triple tb)).map (·.length)).sum
      = transferBytes gr ss := by
    rw [map_map]
    rfl
  refine ⟨⟨hm, hk⟩, fun t ht => ?_, fun t ht => ?_, fun h1 t ht => ?_, fun h0 t ht => ?_, ?_,
    hsum.trans hb, hsum ▸ hp⟩
  · obtain ⟨s, hs, -, rfl⟩ := he t ht
    exact hs.positive
  · obtain ⟨s, hs, rfl, rfl⟩ := he t ht
    exact hs.reads
  · obtain ⟨s, hs, rfl, rfl⟩ := he t ht
    exact hs.device h1
  · obtain ⟨s, hs, rfl, rfl⟩ := he t ht
    exact hs.host h0
  · rw [map_map, pairwise_map, pairwise_filter]
    refine h.apart.imp fun {s t} hst hs ht => ?_
    exact hst ((of_decide_eq_true hs).trans (of_decide_eq_true ht).symm)

theorem prepareSplit_safe (hv : PlanLayoutsValid plan) (hd : receiver.registry.Disjoint 1)
    (h : prepareSplit receiver peer plan = .ok pr) :
    ∃ p ex, peer = .ok p ∧ (∀ g ∈ plan.requestedGroups, g = 0 ∨ g = 1) ∧
      SafeSegments receiver p.table plan ex.segments ∧ ex.groupByteTotals = plan.groupByteTotals ∧
      checkTotals plan.requestedGroups ex = .ok () ∧
      pr.batches = (nativeBatches plan.requestedGroups ex.segments).map fun b =>
        ⟨b.1, b.2.map (·.triple p.table)⟩ := by
  replace h := of_ensure h
  obtain ⟨⟨-, hk⟩, h⟩ := ensure_bind_eq_ok.mp h
  obtain ⟨_, hco, h⟩ := of_bind h
  obtain ⟨_, hp, h⟩ := of_bind h
  obtain ⟨p, hpe, h⟩ := of_bind h
  obtain ⟨_, hch, h⟩ := of_bind h
  obtain ⟨_, hr, h⟩ := of_bind h
  obtain ⟨ex, hep, h⟩ := of_bind h
  obtain ⟨_, hse, h⟩ := of_bind h
  obtain ⟨_, hde, h⟩ := of_bind h
  obtain ⟨_, ht, h⟩ := of_bind h
  obtain ⟨_, hso, h⟩ := of_bind h
  obtain ⟨-, rfl⟩ := ensure_bind_pure_eq_ok.mp h
  have hsi : p.table.sizes.length = p.table.bases.length := by
    simp only [checkPeer, ensure_bind_eq_ok, ensure_eq_ok] at hch
    exact hch.2.2.2.2.2.1
  have hsa : SafeSegments receiver p.table plan ex.segments ∧
      ex.groupByteTotals = plan.groupByteTotals := by
    by_cases hc : plan.compactSource.isSome ∨ plan.compactDestination.isSome ∨
      plan.latentSource.isSome
    · rw [expandIfCompact, if_pos hc] at hep
      obtain ⟨src, dst, he, heq, hto⟩ := expandable_of_expand hv hep
      rw [checkCompactPlan, he.compactSource, he.compactDestination] at hco
      obtain ⟨_, hl, -⟩ := of_bind hco
      exact ⟨heq ▸ compact_safe he hsi hd hl hp hr, hto⟩
    · rw [expandIfCompact, if_neg hc] at hep
      obtain rfl := Except.ok.inj hep
      have hpl : ¬ plan.compactSource.isSome := fun hs => hc (.inl hs)
      rw [unlessCompact, if_neg hpl] at hde hso
      obtain ⟨_, hso, -⟩ := of_bind hso
      refine ⟨plain_safe hsi (fun s hs => ?_) hde fun s hs => ?_, rfl⟩
      · obtain ⟨_, -, hs⟩ := exists_of_mem_left (mapM_eq_ok.mp hse) hs
        exact hs
      · obtain ⟨_, -, hs⟩ := exists_of_mem_left (mapM_eq_ok.mp hso) hs
        exact hs
  exact ⟨p, ex, hpe, hk, hsa.1, hsa.2, ht, rfl⟩

theorem prepareSplit_spec (hv : PlanLayoutsValid plan) (hd : receiver.registry.Disjoint 1)
    (h : prepareSplit receiver peer plan = .ok pr) :
    ∃ p, peer = .ok p ∧ (∀ b ∈ pr.batches, SafeBatch receiver p.table plan b) ∧
      pr.batches.map (·.groupId) = sortedSet plan.requestedGroups ∧
      ∀ gr : Int, gr = 0 ∨ gr = 1 → gr ∉ plan.requestedGroups →
        groupTotal plan.groupByteTotals gr = 0 := by
  obtain ⟨p, ex, hp, hk, hsa, hto, ht, hba⟩ :=
    prepareSplit_safe hv hd h
  have hby := checkTotals_spec ht
  rw [hto] at hby
  rw [nativeBatches_eq fun s hs => (hsa.each s hs).group, map_map] at hba
  refine ⟨p, hp, fun b hb => ?_, ?_, fun gr hg hn => ?_⟩
  · rw [hba] at hb
    obtain ⟨gr, hgr, rfl⟩ := mem_map.mp hb
    have hm := mem_sortedSet.mp hgr
    obtain ⟨heq, hpos, -⟩ := hby gr (hk gr hm)
    exact hsa.batch hm (hk gr hm) heq (hpos hm)
  · rw [hba, map_map]
    exact map_id _
  · obtain ⟨heq, -, hz⟩ := hby gr hg
    rw [← heq]
    exact hz hn

theorem submitBatches_spec (rd : Batch → Int) (bs : List Batch) :
    ∃ r, bs = (submitBatches rd bs).submitted ++ r ∧
      (r = [] ∨ ∃ b, (submitBatches rd bs).submitted.getLast? = some b ∧ rd b < 0) := by
  induction bs with
  | nil => exact ⟨[], rfl, .inl rfl⟩
  | cons batch bs ih =>
    rw [submitBatches]
    split
    · rename_i hf
      exact ⟨bs, rfl, .inr ⟨batch, rfl, hf⟩⟩
    · obtain ⟨r, heq, he⟩ := ih
      refine ⟨r, congrArg (batch :: ·) heq, he.imp_right fun ⟨b, hl, hf⟩ => ?_⟩
      exact ⟨b, by simp [getLast?_cons, hl], hf⟩

structure TransferSafe (receiver : Receiver) (peer : Except PyExc RemotePeer) (read : Batch → Int)
    (plan : SplitTransferPlan) (out : Transferred) : Prop where
  /-- Every submitted batch reads and writes where it may, and carries its group's bytes. -/
  safe : ∀ b ∈ out.submitted, ∃ p, peer = .ok p ∧ SafeBatch receiver p.table plan b
  /-- No group is submitted twice. -/
  once : (out.submitted.map (·.groupId)).Nodup
  /-- Once something is submitted every requested group is, unless a read fails. -/
  complete : out.submitted ≠ [] → (∀ g ∈ plan.requestedGroups, ∃ b ∈ out.submitted, b.groupId = g) ∨
    ∃ b, out.submitted.getLast? = some b ∧ read b < 0
  /-- A group that is not requested has no bytes. -/
  others : out.submitted ≠ [] → ∀ g : Int, g = 0 ∨ g = 1 → g ∉ plan.requestedGroups →
    groupTotal plan.groupByteTotals g = 0
  /-- After a failed check nothing is submitted. -/
  refused : ∀ e, prepareSplit receiver peer plan = .error e → out.submitted = [] ∧
    out.result = .error e

/-- **Nothing outside the registered memory is transferred**, whatever plan the wire produced, and
    whatever the peer, the registration and the engine answer. -/
theorem transfer_stays_inside (hplan : WirePlan plan) (hd : receiver.registry.Disjoint 1)
    (register : List (Int × Int) → Bool → Except PyExc Unit) (read : Batch → Int) :
    TransferSafe receiver peer read plan
      (transferSplitDestinations receiver peer register read plan) := by
  unfold transferSplitDestinations
  split
  · rename_i e he
    refine ⟨by simp, by simp, by simp, by simp, fun e' he' => ⟨rfl, ?_⟩⟩
    exact congrArg Except.error (Except.error.inj (he.symm.trans he'))
  · rename_i pr hp
    have hn : ∀ e, prepareSplit receiver peer plan = .error e → False := by
      intro e he
      rw [hp] at he
      cases he
    split
    · exact ⟨by simp, by simp, by simp, by simp, fun e he => (hn e he).elim⟩
    · obtain ⟨p, hpe, hs, hgr, ho⟩ := prepareSplit_spec hplan.valid hd hp
      obtain ⟨r, hr, hend⟩ := submitBatches_spec read pr.batches
      refine ⟨fun b hb => ⟨p, hpe, hs b ?_⟩, ?_, fun _ => hend.imp_left fun hnil g hg => ?_,
        fun _ => ho, fun e he => (hn e he).elim⟩
      · rw [hr]
        exact mem_append_left _ hb
      · have hno := sortedSet_nodup plan.requestedGroups
        rw [← hgr, hr, map_append] at hno
        exact hno.of_append_left
      · rw [hnil, append_nil] at hr
        rw [← hr]
        have hm := mem_sortedSet.mpr hg
        rw [← hgr] at hm
        exact mem_map.mp hm

end Batches

/-! ## 7. Host and device addresses -/

def testSplitPlan : PyVal :=
  record [("tp_rank", .int 0), ("dp_rank", .int 0), ("group_byte_totals", .list [.int 8, .int 8]),
    ("segments", .list ([("cpu", 0, 100), ("npu", 1, 200)].map fun (kind, gr, base) =>
      record [("group_id", .int gr), ("source_buffer_index", .int gr),
        ("source_offset", .int 4), ("destination_address", .int 1000), ("length", .int 8),
        ("destination_kind", .str kind), ("source_buffer_base", .int base)]))]

def testReceiver : Receiver := ⟨0, 0, ⟨[1000], [64], [1]⟩⟩

def testPeer : RemotePeer := ⟨[liveSplitCapability], none, ⟨[100, 200], [16, 16], [0, 1]⟩⟩

theorem testReceiver_disjoint : testReceiver.registry.Disjoint 1 := pairwise_singleton _ _

/-- The transfer of `testSplitPlan` submits both groups, inside the registered memory. -/
theorem testSplitPlan_stays_inside : ∃ plan, parseSplitPlan testSplitPlan = .ok (some plan) ∧
    testReceiver.registry.Disjoint 1 ∧
    (transferSplitDestinations testReceiver (.ok testPeer) (fun _ _ => .ok ()) (fun _ => 0)
      plan).submitted.map (·.groupId) = [0, 1] ∧
    TransferSafe testReceiver (.ok testPeer) (fun _ => 0) plan
      (transferSplitDestinations testReceiver (.ok testPeer) (fun _ _ => .ok ()) (fun _ => 0)
        plan) := by
  refine ⟨_, rfl, testReceiver_disjoint, rfl, ?_⟩
  have hp : parseSplitPlan testSplitPlan = .ok (some _) := rfl
  exact transfer_stays_inside (.parsed hp) testReceiver_disjoint (fun _ _ => .ok ()) fun _ => 0

/-- The overlap check is made for each destination kind, so a CPU and an NPU extent of one address
    are both submitted; a failed read of the first group leaves the second unsubmitted. -/
theorem hostAndDevice_overlap : ∃ plan, parseSplitPlan testSplitPlan = .ok (some plan) ∧
    testReceiver.registry.Disjoint 1 ∧ testPeer.table.Disjoint 1 ∧
    (transferSplitDestinations testReceiver (.ok testPeer) (fun _ _ => .ok ()) (fun _ => 0)
      plan).submitted = [⟨0, [⟨1000, 104, 8⟩]⟩, ⟨1, [⟨1000, 204, 8⟩]⟩] ∧
    (transferSplitDestinations testReceiver (.ok testPeer) (fun _ _ => .ok ()) (fun _ => -1)
      plan).submitted = [⟨0, [⟨1000, 104, 8⟩]⟩] ∧
    groupTotal plan.groupByteTotals 1 = 8 :=
  ⟨_, rfl, testReceiver_disjoint, pairwise_singleton _ _, rfl, rfl, rfl⟩

end VllmDual.Split
