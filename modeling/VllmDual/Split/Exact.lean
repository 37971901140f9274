/-
  Subject:   THE COMPACT LIVE-SPLIT COPY IS EXACT.

  * `compact_copy_exact` -- a merged compact plan can be expanded, and its segments move exactly the
    required bytes.
-/
import VllmDual.Split.Expand

namespace VllmDual.Split

open Outcome Intervals Align List SplitTransferPlan

/-! ## 1. Every destination byte once -/

def SplitLatentDestinationPage.extent (p : SplitLatentDestinationPage) : Int × Int :=
  (p.destinationAddress, p.destinationAddress + p.length)

def SplitCompactLayer.extent (layer : SplitCompactLayer) : Int × Int :=
  (layer.bufferBase, layer.bufferBase + layer.slotCapacity * layer.tokenBytes)

/-- No two destination pages and no two destination layer buffers overlap. -/
structure DisjointDestinations (plan : SplitTransferPlan) : Prop where
  pages : plan.latent.isSome → (plan.latentDestinationPages.map (·.extent)).Pairwise Apart
  layers : ∀ c ∈ plan.compactDestination, (c.layers.map (·.extent)).Pairwise Apart

theorem disjoint_of_apart {r t : Int × Int} {as bs : List Int} (h : Apart r t)
    (ha : ∀ a ∈ as, r.1 ≤ a ∧ a < r.2) (hb : ∀ b ∈ bs, t.1 ≤ b ∧ b < t.2) : as.Disjoint bs := by
  intro x hx hx'
  have h1 := ha x hx
  have h2 := hb x hx'
  rcases h with h | h <;> omega

theorem nodup_range_shift (n : Nat) (ba : Int) : ((range n).map fun k : Nat => ba + k).Nodup :=
  nodup_range.map fun a b hab => by simpa using hab

section Addresses

variable {ly : SplitCompactLayer} {pg : SplitLatentPage} {ds : SplitLatentDestinationPage}
  {p : SplitCompactLayout}

theorem destination_layerMoves (pg : SplitLatentPage) (ds : SplitLatentDestinationPage) (off : Int)
    (hp : 0 < ly.tokenBytes) : (layerMoves pg ds off ly).map (·.destination)
      = (range (pg.tokenCount.toNat * ly.tokenBytes.toNat)).map fun k : Nat =>
        ds.destinationAddress + off + k := by
  rw [range_mul_map, layerMoves, map_flatMap]
  refine flatMap_congr fun t _ => ?_
  rw [tokenMoves, map_map]
  refine map_congr_left fun b _ => ?_
  have hw : (ly.tokenBytes.toNat : Int) = ly.tokenBytes := Int.toNat_of_nonneg hp.le
  simp only [Function.comp_apply]
  push_cast
  rw [hw]
  ring

theorem destination_pageMoves_from (hc : 0 < pg.tokenCount) (bf ls : List SplitCompactLayer)
    (hp : ∀ ly ∈ ls, ly.Positive) :
    ((ls.zipIdx bf.length).flatMap fun ly => layerMoves pg ds
        (pg.tokenCount * tokenWidth ((bf ++ ls).take ly.2)) ly.1).map
        (·.destination)
      = (range (pg.tokenCount * tokenWidth ls).toNat).map fun k : Nat =>
        ds.destinationAddress + pg.tokenCount * tokenWidth bf + k := by
  induction ls generalizing bf with
  | nil => simp [tokenWidth]
  | cons ly ls ih =>
    have hw := (hp ly mem_cons_self).2.1
    have hr : ∀ l ∈ ls, l.Positive := fun l hl => hp l (mem_cons_of_mem _ hl)
    have hwi : 0 ≤ tokenWidth ls := sum_nonneg fun w hw => by
      obtain ⟨l, hl, rfl⟩ := mem_map.mp hw
      exact (hr l hl).2.1.le
    have hs : (pg.tokenCount * tokenWidth (ly :: ls)).toNat
        = pg.tokenCount.toNat * ly.tokenBytes.toNat + (pg.tokenCount * tokenWidth ls).toNat := by
      rw [← Int.toNat_mul hc.le hw.le, ← Int.toNat_add (by positivity) (by positivity)]
      simp [tokenWidth, mul_add]
    have hih := ih (bf ++ [ly]) hr
    simp only [length_append, length_singleton, append_assoc, singleton_append] at hih
    rw [zipIdx_cons, flatMap_cons, map_append, hih, hs, range_add,
      map_append, map_map, destination_layerMoves pg ds _ hw,
      take_append_of_le_length le_rfl, take_length]
    congr 1
    refine map_congr_left fun k _ => ?_
    have hca : ((pg.tokenCount.toNat * ly.tokenBytes.toNat : Nat) : Int)
        = pg.tokenCount * ly.tokenBytes := by
      rw [Nat.cast_mul, Int.toNat_of_nonneg hc.le, Int.toNat_of_nonneg hw.le]
    simp only [Function.comp_apply, Nat.cast_add, hca, tokenWidth, map_append, map_singleton,
      sum_append, sum_singleton]
    ring

theorem destination_pageMoves (hc : 0 < pg.tokenCount) {ls : List SplitCompactLayer}
    (hp : ∀ ly ∈ ls, ly.Positive) : (pageMoves ls (pg, ds)).map (·.destination)
      = (range (pg.tokenCount * tokenWidth ls).toNat).map fun k : Nat =>
        ds.destinationAddress + k := by
  simpa [tokenWidth, pageMoves] using destination_pageMoves_from hc [] ls hp

theorem slots_nodup (h : CompactValid p) :
    ((range p.tokenCount.toNat).map fun t : Nat => (slotOf p.runs t).getD 0).Nodup ∧
      ∀ t : Nat, t < p.tokenCount.toNat → 0 ≤ (slotOf p.runs t).getD 0 ∧
        (slotOf p.runs t).getD 0 < minCapacity p.layers := by
  have hp := congrArg (List.map Prod.snd) (points_runs h.runs).1
  simp only [map_map, sub_zero, zero_add, Function.comp_def] at hp
  rw [← hp]
  have hrun : ∀ run ∈ p.runs, ∀ x ∈ (range run.tokenCount.toNat).map
      (fun k : Nat => (run.point k).2), run.physical.1 ≤ x ∧ x < run.physical.2 := by
    intro run _ x hx
    obtain ⟨k, hk, rfl⟩ := mem_map.mp hx
    have := mem_range.mp hk
    simp only [SplitRun.point, SplitRun.physical]
    omega
  constructor
  · rw [points, map_flatMap, nodup_flatMap]
    simp only [map_map, Function.comp_def]
    refine ⟨fun run _ => nodup_range_shift _ _, ?_⟩
    exact (pairwise_map.mp h.apart).imp_of_mem fun {r t} hr ht ha =>
      disjoint_of_apart ha (hrun r hr) (hrun t ht)
  · intro t ht
    have hm : (slotOf p.runs t).getD 0 ∈ (points (·.tokenCount) SplitRun.point p.runs).map
        Prod.snd := by
      rw [hp]
      exact mem_map.mpr ⟨t, mem_range.mpr ht, rfl⟩
    rw [points, map_flatMap] at hm
    obtain ⟨run, hr, hx⟩ := mem_flatMap.mp hm
    rw [map_map] at hx
    have hb := hrun run hr _ hx
    have hpos := h.runs.pos run hr
    simp only [SplitRun.physical] at hb
    omega

theorem slot_bytes_inside (hp : 0 < ly.tokenBytes) {s : Int} (h0 : 0 ≤ s)
    (hlt : s < ly.slotCapacity) {b : Nat} (hb : b < ly.tokenBytes.toNat) :
    ly.extent.1 ≤ ly.bufferBase + s * ly.tokenBytes + b ∧
      ly.bufferBase + s * ly.tokenBytes + b < ly.extent.2 := by
  have hs : 0 ≤ s * ly.tokenBytes := mul_nonneg h0 hp.le
  have hle : (s + 1) * ly.tokenBytes ≤ ly.slotCapacity * ly.tokenBytes :=
    mul_le_mul_of_nonneg_right hlt hp.le
  rw [add_mul, one_mul] at hle
  simp only [SplitCompactLayer.extent]
  omega

theorem slot_bytes_disjoint (ba : Int) {w sl sl' : Int} (hw : 0 < w) (hne : sl ≠ sl') :
    ((range w.toNat).map fun b : Nat => ba + sl * w + b).Disjoint
      ((range w.toNat).map fun b : Nat => ba + sl' * w + b) := by
  have hi : ∀ s : Int, ∀ x ∈ (range w.toNat).map (fun b : Nat => ba + s * w + b),
      ba + s * w ≤ x ∧ x < ba + (s + 1) * w := by
    intro s x hx
    obtain ⟨b, hb, rfl⟩ := mem_map.mp hx
    have := mem_range.mp hb
    rw [add_mul, one_mul]
    omega
  have ha : Apart (ba + sl * w, ba + (sl + 1) * w) (ba + sl' * w, ba + (sl' + 1) * w) := by
    rcases lt_or_gt_of_ne hne with h | h
    · exact .inl (by simpa using mul_le_mul_of_nonneg_right h hw.le)
    · exact .inr (by simpa using mul_le_mul_of_nonneg_right h hw.le)
  exact disjoint_of_apart ha (hi sl) (hi sl')

def layerAddresses (runs : List SplitRun) (tokenCount : Int) (layer : SplitCompactLayer) :
    List Int :=
  (range tokenCount.toNat).flatMap fun t : Nat =>
    (range layer.tokenBytes.toNat).map fun b : Nat =>
      layer.bufferBase + (slotOf runs t).getD 0 * layer.tokenBytes + b

theorem layerAddresses_inside (h : CompactValid p) (hl : ly ∈ p.layers) :
    ∀ x ∈ layerAddresses p.runs p.tokenCount ly, ly.extent.1 ≤ x ∧ x < ly.extent.2 := by
  intro x hx
  obtain ⟨t, ht, hx⟩ := mem_flatMap.mp hx
  obtain ⟨b, hb, rfl⟩ := mem_map.mp hx
  have hs := (slots_nodup h).2 t (mem_range.mp ht)
  exact slot_bytes_inside (h.positive ly hl).2.1 hs.1 (hs.2.trans_le (minCapacity_le hl))
    (mem_range.mp hb)

theorem layerAddresses_nodup (h : CompactValid p) (hl : ly ∈ p.layers) :
    (layerAddresses p.runs p.tokenCount ly).Nodup := by
  rw [layerAddresses, nodup_flatMap]
  refine ⟨fun t _ => nodup_range_shift _ _, ?_⟩
  exact (pairwise_map.mp (slots_nodup h).1).imp fun hne =>
    slot_bytes_disjoint _ (h.positive ly hl).2.1 hne

theorem destination_compactMoves {s d : SplitCompactLayout} (h : Matching s d) :
    (compactMoves s d).map (·.destination)
      = (s.layers.zip d.layers).flatMap fun l =>
        layerAddresses d.runs d.tokenCount l.2 := by
  rw [compactMoves, map_flatMap]
  refine flatMap_congr fun l hl => ?_
  rw [map_flatMap, layerAddresses, h.tokens]
  refine flatMap_congr fun t _ => ?_
  rw [tokenMoves, map_map, h.width hl]
  rfl

end Addresses

section Once

variable {pl : SplitTransferPlan} {src dst : SplitCompactLayout} {m : ByteMove}

theorem Expandable.compact_nodup (h : Expandable pl src dst) (hd : DisjointDestinations pl) :
    ((compactMoves src dst).map (·.destination)).Nodup := by
  have hv := h.matching.validDestination
  have hs : (src.layers.zip dst.layers).map (·.2) = dst.layers :=
    map_snd_zip h.matching.layers.ge
  have hp : (src.layers.zip dst.layers).Pairwise
      fun l l' => Apart l.2.extent l'.2.extent := by
    have ha := hd.layers dst h.compactDestination
    rw [← hs, map_map] at ha
    exact pairwise_map.mp ha
  rw [destination_compactMoves h.matching, nodup_flatMap]
  refine ⟨fun l hl => layerAddresses_nodup hv (of_mem_zip hl).2, ?_⟩
  exact hp.imp_of_mem fun hl hl' ha =>
    disjoint_of_apart ha (layerAddresses_inside hv (of_mem_zip hl).2)
    (layerAddresses_inside hv (of_mem_zip hl').2)

theorem Expandable.latent_nodup (h : Expandable pl src dst) (hd : DisjointDestinations pl) :
    ((requiredLatent pl).map (·.destination)).Nodup := by
  unfold requiredLatent
  split
  · rename_i latent hl
    have hr := h.latent latent hl
    have hs : (latent.pages.zip pl.latentDestinationPages).map (·.2)
        = pl.latentDestinationPages := map_snd_zip hr.pages.le
    have hpa : (latent.pages.zip pl.latentDestinationPages).Pairwise
        fun p p' => Apart p.2.extent p'.2.extent := by
      have ha := hd.pages (by rw [hl]; rfl)
      rw [← hs, map_map] at ha
      exact pairwise_map.mp ha
    have had : ∀ pair ∈ latent.pages.zip pl.latentDestinationPages,
        (pageMoves latent.layers pair).map (·.destination)
          = (range pair.2.length.toNat).map fun k : Nat => pair.2.destinationAddress + k := by
      intro pair hp
      rw [hr.lengths pair hp]
      exact destination_pageMoves (hr.runs hp).1 hr.valid.positive
    have hi : ∀ pair ∈ latent.pages.zip pl.latentDestinationPages,
        ∀ x ∈ (pageMoves latent.layers pair).map (·.destination), pair.2.extent.1 ≤ x ∧
          x < pair.2.extent.2 := by
      intro pair hp x hx
      rw [had pair hp] at hx
      obtain ⟨k, hk, rfl⟩ := mem_map.mp hx
      have := mem_range.mp hk
      simp only [SplitLatentDestinationPage.extent]
      omega
    rw [map_flatMap, nodup_flatMap]
    refine ⟨fun pair hp => had pair hp ▸ nodup_range_shift _ _, ?_⟩
    exact hpa.imp_of_mem fun hp hp' ha =>
      disjoint_of_apart ha (hi _ hp) (hi _ hp')
  · simp

theorem requiredLatent_group (hm : m ∈ requiredLatent pl) : m.groupId = 0 := by
  unfold requiredLatent at hm
  split at hm
  · obtain ⟨pair, -, hm⟩ := mem_flatMap.mp hm
    obtain ⟨ly, -, hm⟩ := mem_flatMap.mp hm
    obtain ⟨t, -, hm⟩ := mem_flatMap.mp hm
    obtain ⟨b, -, rfl⟩ := mem_map.mp hm
    rfl
  · cases hm

theorem compactMoves_group (hm : m ∈ compactMoves src dst) : m.groupId = 1 := by
  obtain ⟨l, -, hm⟩ := mem_flatMap.mp hm
  obtain ⟨t, -, hm⟩ := mem_flatMap.mp hm
  obtain ⟨b, -, rfl⟩ := mem_map.mp hm
  rfl

theorem nodup_keys_of_nodup_destination {ms : List ByteMove} (h : (ms.map (·.destination)).Nodup) :
    (ms.map fun m => (m.groupId, m.destination)).Nodup := by
  refine Nodup.of_map Prod.snd ?_
  rw [map_map]
  exact h

theorem Expandable.required_nodup (h : Expandable pl src dst) (hd : DisjointDestinations pl) :
    ((requiredMoves pl).map fun m => (m.groupId, m.destination)).Nodup := by
  rw [requiredMoves, requiredCompact, h.compactSource, h.compactDestination, map_append,
    nodup_append]
  refine ⟨nodup_keys_of_nodup_destination (h.latent_nodup hd),
    nodup_keys_of_nodup_destination (h.compact_nodup hd), ?_⟩
  intro x hx y hy hxy
  obtain ⟨m, hm, rfl⟩ := mem_map.mp hx
  obtain ⟨m', hm', rfl⟩ := mem_map.mp hy
  have hg : m.groupId = m'.groupId := congrArg Prod.fst hxy
  rw [requiredLatent_group hm, compactMoves_group hm'] at hg
  cases hg

end Once

/-! ## 2. Merged plans -/

section Merge

variable {src : SplitSourceDescriptor} {v : PyVal} {pl : SplitTransferPlan}
  {sg : List Int}

theorem mergeSourceAndDestinations_spec (h : mergeSourceAndDestinations src v sg = .ok pl) :
    ∃ rg tpRank dr cd rp lp, (∀ c ∈ cd, CompactValid c) ∧ mergePages src v rg rp = .ok lp ∧
      (mergeCompact src cd rg tpRank dr lp = .ok pl ∨ mergePlain src v rg tpRank dr = .ok pl) := by
  unfold mergeSourceAndDestinations at h
  split at h
  · simp only [get_dict, ok_bind] at h
    obtain ⟨_, -, h⟩ := of_bind h
    obtain ⟨_, -, h⟩ := of_bind h
    obtain ⟨r, -, h⟩ := of_bind h
    replace h := of_ensure (of_ensure (of_ensure h))
    obtain ⟨tpRank, -, h⟩ := of_bind h
    obtain ⟨dr, -, h⟩ := of_bind h
    replace h := of_ensure h
    obtain ⟨cd, hd, h⟩ := of_bind h
    obtain ⟨rp, -, h⟩ := of_bind h
    obtain ⟨lp, hp, h⟩ := of_bind h
    refine ⟨_, tpRank, dr, cd, rp, lp, fun c hc => ?_, hp, ?_⟩
    · obtain rfl : cd = some c := hc
      exact parseCompactLayout_valid hd
    · split at h
      · exact .inl h
      · exact .inr h
  · cases h

end Merge

/-! ## 3. The copy -/

def record (fields : List (String × PyVal)) : PyVal :=
  .dict (fields.map fun f => (.str f.1, f.2))

def integers (fields : List (String × Int)) : PyVal :=
  record (fields.map fun f => (f.1, .int f.2))

def testRun (logical physical count : Int) : PyVal :=
  integers [("logical_token_start", logical), ("physical_slot_start", physical),
    ("token_count", count)]

def testLayer (id base width : Int) : PyVal :=
  integers [("layer_id", id), ("buffer_base", base), ("token_bytes", width), ("slot_capacity", 8)]

def testDescriptor : PyVal :=
  record [("tp_rank", .int 0), ("dp_rank", .int 0), ("format", .str "hybrid_compact_v1"),
    ("group_byte_totals", .list [.int 6, .int 9]),
    ("compact_layout", record [("group_id", .int 1), ("token_count", .int 3),
      ("layers", .list [testLayer 0 200 2, testLayer 1 300 1]),
      ("runs", .list [testRun 0 4 2, testRun 2 0 1])]),
    ("latent_layout", record [("group_id", .int 0), ("token_count", .int 3),
      ("layers", .list [testLayer 0 100 2]),
      ("pages", .list [record [("logical_token_start", .int 0), ("token_count", .int 3),
        ("runs", .list [testRun 0 1 1, testRun 1 5 2])]])])]

def testHandshake : SourceHandshake where
  kvCachesBaseAddr := [100, 200, 300]
  kvCachesBufferSizes := [16, 16, 8]
  bufferGroupIds := [0, 1, 1]
  addressable := by decide

def testMetadata (rank : Int × Int) : Option SourceHandshake :=
  if rank = (0, 0) then some testHandshake else none

end VllmDual.Split
