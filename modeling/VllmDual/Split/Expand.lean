/-
  Subject:   THE EXPANSION OF A COMPACT LIVE-SPLIT PLAN, BYTE BY BYTE.

  A plan is for copying tokens: in every layer the bytes at the slot where the source holds a token
  go to the slot where the destination wants it. That purpose is written down byte by byte
  (`requiredMoves`), without runs, pieces or segments; the segments of the expanded plan are read
  as byte moves too (`moves`), and the two agree.
-/
import VllmDual.Split.Canonical

namespace VllmDual.Split

open Outcome Intervals Align SplitRun List Int SplitTransferSegment SplitTransferPlan

/-! ## 1. What is to be copied -/

structure ByteMove where
  groupId : Int
  sourceBuffer : Int
  source : Int
  destination : Int

/-- The bytes a segment moves: `length` bytes from `source_buffer_base + source_offset` to
    `destination_address`. -/
def SplitTransferSegment.moves (s : SplitTransferSegment) : List ByteMove :=
  (List.range s.length.toNat).map fun k : Nat =>
    ⟨s.groupId, s.sourceBufferIndex, s.sourceBufferBase.getD 0 + s.sourceOffset + k,
      s.destinationAddress + k⟩

def slotOf (runs : List SplitRun) (token : Int) : Option Int :=
  (runs.find? fun run => run.logicalTokenStart ≤ token ∧
    token < run.logicalTokenStart + run.tokenCount).map fun run =>
      run.physicalSlotStart + (token - run.logicalTokenStart)

/-- The bytes of one token in one layer, from a source slot to a destination address. -/
def tokenMoves (group : Int) (layer : SplitCompactLayer) (slot destination : Int) :
    List ByteMove :=
  (List.range layer.tokenBytes.toNat).map fun b : Nat =>
    ⟨group, layer.bufferIndex, layer.bufferBase + slot * layer.tokenBytes + b, destination + b⟩

/-- Group 1: in each layer, every token from its source slot to its destination slot. -/
def compactMoves (source destination : SplitCompactLayout) : List ByteMove :=
  (source.layers.zip destination.layers).flatMap fun layers =>
    (List.range source.tokenCount.toNat).flatMap fun t : Nat =>
      tokenMoves 1 layers.1 ((slotOf source.runs t).getD 0)
        (layers.2.bufferBase + (slotOf destination.runs t).getD 0 * layers.2.tokenBytes)

/-- One layer of a page, its tokens in logical order from `offset` on. -/
def layerMoves (page : SplitLatentPage) (dest : SplitLatentDestinationPage) (offset : Int)
    (layer : SplitCompactLayer) : List ByteMove :=
  (List.range page.tokenCount.toNat).flatMap fun t : Nat =>
    tokenMoves 0 layer ((slotOf page.runs (page.logicalTokenStart + t)).getD 0)
      (dest.destinationAddress + offset + t * layer.tokenBytes)

def pageMoves (layers : List SplitCompactLayer)
    (pair : SplitLatentPage × SplitLatentDestinationPage) : List ByteMove :=
  layers.zipIdx.flatMap fun layer =>
    layerMoves pair.1 pair.2 (pair.1.tokenCount * tokenWidth (layers.take layer.2)) layer.1

variable (plan : SplitTransferPlan)

def SplitTransferPlan.latent : Option SplitLatentLayout :=
  if 0 ∈ plan.requestedGroups then plan.latentSource else none

def requiredLatent : List ByteMove :=
  match plan.latent with
  | some latent => (latent.pages.zip plan.latentDestinationPages).flatMap (pageMoves latent.layers)
  | none => []

def requiredCompact : List ByteMove :=
  match plan.compactSource, plan.compactDestination with
  | some source, some destination => compactMoves source destination
  | _, _ => []

def requiredMoves : List ByteMove :=
  requiredLatent plan ++ requiredCompact plan

/-! ## 2. Runs as points -/

def SplitRun.point (run : SplitRun) (k : Int) : Int × Int :=
  (run.logicalTokenStart + k, run.physicalSlotStart + k)

section Points

variable {run : SplitRun} {runs : List SplitRun} {capacity lo hi : Int}
  {layers : List SplitCompactLayer} {i : Nat} {ss : List SplitTransferSegment}

theorem slotOf_cons_of_lt {k : Int} (h0 : 0 ≤ k) (hk : k < run.tokenCount) :
    slotOf (run :: runs) (run.logicalTokenStart + k) = some (run.physicalSlotStart + k) := by
  have hf : run.logicalTokenStart ≤ run.logicalTokenStart + k ∧
      run.logicalTokenStart + k < run.logicalTokenStart + run.tokenCount := by omega
  simp [slotOf, hf]

theorem slotOf_cons_of_le {t : Int} (h : run.logicalTokenStart + run.tokenCount ≤ t) :
    slotOf (run :: runs) t = slotOf runs t := by
  simp [slotOf, h]

section Cover

variable (h : RunsCover capacity lo runs hi)
include h

theorem points_runs : points (·.tokenCount) point runs
        = (List.range (hi - lo).toNat).map (fun k : Nat =>
          (lo + (k : Int), (slotOf runs (lo + k)).getD 0)) ∧
      lo ≤ hi ∧ ∀ k : Nat, k < (hi - lo).toNat → (slotOf runs (lo + k)).isSome := by
  induction runs generalizing lo with
  | nil =>
    obtain rfl : lo = hi := h
    simp [points]
  | cons run runs ih =>
    obtain ⟨⟨rfl, -, hpos, -⟩, hr⟩ := h
    obtain ⟨hp, hle, hso⟩ := ih hr
    -- the first `token_count` tokens are the run's, the others those of the rest
    have hsp : (hi - run.logicalTokenStart).toNat
        = run.tokenCount.toNat + (hi - (run.logicalTokenStart + run.tokenCount)).toNat := by omega
    have hs : ∀ k : Nat, run.logicalTokenStart + ((run.tokenCount.toNat + k : Nat) : Int)
        = run.logicalTokenStart + run.tokenCount + k := by omega
    have hl : ∀ k : Nat, slotOf (run :: runs) (run.logicalTokenStart + run.tokenCount + k)
        = slotOf runs (run.logicalTokenStart + run.tokenCount + k) :=
      fun k => slotOf_cons_of_le (by omega)
    refine ⟨?_, by omega, fun k hk => ?_⟩
    · rw [hsp, range_add, map_append, map_map]
      simp only [Function.comp_def, hs, hl]
      rw [← hp, points, flatMap_cons]
      congr 1
      refine map_congr_left fun k hk => ?_
      have hk' : (k : Int) < run.tokenCount := by
        have := mem_range.mp hk
        omega
      rw [slotOf_cons_of_lt (by omega) hk', point, Option.getD_some]
    · rcases lt_or_ge k run.tokenCount.toNat with hlt | hge
      · rw [slotOf_cons_of_lt (by omega) (by omega)]
        rfl
      · obtain ⟨j, rfl⟩ := Nat.exists_eq_add_of_le hge
        rw [hs, hl]
        exact hso j (by omega)

theorem RunsCover.total : Align.total (·.tokenCount) runs = hi - lo := by
  induction runs generalizing lo with
  | nil =>
    obtain rfl : lo = hi := h
    simp [Align.total]
  | cons run runs ih =>
    have hr := ih h.2
    simp only [Align.total, map_cons, sum_cons] at hr ⊢
    omega

theorem RunsCover.inside : Inside (·.tokenCount) runs 0 :=
  inside_zero fun run hr => (h.pos run hr).2.1

theorem RunsCover.logical :
    ∀ run ∈ runs, lo ≤ run.logicalTokenStart ∧ run.logicalTokenStart + run.tokenCount ≤ hi := by
  induction runs generalizing lo with
  | nil => simp
  | cons run runs ih =>
    obtain ⟨⟨rfl, -, hp, -⟩, hre⟩ := h
    have hle := (points_runs hre).2.1
    intro r hr
    rcases mem_cons.mp hr with hr | hr
    · subst hr
      exact ⟨le_refl _, hle⟩
    · have := ih hre r hr
      omega

end Cover

/-! ## 3. Group 1 -/

theorem find_layer (h : LayersOrdered layers) (hi : i < layers.length) :
    layers.find? (fun ly => ly.layerId = (i : Int)) = some layers[i] := by
  have hid : ∀ (j : Nat) (hj : j < layers.length), layers[j].layerId = j := by
    intro j hj
    have := congrArg (fun l : List Int => l[j]?) h
    simpa [hj] using this
  rw [find?_eq_some_iff_getElem]
  refine ⟨by simp [hid i hi], i, hi, rfl, fun j hj => ?_⟩
  have hne : ((j : Nat) : Int) ≠ i := by omega
  simp [hid j (by omega), hne]

theorem layerId_getElem (h : LayersOrdered layers) (hi : i < layers.length) :
    layers[i].layerId = i := by
  have hf := find?_some (find_layer h hi)
  simpa using hf

/-- Two compact layouts that `merge_source_and_destinations` puts into one plan. -/
structure Matching (source destination : SplitCompactLayout) : Prop where
  validSource : CompactValid source
  validDestination : CompactValid destination
  tokens : source.tokenCount = destination.tokenCount
  layers : source.layers.length = destination.layers.length
  widths : source.layers.map (·.tokenBytes) = destination.layers.map (·.tokenBytes)

section Compact

variable {src dst : SplitCompactLayout} {p : Piece SplitRun SplitRun}

variable (h : Matching src dst)
include h

theorem Matching.width {l : SplitCompactLayer × SplitCompactLayer}
    (hl : l ∈ src.layers.zip dst.layers) : l.1.tokenBytes = l.2.tokenBytes := by
  obtain ⟨i, hi, rfl⟩ := mem_iff_getElem.mp hl
  have := congrArg (fun ws : List Int => ws[i]?) h.widths
  simp only [length_zip, lt_inf_iff] at hi
  simpa [hi.1, hi.2] using this

theorem runPieces_pairs : (runPieces src.runs dst.runs).1.flatMap (Piece.pairs point point)
      = (List.range src.tokenCount.toNat).map fun t : Nat =>
        (((t : Int), (slotOf src.runs t).getD 0), ((t : Int), (slotOf dst.runs t).getD 0)) := by
  have hs := (points_runs h.validSource.runs).1
  have hd := (points_runs h.validDestination.runs).1
  simp only [sub_zero, zero_add] at hs hd
  rw [runPieces, walk_points _ _ h.validSource.runs.inside h.validDestination.runs.inside]
  simp only [toNat_zero, drop_zero]
  rw [hs, hd, ← h.tokens, zip_map']

theorem runPieces_finished : (runPieces src.runs dst.runs).2 = ([], []) := by
  refine (walk_finished_iff h.validSource.runs.inside h.validDestination.runs.inside).mpr ?_
  rw [h.validSource.runs.total, h.validDestination.runs.total, h.tokens]

theorem runPieces_pos : ∀ p ∈ (runPieces src.runs dst.runs).1, 0 < p.count :=
  walk_forall h.validSource.runs.inside h.validDestination.runs.inside fun _ _ _ hc _ _ _ _ => hc

theorem runPieces_logical (hp : p ∈ (runPieces src.runs dst.runs).1) :
    p.left.logicalTokenStart + p.leftOffset = p.right.logicalTokenStart + p.rightOffset := by
  have hpos := runPieces_pos h p hp
  have hf : (p.left.point p.leftOffset, p.right.point p.rightOffset)
      ∈ Piece.pairs point point p := by
    refine mem_map.mpr ⟨0, mem_range.mpr (by omega), ?_⟩
    simp
  have hm := mem_flatMap.mpr ⟨p, hp, hf⟩
  rw [runPieces_pairs h] at hm
  obtain ⟨t, -, ht⟩ := mem_map.mp hm
  simp only [point, Prod.mk.injEq] at ht
  omega

theorem expandPiece_eq (hp : p ∈ (runPieces src.runs dst.runs).1) :
    expandPiece src.layers dst.layers p
      = .ok ((src.layers.zip dst.layers).map fun l => compactSegment p l.1 l.2) := by
  rw [expandPiece, ensure_pos (runPieces_logical h hp), ok_bind, mapM_eq_ok, forall₂_iff_get]
  have hl := h.layers
  refine ⟨by simp [hl], fun i hi₁ hi₂ => ?_⟩
  have hi : i < dst.layers.length := hl ▸ hi₁
  have hw : src.layers[i].tokenBytes = dst.layers[i].tokenBytes :=
    h.width (l := (src.layers[i], dst.layers[i]))
      (mem_iff_getElem.mpr ⟨i, by simp [hi, hi₁], by simp⟩)
  simp only [get_eq_getElem, layerId_getElem h.validSource.ordered hi₁,
    find_layer h.validDestination.ordered hi, getElem_map, getElem_zip]
  rw [ensure_pos hw, ok_bind]
  rfl

omit h in
theorem moves_compactSegment {src dst : SplitCompactLayer} (hc : 0 ≤ p.count)
    (hp : 0 < src.tokenBytes) (hwi : src.tokenBytes = dst.tokenBytes) :
    (compactSegment p src dst).moves = (Piece.pairs point point p).flatMap
      fun q => tokenMoves 1 src q.1.2 (dst.bufferBase + q.2.2 * dst.tokenBytes) := by
  have hl : (p.count * src.tokenBytes).toNat = p.count.toNat * src.tokenBytes.toNat :=
    toNat_mul hc hp.le
  simp only [moves, compactSegment, hl, Option.getD_some, Piece.pairs, tokenMoves, point]
  rw [range_mul_map, flatMap_map]
  refine flatMap_congr fun j _ => map_congr_left fun b _ => ?_
  have hw : (src.tokenBytes.toNat : Int) = src.tokenBytes := toNat_of_nonneg hp.le
  rw [← hwi]
  push_cast
  rw [hw, ByteMove.mk.injEq]
  exact ⟨rfl, rfl, by ring, by ring⟩

def compactSegments (source destination : SplitCompactLayout) : List SplitTransferSegment :=
  (runPieces source.runs destination.runs).1.flatMap fun p =>
    (source.layers.zip destination.layers).map fun l => compactSegment p l.1 l.2

theorem expandRuns_eq : expandRuns src dst = .ok (compactSegments src dst) := by
  simp only [expandRuns]
  rw [mapM_ok fun p hp => expandPiece_eq h hp, ok_bind, ensure_pos (runPieces_finished h), ok_bind,
    ← flatMap_def]
  rfl

theorem compactSegments_forall : ∀ s ∈ compactSegments src dst, s.groupId = 1 ∧ 0 < s.length := by
  intro s hs
  obtain ⟨p, hp, hs⟩ := mem_flatMap.mp hs
  obtain ⟨l, hl, rfl⟩ := mem_map.mp hs
  exact ⟨rfl, mul_pos (runPieces_pos h p hp) (h.validSource.positive l.1 (of_mem_zip hl).1).2.1⟩

theorem moves_compactSegments :
    ((compactSegments src dst).flatMap (·.moves)).Perm (compactMoves src dst) := by
  simp only [compactSegments, flatMap_assoc, flatMap_map]
  -- layers outside, pieces inside; the pieces of a layer are then its tokens in order
  refine (flatMap_swap_perm _ _ _).trans (List.Perm.of_eq ?_)
  refine flatMap_congr fun l hl => ?_
  have hla := (h.validSource.positive l.1 (of_mem_zip hl).1).2.1
  rw [flatMap_congr fun p hp =>
      moves_compactSegment (runPieces_pos h p hp).le hla (h.width hl),
    ← flatMap_assoc, runPieces_pairs h, flatMap_map]

end Compact

/-! ## 4. Group 0 -/

section Latent

variable {page : SplitLatentPage} {dest : SplitLatentDestinationPage}

def pageSegments (layers : List SplitCompactLayer)
    (pair : SplitLatentPage × SplitLatentDestinationPage) : List SplitTransferSegment :=
  layers.zipIdx.flatMap fun layer => pair.1.runs.map (latentSegment pair.1 pair.2
    (pair.1.tokenCount * tokenWidth (layers.take layer.2)) layer.1)

variable (h : RunsCover capacity page.logicalTokenStart page.runs
  (page.logicalTokenStart + page.tokenCount))
include h

theorem expandPageLayers_eq (bf ls : List SplitCompactLayer) :
    expandPageLayers page dest (page.tokenCount * tokenWidth bf) ls
      = .ok ((ls.zipIdx bf.length).flatMap (fun ly => page.runs.map (latentSegment page
          dest (page.tokenCount * tokenWidth ((bf ++ ls).take ly.2)) ly.1)),
        page.tokenCount * tokenWidth (bf ++ ls)) := by
  induction ls generalizing bf with
  | nil => simp [expandPageLayers]
  | cons ly ls ih =>
    have hr : page.runs.mapM (fun run => do
        ensure (0 ≤ run.logicalTokenStart - page.logicalTokenStart)
          (PyExc.runtimeError "Latent run precedes its page")
        return latentSegment page dest (page.tokenCount * tokenWidth bf) ly run)
        = .ok (page.runs.map (latentSegment page dest (page.tokenCount * tokenWidth bf) ly)) := by
      refine mapM_ok fun run hrun => ?_
      have := (h.logical run hrun).1
      rw [ensure_pos (by omega), ok_bind]
      rfl
    have hn : page.tokenCount * tokenWidth bf + page.tokenCount * ly.tokenBytes
        = page.tokenCount * tokenWidth (bf ++ [ly]) := by
      simp [tokenWidth, mul_add]
    rw [expandPageLayers, hr, ok_bind, hn, ih, ok_bind]
    simp [zipIdx_cons, pure, Except.pure]

theorem expandPage_eq_ok : expandPage layers (page, dest) = .ok ss ↔
      dest.length = page.tokenCount * tokenWidth layers ∧
        ss = pageSegments layers (page, dest) := by
  have hl : expandPageLayers page dest 0 layers = .ok (pageSegments layers (page, dest),
      page.tokenCount * tokenWidth layers) := by
    simpa [tokenWidth, pageSegments] using expandPageLayers_eq h [] layers
  rw [expandPage, hl, ok_bind, ensure_bind_eq_ok, pure_eq_ok]
  exact and_congr eq_comm eq_comm

theorem moves_layerSegments {ly : SplitCompactLayer} (hpos : 0 < ly.tokenBytes) (off : Int) :
    (page.runs.map (latentSegment page dest off ly)).flatMap (·.moves)
      = layerMoves page dest off ly := by
  have hp := (points_runs h).1
  rw [add_sub_cancel_left] at hp
  have ht : ∀ run ∈ page.runs, (latentSegment page dest off ly run).moves
      = ((List.range run.tokenCount.toNat).map fun k : Nat => run.point k).flatMap fun q =>
        tokenMoves 0 ly q.2 (dest.destinationAddress + off + (q.1 - page.logicalTokenStart)
          * ly.tokenBytes) := by
    intro run hr
    have hc := (h.pos run hr).2.1
    have hl : (run.tokenCount * ly.tokenBytes).toNat
        = run.tokenCount.toNat * ly.tokenBytes.toNat := toNat_mul hc.le hpos.le
    have hw : (ly.tokenBytes.toNat : Int) = ly.tokenBytes := toNat_of_nonneg hpos.le
    simp only [moves, latentSegment, hl, Option.getD_some, tokenMoves, point]
    rw [range_mul_map, flatMap_map]
    refine flatMap_congr fun j _ => map_congr_left fun b _ => ?_
    push_cast
    rw [hw, ByteMove.mk.injEq]
    exact ⟨rfl, rfl, by ring, by ring⟩
  rw [flatMap_map, flatMap_congr ht, ← flatMap_assoc]
  change (points (·.tokenCount) point page.runs).flatMap _ = _
  rw [hp, flatMap_map, layerMoves]
  refine flatMap_congr fun t _ => ?_
  rw [add_sub_cancel_left]

theorem moves_pageSegments (hp : ∀ ly ∈ layers, ly.Positive) :
    (pageSegments layers (page, dest)).flatMap (·.moves) = pageMoves layers (page, dest) := by
  simp only [pageSegments, pageMoves, flatMap_assoc]
  refine flatMap_congr fun ly hl => ?_
  exact moves_layerSegments h (hp ly.1 (fst_mem_of_mem_zipIdx hl)).2.1 _

end Latent

/-! ## 5. Byte counts -/

@[simp] theorem length_tokenMoves (gr : Int) (ly : SplitCompactLayer) (s de : Int) :
    (tokenMoves gr ly s de).length = ly.tokenBytes.toNat := by
  simp [tokenMoves]

@[simp] theorem length_layerMoves (pg : SplitLatentPage) (de : SplitLatentDestinationPage)
    (off : Int) (ly : SplitCompactLayer) :
    (layerMoves pg de off ly).length = pg.tokenCount.toNat * ly.tokenBytes.toNat := by
  simp [layerMoves, length_flatMap]

theorem PagesCover.total {ps : List SplitLatentPage} (h : PagesCover capacity lo ps hi) :
    (ps.map (·.tokenCount)).sum = hi - lo := by
  induction ps generalizing lo with
  | nil =>
    obtain rfl : lo = hi := h
    simp
  | cons pg ps ih =>
    have hr := ih h.2.2
    simp only [map_cons, sum_cons]
    omega

end Points

/-! ## 6. The expansion -/

structure LatentReady (plan : SplitTransferPlan) (latent : SplitLatentLayout) : Prop where
  valid : LatentValid latent
  resolved : ∀ layer ∈ latent.layers, 0 ≤ layer.bufferIndex
  pages : plan.latentDestinationPages.length = latent.pages.length
  lengths : ∀ pair ∈ latent.pages.zip plan.latentDestinationPages,
    pair.2.length = pair.1.tokenCount * tokenWidth latent.layers

/-- A plan that can be expanded. -/
structure Expandable (plan : SplitTransferPlan) (source destination : SplitCompactLayout) :
    Prop where
  compactSource : plan.compactSource = some source
  compactDestination : plan.compactDestination = some destination
  groups : plan.requestedGroups = [1] ∨ plan.requestedGroups = [0, 1]
  matching : Matching source destination
  resolved : ∀ layer ∈ source.layers, 0 ≤ layer.bufferIndex
  asksLatent : 0 ∈ plan.requestedGroups → plan.latentSource.isSome
  latent : ∀ latent ∈ plan.latent, LatentReady plan latent

def latentSegments (plan : SplitTransferPlan) : List SplitTransferSegment :=
  match plan.latent with
  | some latent =>
    (latent.pages.zip plan.latentDestinationPages).flatMap (pageSegments latent.layers)
  | none => []

section Expansion

variable {plan : SplitTransferPlan} {src dst : SplitCompactLayout}

theorem LatentReady.runs {la : SplitLatentLayout} (h : LatentReady plan la)
    {pa : SplitLatentPage × SplitLatentDestinationPage}
    (hp : pa ∈ la.pages.zip plan.latentDestinationPages) :
    0 < pa.1.tokenCount ∧ RunsCover (minCapacity la.layers) pa.1.logicalTokenStart
      pa.1.runs (pa.1.logicalTokenStart + pa.1.tokenCount) :=
  h.valid.pages.of_mem (of_mem_zip hp).1

variable (h : Expandable plan src dst)
include h

theorem Expandable.expandLatent_eq : expandLatent plan = .ok (latentSegments plan) := by
  unfold expandLatent
  split
  · rename_i h0
    obtain ⟨latent, hl⟩ := Option.isSome_iff_exists.mp (h.asksLatent h0)
    have hpl : plan.latent = some latent := by rw [SplitTransferPlan.latent, if_pos h0, hl]
    have hr := h.latent latent hpl
    have hpa : (latent.pages.zip plan.latentDestinationPages).mapM (expandPage latent.layers)
        = .ok ((latent.pages.zip plan.latentDestinationPages).map (pageSegments latent.layers)) :=
      mapM_ok fun pair hp => (expandPage_eq_ok (hr.runs hp).2).mpr ⟨hr.lengths pair hp, rfl⟩
    simp only [hl]
    rw [ensure_pos hr.pages, ok_bind, ensure_pos hr.resolved, ok_bind, hpa, ok_bind, ← flatMap_def,
      latentSegments, hpl]
    rfl
  · rename_i h0
    rw [latentSegments, SplitTransferPlan.latent, if_neg h0]

theorem Expandable.moves_latentSegments :
    (latentSegments plan).flatMap (·.moves) = requiredLatent plan := by
  unfold latentSegments requiredLatent
  split
  · rename_i latent hl
    have hr := h.latent latent hl
    rw [flatMap_assoc]
    exact flatMap_congr fun pair hp =>
      moves_pageSegments (hr.runs hp).2 hr.valid.positive
  · rfl

theorem Expandable.latentSegments_forall :
    ∀ s ∈ latentSegments plan, s.groupId = 0 ∧ 0 < s.length := by
  intro s hs
  unfold latentSegments at hs
  split at hs
  · rename_i latent hl
    have hr := h.latent latent hl
    obtain ⟨pair, hp, hs⟩ := mem_flatMap.mp hs
    obtain ⟨ly, hla, hs⟩ := mem_flatMap.mp hs
    obtain ⟨run, hrun, rfl⟩ := mem_map.mp hs
    exact ⟨rfl, mul_pos ((hr.runs hp).2.pos run hrun).2.1
      (hr.valid.positive _ (fst_mem_of_mem_zipIdx hla)).2.1⟩
  · cases hs

/-- **The copy is exact**: the segments move the required bytes, no byte more or less. -/
theorem Expandable.moves_perm :
    ((latentSegments plan ++ compactSegments src dst).flatMap (·.moves)).Perm
      (requiredMoves plan) := by
  rw [flatMap_append, h.moves_latentSegments, requiredMoves, requiredCompact, h.compactSource,
    h.compactDestination]
  exact (moves_compactSegments h.matching).append_left _

end Expansion

/-! ## 7. What a successful expansion says -/

section Inversion

variable {plan e : SplitTransferPlan} {src dst : SplitCompactLayout}
  {ss : List SplitTransferSegment}

theorem width_eq_of_expandPiece {p : Piece SplitRun SplitRun} (hs : LayersOrdered src.layers)
    (hd : LayersOrdered dst.layers) (hl : src.layers.length = dst.layers.length)
    (h : expandPiece src.layers dst.layers p = .ok ss) :
    src.layers.map (·.tokenBytes) = dst.layers.map (·.tokenBytes) := by
  replace h := of_ensure h
  obtain ⟨hc, hro⟩ := forall₂_iff_get.mp (mapM_eq_ok.mp h)
  refine ext_getElem (by simp [hl]) fun i hi₁ hi₂ => ?_
  rw [length_map] at hi₁ hi₂
  have hr := hro i hi₁ (hc ▸ hi₁)
  simp only [get_eq_getElem, layerId_getElem hs hi₁, find_layer hd hi₂] at hr
  rw [getElem_map, getElem_map]
  exact (ensure_bind_eq_ok.mp hr).1

theorem matching_of_expandRuns (hs : CompactValid src) (hd : CompactValid dst)
    (hlen : src.layers.length = dst.layers.length)
    (h : expandRuns src dst = .ok ss) : Matching src dst := by
  obtain ⟨pi, hpi, h⟩ := of_bind h
  obtain ⟨hdo, -⟩ := ensure_bind_eq_ok.mp h
  have hto := (walk_finished_iff hs.runs.inside hd.runs.inside).mp hdo
  rw [hs.runs.total, hd.runs.total] at hto
  have ht : src.tokenCount = dst.tokenCount := by omega
  refine ⟨hs, hd, ht, hlen, ?_⟩
  -- there is a token, so there is a piece, and its round compares the widths
  cases hf : (runPieces src.runs dst.runs).1 with
  | nil =>
    have hpo := walk_points point point hs.runs.inside hd.runs.inside
    rw [← runPieces, hf] at hpo
    have hl := congrArg List.length hpo
    rw [(points_runs hs.runs).1, (points_runs hd.runs).1] at hl
    simp only [flatMap_nil, length_nil, toNat_zero, drop_zero, length_zip, length_map, length_range,
      sub_zero] at hl
    have := hs.tokens
    omega
  | cons p ps =>
    rw [hf, mapM_eq_ok] at hpi
    cases hpi with
    | cons hp _ => exact width_eq_of_expandPiece hs.ordered hd.ordered hlen hp

theorem latentReady_of_expandLatent (hv : PlanLayoutsValid plan) (h : expandLatent plan = .ok ss) :
    (0 ∈ plan.requestedGroups → plan.latentSource.isSome) ∧
      ∀ latent ∈ plan.latent, LatentReady plan latent := by
  unfold expandLatent at h
  split at h
  · rename_i h0
    split at h
    · cases h
    · rename_i latent hla
      obtain ⟨hc, h⟩ := ensure_bind_eq_ok.mp h
      obtain ⟨hr, h⟩ := ensure_bind_eq_ok.mp h
      obtain ⟨ps, hpa, -⟩ := of_bind h
      have hva := hv.latent latent hla
      refine ⟨fun _ => by simp [hla], fun l hl => ?_⟩
      obtain rfl : latent = l := by simpa [SplitTransferPlan.latent, h0, hla] using hl
      refine ⟨hva, hr, hc, fun pair hp => ?_⟩
      obtain ⟨_, -, hpr⟩ := exists_of_mem_left (mapM_eq_ok.mp hpa) hp
      exact ((expandPage_eq_ok (hva.pages.of_mem (of_mem_zip hp).1).2).mp hpr).1
  · rename_i h0
    refine ⟨fun hm => absurd hm h0, fun l hl => ?_⟩
    simp [latent, h0] at hl

theorem expandable_of_expand (hv : PlanLayoutsValid plan)
    (h : expandCompactSplitPlan plan = .ok e) :
    ∃ src dst, Expandable plan src dst ∧ e.segments = latentSegments plan ++
      compactSegments src dst ∧ e.groupByteTotals = plan.groupByteTotals := by
  unfold expandCompactSplitPlan at h
  split at h
  · rename_i src dst hs hd
    obtain ⟨hg, h⟩ := ensure_bind_eq_ok.mp h
    obtain ⟨hre, h⟩ := ensure_bind_eq_ok.mp h
    obtain ⟨⟨hn₁, hn₂, hse⟩, h⟩ := ensure_bind_eq_ok.mp h
    obtain ⟨latent, hl, h⟩ := of_bind h
    obtain ⟨runs, hr, h⟩ := of_bind h
    obtain ⟨-, rfl⟩ := ensure_bind_pure_eq_ok.mp h
    have hlen : src.layers.length = dst.layers.length := by
      have hc := congrArg Finset.card hse
      rw [toFinset_card_of_nodup hn₁, toFinset_card_of_nodup hn₂] at hc
      simpa using hc
    have hm := matching_of_expandRuns (hv.source src hs) (hv.destination dst hd) hlen hr
    obtain ⟨ha, hrd⟩ := latentReady_of_expandLatent hv hl
    have he : Expandable plan src dst :=
      ⟨hs, hd, hg, hm, hre, ha, hrd⟩
    refine ⟨src, dst, he, ?_, rfl⟩
    rw [he.expandLatent_eq] at hl
    rw [expandRuns_eq hm] at hr
    rw [Except.ok.inj hl, Except.ok.inj hr]
  · cases h

end Inversion

end VllmDual.Split
