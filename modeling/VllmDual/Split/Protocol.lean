/-
  Subject:   LIVE-SPLIT WIRE RECORDS AND THEIR PARSERS
             (`ascend/kv_p2p/live_split_protocol.py`).

  The parsers turn wire values into records and check them. A layout says which physical slots of
  each layer's buffer hold which logical tokens, as runs; what a parsed layout satisfies is said
  once, in `CompactValid` and `LatentValid`, and every later proof starts from there.

  A record handed in place of a wire value (the `isinstance` branches) skips the first half of
  these parsers; it is the wire path that is modelled.
-/
import VllmDual.Lib.Intervals
import VllmDual.Split.Wire

namespace VllmDual.Split

open Outcome Intervals

/-! ## 1. Records -/

structure SplitTransferSegment where
  groupId : Int
  sourceBufferIndex : Int
  sourceOffset : Int
  destinationAddress : Int
  length : Int
  destinationKind : String
  sourceBufferBase : Option Int := none

structure SplitSourceSegment where
  groupId : Int
  sourceBufferIndex : Int
  sourceBufferBase : Int
  sourceOffset : Int
  length : Int

/-- `SplitCompactLayer`, the layers of both layouts. -/
structure SplitCompactLayer where
  layerId : Int
  bufferBase : Int
  tokenBytes : Int
  slotCapacity : Int
  bufferIndex : Int := -1

/-- `SplitCompactRun`, and `SplitLatentRun` with the same fields. -/
structure SplitRun where
  logicalTokenStart : Int
  physicalSlotStart : Int
  tokenCount : Int
deriving DecidableEq

structure SplitCompactLayout where
  groupId : Int
  tokenCount : Int
  layers : List SplitCompactLayer
  runs : List SplitRun

structure SplitLatentPage where
  logicalTokenStart : Int
  tokenCount : Int
  runs : List SplitRun

structure SplitLatentLayout where
  groupId : Int
  tokenCount : Int
  layers : List SplitCompactLayer
  pages : List SplitLatentPage

structure SplitLatentDestinationPage where
  logicalTokenStart : Int
  destinationAddress : Int
  length : Int

structure SplitSourceDescriptor where
  segments : List SplitSourceSegment
  groupByteTotals : List Int
  tpRank : Int
  dpRank : Int
  compactLayout : Option SplitCompactLayout := none
  latentLayout : Option SplitLatentLayout := none
  contentDiagnostics : Option PyVal := none

structure SplitTransferPlan where
  segments : List SplitTransferSegment
  groupByteTotals : List Int
  tpRank : Int
  dpRank : Int
  requestedGroups : List Int := [0, 1]
  compactSource : Option SplitCompactLayout := none
  compactDestination : Option SplitCompactLayout := none
  latentSource : Option SplitLatentLayout := none
  latentDestinationPages : List SplitLatentDestinationPage := []
  sourceTpRank : Option Int := none
  sourceDpRank : Option Int := none
  contentDiagnostics : Option PyVal := none

def SplitTransferPlan.sourceRank (plan : SplitTransferPlan) : Int × Int :=
  (plan.sourceTpRank.getD plan.tpRank, plan.sourceDpRank.getD plan.dpRank)

def SplitTransferPlan.destinationRank (plan : SplitTransferPlan) : Int × Int :=
  (plan.tpRank, plan.dpRank)

def tokenWidth (layers : List SplitCompactLayer) : Int := (layers.map (·.tokenBytes)).sum

/-- `min(layer.slot_capacity for layer in layers)`; the callers have checked that there is one. -/
def minCapacity : List SplitCompactLayer → Int
  | [] => 0
  | [layer] => layer.slotCapacity
  | layer :: layers => min layer.slotCapacity (minCapacity layers)

def SplitRun.physical (run : SplitRun) : Int × Int :=
  (run.physicalSlotStart, run.physicalSlotStart + run.tokenCount)

/-! ## 2. Layouts -/

/-- A layer of either layout; `family` is the part of the field names that differs. -/
def parseLayer (family : String) (layer : PyVal) : Except PyExc SplitCompactLayer := do
  let layerId ← wireItem layer "layer_id" (family ++ ".layer_id")
  let bufferBase ← wireItem layer "buffer_base" (family ++ ".buffer_base")
  let tokenBytes ← wireItem layer "token_bytes" (family ++ ".token_bytes")
  let slotCapacity ← wireItem layer "slot_capacity" (family ++ ".slot_capacity")
  let bufferIndex ← wireInt (← layer.get "buffer_index" (.int (-1))) (family ++ ".buffer_index")
  return ⟨layerId, bufferBase, tokenBytes, slotCapacity, bufferIndex⟩

def parseRun (logicalField physicalField countField : String) (run : PyVal) :
    Except PyExc SplitRun := do
  let logicalTokenStart ← wireItem run "logical_token_start" logicalField
  let physicalSlotStart ← wireItem run "physical_slot_start" physicalField
  let tokenCount ← wireItem run "token_count" countField
  return ⟨logicalTokenStart, physicalSlotStart, tokenCount⟩

/-- The loop over the runs: they continue each other from `logical` on, inside the capacity.
    Returns where they end. -/
def checkRuns (capacity : Int) (message : String) : Int → List SplitRun → Except PyExc Int
  | logical, [] => .ok logical
  | logical, run :: runs => do
    ensure (run.logicalTokenStart = logical ∧ 0 ≤ run.physicalSlotStart ∧ 0 < run.tokenCount ∧
      run.physicalSlotStart + run.tokenCount ≤ capacity) (.valueError message)
    checkRuns capacity message (logical + run.tokenCount) runs

/-- `layer_ids == list(range(len(layers)))`. -/
def LayersOrdered (layers : List SplitCompactLayer) : Prop :=
  layers.map (·.layerId) = (List.range layers.length).map fun i : Nat => (i : Int)

instance (layers : List SplitCompactLayer) : Decidable (LayersOrdered layers) :=
  inferInstanceAs (Decidable (_ = _))

def SplitCompactLayer.Positive (layer : SplitCompactLayer) : Prop :=
  0 < layer.bufferBase ∧ 0 < layer.tokenBytes ∧ 0 < layer.slotCapacity

instance (layer : SplitCompactLayer) : Decidable layer.Positive :=
  inferInstanceAs (Decidable (_ ∧ _))

/-- The checks of `parse_compact_layout` on the parsed record. -/
def checkCompactLayout (p : SplitCompactLayout) : Except PyExc Unit := do
  ensure (p.groupId = 1 ∧ 0 < p.tokenCount ∧ p.layers.length ≤ 4096 ∧ p.runs.length ≤ 1000000)
    (.valueError "Compact split layout only supports group 1")
  ensure (p.layers ≠ [] ∧ p.runs ≠ []) (.valueError "Compact split layout is empty")
  ensure (LayersOrdered p.layers) (.valueError "Compact split layers must be complete and ordered")
  ensure (∀ layer ∈ p.layers, layer.Positive) (.valueError "Invalid compact split layer")
  let logical ← checkRuns (minCapacity p.layers) "Invalid compact split run coverage" 0 p.runs
  ensure (logical = p.tokenCount) (.valueError "Compact split runs do not cover all tokens")
  ensure (adjacentOverlap (sortTuples (p.runs.map (·.physical))) = false)
    (.valueError "Compact split physical slots overlap")

def parseCompactLayout (layout : PyVal) : Except PyExc (Option SplitCompactLayout) :=
  match layout with
  | .none => .ok none
  | .dict _ => do
    let groupId ← wireItem layout "group_id" "compact.group_id"
    let tokenCount ← wireItem layout "token_count" "compact.token_count"
    let layers ← (← (← layout.item "layers").iter).mapM (parseLayer "compact")
    let runs ← (← (← layout.item "runs").iter).mapM
      (parseRun "compact.logical_token_start" "compact.physical_slot_start"
        "compact.run_token_count")
    checkCompactLayout ⟨groupId, tokenCount, layers, runs⟩
    return some ⟨groupId, tokenCount, layers, runs⟩
  | _ => .error (.valueError "Compact split layout must be a mapping")

/-- A page of `parse_latent_layout`. -/
def parseLatentPage (page : PyVal) : Except PyExc SplitLatentPage := do
  let logicalTokenStart ← wireItem page "logical_token_start" "latent.logical_token_start"
  let tokenCount ← wireItem page "token_count" "latent.page_token_count"
  let runs ← (← (← page.item "runs").iter).mapM
    (parseRun "latent.run_logical_token_start" "latent.physical_slot_start"
      "latent.run_token_count")
  return ⟨logicalTokenStart, tokenCount, runs⟩

/-- The loop over the pages: they continue each other, and the runs of each cover it. -/
def checkPages (capacity : Int) : Int → List SplitLatentPage → Except PyExc Int
  | logical, [] => .ok logical
  | logical, page :: pages => do
    ensure (page.logicalTokenStart = logical ∧ 0 < page.tokenCount ∧ page.runs ≠ [])
      (.valueError "Invalid latent split page coverage")
    let pageLogical ← checkRuns capacity "Invalid latent split run coverage" logical page.runs
    ensure (pageLogical = logical + page.tokenCount)
      (.valueError "Latent split runs do not cover their page")
    checkPages capacity (logical + page.tokenCount) pages

/-- The checks of `parse_latent_layout` on the parsed record. -/
def checkLatentLayout (p : SplitLatentLayout) : Except PyExc Unit := do
  ensure (p.groupId = 0 ∧ 0 < p.tokenCount ∧ p.layers ≠ [] ∧ p.layers.length ≤ 4096 ∧
    p.pages ≠ [] ∧ (p.pages.map (·.runs.length)).sum ≤ 1000000)
    (.valueError "Invalid latent split layout")
  ensure (LayersOrdered p.layers) (.valueError "Latent split layers must be complete and ordered")
  ensure (∀ layer ∈ p.layers, layer.Positive) (.valueError "Invalid latent split layer")
  let logical ← checkPages (minCapacity p.layers) 0 p.pages
  ensure (logical = p.tokenCount) (.valueError "Latent split pages do not cover all tokens")
  ensure (adjacentOverlap (sortTuples ((p.pages.flatMap (·.runs)).map (·.physical))) = false)
    (.valueError "Latent split physical slots overlap")

/-- `parse_latent_layout`; the pages are read first. -/
def parseLatentLayout (layout : PyVal) : Except PyExc (Option SplitLatentLayout) :=
  match layout with
  | .none => .ok none
  | .dict _ => do
    let pages ← (← (← layout.item "pages").iter).mapM parseLatentPage
    let groupId ← wireItem layout "group_id" "latent.group_id"
    let tokenCount ← wireItem layout "token_count" "latent.token_count"
    let layers ← (← (← layout.item "layers").iter).mapM (parseLayer "latent")
    checkLatentLayout ⟨groupId, tokenCount, layers, pages⟩
    return some ⟨groupId, tokenCount, layers, pages⟩
  | _ => .error (.valueError "Latent split layout must be a mapping")

/-! ## 3. What a parsed layout satisfies -/

/-- The runs continue each other from token `lo` to token `hi`, inside the capacity. -/
def RunsCover (capacity : Int) : Int → List SplitRun → Int → Prop
  | lo, [], hi => lo = hi
  | lo, run :: runs, hi =>
    (run.logicalTokenStart = lo ∧ 0 ≤ run.physicalSlotStart ∧ 0 < run.tokenCount ∧
      run.physicalSlotStart + run.tokenCount ≤ capacity) ∧
      RunsCover capacity (lo + run.tokenCount) runs hi

variable {c lo hi : Int} {runs : List SplitRun} {pages : List SplitLatentPage}
  {p : SplitCompactLayout} {u : Unit} {v : PyVal}

theorem checkRuns_eq_ok {msg : String} :
    checkRuns c msg lo runs = .ok hi ↔ RunsCover c lo runs hi := by
  induction runs generalizing lo with
  | nil => simp [checkRuns, RunsCover]
  | cons run runs ih => rw [checkRuns, ensure_bind_eq_ok, ih, RunsCover]

theorem RunsCover.pos (h : RunsCover c lo runs hi) :
    ∀ run ∈ runs, 0 ≤ run.physicalSlotStart ∧ 0 < run.tokenCount ∧
      run.physicalSlotStart + run.tokenCount ≤ c := by
  induction runs generalizing lo with
  | nil => simp
  | cons run runs ih =>
    intro r hr
    rcases List.mem_cons.mp hr with hr | hr
    · exact hr ▸ h.1.2
    · exact ih h.2 r hr

/-- The pages continue each other from token `lo` to token `hi`, each covered by its runs. -/
def PagesCover (capacity : Int) : Int → List SplitLatentPage → Int → Prop
  | lo, [], hi => lo = hi
  | lo, page :: pages, hi =>
    (page.logicalTokenStart = lo ∧ 0 < page.tokenCount ∧ page.runs ≠ []) ∧
      RunsCover capacity lo page.runs (lo + page.tokenCount) ∧
      PagesCover capacity (lo + page.tokenCount) pages hi

theorem checkPages_eq_ok : checkPages c lo pages = .ok hi ↔ PagesCover c lo pages hi := by
  induction pages generalizing lo with
  | nil => simp [checkPages, PagesCover]
  | cons pg pages ih =>
    rw [checkPages, ensure_bind_eq_ok, bind_eq_ok, PagesCover]
    constructor
    · intro ⟨hp, pl, hr, h⟩
      rw [ensure_bind_eq_ok, ih] at h
      obtain ⟨rfl, h⟩ := h
      exact ⟨hp, checkRuns_eq_ok.mp hr, h⟩
    · intro ⟨hp, hr, h⟩
      exact ⟨hp, _, checkRuns_eq_ok.mpr hr, ensure_bind_eq_ok.mpr ⟨rfl, ih.mpr h⟩⟩

theorem PagesCover.of_mem (h : PagesCover c lo pages hi) {pg : SplitLatentPage} (hp : pg ∈ pages) :
    0 < pg.tokenCount ∧
      RunsCover c pg.logicalTokenStart pg.runs (pg.logicalTokenStart + pg.tokenCount) := by
  induction pages generalizing lo with
  | nil => cases hp
  | cons p pages ih =>
    obtain ⟨⟨hs, hpos, -⟩, hr, hre⟩ := h
    rcases List.mem_cons.mp hp with hp | hp
    · subst hp
      exact ⟨hpos, hs ▸ hr⟩
    · exact ih hre hp

structure CompactValid (p : SplitCompactLayout) : Prop where
  group : p.groupId = 1
  tokens : 0 < p.tokenCount
  nonempty : p.layers ≠ []
  ordered : LayersOrdered p.layers
  positive : ∀ layer ∈ p.layers, layer.Positive
  runs : RunsCover (minCapacity p.layers) 0 p.runs p.tokenCount
  apart : (p.runs.map (·.physical)).Pairwise Apart

structure LatentValid (p : SplitLatentLayout) : Prop where
  group : p.groupId = 0
  tokens : 0 < p.tokenCount
  nonempty : p.layers ≠ []
  ordered : LayersOrdered p.layers
  positive : ∀ layer ∈ p.layers, layer.Positive
  pages : PagesCover (minCapacity p.layers) 0 p.pages p.tokenCount

theorem minCapacity_le {ls : List SplitCompactLayer} {ly : SplitCompactLayer}
    (h : ly ∈ ls) : minCapacity ls ≤ ly.slotCapacity := by
  induction ls with
  | nil => cases h
  | cons l ls ih =>
    cases ls with
    | nil =>
      obtain rfl := List.mem_singleton.mp h
      exact le_refl _
    | cons l' ls =>
      change min l.slotCapacity (minCapacity (l' :: ls)) ≤ _
      rcases List.mem_cons.mp h with h | h
      · exact h ▸ min_le_left _ _
      · exact (min_le_right _ _).trans (ih h)

theorem checkCompactLayout_valid (h : checkCompactLayout p = .ok u) : CompactValid p := by
  unfold checkCompactLayout at h
  simp only [ensure_bind_eq_ok] at h
  obtain ⟨⟨hg, ht, -, -⟩, ⟨hne, -⟩, ho, hp, h⟩ := h
  obtain ⟨logical, hru, h⟩ := of_bind h
  obtain ⟨rfl, ha⟩ := ensure_bind_eq_ok.mp h
  have hc := checkRuns_eq_ok.mp hru
  refine ⟨hg, ht, hne, ho, hp, hc, pairwise_apart_of_not_adjacentOverlap (fun r hr => ?_)
    (ensure_eq_ok.mp ha)⟩
  obtain ⟨run, hrun, rfl⟩ := List.mem_map.mp hr
  have := (hc.pos run hrun).2.1
  simp only [SplitRun.physical]
  omega

theorem checkLatentLayout_valid {p : SplitLatentLayout} (h : checkLatentLayout p = .ok u) :
    LatentValid p := by
  unfold checkLatentLayout at h
  simp only [ensure_bind_eq_ok] at h
  obtain ⟨⟨hg, ht, hne, -, -, -⟩, ho, hpos, h⟩ := h
  obtain ⟨logical, hp, h⟩ := of_bind h
  obtain ⟨rfl, -⟩ := ensure_bind_eq_ok.mp h
  exact ⟨hg, ht, hne, ho, hpos, checkPages_eq_ok.mp hp⟩

theorem parseCompactLayout_valid (h : parseCompactLayout v = .ok (some p)) : CompactValid p := by
  unfold parseCompactLayout at h
  split at h
  · cases h
  · simp only [bind_eq_ok, pure_eq_ok, Option.some.injEq] at h
    obtain ⟨_, -, _, -, _, -, _, -, _, -, _, -, _, -, _, -, _, hc, rfl⟩ := h
    exact checkCompactLayout_valid hc
  · cases h

theorem parseLatentLayout_valid {p : SplitLatentLayout} (h : parseLatentLayout v = .ok (some p)) :
    LatentValid p := by
  unfold parseLatentLayout at h
  split at h
  · cases h
  · simp only [bind_eq_ok, pure_eq_ok, Option.some.injEq] at h
    obtain ⟨_, -, _, -, _, -, _, -, _, -, _, -, _, -, _, -, _, hc, rfl⟩ := h
    exact checkLatentLayout_valid hc
  · cases h

end VllmDual.Split
