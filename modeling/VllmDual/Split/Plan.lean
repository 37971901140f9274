/-
  Subject:   CONSTRUCTION OF LIVE-SPLIT PLANS (`ascend/kv_p2p/live_split_plan.py`).

  The three functions of the file, as the source computes them; no theorem here.

  Both `while` loops of the file walk two differently cut lists in step; they are `Align.walk`.
-/
import VllmDual.Lib.Align
import VllmDual.Split.Descriptor

namespace VllmDual.Split

open Outcome

/-! ## 1. Expansion -/

def latentSegment (page : SplitLatentPage) (dest : SplitLatentDestinationPage)
    (destinationOffset : Int) (layer : SplitCompactLayer) (run : SplitRun) :
    SplitTransferSegment where
  groupId := 0
  sourceBufferIndex := layer.bufferIndex
  sourceBufferBase := some layer.bufferBase
  sourceOffset := run.physicalSlotStart * layer.tokenBytes
  destinationAddress := dest.destinationAddress + destinationOffset
    + (run.logicalTokenStart - page.logicalTokenStart) * layer.tokenBytes
  length := run.tokenCount * layer.tokenBytes
  destinationKind := "cpu"

/-- The layers of one page, back to back from `destinationOffset` on; also where they end. -/
def expandPageLayers (page : SplitLatentPage) (dest : SplitLatentDestinationPage) :
    Int → List SplitCompactLayer → Except PyExc (List SplitTransferSegment × Int)
  | destinationOffset, [] => .ok ([], destinationOffset)
  | destinationOffset, layer :: layers => do
    let segments ← page.runs.mapM fun run => do
      ensure (0 ≤ run.logicalTokenStart - page.logicalTokenStart)
        (.runtimeError "Latent run precedes its page")
      return latentSegment page dest destinationOffset layer run
    let rest ← expandPageLayers page dest
      (destinationOffset + page.tokenCount * layer.tokenBytes) layers
    return (segments ++ rest.1, rest.2)

def expandPage (layers : List SplitCompactLayer)
    (pair : SplitLatentPage × SplitLatentDestinationPage) :
    Except PyExc (List SplitTransferSegment) := do
  let expanded ← expandPageLayers pair.1 pair.2 0 layers
  ensure (expanded.2 = pair.2.length)
    (.runtimeError "Expanded latent destination page byte total differs")
  return expanded.1

def expandLatent (plan : SplitTransferPlan) : Except PyExc (List SplitTransferSegment) :=
  if 0 ∈ plan.requestedGroups then
    match plan.latentSource with
    | none => .error (.runtimeError "Incomplete latent CPU split transfer plan")
    | some latent => do
      ensure (plan.latentDestinationPages.length = latent.pages.length)
        (.runtimeError "Incomplete latent CPU split transfer plan")
      ensure (∀ layer ∈ latent.layers, 0 ≤ layer.bufferIndex)
        (.runtimeError "Latent split source buffer is unresolved")
      let pages ← (latent.pages.zip plan.latentDestinationPages).mapM (expandPage latent.layers)
      return pages.flatten
  else
    .ok []

def runPieces (source destination : List SplitRun) :
    List (Align.Piece SplitRun SplitRun) × List SplitRun × List SplitRun :=
  Align.walk (·.tokenCount) (·.tokenCount) source 0 destination 0

def compactSegment (piece : Align.Piece SplitRun SplitRun)
    (srcLayer dstLayer : SplitCompactLayer) : SplitTransferSegment where
  groupId := 1
  sourceBufferIndex := srcLayer.bufferIndex
  sourceBufferBase := some srcLayer.bufferBase
  sourceOffset := (piece.left.physicalSlotStart + piece.leftOffset) * srcLayer.tokenBytes
  destinationAddress := dstLayer.bufferBase + (piece.right.physicalSlotStart + piece.rightOffset)
    * dstLayer.tokenBytes
  length := piece.count * srcLayer.tokenBytes
  destinationKind := "npu"

/-- The body of the `while` loop: a segment for every layer. -/
def expandPiece (srcLayers dstLayers : List SplitCompactLayer)
    (piece : Align.Piece SplitRun SplitRun) : Except PyExc (List SplitTransferSegment) := do
  ensure (piece.left.logicalTokenStart + piece.leftOffset = piece.right.logicalTokenStart
    + piece.rightOffset) (.runtimeError "Compact split logical coverage differs")
  srcLayers.mapM fun srcLayer =>
    match dstLayers.find? fun layer => layer.layerId = srcLayer.layerId with
    | none => .error (.keyError "layer_id")
    | some dstLayer => do
      ensure (srcLayer.tokenBytes = dstLayer.tokenBytes)
        (.runtimeError "Compact split token widths differ")
      return compactSegment piece srcLayer dstLayer

def expandRuns (source destination : SplitCompactLayout) :
    Except PyExc (List SplitTransferSegment) := do
  let pieces := runPieces source.runs destination.runs
  let segments ← pieces.1.mapM (expandPiece source.layers destination.layers)
  ensure (pieces.2 = ([], [])) (.runtimeError "Compact split run coverage differs")
  return segments.flatten

def transferBytes (group : Int) (segments : List SplitTransferSegment) : Int :=
  ((segments.filter fun s => s.groupId = group).map (·.length)).sum

def expandCompactSplitPlan (plan : SplitTransferPlan) : Except PyExc SplitTransferPlan :=
  match plan.compactSource, plan.compactDestination with
  | some source, some destination => do
    ensure (plan.requestedGroups = [1] ∨ plan.requestedGroups = [0, 1])
      (.runtimeError "Incomplete compact split transfer plan")
    ensure (∀ layer ∈ source.layers, 0 ≤ layer.bufferIndex)
      (.runtimeError "Compact split source buffer is unresolved")
    ensure ((source.layers.map (·.layerId)).Nodup ∧ (destination.layers.map (·.layerId)).Nodup ∧
        (source.layers.map (·.layerId)).toFinset = (destination.layers.map (·.layerId)).toFinset)
      (.runtimeError "Compact split layer sets differ")
    let latentSegments ← expandLatent plan
    let runSegments ← expandRuns source destination
    let segments := latentSegments ++ runSegments
    ensure ([transferBytes 0 segments, transferBytes 1 segments] = plan.groupByteTotals)
      (.runtimeError "Expanded compact split byte totals differ")
    return {
      segments := segments
      groupByteTotals := plan.groupByteTotals
      tpRank := plan.tpRank
      dpRank := plan.dpRank
      requestedGroups := plan.requestedGroups
      sourceTpRank := plan.sourceTpRank
      sourceDpRank := plan.sourceDpRank
      contentDiagnostics := plan.contentDiagnostics }
  | _, _ => .error (.runtimeError "Incomplete compact split transfer plan")

/-! ## 2. Merging a source with destinations -/

/-- `totals[group]`, for two totals and a group that is 0 or 1. -/
def groupTotal (totals : List Int) (group : Int) : Int := totals.getD group.toNat 0

/-- `str` of a tuple of integers. -/
def tupleText : List Int → String
  | [n] => "(" ++ toString n ++ ",)"
  | ns => "(" ++ ", ".intercalate (ns.map toString) ++ ")"

/-- `str(mismatched_totals)`. -/
def mismatchText (source destination groups : List Int) : String :=
  "\x7b" ++ ", ".intercalate (groups.map fun g =>
    toString g ++ ": " ++ tupleText [groupTotal source g, groupTotal destination g]) ++ "\x7d"

variable (source : SplitSourceDescriptor) (plan : PyVal)

/-- `destination_plane_widths`: empty when the field is absent or malformed. -/
def planeWidths : List Int :=
  match (do wireInts (← plan.item "latent_token_bytes") "destination.latent_token_bytes") with
  | .ok widths => widths
  | .error _ => []

def checkRawPage (segment : PyVal) : Except PyExc Unit := do
  let length ← wireItem segment "length" "destination.latent_page_length"
  ensure (0 < length) (.valueError "Incomplete latent CPU split plan")
  let address ← wireItem segment "destination_address" "destination.latent_page_address"
  ensure (0 < address) (.valueError "Incomplete latent CPU split plan")

def parseDestinationPage (segment : PyVal) : Except PyExc SplitLatentDestinationPage := do
  let logicalTokenStart ←
    wireItem segment "logical_token_start" "destination.latent_page_logical_start"
  let destinationAddress ←
    wireItem segment "destination_address" "destination.latent_page_address"
  let length ← wireItem segment "length" "destination.latent_page_length"
  return ⟨logicalTokenStart, destinationAddress, length⟩

def checkDestinationPage (pageBytes : Int)
    (triple : (SplitLatentDestinationPage × SplitLatentPage) × PyVal) : Except PyExc Unit := do
  let ((destination, sourcePage), rawPage) := triple
  ensure (destination.length = sourcePage.tokenCount * pageBytes ∧
      destination.logicalTokenStart = sourcePage.logicalTokenStart)
    (.valueError "Latent destination page byte lengths differ")
  let validTokens ← wireInt (← rawPage.get "valid_tokens" (.int (-1)))
    "destination.latent_page_valid_tokens"
  ensure (validTokens = sourcePage.tokenCount)
    (.valueError "Latent destination page byte lengths differ")

variable (requestedGroups : List Int)

def mergeLatentPages (rawPages : List PyVal) : Except PyExc (List SplitLatentDestinationPage) := do
  let widths := planeWidths plan
  match source.latentLayout with
  | none => .error (.valueError "Incomplete latent CPU split plan")
  | some latent => do
    ensure (requestedGroups = [0, 1] ∧ rawPages ≠ [] ∧ widths = latent.layers.map (·.tokenBytes))
      (.valueError "Incomplete latent CPU split plan")
    let _ ← rawPages.mapM checkRawPage
    ensure (rawPages.length = latent.pages.length)
      (.valueError "Latent source/destination page counts differ")
    let pages ← rawPages.mapM parseDestinationPage
    let _ ← ((pages.zip latent.pages).zip rawPages).mapM (checkDestinationPage widths.sum)
    return pages

def mergePages (rawPages : List PyVal) : Except PyExc (List SplitLatentDestinationPage) :=
  if 0 ∈ requestedGroups then mergeLatentPages source plan requestedGroups rawPages else .ok []

def mergeCompact (compactDestination : Option SplitCompactLayout) (requestedGroups : List Int)
    (tpRank dpRank : Int) (latentPages : List SplitLatentDestinationPage) :
    Except PyExc SplitTransferPlan :=
  match source.compactLayout, compactDestination with
  | some compactSource, some destination => do
    ensure ((requestedGroups = [1] ∨ requestedGroups = [0, 1]) ∧
      compactSource.tokenCount = destination.tokenCount ∧
        compactSource.layers.length = destination.layers.length)
      (.valueError "Compact source/destination layouts differ")
    ensure (compactSource.layers.map (·.tokenBytes) = destination.layers.map (·.tokenBytes))
      (.valueError "Compact source/destination token widths differ")
    return {
      segments := []
      groupByteTotals := [0, 1].map fun group =>
        if group ∈ requestedGroups then groupTotal source.groupByteTotals group else 0
      tpRank := tpRank
      dpRank := dpRank
      sourceTpRank := some source.tpRank
      sourceDpRank := some source.dpRank
      requestedGroups := requestedGroups
      compactSource := some compactSource
      compactDestination := some destination
      latentSource := if 0 ∈ requestedGroups then source.latentLayout else none
      latentDestinationPages := latentPages
      contentDiagnostics := source.contentDiagnostics }
  | _, _ => .error (.valueError "Compact source/destination layouts differ")

/-- `wire_int(dst["length"])` as the walk sees it; `mergePiece` raises where it is malformed. -/
def rawLength (dst : PyVal) : Int :=
  match wireItem dst "length" "destination.length" with
  | .ok n => n
  | .error _ => 0

/-- The body of the `while` loop of the plain branch. -/
def mergePiece (group : Int) (piece : Align.Piece SplitSourceSegment PyVal) :
    Except PyExc SplitTransferSegment := do
  let _ ← wireItem piece.right "length" "destination.length"
  ensure (0 < piece.count) (.valueError "Invalid live split destination extent")
  let address ← wireItem piece.right "destination_address" "destination.address"
  let kind ← piece.right.item "destination_kind"
  return {
    groupId := group
    sourceBufferIndex := piece.left.sourceBufferIndex
    sourceOffset := piece.left.sourceOffset + piece.leftOffset
    destinationAddress := address + piece.rightOffset
    length := piece.count
    destinationKind := kind.text
    sourceBufferBase := some piece.left.sourceBufferBase }

def mergeGroup (destinations : PyVal) (group : Int) : Except PyExc (List SplitTransferSegment) := do
  let sources := source.segments.filter fun s => s.groupId = group
  let groups ← (← destinations.iter).mapM fun d => do
    return (d, ← wireItem d "group_id" "destination.group_id")
  let dests := (groups.filter fun p => p.2 = group).map (·.1)
  let walk := Align.walk (·.length) rawLength sources 0 dests 0
  let merged ← walk.1.mapM (mergePiece group)
  ensure (walk.2.1 = [] ∧ walk.2.2.length = 0)
    (.valueError ("source/destination extents do not cover the same bytes: group="
      ++ toString group ++ ", source_extents=" ++ toString sources.length
      ++ ", destination_extents=" ++ toString dests.length))
  return merged

def mergePlain (tpRank dpRank : Int) : Except PyExc SplitTransferPlan := do
  let destinations ← plan.item "segments"
  let merged ← requestedGroups.mapM (mergeGroup source destinations)
  return {
    segments := merged.flatten
    groupByteTotals := [0, 1].map fun group =>
      if group ∈ requestedGroups then groupTotal source.groupByteTotals group else 0
    tpRank := tpRank
    dpRank := dpRank
    sourceTpRank := some source.tpRank
    sourceDpRank := some source.dpRank
    requestedGroups := requestedGroups
    contentDiagnostics := source.contentDiagnostics }

def mergeSourceAndDestinations (supportedGroups : List Int) : Except PyExc SplitTransferPlan :=
  match plan with
  | .dict _ => do
    let destTotals ← wireInts (← plan.item "group_byte_totals") "destination.group_byte_total"
    let requestedValues ← wireInts (← plan.get "requested_groups" (.tuple [.int 0, .int 1]))
      "destination.requested_group"
    ensure (requestedValues.Nodup ∧ ∀ g ∈ requestedValues, g = 0 ∨ g = 1)
      (.valueError "Destination requested groups are invalid")
    let requestedGroups := requestedValues.filter (· ∈ supportedGroups)
    ensure (destTotals.length = 2 ∧ requestedGroups ≠ [] ∧ ∀ g ∈ requestedGroups, g = 0 ∨ g = 1)
      (.valueError ("invalid destination totals/groups: totals=" ++ tupleText destTotals
        ++ ", groups=" ++ tupleText requestedGroups))
    let mismatched := requestedGroups.filter fun g =>
      groupTotal destTotals g ≠ groupTotal source.groupByteTotals g
    ensure (mismatched = [])
      (.valueError ("source/destination byte totals differ (source, destination)="
        ++ mismatchText source.groupByteTotals destTotals mismatched))
    let tpRank ← wireItem plan "tp_rank" "destination.tp_rank"
    let dpRank ← wireItem plan "dp_rank" "destination.dp_rank"
    ensure (tpRank = source.tpRank)
      (.valueError ("source/destination TP ranks differ: source=" ++
        tupleText [source.tpRank, source.dpRank] ++ ", destination=" ++ tupleText [tpRank, dpRank]))
    let compactDestination ← parseCompactLayout (← plan.get "compact_layout")
    let rawPages ← (← plan.get "latent_pages" (.tuple [])).iter
    let latentPages ← mergePages source plan requestedGroups rawPages
    if source.compactLayout.isSome ∨ compactDestination.isSome then
      mergeCompact source compactDestination requestedGroups tpRank dpRank latentPages
    else
      mergePlain source plan requestedGroups tpRank dpRank
  | _ => .error (.valueError "Live split destination plan must be a mapping")

/-! ## 3. Canonical source descriptors -/

/-- `SourceHandshake`: the registered buffers of a rank. A Python list has at most
    `sys.maxsize` entries. -/
structure SourceHandshake where
  kvCachesBaseAddr : List Int
  kvCachesBufferSizes : List Int
  bufferGroupIds : List Int
  addressable : (kvCachesBaseAddr.length : Int) ≤ maxWireInteger

variable (m : SourceHandshake)

/-- `len(bases) == len(sizes) == len(groups)`. -/
def SourceHandshake.Complete : Prop :=
  m.kvCachesBaseAddr.length = m.kvCachesBufferSizes.length ∧
    m.kvCachesBufferSizes.length = m.bufferGroupIds.length

instance (m : SourceHandshake) : Decidable m.Complete := inferInstanceAs (Decidable (_ ∧ _))

/-- `indices.get(base, ())`: where a base address is registered, in order. -/
def SourceHandshake.indices (base : Int) : List Nat :=
  (List.range m.kvCachesBaseAddr.length).filter fun i => m.kvCachesBaseAddr[i]? = some base

/-- The buffer belongs to the group and has at least `bytes` bytes. -/
def SourceHandshake.Fits (group bytes : Int) (i : Nat) : Prop :=
  m.bufferGroupIds[i]? = some group ∧ bytes ≤ m.kvCachesBufferSizes.getD i 0

instance (m : SourceHandshake) (group bytes : Int) : DecidablePred (m.Fits group bytes) :=
  fun _ => inferInstanceAs (Decidable (_ ∧ _))

/-- A layer with its registered buffer, the first that fits. `family` and `title` are the parts
    of field names and messages that differ between the two layouts. -/
def registerLayer (family title : String) (group : Int) (m : SourceHandshake) (layer : PyVal) :
    Except PyExc (Nat × Entries) := do
  let es ← layer.asDict
  let base ← wireItem (.dict es) "buffer_base" (family ++ ".buffer_base")
  let tokenBytes ← wireItem (.dict es) "token_bytes" (family ++ ".token_bytes")
  let capacity ← wireItem (.dict es) "slot_capacity" (family ++ ".slot_capacity")
  match (m.indices base).find? fun i => m.Fits group (capacity * tokenBytes) i with
  | none => .error (.valueError (title ++ " live split layer is not registered"))
  | some index =>
    return (index, setKey (setKey es "buffer_base" (.int base)) "buffer_index" (.int index))

/-- The layers of a layout: one for every registered buffer of the group, in order. -/
def registerLayers (family title : String) (group : Int) (m : SourceHandshake)
    (layout : Entries) : Except PyExc Entries := do
  let layers ← (← (← (PyVal.dict layout).item "layers").iter).mapM
    (registerLayer family title group m)
  let expectedIndices := (List.range m.bufferGroupIds.length).filter fun i =>
    m.bufferGroupIds[i]? = some group
  ensure (layers.length = m.bufferGroupIds.count group ∧ (layers.map (·.1)).Nodup ∧
    layers.map (·.1) = expectedIndices) (.valueError (title ++ " live split layers are incomplete"))
  return setKey layout "layers" (.list (layers.map fun l => .dict l.2))

variable (supportedGroups : List Int)

def canonicalizeCompact (compact : PyVal) : Except PyExc PyVal :=
  if compact.isNone then
    .ok .none
  else do
    let es ← compact.asDict
    let group ← wireItem (.dict es) "group_id" "compact.group_id"
    ensure (group ∈ supportedGroups) (.valueError "Compact live split group is unsupported")
    let layout ← registerLayers "compact" "Compact" 1 m es
    let parsed ← parseCompactLayout (.dict layout)
    ensure parsed.isSome (.valueError "Compact live split layout is missing")
    return .dict layout

def canonicalizeLatent (latent : PyVal) : Except PyExc PyVal :=
  if latent.isNone then
    .ok .none
  else do
    ensure (0 ∈ supportedGroups) (.valueError "Latent live split group is unsupported")
    let es ← latent.asDict
    let layout ← registerLayers "latent" "Latent" 0 m es
    let parsed ← parseLatentLayout (.dict layout)
    ensure parsed.isSome (.valueError "Latent live split layout is missing")
    return .dict layout

/-- `extension_valid`: the latent bytes stand in a field of their own. -/
def extensionValid (latent : Option SplitLatentLayout) (latentBytes compactBytes : Int)
    (baseTotals : List Int) (latentTotalRaw : PyVal) : Except PyExc Bool :=
  if latent.isSome ∧ baseTotals = [0, compactBytes] ∧ ¬ latentTotalRaw.isNone then do
    let latentTotal ← wireInt latentTotalRaw "source.latent_group_byte_total"
    return latentTotal = latentBytes
  else
    .ok false

/-- The three forms of the totals: compact only, latent extension, legacy hybrid. -/
def totalsAccepted (format : PyVal) (latent : Option SplitLatentLayout)
    (latentBytes compactBytes : Int) (baseTotals : List Int) (latentTotalRaw : PyVal) :
    Except PyExc Bool := do
  let compactOnly := latent.isNone ∧ latentTotalRaw.isNone ∧
    baseTotals = [latentBytes, compactBytes]
  let extension ← extensionValid latent latentBytes compactBytes baseTotals latentTotalRaw
  let legacyHybrid := latent.isSome ∧ format.isStr "hybrid_compact_v1" ∧
    latentTotalRaw.isNone ∧ baseTotals = [latentBytes, compactBytes]
  return decide (compactOnly ∨ extension ∨ legacyHybrid)

/-- The diagnostics of a normalized descriptor: set, or removed when there are none. -/
def setDiagnostics (es : Entries) : Option PyVal → Entries
  | none => popKey es "content_diagnostics"
  | some v => setKey es "content_diagnostics" v

def canonicalizeLayouts (raw : Entries) : Except PyExc PyVal := do
  let segments ← (PyVal.dict raw).get "segments"
  let format ← (PyVal.dict raw).get "format"
  ensure (¬ segments.truthy ∧ (format.isStr "layer_slot_runs_v1" ∨
    format.isStr "hybrid_compact_v1")) (.valueError "Unknown or mixed compact live split format")
  let compact ← canonicalizeCompact m supportedGroups (← (PyVal.dict raw).get "compact_layout")
  let latent ← canonicalizeLatent m supportedGroups (← (PyVal.dict raw).get "latent_layout")
  let parsedCompact ← parseCompactLayout compact
  let parsedLatent ← parseLatentLayout latent
  let baseTotals ← wireInts (← (PyVal.dict raw).item "group_byte_totals")
    "source.group_byte_total"
  ensure (baseTotals.length = 2) (.valueError "Compact live split totals require two groups")
  let accepted ← totalsAccepted format parsedLatent ((parsedLatent.map (·.bytes)).getD 0)
    ((parsedCompact.map (·.bytes)).getD 0) baseTotals
    (← (PyVal.dict raw).get "latent_group_byte_total")
  ensure accepted (.valueError "Compact live split byte total differs")
  let diagnostics ← sanitizeContentDiagnostics (← (PyVal.dict raw).get "content_diagnostics")
    ((parsedCompact.map (·.tokenCount)).getD 0)
    ((parsedCompact.map fun c => c.layers.map (·.layerId)).getD [])
  let normalized := setKey (setKey (setKey raw
    "group_byte_totals" (.list (baseTotals.map .int))) "compact_layout" compact)
    "latent_layout" latent
  return .dict (setDiagnostics normalized diagnostics)

/-- A segment with its registered buffer, the first of its base and group that holds it. -/
def registerExtent (es : Entries) (groupId : Int) :
    Except PyExc (SplitSourceSegment × Entries) := do
  let base ← wireItem (.dict es) "source_buffer_base" "source.buffer_base"
  let offset ← wireItem (.dict es) "source_offset" "source.offset"
  let length ← wireItem (.dict es) "length" "source.length"
  ensure (0 < base ∧ 0 ≤ offset ∧ 0 < length) (.valueError "Invalid live split source extent")
  ensure (m.indices base ≠ []) (.valueError "Live split source base is not registered")
  ensure (∃ i ∈ m.indices base, m.bufferGroupIds[i]? = some groupId)
    (.valueError "Live split source group does not match buffer")
  match (m.indices base).find? fun i => m.Fits groupId (offset + length) i with
  | none => .error (.valueError "Live split source extent exceeds buffer")
  | some index =>
    return (⟨groupId, index, base, offset, length⟩,
      setKey (setKey (setKey (setKey (setKey es "group_id" (.int groupId))
        "source_buffer_base" (.int base)) "source_offset" (.int offset))
        "length" (.int length)) "source_buffer_index" (.int index))

/-- One segment of a plain descriptor; `none` when its group is not supported. -/
def registerSegment (segment : PyVal) : Except PyExc (Option (SplitSourceSegment × Entries)) := do
  let es ← segment.asDict
  let groupId ← wireItem (.dict es) "group_id" "source.group_id"
  if groupId ∈ supportedGroups then
    return some (← registerExtent m es groupId)
  else
    return none

/-- `totals[group] += length` on a list of two, Python's negative indices included. -/
def addTotal (totals : Int × Int) (s : SplitSourceSegment) : Except PyExc (Int × Int) :=
  if s.groupId = 0 ∨ s.groupId = -2 then
    .ok (totals.1 + s.length, totals.2)
  else if s.groupId = 1 ∨ s.groupId = -1 then
    .ok (totals.1, totals.2 + s.length)
  else
    .error .indexError

def canonicalizeSegments (raw : Entries) : Except PyExc PyVal := do
  let found ← (← (← (PyVal.dict raw).item "segments").iter).mapM
    (registerSegment m supportedGroups)
  let segments := found.filterMap id
  ensure (segments ≠ []) (.valueError "Live split source has no supported groups")
  let totals ← (segments.map (·.1)).foldlM addTotal (0, 0)
  return .dict (setKey (setKey raw "segments" (.list (segments.map fun s => .dict s.2)))
    "group_byte_totals" (.list [.int totals.1, .int totals.2]))

/-- The body of the loop over `raw_descriptors`. -/
def canonicalizeOne (localSourceMetadata : Int × Int → Option SourceHandshake)
    (supportedGroups : List Int) (raw : PyVal) : Except PyExc PyVal := do
  let tpRank ← wireItem raw "tp_rank" "source.tp_rank"
  let dpRank ← wireItem raw "dp_rank" "source.dp_rank"
  match localSourceMetadata (tpRank, dpRank) with
  | none => .error (.valueError "Live split source rank has no local handshake")
  | some m => do
    ensure m.Complete (.valueError "Live split source handshake is incomplete")
    let compact ← raw.get "compact_layout"
    let latent ← raw.get "latent_layout"
    let es ← raw.asDict
    if compact.isNone ∧ latent.isNone then
      canonicalizeSegments m supportedGroups es
    else
      canonicalizeLayouts m supportedGroups es

def canonicalizeSourceDescriptor (descriptor : PyVal)
    (localSourceMetadata : Int × Int → Option SourceHandshake) (supportedGroups : List Int) :
    Except PyExc PyVal :=
  match descriptor with
  | .dict _ => do
    let raws ← (← descriptor.get "descriptors" (.tuple [descriptor])).iter
    let normalized ← raws.mapM (canonicalizeOne localSourceMetadata supportedGroups)
    return .dict [(.str "descriptors", .list normalized)]
  | _ => .error (.valueError "Live split source descriptor must be a mapping")

end VllmDual.Split
