/-
  Subject:   SUBMITTING A LIVE-SPLIT TRANSFER (`MooncakeConnector._transfer_split_destinations`).

  A plan is checked against the local registry and the peer's handshake, expanded when it is
  compact, checked again segment by segment, and handed to the transfer engine in one batch for
  each group.

  Outside the model: the engine (`read` answers a batch with a return code), memory registration
  (`register`) and the fetch of the peer's metadata (`peer`) are parameters; timings, logs and the
  fingerprint of the result are left out.
-/
import VllmDual.Split.Exact

namespace VllmDual.Split

open Outcome Intervals

/-! ## 1. Registered buffers -/

structure BufferTable where
  bases : List Int
  sizes : List Int
  groups : List Int

def BufferTable.Complete (t : BufferTable) : Prop :=
  t.bases.length = t.sizes.length ∧ t.sizes.length = t.groups.length

instance (t : BufferTable) : Decidable t.Complete := inferInstanceAs (Decidable (_ ∧ _))

def BufferTable.ofGroup (t : BufferTable) (group : Int) : List (Int × Int) :=
  ((t.bases.zip (t.sizes.zip t.groups)).filter fun b => b.2.2 = group).map fun b => (b.1, b.2.1)

def BufferTable.indicesOf (t : BufferTable) (group : Int) : List Nat :=
  (List.range t.groups.length).filter fun i => t.groups[i]? = some group

structure RemotePeer where
  capabilities : List String
  rankIdentity : Option (Int × Int)
  table : BufferTable

def liveSplitCapability : String := "ascend_live_split_v2"
def liveSplitCompactCapability : String := "ascend_live_split_compact_v1"
def liveSplitLatentCpuCapability : String := "ascend_live_split_latent_cpu_v1"
def liveSplitDpRoutingCapability : String := "ascend_live_split_dp_routing_v1"

/-! ## 2. Checks before the expansion -/

def validateLocalCompactDestination (registry : BufferTable) (layout : SplitCompactLayout) :
    Except PyExc Unit := do
  ensure (registry.bases ≠ [] ∧ registry.Complete)
    (.runtimeError "Local split destination registry is incomplete")
  let expected := registry.ofGroup layout.groupId
  ensure (layout.layers.length = expected.length)
    (.runtimeError "Compact split destination layers are incomplete")
  ensure (∀ p ∈ layout.layers.zip expected, p.1.bufferBase = p.2.1 ∧
    p.1.slotCapacity * p.1.tokenBytes ≤ p.2.2)
    (.runtimeError "Compact split destination is outside registered KV")

variable (table : BufferTable)

/-- `_validate_remote_compact_source`, for the layers of either layout. -/
def validateRemoteCompactSource (groupId : Int) (layers : List SplitCompactLayer) :
    Except PyExc Unit := do
  let expectedIndices := table.indicesOf groupId
  ensure (layers.length = expectedIndices.length)
    (.runtimeError "Compact split source layers are incomplete")
  ensure (∀ p ∈ layers.zip expectedIndices, p.1.bufferIndex = p.2 ∧
    table.bases[p.2]? = some p.1.bufferBase ∧
      p.1.slotCapacity * p.1.tokenBytes ≤ table.sizes.getD p.2 0)
    (.runtimeError "Compact split source is outside registered KV")

def estimatedVectors (source destination : SplitCompactLayout)
    (latent : Option SplitLatentLayout) : Nat :=
  source.layers.length * (source.runs.length + destination.runs.length)
    + ((latent.map fun l => l.layers.length * (l.pages.map (·.runs.length)).sum).getD 0)

def checkCompactPlan (registry : BufferTable) (plan : SplitTransferPlan) : Except PyExc Unit :=
  match plan.compactSource, plan.compactDestination with
  | none, _ => .ok ()
  | some _, none => .error (.runtimeError "Compact split destination layout is missing")
  | some source, some destination => do
    validateLocalCompactDestination registry destination
    ensure (estimatedVectors source destination plan.latentSource ≤ 1000000)
      (.runtimeError "Expanded compact split plan is too large")

variable (plan : SplitTransferPlan)

def registrationRegions : List (Int × Int) :=
  match plan.latentSource, plan.compactSource, plan.compactDestination with
  | some _, _, _ => plan.latentDestinationPages.map fun p => (p.destinationAddress, p.length)
  | none, some _, some destination =>
    destination.layers.map fun l => (l.bufferBase, l.slotCapacity * l.tokenBytes)
  | none, _, _ => []

def checkLatentPages : Except PyExc Unit :=
  ensure (plan.latentSource.isSome →
    adjacentOverlap (sortTuples (plan.latentDestinationPages.map (·.extent))) = false)
    (.runtimeError "Latent destination pages overlap")

def checkPeer (peer : RemotePeer) (plan : SplitTransferPlan) : Except PyExc Unit := do
  ensure (liveSplitCapability ∈ peer.capabilities)
    (.runtimeError "Remote Mooncake peer lacks live split capability")
  ensure (liveSplitDpRoutingCapability ∈ peer.capabilities →
    peer.rankIdentity = some plan.sourceRank)
    (.runtimeError "Remote Mooncake peer rank does not match the split source")
  ensure (plan.sourceRank ≠ plan.destinationRank → liveSplitDpRoutingCapability ∈ peer.capabilities)
    (.runtimeError "Remote Mooncake peer lacks DP split routing capability")
  ensure (plan.compactSource.isSome → liveSplitCompactCapability ∈ peer.capabilities)
    (.runtimeError "Remote Mooncake peer lacks compact split capability")
  ensure (plan.latentSource.isSome → liveSplitLatentCpuCapability ∈ peer.capabilities)
    (.runtimeError "Remote Mooncake peer lacks latent CPU capability")
  ensure (peer.table.sizes.length = peer.table.bases.length)
    (.runtimeError "Remote peer omitted registered source buffer sizes")
  ensure (peer.table.groups.length = peer.table.bases.length)
    (.runtimeError "Remote peer omitted registered source buffer groups")

def checkCompactSources (plan : SplitTransferPlan) : Except PyExc Unit :=
  match plan.compactSource with
  | none => .ok ()
  | some source => do
    validateRemoteCompactSource table source.groupId source.layers
    match plan.latentSource with
    | none => .ok ()
    | some latent => validateRemoteCompactSource table latent.groupId latent.layers

def expandIfCompact : Except PyExc SplitTransferPlan :=
  if plan.compactSource.isSome ∨ plan.compactDestination.isSome ∨ plan.latentSource.isSome then
    expandCompactSplitPlan plan
  else
    .ok plan

/-! ## 3. Checks of the segments -/

def expectedKind (groupId : Int) : String := if groupId = 0 then "cpu" else "npu"

def checkSegment (requestedGroups : List Int) (s : SplitTransferSegment) : Except PyExc Unit := do
  ensure (s.groupId ∈ requestedGroups) (.runtimeError "Split segment targets an unrequested group")
  ensure (s.destinationKind = expectedKind s.groupId)
    (.runtimeError ("Split group " ++ toString s.groupId ++ " requires " ++
      expectedKind s.groupId ++ " destinations"))
  ensure (0 < s.length ∧ 0 ≤ s.sourceOffset ∧ 0 < s.destinationAddress)
    (.runtimeError "Invalid split destination extent")

variable (s : SplitTransferSegment)

def SplitTransferSegment.extent : Int × Int :=
  (s.destinationAddress, s.destinationAddress + s.length)

/-- `destinations[kind]`. -/
def destinationsOf (kind : String) (segments : List SplitTransferSegment) : List (Int × Int) :=
  (segments.filter fun s => s.destinationKind = kind).map (·.extent)

/-- `bisect_right(starts, x)` on a sorted list: how many starts are not greater. -/
def bisectRight : List Int → Int → Nat
  | [], _ => 0
  | start :: starts, x => if start ≤ x then bisectRight starts x + 1 else 0

def checkNpuExtent (localGroup1 : List (Int × Int)) (extent : Int × Int) : Except PyExc Unit :=
  match bisectRight (localGroup1.map (·.1)) extent.1 with
  | 0 => .error (.runtimeError "Split NPU destination is outside registered group-1 KV")
  | owner + 1 =>
    match localGroup1[owner]? with
    | none => .error .indexError
    | some (base, size) =>
      ensure (extent.2 ≤ base + size)
        (.runtimeError "Split NPU destination is outside registered group-1 KV")

def checkPlainDestinations (registry : BufferTable) (segments : List SplitTransferSegment) :
    Except PyExc Unit := do
  ensure (adjacentOverlap (sortTuples (destinationsOf "cpu" segments)) = false ∧
      adjacentOverlap (sortTuples (destinationsOf "npu" segments)) = false)
    (.runtimeError "Split destination extents overlap")
  ensure (destinationsOf "npu" segments ≠ [] → registry.bases ≠ [] ∧ registry.sizes ≠ [] ∧
    registry.groups ≠ []) (.runtimeError "Local split destination registry is unavailable")
  if registry.bases = [] ∧ registry.sizes = [] ∧ registry.groups = [] then
    return ()
  else do
    ensure registry.Complete (.runtimeError "Local split destination registry is incomplete")
    let _ ← (sortTuples (destinationsOf "npu" segments)).mapM
      (checkNpuExtent (sortTuples (registry.ofGroup 1)))
    return ()

def checkTotals (requestedGroups : List Int) (plan : SplitTransferPlan) : Except PyExc Unit := do
  let totals := [transferBytes 0 plan.segments, transferBytes 1 plan.segments]
  ensure (totals = plan.groupByteTotals)
    (.runtimeError ("Split destination byte totals mismatch: " ++ tupleText totals ++ " != "
      ++ tupleText plan.groupByteTotals))
  let _ ← [(0 : Int), 1].mapM fun group => do
    ensure (group ∈ requestedGroups → 0 < transferBytes group plan.segments)
      (PyExc.runtimeError "Every requested split group requires bytes")
    ensure (group ∉ requestedGroups → transferBytes group plan.segments = 0)
      (PyExc.runtimeError "Unrequested split groups must have zero bytes")
  return ()

def checkPlainSource : Except PyExc Unit := do
  ensure (0 ≤ s.sourceBufferIndex ∧ s.sourceBufferIndex < table.bases.length)
    (.runtimeError "Split source buffer index is out of range")
  let i := s.sourceBufferIndex.toNat
  ensure (s.sourceBufferBase = table.bases[i]?)
    (.runtimeError "Split source buffer identity mismatch")
  ensure (table.groups[i]? = some s.groupId) (.runtimeError "Split source buffer group mismatch")
  ensure (s.sourceOffset + s.length ≤ table.sizes.getD i 0)
    (.runtimeError "Split source extent exceeds registered KV buffer")

/-! ## 4. Submission -/

structure Triple where
  destination : Int
  source : Int
  length : Int

def SplitTransferSegment.triple : Triple where
  destination := s.destinationAddress
  source := table.bases.getD s.sourceBufferIndex.toNat 0 + s.sourceOffset
  length := s.length

/-- One call of `batch_transfer_sync_read`. -/
structure Batch where
  groupId : Int
  triples : List Triple

/-- `native_batches`: one for each group when several are asked for. -/
def nativeBatches (requestedGroups : List Int) (segments : List SplitTransferSegment) :
    List (Int × List SplitTransferSegment) :=
  match sortedSet requestedGroups with
  | [group] => [(group, segments)]
  | groups => groups.map fun group => (group, segments.filter fun s => s.groupId = group)

structure Prepared where
  batches : List Batch
  regions : List (Int × Int)

structure Receiver where
  tpRank : Int
  dpRank : Int
  registry : BufferTable

/-- `if not compact: ...`. -/
def unlessCompact (check : Except PyExc Unit) : Except PyExc Unit :=
  if plan.compactSource.isSome then .ok () else check

/-- Every check of `_transfer_split_destinations`, up to the batches. -/
def prepareSplit (receiver : Receiver) (peer : Except PyExc RemotePeer)
    (plan : SplitTransferPlan) : Except PyExc Prepared := do
  ensure (plan.destinationRank = (receiver.tpRank, receiver.dpRank))
    (.runtimeError "Split destination TP/DP rank mismatch")
  ensure (plan.requestedGroups ≠ [] ∧ ∀ g ∈ plan.requestedGroups, g = 0 ∨ g = 1)
    (.runtimeError "Split destination requested groups are invalid")
  checkCompactPlan receiver.registry plan
  checkLatentPages plan
  let peer ← peer
  checkPeer peer plan
  checkCompactSources peer.table plan
  let expanded ← expandIfCompact plan
  let _ ← expanded.segments.mapM (checkSegment plan.requestedGroups)
  unlessCompact plan (checkPlainDestinations receiver.registry expanded.segments)
  checkTotals plan.requestedGroups expanded
  unlessCompact plan (expanded.segments.mapM (checkPlainSource peer.table) >>= fun _ => .ok ())
  let batches := nativeBatches plan.requestedGroups expanded.segments
  ensure (∀ b ∈ batches, b.2 ≠ []) (.runtimeError "Every native split batch requires segments")
  let regions := registrationRegions plan
  return {
    batches := batches.map fun b => ⟨b.1, b.2.map (·.triple peer.table)⟩
    regions := if regions = [] then
        expanded.segments.map fun s => (s.destinationAddress, s.length)
      else regions }

structure Transferred where
  submitted : List Batch
  result : Except PyExc Unit

/-- The loop over the batches; it stops at the first failure. -/
def submitBatches (read : Batch → Int) : List Batch → Transferred
  | [] => ⟨[], .ok ()⟩
  | batch :: batches =>
    if read batch < 0 then
      ⟨[batch], .error (.runtimeError ("Mooncake split transfer failed for group "
        ++ toString batch.groupId ++ ", ret: " ++ toString (read batch)))⟩
    else
      let rest := submitBatches read batches
      ⟨batch :: rest.submitted, rest.result⟩

def transferSplitDestinations (receiver : Receiver) (peer : Except PyExc RemotePeer)
    (register : List (Int × Int) → Bool → Except PyExc Unit) (read : Batch → Int)
    (plan : SplitTransferPlan) : Transferred :=
  match prepareSplit receiver peer plan with
  | .error e => ⟨[], .error e⟩
  | .ok prepared =>
    match register prepared.regions plan.latentSource.isSome with
    | .error e => ⟨[], .error e⟩
    | .ok () => submitBatches read prepared.batches

end VllmDual.Split
