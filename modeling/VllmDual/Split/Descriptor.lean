/-
  Subject:   SOURCE DESCRIPTORS AND PLANS FROM THE WIRE
             (`ascend/kv_p2p/live_split_protocol.py`, second part).

  Descriptors are read one by one and then checked together.
-/
import VllmDual.Split.Protocol

namespace VllmDual.Split

open Outcome

/-! ## 1. Content diagnostics -/

def isHash (s : String) : Bool :=
  s.length == 32 && s.toList.all fun c => c ∈ "0123456789abcdef".toList

/-- `sorted(set(xs))`. -/
def sortedSet (xs : List Int) : List Int := xs.dedup.insertionSort (· ≤ ·)

variable (raw : PyVal)

/-- The local function `hashes`: a dict of texts, later equal texts replacing earlier ones. -/
def diagnosticHashes (name : String) (limit : Nat) : Except PyExc (List (String × String)) := do
  match ← raw.get name (.dict []) with
  | .dict es =>
    ensure (es.length ≤ limit) (.valueError ("invalid diagnostic " ++ name))
    let result := es.foldl (fun acc e =>
      (acc.filter fun p => p.1 ≠ e.1.text) ++ [(e.1.text, e.2.text)]) []
    ensure (result.all fun p => isHash p.2) (.valueError ("invalid diagnostic " ++ name ++ " hash"))
    return result
  | _ => .error (.valueError ("invalid diagnostic " ++ name))

def textDict (ps : List (String × String)) : PyVal :=
  .dict (ps.map fun p => (.str p.1, .str p.2))

variable (tokenCount : Int) (layerIds : List Int)

/-- The `try` block of `sanitize_content_diagnostics`. -/
def contentDiagnostics : Except PyExc PyVal := do
  match raw with
  | .dict _ =>
    let schema ← wireInt (← raw.get "schema") "diagnostic.schema"
    ensure (schema = 1) (.valueError "unknown content diagnostic schema")
    let algorithm ← raw.get "algorithm"
    ensure (algorithm.isStr "blake2b-128") (.valueError "unknown content diagnostic algorithm")
    let layers ← wireInts (← raw.get "sample_layer_ids" (.tuple [])) "diagnostic.layer_id"
    let tokens ← wireInts (← raw.get "sample_logical_tokens" (.tuple []))
      "diagnostic.logical_token"
    ensure (layers ≠ [] ∧ layers.length ≤ 3 ∧ layers = sortedSet layers ∧
      ∀ v ∈ layers, v ∈ layerIds) (.valueError "invalid diagnostic layer samples")
    ensure (tokens ≠ [] ∧ tokens.length ≤ 24 ∧ tokens = sortedSet tokens ∧
      ∀ v ∈ tokens, 0 ≤ v ∧ v < tokenCount) (.valueError "invalid diagnostic token samples")
    let rowHashes ← diagnosticHashes raw "row_hashes" (layers.length * tokens.length)
    let layerHashes ← diagnosticHashes raw "layer_hashes" layers.length
    let rowKeys := layers.flatMap fun l => tokens.map fun t => toString l ++ ":" ++ toString t
    ensure ((rowHashes.map (·.1)).toFinset = rowKeys.toFinset)
      (.valueError "diagnostic row hashes do not match samples")
    ensure ((layerHashes.map (·.1)).toFinset = (layers.map toString).toFinset)
      (.valueError "diagnostic layer hashes do not match samples")
    let combinedHash := (← raw.get "combined_hash" (.str "")).text
    ensure (isHash combinedHash) (.valueError "invalid diagnostic combined hash")
    let readback ← raw.get "readback_may_synchronize" (.bool true)
    return .dict [ (.str "schema", .int 1), (.str "algorithm", .str "blake2b-128"),
      (.str "sample_layer_ids", .list (layers.map .int)),
      (.str "sample_logical_tokens", .list (tokens.map .int)),
      (.str "row_hashes", textDict rowHashes),
      (.str "layer_hashes", textDict layerHashes),
      (.str "combined_hash", .str combinedHash),
      (.str "readback_may_synchronize", .bool readback.truthy)]
  | _ => .error (.valueError "content diagnostics must be a mapping")

/-- The exceptions the `except` clause names. -/
def PyExc.Caught : PyExc → Prop
  | .keyError _ | .typeError | .valueError _ => True
  | _ => False

instance : DecidablePred PyExc.Caught := fun e => by
  cases e <;> unfold PyExc.Caught <;> infer_instance

def sanitizeContentDiagnostics : Except PyExc (Option PyVal) :=
  if raw.isNone then
    .ok none
  else
    match contentDiagnostics raw tokenCount layerIds with
    | .ok v => .ok (some v)
    | .error e => if e.Caught then .ok none else .error e

theorem raises_wireInt (v : PyVal) (f : String) : Raises PyExc.Caught (wireInt v f) := by
  intro e he
  unfold wireInt at he
  split at he
  · split at he
    · cases he
    · cases he
      trivial
  · cases he
    trivial

theorem raises_iter (v : PyVal) : Raises PyExc.Caught v.iter := by
  intro e he
  cases v <;> cases he
  all_goals trivial

theorem raises_wireInts (v : PyVal) (f : String) : Raises PyExc.Caught (wireInts v f) :=
  raises_bind (raises_iter v) fun xs _ => raises_mapM xs fun x _ => raises_wireInt x f

theorem raises_get_dict (es : Entries) (key : String) (de : PyVal) :
    Raises PyExc.Caught ((PyVal.dict es).get key de) := raises_ok _

theorem raises_diagnosticHashes (es : Entries) (n : String) (l : Nat) :
    Raises PyExc.Caught (diagnosticHashes (.dict es) n l) := by
  refine raises_bind (raises_get_dict es _ _) fun v _ => ?_
  split
  · exact raises_bind (raises_ensure trivial) fun _ _ =>
      raises_bind (raises_ensure trivial) fun _ _ => raises_ok _
  · intro e he
    cases he
    trivial

theorem raises_contentDiagnostics :
    Raises PyExc.Caught (contentDiagnostics raw tokenCount layerIds) := by
  unfold contentDiagnostics
  split
  · rename_i es
    refine raises_bind (raises_get_dict es _ _) fun _ _ => ?_
    refine raises_bind (raises_wireInt _ _) fun _ _ => ?_
    refine raises_bind (raises_ensure trivial) fun _ _ => ?_
    refine raises_bind (raises_get_dict es _ _) fun _ _ => ?_
    refine raises_bind (raises_ensure trivial) fun _ _ => ?_
    refine raises_bind (raises_get_dict es _ _) fun _ _ => ?_
    refine raises_bind (raises_wireInts _ _) fun _ _ => ?_
    refine raises_bind (raises_get_dict es _ _) fun _ _ => ?_
    refine raises_bind (raises_wireInts _ _) fun _ _ => ?_
    refine raises_bind (raises_ensure trivial) fun _ _ => ?_
    refine raises_bind (raises_ensure trivial) fun _ _ => ?_
    refine raises_bind (raises_diagnosticHashes es _ _) fun _ _ => ?_
    refine raises_bind (raises_diagnosticHashes es _ _) fun _ _ => ?_
    refine raises_bind (raises_ensure trivial) fun _ _ => ?_
    refine raises_bind (raises_ensure trivial) fun _ _ => ?_
    refine raises_bind (raises_get_dict es _ _) fun _ _ => ?_
    refine raises_bind (raises_ensure trivial) fun _ _ => ?_
    exact raises_bind (raises_get_dict es _ _) fun _ _ => raises_ok _
  · intro e he
    cases he
    trivial

theorem sanitizeContentDiagnostics_ok :
    ∃ r, sanitizeContentDiagnostics raw tokenCount layerIds = .ok r := by
  unfold sanitizeContentDiagnostics
  split
  · exact ⟨_, rfl⟩
  · have hc := raises_contentDiagnostics raw tokenCount layerIds
    split
    · exact ⟨_, rfl⟩
    · rename_i e he
      exact ⟨none, if_pos (hc e he)⟩

/-! ## 2. Source descriptors -/

/-- `_source_group_byte_totals`: the latent extension is promoted when its key is there. -/
def sourceGroupByteTotals (latentLayout : Option SplitLatentLayout) : Except PyExc (List Int) := do
  let baseTotals ← wireInts (← raw.item "group_byte_totals") "source.group_byte_total"
  match raw, latentLayout with
  | .dict es, some _ =>
    if hasKey es "latent_group_byte_total" then do
      ensure (baseTotals.length = 2 ∧ baseTotals.head? = some 0)
        (.valueError "Latent extension requires group-1 base totals")
      let latentTotal ← wireItem raw "latent_group_byte_total" "source.latent_group_byte_total"
      return [latentTotal, baseTotals.getD 1 0]
    else
      return baseTotals
  | _, _ => return baseTotals

/-- One entry of `raw["segments"]`. -/
def parseSourceSegment (segment : PyVal) : Except PyExc SplitSourceSegment := do
  let groupId ← wireItem segment "group_id" "source.group_id"
  let sourceBufferIndex ← wireItem segment "source_buffer_index" "source.buffer_index"
  let sourceBufferBase ← wireItem segment "source_buffer_base" "source.buffer_base"
  let sourceOffset ← wireItem segment "source_offset" "source.offset"
  let length ← wireItem segment "length" "source.length"
  return ⟨groupId, sourceBufferIndex, sourceBufferBase, sourceOffset, length⟩

/-- The body of the loop over `raw_descriptors`. -/
def parseOneDescriptor : Except PyExc SplitSourceDescriptor := do
  let latentLayout ← parseLatentLayout (← raw.get "latent_layout")
  let compactLayout ← parseCompactLayout (← raw.get "compact_layout")
  let segments ← (← (← raw.get "segments" (.tuple [])).iter).mapM parseSourceSegment
  let groupByteTotals ← sourceGroupByteTotals raw latentLayout
  let tpRank ← wireItem raw "tp_rank" "source.tp_rank"
  let dpRank ← wireItem raw "dp_rank" "source.dp_rank"
  let diagnostics ← sanitizeContentDiagnostics (← raw.get "content_diagnostics")
    ((compactLayout.map (·.tokenCount)).getD 0)
    ((compactLayout.map fun c => c.layers.map (·.layerId)).getD [])
  return ⟨segments, groupByteTotals, tpRank, dpRank, compactLayout, latentLayout, diagnostics⟩

/-- What a descriptor read from the dict `es` contains. -/
structure ReadFrom (es : Entries) (d : SplitSourceDescriptor) : Prop where
  latent : parseLatentLayout ((lookup es "latent_layout").getD .none) = .ok d.latentLayout
  compact : parseCompactLayout ((lookup es "compact_layout").getD .none) = .ok d.compactLayout
  segments : ∃ xs, ((lookup es "segments").getD (.tuple [])).iter = .ok xs ∧
    List.Forall₂ (fun x s => parseSourceSegment x = .ok s) xs d.segments
  totals : sourceGroupByteTotals (.dict es) d.latentLayout = .ok d.groupByteTotals
  tpRank : wireItem (.dict es) "tp_rank" "source.tp_rank" = .ok d.tpRank
  dpRank : wireItem (.dict es) "dp_rank" "source.dp_rank" = .ok d.dpRank

variable {es : Entries} {d : SplitSourceDescriptor} {i : List (Int × Int)} {u : Unit}
  {ds : List SplitSourceDescriptor} {v : PyVal}

theorem readFrom_of_parseOneDescriptor (h : parseOneDescriptor (.dict es) = .ok d) :
    ReadFrom es d := by
  simp only [parseOneDescriptor, get_dict, ok_bind, bind_eq_ok, pure_eq_ok, mapM_eq_ok] at h
  obtain ⟨l, hl, c, hc, xs, hxs, ss, hs, ts, ht, tp, htp, dp, hdp, _, -, rfl⟩ := h
  exact ⟨hl, hc, ⟨xs, hxs, hs⟩, ht, htp, hdp⟩

theorem ReadFrom.parseOneDescriptor (h : ReadFrom es d) : ∃ di, Split.parseOneDescriptor (.dict es)
      = .ok { d with contentDiagnostics := di } := by
  obtain ⟨xs, hxs, hs⟩ := h.segments
  obtain ⟨di, hd⟩ := sanitizeContentDiagnostics_ok
    ((lookup es "content_diagnostics").getD .none) ((d.compactLayout.map (·.tokenCount)).getD 0)
    ((d.compactLayout.map fun c => c.layers.map (·.layerId)).getD [])
  refine ⟨di, ?_⟩
  simp only [Split.parseOneDescriptor, get_dict, ok_bind]
  rw [h.latent, ok_bind, h.compact, ok_bind, hxs, ok_bind, mapM_eq_ok.mpr hs, ok_bind,
    h.totals, ok_bind, h.tpRank, ok_bind, h.dpRank, ok_bind, hd, ok_bind]
  rfl

def SplitSourceSegment.Valid (s : SplitSourceSegment) : Prop :=
  (s.groupId = 0 ∨ s.groupId = 1) ∧ 0 ≤ s.sourceBufferIndex ∧ 0 < s.sourceBufferBase ∧
    0 ≤ s.sourceOffset ∧ 0 < s.length

instance (s : SplitSourceSegment) : Decidable s.Valid := inferInstanceAs (Decidable (_ ∧ _))

def segmentBytes (group : Int) (segments : List SplitSourceSegment) : Int :=
  ((segments.filter fun s => s.groupId = group).map (·.length)).sum

def SplitCompactLayout.bytes (p : SplitCompactLayout) : Int := p.tokenCount * tokenWidth p.layers

def SplitLatentLayout.bytes (p : SplitLatentLayout) : Int := p.tokenCount * tokenWidth p.layers

/-- The bytes of each group that a descriptor's segments and layouts describe. -/
def SplitSourceDescriptor.describedTotals (d : SplitSourceDescriptor) : List Int :=
  [segmentBytes 0 d.segments + ((d.latentLayout.map (·.bytes)).getD 0),
    segmentBytes 1 d.segments + ((d.compactLayout.map (·.bytes)).getD 0)]

/-- The body of the second loop of `parse_source_descriptor`. -/
def checkDescriptor (identities : List (Int × Int)) (d : SplitSourceDescriptor) :
    Except PyExc Unit := do
  ensure (d.groupByteTotals.length = 2) (.valueError "Live split source totals require two groups")
  ensure ((d.tpRank, d.dpRank) ∉ identities) (.valueError "Duplicate live split source rank")
  ensure (∀ s ∈ d.segments, s.Valid) (.valueError "Invalid live split source extent")
  ensure (∀ c ∈ d.compactLayout, ∀ layer ∈ c.layers, 0 ≤ layer.bufferIndex)
    (.valueError "Compact split source buffer is unresolved")
  ensure (∀ l ∈ d.latentLayout, ∀ layer ∈ l.layers, 0 ≤ layer.bufferIndex)
    (.valueError "Latent split source buffer is unresolved")
  ensure (d.describedTotals = d.groupByteTotals)
    (.valueError "Live split source byte totals mismatch")

/-- The second loop of `parse_source_descriptor`. -/
def checkDescriptors : List (Int × Int) → List SplitSourceDescriptor → Except PyExc Unit
  | _, [] => .ok ()
  | identities, d :: ds => do
    checkDescriptor identities d
    checkDescriptors ((d.tpRank, d.dpRank) :: identities) ds

/-- `parse_source_descriptor` of a wire value. -/
def parseSourceDescriptor (descriptor : PyVal) :
    Except PyExc (Option (List SplitSourceDescriptor)) :=
  match descriptor with
  | .none => .ok none
  | .dict _ => do
    let raws ← (← descriptor.get "descriptors" (.tuple [descriptor])).iter
    let descriptors ← raws.mapM parseOneDescriptor
    checkDescriptors [] descriptors
    return some descriptors
  | _ => .error (.valueError "Live split source descriptor must be a mapping")

structure DescriptorValid (d : SplitSourceDescriptor) : Prop where
  twoGroups : d.groupByteTotals.length = 2
  segments : ∀ s ∈ d.segments, s.Valid
  compact : ∀ c ∈ d.compactLayout, ∀ layer ∈ c.layers, 0 ≤ layer.bufferIndex
  latent : ∀ l ∈ d.latentLayout, ∀ layer ∈ l.layers, 0 ≤ layer.bufferIndex
  totals : d.describedTotals = d.groupByteTotals

theorem checkDescriptor_eq_ok :
    checkDescriptor i d = .ok u ↔ (d.tpRank, d.dpRank) ∉ i ∧ DescriptorValid d := by
  unfold checkDescriptor
  simp only [ensure_bind_eq_ok, ensure_eq_ok]
  constructor
  · intro ⟨h2, hid, hs, hc, hl, ht⟩
    exact ⟨hid, h2, hs, hc, hl, ht⟩
  · intro ⟨hid, h⟩
    exact ⟨h.twoGroups, hid, h.segments, h.compact, h.latent, h.totals⟩

/-- **The second loop succeeds** exactly when every descriptor is valid and no rank occurs
    twice. -/
theorem checkDescriptors_eq_ok : checkDescriptors i ds = .ok u ↔
      (∀ d ∈ ds, DescriptorValid d) ∧ (ds.map fun d => (d.tpRank, d.dpRank)).Nodup ∧
        ∀ d ∈ ds, (d.tpRank, d.dpRank) ∉ i := by
  induction ds generalizing i with
  | nil => simp [checkDescriptors]
  | cons d ds ih =>
    rw [checkDescriptors, bind_eq_ok]
    simp only [checkDescriptor_eq_ok, ih, List.mem_cons, List.map_cons, List.nodup_cons,
      List.mem_map, forall_eq_or_imp, not_or]
    constructor
    · intro ⟨_, ⟨hid, hd⟩, hds, hnd, hi⟩
      refine ⟨⟨hd, hds⟩, ⟨?_, hnd⟩, hid, fun e he => (hi e he).2⟩
      intro ⟨e, he, heq⟩
      exact (hi e he).1 heq
    · intro ⟨⟨hd, hds⟩, ⟨hne, hnd⟩, hid, hi⟩
      exact ⟨(), ⟨hid, hd⟩, hds, hnd, fun e he => ⟨fun heq => hne ⟨e, he, heq⟩, hi e he⟩⟩

structure SourceValid (d : SplitSourceDescriptor) : Prop extends DescriptorValid d where
  compactValid : ∀ c ∈ d.compactLayout, CompactValid c
  latentValid : ∀ l ∈ d.latentLayout, LatentValid l

theorem parseSourceDescriptor_valid (h : parseSourceDescriptor v = .ok (some ds)) :
    ∀ d ∈ ds, SourceValid d := by
  unfold parseSourceDescriptor at h
  split at h
  · cases h
  · simp only [bind_eq_ok, pure_eq_ok, Option.some.injEq] at h
    obtain ⟨_, -, rs, -, _, hp, _, hch, rfl⟩ := h
    intro d hd
    obtain ⟨raw, -, hr⟩ := exists_of_mem_mapM hp hd
    simp only [parseOneDescriptor, bind_eq_ok, pure_eq_ok] at hr
    obtain ⟨_, -, latent, hla, _, -, co, hco, _, -, _, -, _, -, _, -, _, -, _, -, _, -, _, -,
      rfl⟩ := hr
    refine ⟨(checkDescriptors_eq_ok.mp hch).1 _ hd, fun c hc => ?_, fun l hl => ?_⟩
    · obtain rfl : co = some c := hc
      exact parseCompactLayout_valid hco
    · obtain rfl : latent = some l := hl
      exact parseLatentLayout_valid hla
  · cases h

/-! ## 3. Plans -/

/-- An optional integer field: `None` when absent or null. -/
def optionalWireInt (v : PyVal) (key field : String) : Except PyExc (Option Int) := do
  let x ← v.get key
  if x.isNone then
    return none
  else
    return some (← wireItem v key field)

def parsePlanSegment (segment : PyVal) : Except PyExc SplitTransferSegment := do
  let groupId ← wireItem segment "group_id" "plan.group_id"
  let sourceBufferIndex ← wireItem segment "source_buffer_index" "plan.source_buffer_index"
  let sourceOffset ← wireItem segment "source_offset" "plan.source_offset"
  let destinationAddress ← wireItem segment "destination_address" "plan.destination_address"
  let length ← wireItem segment "length" "plan.length"
  let destinationKind := (← segment.item "destination_kind").text
  let sourceBufferBase ← optionalWireInt segment "source_buffer_base" "plan.source_buffer_base"
  return ⟨groupId, sourceBufferIndex, sourceOffset, destinationAddress, length, destinationKind,
    sourceBufferBase⟩

def parsePlanPage (page : PyVal) : Except PyExc SplitLatentDestinationPage := do
  let logicalTokenStart ← wireItem page "logical_token_start" "plan.latent_page_logical_start"
  let destinationAddress ← wireItem page "destination_address" "plan.latent_page_address"
  let length ← wireItem page "length" "plan.latent_page_length"
  return ⟨logicalTokenStart, destinationAddress, length⟩

/-- The diagnostics of a plan, against the tokens and layers of its raw compact layout. -/
def planDiagnostics (plan : PyVal) : Except PyExc (Option PyVal) := do
  let raw ← plan.get "content_diagnostics"
  match ← plan.get "compact_layout" with
  | .none => sanitizeContentDiagnostics raw 0 []
  | layout => do
    let tokenCount ← wireItem layout "token_count" "plan.compact.token_count"
    let layerIds ← (← (← layout.get "layers" (.tuple [])).iter).mapM fun layer =>
      wireItem layer "layer_id" "plan.compact.layer_id"
    sanitizeContentDiagnostics raw tokenCount layerIds

def parseSplitPlan (plan : PyVal) : Except PyExc (Option SplitTransferPlan) :=
  match plan with
  | .none => .ok none
  | .dict _ => do
    let segments ← (← (← plan.get "segments" (.tuple [])).iter).mapM parsePlanSegment
    let groupByteTotals ← wireInts (← plan.item "group_byte_totals") "plan.group_byte_total"
    let tpRank ← wireItem plan "tp_rank" "plan.tp_rank"
    let dpRank ← wireItem plan "dp_rank" "plan.dp_rank"
    let requestedGroups ← wireInts (← plan.get "requested_groups" (.tuple [.int 0, .int 1]))
      "plan.requested_group"
    let compactSource ← parseCompactLayout (← plan.get "compact_source")
    let compactDestination ← parseCompactLayout (← plan.get "compact_layout")
    let latentSource ← parseLatentLayout (← plan.get "latent_source")
    let latentDestinationPages ←
      (← (← plan.get "latent_destination_pages" (.tuple [])).iter).mapM parsePlanPage
    let sourceTpRank ← optionalWireInt plan "source_tp_rank" "plan.source_tp_rank"
    let sourceDpRank ← optionalWireInt plan "source_dp_rank" "plan.source_dp_rank"
    let diagnostics ← planDiagnostics plan
    ensure (groupByteTotals.length = 2)
      (.valueError "Live split byte totals require exactly two groups")
    return some ⟨segments, groupByteTotals, tpRank, dpRank, requestedGroups, compactSource,
      compactDestination, latentSource, latentDestinationPages, sourceTpRank, sourceDpRank,
      diagnostics⟩
  | _ => .error (.valueError "Live split destination plan must be a mapping")

structure PlanLayoutsValid (plan : SplitTransferPlan) : Prop where
  source : ∀ c ∈ plan.compactSource, CompactValid c
  destination : ∀ c ∈ plan.compactDestination, CompactValid c
  latent : ∀ l ∈ plan.latentSource, LatentValid l

theorem parseSplitPlan_valid {pl : SplitTransferPlan} (h : parseSplitPlan v = .ok (some pl)) :
    PlanLayoutsValid pl := by
  unfold parseSplitPlan at h
  split at h
  · cases h
  · simp only [bind_eq_ok, pure_eq_ok, Option.some.injEq] at h
    obtain ⟨_, -, _, -, _, -, _, -, _, -, _, -, _, -, _, -, _, -, _, -, src, hs, _, -, dst, hd,
      _, -, lat, hlat, _, -, _, -, _, -, _, -, _, -, _, -, _, -, rfl⟩ := h
    refine ⟨fun c hc => ?_, fun c hc => ?_, fun l hl => ?_⟩
    · obtain rfl : src = some c := hc
      exact parseCompactLayout_valid hs
    · obtain rfl : dst = some c := hc
      exact parseCompactLayout_valid hd
    · obtain rfl : lat = some l := hl
      exact parseLatentLayout_valid hlat
  · cases h

end VllmDual.Split
