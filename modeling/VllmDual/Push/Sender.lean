/-
  Subject:   ONE PREFILL RANK IN ONE STEP (`MooncakeLayerwiseConnectorWorker._get_kv_split_metadata`
             and `start_load_kv`).

  In every step of a prefill each rank is given the same metadata of the request and works out what
  it has to send.
-/
import VllmDual.Push.Mappings

namespace VllmDual.Push

open Outcome RoundRobin List Nat
open VllmDual.Pull (Layout KvHeads Rank numGroups)

/-! ## 1. The functions -/

structure ReqMeta where
  localBlockIds : List Nat
  remoteBlockIds : List Nat
  remotePort : Nat
  remoteTpSize : Nat
  remotePcpSize : Nat
  remoteDcpSize : Nat
  chunkFinish : Bool
  promptLen : Nat
  remoteCacheTokens : Nat
  localComputedTokens : Nat
  localTransedTokens : Nat
deriving DecidableEq

def ReqMeta.decode (req : ReqMeta) : Layout :=
  ⟨req.remoteTpSize, req.remotePcpSize, req.remoteDcpSize⟩

structure Worker where
  heads : KvHeads
  layout : Layout
  rank : Rank
  pdHeadRatio : Nat
  blockSize : Nat

namespace Worker

variable (w : Worker) (req : ReqMeta)

/-- `to_trans_idx`: the blocks that may have been sent after the step. -/
def toTransIdx : Nat :=
  if req.chunkFinish then req.localComputedTokens ⌈/⌉ w.blockSize
  else req.localComputedTokens / w.blockSize

/-- `transed_idx`: the blocks that have been sent before. -/
def transedIdx : Nat := max req.remoteCacheTokens req.localTransedTokens / w.blockSize

/-- `prompt_block_size`. -/
def promptBlocks : Nat := req.promptLen ⌈/⌉ w.blockSize

/-- `chunk_finish` after the call: also set when the rank has no more blocks to come. -/
def chunkFinish : Bool :=
  req.chunkFinish ||
    decide (share w.layout.cpSize (w.promptBlocks req) (w.rank.cpRank w.layout)
      = share w.layout.cpSize (w.toTransIdx req) (w.rank.cpRank w.layout))

/-- `p_head_group_rank`. -/
def headGroupRank : Nat := (w.rank.tpRank - w.rank.dcpRank w.layout) / w.layout.dcpSize

variable (reqIdx : Nat)

def selectedPCpGroups : List (List Nat) :=
  let pCpGroup := getCpGroup w.layout.tpSize w.heads.count w.layout.dcpSize
  let dCpGroup := getCpGroup req.remoteTpSize w.heads.count req.remoteDcpSize
  let cpRatio := pCpGroup.length / dCpGroup.length
  if cpRatio = 0 then pCpGroup
  else (pCpGroup.drop (reqIdx % cpRatio * dCpGroup.length)).take dCpGroup.length

/-- The copy of the rank and the decode copy that it serves, if it sends in this step. -/
def selectCpGroups : Except PushError (Option (List Nat × List Nat)) := do
  let dCpGroup := getCpGroup req.remoteTpSize w.heads.count req.remoteDcpSize
  ensure (dCpGroup.length ≠ 0) .zeroDivision
  ensure ((w.selectedPCpGroups req reqIdx).length = dCpGroup.length)
    (.assertion "len(selected_p_cp_groups) == len(selected_d_cp_groups)")
  return ((w.selectedPCpGroups req reqIdx).zip dCpGroup).foldl
    (fun selected e => if w.headGroupRank ∈ e.1 then some e else selected) none

def getKvSplitMetadata : Except PushError TransferMappings := do
  match ← w.selectCpGroups req reqIdx with
  | none => return []
  | some (selectedP, selectedD) => do
    ensure (contextParallelParametersCheck w.heads w.layout req.decode)
      (.assertion "context_parallel_parameters_check")
    let p ← getHeadGroupMapping w.heads.count w.layout.tpSize (headGroupSize w.layout) selectedP
    let d ← getHeadGroupMapping w.heads.count req.remoteTpSize (headGroupSize req.decode) selectedD
    match (pdHeadMapping p d).lookup w.headGroupRank with
    | none => .error .keyError
    | some dHeadGroupRanks =>
      getTransferMappings
        (pRankBlockMapping w.layout (w.toTransIdx req) selectedP w.rank.pcpRank w.headGroupRank
          (w.rank.dcpRank w.layout))
        (dBlockRankMapping req.decode req.remotePort (w.toTransIdx req) selectedD) dHeadGroupRanks
        (dTransCountMapping w.layout req.decode req.remotePort (w.promptBlocks req)
          (req.remoteCacheTokens ⌈/⌉ w.blockSize) w.pdHeadRatio)
        req.localBlockIds req.remoteBlockIds (w.transedIdx req) (w.toTransIdx req)

end Worker

/-- What a rank sends in a step: blocks, and a `DONE` signal if `chunkFinish`. -/
structure SendTask where
  port : Nat
  transfer : Transfer
  chunkFinish : Bool
deriving DecidableEq

/-- `start_load_kv` on the prefill side, for one request. -/
def startLoadKv (w : Worker) (req : ReqMeta) (reqIdx : Nat) :
    Except PushError (Option SendTask) := do
  let transferMappings ← w.getKvSplitMetadata req reqIdx
  ensure (transferMappings.length ≤ 1) (.assertion "Not support add mutil transfer task")
  return transferMappings.head?.map fun e => ⟨e.1, e.2, w.chunkFinish req⟩

/-! ## 2. In closed form -/

theorem foldl_select {k u : Nat} {a b : Nat → List Nat} {n : Nat} (h : ∀ i < n, (k ∈ a i ↔ i = u)) :
    ((range n).map fun i => (a i, b i)).foldl
      (fun s e => if k ∈ e.1 then some e else s) none
      = if u < n then some (a u, b u) else none := by
  induction n with
  | zero => simp
  | succ n ih =>
    rw [range_succ, map_append, foldl_append, ih fun i hi => h i (by omega)]
    simp only [map_cons, map_nil, foldl_cons, foldl_nil, h n (by omega)]
    by_cases hn : n = u
    · subst hn
      rw [if_pos rfl, if_pos (by omega)]
    · rw [if_neg hn]
      exact if_congr (by omega) rfl rfl

def firstCopy (m : KvHeads) (prefill decode : Layout) (reqIdx : Nat) : Nat :=
  reqIdx % (prefill.repeats m / decode.repeats m) * decode.repeats m

section

variable {m : KvHeads} {pre dec : Layout}

theorem Connected.firstCopy_le (h : Connected m pre dec) (ri : Nat) :
    firstCopy m pre dec ri + dec.repeats m ≤ pre.repeats m := by
  have hp : 0 < pre.repeats m / dec.repeats m := Nat.div_pos h.copies h.decodeEven.repeats_pos
  have hm : (ri % (pre.repeats m / dec.repeats m) + 1) * dec.repeats m
      ≤ pre.repeats m / dec.repeats m * dec.repeats m :=
    Nat.mul_le_mul_right _ (mod_lt _ hp)
  rw [add_mul, one_mul] at hm
  exact hm.trans (div_mul_le_self _ _)

end

section

variable {w : Worker} {req : ReqMeta}

theorem headGroupRank_eq (h : w.layout.Even w.heads) :
    w.headGroupRank = w.rank.group w.layout w.heads * w.layout.repeats w.heads
      + w.rank.replica w.layout w.heads := by
  rw [Worker.headGroupRank, Rank.dcpRank, ← div_eq_sub_mod_div, Rank.group, Rank.replica,
    ← h.repeats_mul_dcp,
    mul_comm (w.layout.repeats w.heads), mod_mul_right_div_self, ← Nat.div_div_eq_div_mul,
      div_add_mod']

theorem selectCpGroups_eq (h : Connected w.heads w.layout req.decode) (hr : w.rank.In w.layout)
    (ri : Nat) : ∃ mp md : Nat → List Nat,
      w.selectCpGroups req ri
        = .ok (if firstCopy w.heads w.layout req.decode ri ≤ w.rank.replica w.layout w.heads ∧
            w.rank.replica w.layout w.heads < firstCopy w.heads w.layout req.decode ri
              + req.decode.repeats w.heads then
          some (mp (w.rank.replica w.layout w.heads),
            md (w.rank.replica w.layout w.heads
              - firstCopy w.heads w.layout req.decode ri)) else none) ∧
      w.headGroupRank ∈ mp (w.rank.replica w.layout w.heads) ∧
      ∀ u < req.decode.repeats w.heads, ∀ k, k ∈ md u ↔
        ∃ d < numGroups w.heads req.decode.tpSize, k = d * req.decode.repeats w.heads + u := by
  obtain ⟨mp, hP, hm⟩ := getCpGroup_eq h.prefillEven
  obtain ⟨md, hD, hmd⟩ := getCpGroup_eq h.decodeEven
  obtain ⟨hg, ht, -, -⟩ := h.prefillEven.eq_rankAt hr
  have hle := h.firstCopy_le ri
  have hrD := h.decodeEven.repeats_pos
  have hp : 0 < w.layout.repeats w.heads / req.decode.repeats w.heads := Nat.div_pos h.copies hrD
  have hra := headGroupRank_eq h.prefillEven
  -- the rank's group of ranks is in its own copy only
  have hco : ∀ t < w.layout.repeats w.heads,
      (w.headGroupRank ∈ mp t ↔ t = w.rank.replica w.layout w.heads) := by
    intro t htlt
    rw [hm t htlt, hra]
    constructor
    · rintro ⟨g, -, heq⟩
      have hmod := congrArg (· % w.layout.repeats w.heads) heq
      simp only [add_comm (_ * _), add_mul_mod ht, add_mul_mod htlt] at hmod
      exact hmod.symm
    · rintro rfl
      exact ⟨_, hg, rfl⟩
  have hl : (getCpGroup req.remoteTpSize w.heads.count req.remoteDcpSize).length
      = req.decode.repeats w.heads := by
    rw [show getCpGroup req.remoteTpSize w.heads.count req.remoteDcpSize = _ from hD, length_map,
      length_range]
  have hs : w.selectedPCpGroups req ri = (range (req.decode.repeats w.heads)).map fun u =>
      mp (firstCopy w.heads w.layout req.decode ri + u) := by
    unfold Worker.selectedPCpGroups
    simp only [hP, hl, length_map, length_range]
    rw [if_neg hp.ne', ← firstCopy]
    refine ext_getElem ?_ fun u _ _ => by simp
    simp only [length_take, length_drop, length_map, length_range]
    omega
  refine ⟨mp, md, ?_, (hco _ ht).mpr rfl, hmd⟩
  have hz : (w.selectedPCpGroups req ri).zip (getCpGroup req.remoteTpSize w.heads.count
      req.remoteDcpSize) = (range (req.decode.repeats w.heads)).map fun u =>
        (mp (firstCopy w.heads w.layout req.decode ri + u), md u) := by
    rw [hs, show getCpGroup req.remoteTpSize w.heads.count req.remoteDcpSize = _ from hD, zip_map']
  have hlen : (w.selectedPCpGroups req ri).length
      = (getCpGroup req.remoteTpSize w.heads.count req.remoteDcpSize).length := by
    rw [hl, hs, length_map, length_range]
  have hne : (getCpGroup req.remoteTpSize w.heads.count req.remoteDcpSize).length ≠ 0 := by
    rw [hl]
    exact hrD.ne'
  unfold Worker.selectCpGroups
  simp only [ensure_pos hne, ensure_pos hlen, ok_bind, hz]
  refine congrArg Except.ok ?_
  by_cases hin : firstCopy w.heads w.layout req.decode ri ≤ w.rank.replica w.layout w.heads
  · rw [foldl_select (u := w.rank.replica w.layout w.heads - firstCopy w.heads w.layout
      req.decode ri) fun u hu => (hco _ (by omega)).trans (by omega), Nat.add_sub_cancel' hin]
    exact if_congr (by omega) rfl rfl
  · -- the rank's copy comes before the selected ones
    rw [if_neg fun hc => hin hc.1,
      foldl_select (u := req.decode.repeats w.heads) fun u hu =>
        (hco _ (by omega)).trans (by omega),
      if_neg (lt_irrefl _)]

end

namespace Worker

variable (w : Worker) (req : ReqMeta)

def Serves (reqIdx : Nat) : Prop :=
  firstCopy w.heads w.layout req.decode reqIdx ≤ w.rank.replica w.layout w.heads ∧
    w.rank.replica w.layout w.heads < firstCopy w.heads w.layout req.decode reqIdx
      + req.decode.repeats w.heads

instance (reqIdx : Nat) : Decidable (w.Serves req reqIdx) := inferInstanceAs (Decidable (_ ∧ _))

def blocks : List Nat :=
  hand w.layout.cpSize (w.transedIdx req) (w.toTransIdx req) (w.rank.cpRank w.layout)

/-- The decode rank that the rank sends to: for its heads, in the copy that it serves, with its
    part. -/
def target (reqIdx : Nat) : Rank :=
  req.decode.rankAt w.heads (w.rank.group w.layout w.heads / groupRatio w.heads w.layout req.decode)
    (w.rank.replica w.layout w.heads - firstCopy w.heads w.layout req.decode reqIdx)
    (w.rank.cpRank w.layout % req.decode.cpSize)

def task (reqIdx : Nat) : Option SendTask :=
  if w.blocks req = [] then none
  else some
    { port := (w.target req reqIdx).port req.decode req.remotePort
      transfer :=
        { localBlockIds := (w.blocks req).map fun j =>
            req.localBlockIds.getD (j / w.layout.cpSize) 0
          remoteBlockIds := (w.blocks req).map fun j =>
            req.remoteBlockIds.getD (j / req.decode.cpSize) 0
          transCount := transCount w.layout req.decode (w.promptBlocks req)
            (req.remoteCacheTokens ⌈/⌉ w.blockSize) 0
            (w.rank.cpRank w.layout % req.decode.cpSize) * w.pdHeadRatio }
      chunkFinish := w.chunkFinish req }

end Worker

section

variable {w : Worker} {req : ReqMeta}

theorem Connected.worldPort_rankAt {m : KvHeads} {p d : Layout} (h : Connected m p d)
    {x : Nat} (hx : x < d.cpSize) (po g u : Nat) :
    worldPort d po 0 (g * d.repeats m + u) x = (d.rankAt m g u x).port d po := by
  rw [h.cpSize_eq] at hx
  rw [worldPort_eq, Pull.port_rankAt, mod_eq_of_lt hx, div_eq_of_lt hx, mul_zero,
    ← h.decodeEven.repeats_mul_dcp]
  ring

theorem startLoadKv_eq (h : Connected w.heads w.layout req.decode) (hr : w.rank.In w.layout)
    (hlo : w.toTransIdx req ⌈/⌉ w.layout.cpSize ≤ req.localBlockIds.length)
    (hre : w.toTransIdx req ⌈/⌉ req.decode.cpSize ≤ req.remoteBlockIds.length) (ri : Nat) :
    startLoadKv w req ri = .ok (if w.Serves req ri then w.task req ri else none) := by
  obtain ⟨me, md, hse, hP, hD⟩ := selectCpGroups_eq h hr ri
  obtain ⟨hg, ht, hx, -⟩ := h.prefillEven.eq_rankAt hr
  unfold startLoadKv Worker.getKvSplitMetadata
  rw [hse, ok_bind]
  by_cases hs : w.Serves req ri
  · have hu : w.rank.replica w.layout w.heads - firstCopy w.heads w.layout req.decode ri
        < req.decode.repeats w.heads := by
      have := hs.1
      have := hs.2
      omega
    have hd : w.rank.group w.layout w.heads / groupRatio w.heads w.layout req.decode
        < numGroups w.heads req.decode.tpSize := by
      rw [Nat.div_lt_iff_lt_mul h.ratio_pos, mul_comm, h.groups_eq]
      exact hg
    obtain ⟨p, d, hp, hdm, hl⟩ := h.pdHeadMapping_eq hg ht hu (headGroupRank_eq h.prefillEven ▸ hP)
      (hD _ hu)
    have hk : w.rank.group w.layout w.heads / groupRatio w.heads w.layout req.decode
        * req.decode.repeats w.heads
        + (w.rank.replica w.layout w.heads - firstCopy w.heads w.layout req.decode ri)
          < headGroupSize req.decode := by
      rw [headGroupSize_eq h.decodeEven, add_comm]
      exact place_lt hu hd
    have hm := h.getTransferMappings_eq hr hP ((hD _ hu _).mpr ⟨_, hd, rfl⟩)
        hk hlo hre req.remotePort
      (w.promptBlocks req) (req.remoteCacheTokens ⌈/⌉ w.blockSize) w.pdHeadRatio (w.transedIdx req)
    rw [h.worldPort_rankAt (mod_lt _ h.decodeEven.cpSize_pos)] at hm
    rw [← headGroupRank_eq h.prefillEven] at hl
    have hs' := hs
    unfold Worker.Serves at hs'
    have hdm' : getHeadGroupMapping w.heads.count req.remoteTpSize (headGroupSize req.decode) _
        = .ok d := hdm
    simp only [if_pos hs', if_pos hs, ensure_pos h.check, ok_bind, hp, hdm', hl, hm]
    unfold Worker.task
    by_cases hn : w.blocks req = []
    · rw [if_pos hn]
      unfold Worker.blocks at hn
      rw [hn]
      rfl
    · have hne : (w.blocks req).map (fun j => (req.localBlockIds.getD (j / w.layout.cpSize) 0,
          req.remoteBlockIds.getD (j / req.decode.cpSize) 0))
            ≠ [] := fun heq => hn (map_eq_nil_iff.mp heq)
      rw [if_neg hn]
      unfold Worker.blocks at hne ⊢
      simp only [single, if_neg hne, map_map]
      rfl
  · have hs' := hs
    unfold Worker.Serves at hs'
    rw [if_neg hs', if_neg hs]
    rfl

end

end VllmDual.Push
