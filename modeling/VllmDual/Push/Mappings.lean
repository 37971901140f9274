/-
  Subject:   WHERE A PREFILL RANK SENDS ITS BLOCKS (`ascend/utils/utils.py`).

  In the layerwise connector the prefill side pushes. Every prefill rank computes, for the blocks it
  holds, the decode rank that is to have them.
-/
import VllmDual.Pull.Ports

namespace VllmDual.Push

open Outcome RoundRobin List Nat
open VllmDual.Pull (Layout KvHeads Rank numGroups headsPerGroup headGroup mem_headGroup)

/-! ## 1. The functions -/

/-- What the connector raises here. -/
inductive PushError where
  | assertion (condition : String)
  | valueError (message : String)
  | indexError
  | zeroDivision
  | keyError
deriving DecidableEq

/-- `get_cp_group`: for each copy of the heads its groups of ranks. A set is the list of its
    members. -/
def getCpGroup (tp heads dcp : Nat) : List (List Nat) :=
  let step := tp / heads
  if step = 0 then
    [range (tp / dcp)]
  else
    (range (step / dcp)).map fun i =>
      (range heads).flatMap fun h => (range' (h * step + i * dcp) dcp).map (· / dcp)

def contextParallelParametersCheck (m : KvHeads) (prefill decode : Layout) : Prop :=
  prefill.cpSize % decode.cpSize = 0 ∧
    (m.latent = false → (m.count ⌈/⌉ decode.dcpSize) % (m.count ⌈/⌉ prefill.tpSize) = 0)

instance (m : KvHeads) (prefill decode : Layout) :
    Decidable (contextParallelParametersCheck m prefill decode) :=
  inferInstanceAs (Decidable (_ ∧ _))

/-- `get_tp_rank_head_mapping`: the heads of every tensor-parallel rank. -/
def getTpRankHeadMapping (numKeyValueHeads tpSize : Nat) : Except PushError (List (List Nat)) :=
  if tpSize ≤ numKeyValueHeads then do
    ensure (numKeyValueHeads % tpSize = 0)
      (.valueError "Number of heads cannot be evenly divided by TP")
    return (range tpSize).map fun rank =>
      range' (rank * (numKeyValueHeads / tpSize)) (numKeyValueHeads / tpSize)
  else do
    ensure (tpSize % numKeyValueHeads = 0)
      (.valueError "Number of heads cannot be evenly divided by TP")
    return (range tpSize).map fun rank => [rank / (tpSize / numKeyValueHeads)]

/-- `get_head_group_mapping`: the heads of the selected groups of ranks. A set is the list of its
    members. -/
def getHeadGroupMapping (numKeyValueHeads tpSize numGroups : Nat) (selectCpGroup : List Nat) :
    Except PushError (List (Nat × List Nat)) := do
  ensure (tpSize % numGroups = 0)
    (.valueError "Total number of devices cannot be divided by the number of groups")
  let tpMapping ← getTpRankHeadMapping numKeyValueHeads tpSize
  return ((range numGroups).filter (· ∈ selectCpGroup)).map fun groupRank =>
    (groupRank, (range' (groupRank * (tpSize / numGroups)) (tpSize / numGroups)).flatMap fun rank =>
      tpMapping.getD rank [])

/-- `pd_head_mapping`: the decode groups that hold a head of a prefill group, in order. -/
def pdHeadMapping (p d : List (Nat × List Nat)) : List (Nat × List Nat) :=
  p.map fun e => (e.1, (d.filter fun f => ∃ head ∈ e.2, head ∈ f.2).map Prod.fst)

/-- An entry of `p_rank_block_mapping`: the blocks of a prefill rank, up to `toTransIdx`. -/
def pRankBlockMapping (prefill : Layout) (toTransIdx : Nat) (selected : List Nat)
    (pcpRank headGroupRank dcpRank : Nat) : List Nat :=
  (range toTransIdx).filter fun j =>
    j / prefill.dcpSize % prefill.pcpSize = pcpRank ∧ j % prefill.dcpSize = dcpRank ∧
      headGroupRank ∈ selected

structure RemoteBlock where
  port : Nat
  blockIdx : Int

/-- `tp_size // dcp_size`. -/
def headGroupSize (l : Layout) : Nat := l.tpSize / l.dcpSize

/-- `d_port + world_rank`. -/
def worldPort (l : Layout) (port pcpRank headGroupRank dcpRank : Nat) : Nat :=
  port + (pcpRank * headGroupSize l * l.dcpSize + headGroupRank * l.dcpSize + dcpRank)

/-- An entry of `d_block_rank_mapping`. -/
def dBlockRankMapping (decode : Layout) (port toTransIdx : Nat) (selected : List Nat)
    (j headGroupRank : Nat) : Option RemoteBlock :=
  if j < toTransIdx ∧ headGroupRank < headGroupSize decode ∧ headGroupRank ∈ selected then
    let pcpRank := j / decode.dcpSize % decode.pcpSize
    let dcpRank := j % decode.dcpSize
    some ⟨worldPort decode port pcpRank headGroupRank dcpRank,
      ((j : Int) - (pcpRank * decode.pcpSize + dcpRank : Nat))
        / (decode.pcpSize * decode.dcpSize : Nat)⟩
  else
    none

/-- `trans_count`, before the factor for the heads. -/
def transCount (prefill decode : Layout)
    (promptBlocks cachedBlocks dPcpRank dDcpRank : Nat) : Nat :=
  if prefill.cpSize ≤ promptBlocks then
    prefill.cpSize / decode.cpSize
  else
    let rankIdx := dPcpRank * decode.dcpSize + dDcpRank
    let totalGlobalBlocks := cachedBlocks + promptBlocks
    share decode.cpSize totalGlobalBlocks rankIdx - share decode.cpSize cachedBlocks rankIdx

/-- `d_trans_count_mapping`, by port. -/
def dTransCountMapping (prefill decode : Layout)
    (port promptBlocks cachedBlocks pdHeadRatio : Nat) : List (Nat × Nat) :=
  (range decode.pcpSize).flatMap fun dPcpRank =>
    (range (headGroupSize decode)).flatMap fun dHeadGroupRank =>
      (range decode.dcpSize).map fun dDcpRank =>
        (worldPort decode port dPcpRank dHeadGroupRank dDcpRank,
          transCount prefill decode promptBlocks cachedBlocks dPcpRank dDcpRank * pdHeadRatio)

/-- `l[i]`: a negative index counts from the end. -/
def pyIndex (l : List Nat) (i : Int) : Except PushError Nat :=
  match l[(if i < 0 then i + l.length else i).toNat]? with
  | none => .error .indexError
  | some a => if i + l.length < 0 then .error .indexError else .ok a

structure Transfer where
  localBlockIds : List Nat
  remoteBlockIds : List Nat
  transCount : Nat
deriving DecidableEq

/-- `transfer_mappings`: by port, in the order of insertion. -/
abbrev TransferMappings := List (Nat × Transfer)

def addBlock (port localBlock remoteBlock : Nat) : TransferMappings → TransferMappings
  | [] => [(port, ⟨[localBlock], [remoteBlock], 0⟩)]
  | (p, t) :: rest =>
    if p = port then
      (p, { t with
        localBlockIds := t.localBlockIds ++ [localBlock], remoteBlockIds := t.remoteBlockIds ++
          [remoteBlock] })
        :: rest
    else
      (p, t) :: addBlock port localBlock remoteBlock rest

def addBlocks (pBlockIds dBlockIds : List Nat) (pBlockIdx : Nat)
    (remote : Nat → Option RemoteBlock) :
    List Nat → TransferMappings → Except PushError TransferMappings
  | [], d => .ok d
  | dHeadGroupRank :: rest, d => do
    let pBlockId ← pyIndex pBlockIds pBlockIdx
    match remote dHeadGroupRank with
    | none => .error .keyError
    | some r => do
      let dBlockId ← pyIndex dBlockIds r.blockIdx
      addBlocks pBlockIds dBlockIds pBlockIdx remote rest (addBlock r.port pBlockId dBlockId d)

def addAll (pBlockIds dBlockIds dHeadGroupRanks : List Nat)
    (remote : Nat → Nat → Option RemoteBlock) (transedIdx toTransIdx : Nat) :
    List (Nat × Nat) → TransferMappings → Except PushError TransferMappings
  | [], d => .ok d
  | (j, pBlockIdx) :: rest, d =>
    if j < transedIdx ∨ toTransIdx ≤ j then
      addAll pBlockIds dBlockIds dHeadGroupRanks remote transedIdx toTransIdx rest d
    else do
      let d ← addBlocks pBlockIds dBlockIds pBlockIdx (remote j) dHeadGroupRanks d
      addAll pBlockIds dBlockIds dHeadGroupRanks remote transedIdx toTransIdx rest d

/-- The last loop: every entry gets its `trans_count`. -/
def setCounts (counts : List (Nat × Nat)) : TransferMappings → Except PushError TransferMappings
  | [] => .ok []
  | (port, t) :: rest => do
    match counts.lookup port with
    | none => .error .keyError
    | some n => do
      let rest ← setCounts counts rest
      return (port, { t with transCount := n }) :: rest

/-- `get_transfer_mappings`, by port. -/
def getTransferMappings (pBlockIdxs : List Nat) (remote : Nat → Nat → Option RemoteBlock)
    (dHeadGroupRanks : List Nat) (counts : List (Nat × Nat)) (pBlockIds dBlockIds : List Nat)
    (transedIdx toTransIdx : Nat) : Except PushError TransferMappings := do
  let d ← addAll pBlockIds dBlockIds dHeadGroupRanks remote transedIdx toTransIdx
    pBlockIdxs.zipIdx []
  setCounts counts d

/-! ## 2. Groups of ranks in even layouts -/

section

variable {m : KvHeads} {l : Layout}

theorem headGroupSize_eq (h : l.Even m) : headGroupSize l = numGroups m l.tpSize * l.repeats m := by
  refine Nat.div_eq_of_eq_mul_left h.dcp_pos ?_
  rw [mul_assoc, h.repeats_mul_dcp, h.groups_mul_ranks]

theorem getCpGroup_eq (h : l.Even m) : ∃ ms : Nat → List Nat,
    getCpGroup l.tpSize m.count l.dcpSize = (range (l.repeats m)).map ms ∧
    ∀ t < l.repeats m, ∀ k, k ∈ ms t ↔ ∃ g < numGroups m l.tpSize, k = g * l.repeats m + t := by
  unfold getCpGroup
  have hc := h.count_pos
  by_cases hs : l.tpSize / m.count = 0
  · -- fewer ranks than heads: every rank is a group of its own
    have hlt : l.tpSize < m.count := (div_eq_zero_iff_lt hc).mp hs
    have hgr : numGroups m l.tpSize = l.tpSize := min_eq_left hlt.le
    have hr : l.groupRanks m = 1 := by rw [Layout.groupRanks, hgr, Nat.div_self h.tp_pos]
    have hd : l.dcpSize = 1 := dvd_one.mp (hr ▸ h.dcp_dvd)
    have hrep : l.repeats m = 1 := by rw [Layout.repeats, hr, hd]
    rw [if_pos hs, hrep, hd, Nat.div_one, hgr]
    refine ⟨fun _ => range l.tpSize, rfl, fun t ht k => ?_⟩
    rw [lt_one_iff.mp ht, mem_range]
    simp
  · have hle : m.count ≤ l.tpSize := by
      by_contra hgt
      exact hs (div_eq_of_lt (not_le.mp hgt))
    have hgr : numGroups m l.tpSize = m.count := min_eq_right hle
    have hr : l.tpSize / m.count = l.groupRanks m := by rw [Layout.groupRanks, hgr]
    rw [if_neg hs, hgr]
    simp only [hr]
    refine ⟨_, rfl, fun t _ k => ?_⟩
    simp only [mem_flatMap, mem_map, mem_range, mem_range'_1]
    have hi : ∀ g x, g * l.groupRanks m + t * l.dcpSize ≤ x → x < g * l.groupRanks m + t * l.dcpSize
        + l.dcpSize → x / l.dcpSize = g * l.repeats m + t := by
      intro g x hlo hhi
      rw [← h.repeats_mul_dcp, ← mul_assoc, ← add_mul] at hlo hhi
      exact Nat.div_eq_of_lt_le hlo (by rw [add_mul, one_mul]; exact hhi)
    constructor
    · rintro ⟨g, hg, x, ⟨hlo, hhi⟩, rfl⟩
      exact ⟨g, hg, hi g x hlo hhi⟩
    · rintro ⟨g, hg, rfl⟩
      exact ⟨g, hg, _, ⟨le_rfl, Nat.lt_add_of_pos_right h.dcp_pos⟩,
        hi g _ le_rfl (Nat.lt_add_of_pos_right h.dcp_pos)⟩

theorem getTpRankHeadMapping_eq (h : l.Even m) : getTpRankHeadMapping m.count l.tpSize
    = .ok ((range l.tpSize).map fun rank =>
      headGroup (headsPerGroup m l.tpSize) (rank / l.groupRanks m)) := by
  unfold getTpRankHeadMapping
  by_cases hle : l.tpSize ≤ m.count
  · have hg : numGroups m l.tpSize = l.tpSize := min_eq_left hle
    have hd : m.count % l.tpSize = 0 := mod_eq_zero_of_dvd (hg ▸ h.groups_dvd.2)
    have hh : headsPerGroup m l.tpSize = m.count / l.tpSize := by rw [headsPerGroup, hg]
    have hr : l.groupRanks m = 1 := by rw [Layout.groupRanks, hg, Nat.div_self h.tp_pos]
    rw [if_pos hle, ensure_pos hd, ok_bind, hh, hr]
    refine congrArg Except.ok (map_congr_left fun rank _ => ?_)
    rw [Nat.div_one, headGroup, range'_eq_map_range]
    exact map_congr_left fun i _ => add_comm _ _
  · have hg : numGroups m l.tpSize = m.count := min_eq_right (not_le.mp hle).le
    have hd : l.tpSize % m.count = 0 := mod_eq_zero_of_dvd (hg ▸ h.groups_dvd.1)
    have hh : headsPerGroup m l.tpSize = 1 := by rw [headsPerGroup, hg, Nat.div_self h.count_pos]
    have hr : l.tpSize / m.count = l.groupRanks m := by rw [Layout.groupRanks, hg]
    rw [if_neg hle, ensure_pos hd, ok_bind, hh, hr]
    refine congrArg Except.ok (map_congr_left fun rank _ => ?_)
    simp [headGroup]

theorem getHeadGroupMapping_eq (h : l.Even m) (s : List Nat) : ∃ hs : Nat → List Nat,
    getHeadGroupMapping m.count l.tpSize (headGroupSize l) s
      = .ok (((range (headGroupSize l)).filter (· ∈ s)).map fun k => (k, hs k)) ∧
    ∀ k < headGroupSize l, ∀ head, head ∈ hs k ↔
      head ∈ headGroup (headsPerGroup m l.tpSize) (k / l.repeats m) := by
  have hm : headGroupSize l * l.dcpSize = l.tpSize := by
    rw [headGroupSize_eq h, mul_assoc, h.repeats_mul_dcp, h.groups_mul_ranks]
  have hp : 0 < headGroupSize l := by
    rw [headGroupSize_eq h]
    exact Nat.mul_pos h.groups_pos h.repeats_pos
  have hmod : l.tpSize % headGroupSize l = 0 := mod_eq_zero_of_dvd ⟨_, hm.symm⟩
  have hd : l.tpSize / headGroupSize l = l.dcpSize := Nat.div_eq_of_eq_mul_right hp hm.symm
  unfold getHeadGroupMapping
  rw [ensure_pos hmod, ok_bind, getTpRankHeadMapping_eq h, ok_bind, hd]
  refine ⟨_, rfl, fun k hk head => ?_⟩
  simp only [mem_flatMap, mem_range'_1]
  have hr : ∀ rank, k * l.dcpSize ≤ rank → rank < k * l.dcpSize + l.dcpSize →
      ((range l.tpSize).map fun rank =>
        headGroup (headsPerGroup m l.tpSize) (rank / l.groupRanks m)).getD rank []
      = headGroup (headsPerGroup m l.tpSize) (k / l.repeats m) := by
    intro rank hlo hhi
    have hm' : (k + 1) * l.dcpSize ≤ headGroupSize l * l.dcpSize := Nat.mul_le_mul_right _ hk
    rw [add_mul, one_mul, hm] at hm'
    have hlt : rank < l.tpSize := by omega
    have hq : rank / l.groupRanks m = k / l.repeats m := by
      rw [← h.repeats_mul_dcp, mul_comm (l.repeats m), ← Nat.div_div_eq_div_mul,
        Nat.div_eq_of_lt_le hlo (by rw [add_mul, one_mul]; exact hhi)]
    simp [hlt, hq]
  constructor
  · rintro ⟨rank, ⟨hlo, hhi⟩, hmem⟩
    rwa [hr rank hlo hhi] at hmem
  · intro hmem
    refine ⟨k * l.dcpSize, ⟨le_rfl, Nat.lt_add_of_pos_right h.dcp_pos⟩, ?_⟩
    rwa [hr _ le_rfl (Nat.lt_add_of_pos_right h.dcp_pos)]

end

/-! ## 3. Layouts that the connector accepts -/

/-- **Two sides that can be connected**: both even, the decode side without prefill context
    parallelism, every prefill head group inside a decode one, and no fewer copies of the heads on
    the prefill side. -/
structure Connected (m : KvHeads) (prefill decode : Layout) : Prop where
  prefillEven : prefill.Even m
  decodeEven : decode.Even m
  check : contextParallelParametersCheck m prefill decode
  pcp : decode.pcpSize = 1
  heads : numGroups m decode.tpSize ∣ numGroups m prefill.tpSize
  copies : decode.repeats m ≤ prefill.repeats m

def groupRatio (m : KvHeads) (prefill decode : Layout) : Nat :=
  numGroups m prefill.tpSize / numGroups m decode.tpSize

section

variable {m : KvHeads} {prefill decode : Layout}

theorem lookup_map {α : Type} {key : Nat → Nat} (hkey : Function.Injective key) {f : Nat → α}
    {l : List Nat} {k : Nat}
    (h : k ∈ l) : (l.map fun k => (key k, f k)).lookup (key k) = some (f k) := by
  induction l with
  | nil => simp at h
  | cons a l ih =>
    rw [map_cons, lookup_cons]
    by_cases hk : k = a
    · simp [hk]
    · rw [beq_false_of_ne (hkey.ne hk), ih ((mem_cons.mp h).resolve_left hk)]

namespace Connected

variable (h : Connected m prefill decode)

include h

theorem groups_eq :
    groupRatio m prefill decode * numGroups m decode.tpSize = numGroups m prefill.tpSize :=
  Nat.div_mul_cancel h.heads

theorem ratio_pos : 0 < groupRatio m prefill decode :=
  Nat.div_pos (le_of_dvd h.prefillEven.groups_pos h.heads) h.decodeEven.groups_pos

theorem heads_eq :
    headsPerGroup m decode.tpSize = groupRatio m prefill decode * headsPerGroup m
      prefill.tpSize := by
  refine Nat.eq_of_mul_eq_mul_left h.decodeEven.groups_pos ?_
  rw [h.decodeEven.groups_mul_heads, ← mul_assoc, mul_comm (numGroups m decode.tpSize), h.groups_eq,
    h.prefillEven.groups_mul_heads]

theorem cpSize_eq : decode.cpSize = decode.dcpSize := by rw [Layout.cpSize, h.pcp, one_mul]

theorem dvd : decode.cpSize ∣ prefill.cpSize := dvd_of_mod_eq_zero h.check.1

theorem meets_iff {g d : Nat} : (∃ head ∈ headGroup (headsPerGroup m prefill.tpSize) g,
    head ∈ headGroup (headsPerGroup m decode.tpSize) d) ↔ g / groupRatio m prefill decode = d := by
  have hp := h.prefillEven.headsPerGroup_pos
  simp only [mem_headGroup hp, mem_headGroup h.decodeEven.headsPerGroup_pos]
  rw [h.heads_eq, mul_comm (groupRatio m prefill decode)]
  simp only [← Nat.div_div_eq_div_mul]
  constructor
  · rintro ⟨head, rfl, hd⟩
    exact hd
  · intro hd
    exact ⟨g * headsPerGroup m prefill.tpSize,
      Nat.mul_div_cancel g hp, by rw [Nat.mul_div_cancel g hp, hd]⟩

theorem pdHeadMapping_eq {sp sd : List Nat} {g t u : Nat} (hg : g < numGroups m prefill.tpSize)
    (ht : t < prefill.repeats m) (hu : u < decode.repeats m)
    (hP : g * prefill.repeats m + t ∈ sp)
    (hD : ∀ k, k ∈ sd ↔ ∃ d < numGroups m decode.tpSize, k = d * decode.repeats m + u) :
    ∃ p d, getHeadGroupMapping m.count prefill.tpSize (headGroupSize prefill) sp = .ok p ∧
      getHeadGroupMapping m.count decode.tpSize (headGroupSize decode) sd = .ok d ∧
      (pdHeadMapping p d).lookup (g * prefill.repeats m + t)
        = some [g / groupRatio m prefill decode * decode.repeats m + u] := by
  have hrP := h.prefillEven.repeats_pos
  have hrD := h.decodeEven.repeats_pos
  obtain ⟨he, hr, hh⟩ := getHeadGroupMapping_eq h.prefillEven sp
  obtain ⟨hed, hrd, hhd⟩ := getHeadGroupMapping_eq h.decodeEven sd
  refine ⟨_, _, hr, hrd, ?_⟩
  have hk : g * prefill.repeats m + t < headGroupSize prefill := by
    rw [headGroupSize_eq h.prefillEven, add_comm]
    exact place_lt ht hg
  have hq : (g * prefill.repeats m + t) / prefill.repeats m = g := by rw [add_comm, add_mul_div ht]
  rw [pdHeadMapping, map_map]
  refine (lookup_map Function.injective_id
    (mem_filter.mpr ⟨mem_range.mpr hk, by simpa using hP⟩)).trans ?_
  rw [Option.some_inj, filter_map, map_map, filter_filter]
  refine eq_of_increasing ?_ (pairwise_singleton ..) fun k => ?_
  · exact pairwise_map.mpr (pairwise_lt_range.filter _)
  · simp only [Function.comp_apply, Bool.and_eq_true, decide_eq_true_eq, mem_map, mem_filter,
      mem_range, mem_singleton, Function.comp_def]
    have hm : ∀ k < headGroupSize decode, ((∃ head ∈ he (g * prefill.repeats m + t), head ∈ hed k) ↔
        g / groupRatio m prefill decode = k / decode.repeats m) := by
      intro k hlt
      rw [← h.meets_iff]
      refine exists_congr fun head => ?_
      rw [hh _ hk, hq, hhd k hlt]
    constructor
    · rintro ⟨k, ⟨hlt, hme, hs⟩, rfl⟩
      obtain ⟨d, -, rfl⟩ := (hD k).mp hs
      rw [(hm _ hlt).mp hme, add_comm, add_mul_div hu, add_comm]
    · rintro rfl
      have hd : g / groupRatio m prefill decode < numGroups m decode.tpSize := by
        rw [Nat.div_lt_iff_lt_mul h.ratio_pos, mul_comm, h.groups_eq]
        exact hg
      have hlt : g / groupRatio m prefill decode * decode.repeats m + u < headGroupSize decode := by
        rw [headGroupSize_eq h.decodeEven, add_comm]
        exact place_lt hu hd
      refine ⟨_, ⟨hlt, (hm _ hlt).mpr ?_, (hD _).mpr ⟨_, hd, rfl⟩⟩, rfl⟩
      rw [add_comm _ u, add_mul_div hu]

end Connected

end

/-! ## 4. The blocks of one rank -/

section

variable {m : KvHeads} {prefill decode : Layout} {k po : Nat}

def single (port : Nat) (blocks : List (Nat × Nat)) (count : Nat) : TransferMappings :=
  if blocks = [] then [] else [(port, ⟨blocks.map Prod.fst, blocks.map Prod.snd, count⟩)]

theorem addBlock_single (po a b : Nat) (bs : List (Nat × Nat)) :
    addBlock po a b (single po bs 0) = single po (bs ++ [(a, b)]) 0 := by
  cases bs <;> simp [single, addBlock]

/-- **The loop over the blocks**, if all go to one port. `pb` and `db` are the ids that are read. -/
theorem addAll_single {pbi dbi : List Nat} {ti tti : Nat}
    {r : Nat → Nat → Option RemoteBlock} {pb db : Nat → Nat} {bi : Nat → Int} {l : List (Nat × Nat)}
    (hl : ∀ j idx, (j, idx) ∈ l → ti ≤ j → j < tti ∧ pyIndex pbi (idx : Nat) = .ok (pb j) ∧
      r j k = some ⟨po, bi j⟩ ∧ pyIndex dbi (bi j) = .ok (db j)) (bs : List (Nat × Nat)) :
    addAll pbi dbi [k] r ti tti l (single po bs 0)
      = .ok (single po (bs ++ ((l.map Prod.fst).filter (ti ≤ ·)).map fun j => (pb j, db j)) 0) := by
  induction l generalizing bs with
  | nil => simp [addAll]
  | cons e l ih =>
    obtain ⟨j, idx⟩ := e
    have hr := ih fun j idx he => hl j idx (mem_cons_of_mem _ he)
    unfold addAll
    by_cases hj : ti ≤ j
    · obtain ⟨hlt, hp, hre, hd⟩ := hl j idx (by simp) hj
      rw [if_neg (by omega), addBlocks, hp, ok_bind, hre]
      simp only [hd, ok_bind, addBlocks, addBlock_single]
      rw [hr, map_cons, filter_cons_of_pos (by simpa using hj), map_cons, append_assoc]
      rfl
    · rw [if_pos (.inl (not_le.mp hj)), hr, map_cons, filter_cons_of_neg (by simpa using hj)]

theorem setCounts_single {ns : List (Nat × Nat)} {c : Nat} (h : ns.lookup po = some c)
    (bs : List (Nat × Nat)) : setCounts ns (single po bs 0) = .ok (single po bs c) := by
  cases bs with
  | nil => rfl
  | cons b bs =>
    simp only [single, reduceCtorEq, if_false, setCounts, h]
    rfl

theorem pyIndex_natCast {l : List Nat} {i : Nat} (h : i < l.length) :
    pyIndex l i = .ok (l.getD i 0) := by
  have hn : ¬(i : Int) < 0 := by omega
  have hl : ¬(i : Int) + l.length < 0 := by omega
  rw [pyIndex, if_neg hn, Int.toNat_natCast, getElem?_eq_getElem h]
  simp only [if_neg hl]
  rw [getD_eq_getElem _ _ h]

theorem mem_zipIdx_hand {n x j idx : Nat} (hx : x < k) (h : (j, idx) ∈ (hand k 0 n x).zipIdx) :
    j < n ∧ idx = j / k ∧ j % k = x := by
  rw [hand_eq_map hx, Pull.zipIdx_map_range, mem_map] at h
  obtain ⟨i, hi, heq⟩ := h
  simp only [share_zero, zero_add, Nat.sub_zero, Prod.mk.injEq] at heq hi
  obtain ⟨rfl, rfl⟩ := heq
  exact ⟨(lt_share_iff hx).mp (mem_range.mp hi), (add_mul_div hx i).symm, add_mul_mod hx i⟩

theorem pRankBlockMapping_eq (h : prefill.Even m) (r : Rank) {s : List Nat} (hk : k ∈ s)
    (tti : Nat) : pRankBlockMapping prefill tti s r.pcpRank k (r.dcpRank prefill)
      = hand prefill.cpSize 0 tti (r.cpRank prefill) := by
  have hdcp : r.dcpRank prefill < prefill.dcpSize := mod_lt _ h.dcp_pos
  rw [pRankBlockMapping, hand, Nat.sub_zero, ← range_eq_range']
  refine filter_congr fun j _ => ?_
  rw [decide_eq_decide, Rank.cpRank, Layout.cpSize, mul_comm prefill.pcpSize, mod_mul]
  simp only [hk, and_true]
  constructor
  · rintro ⟨hp, hd⟩
    rw [hp, hd, mul_comm]
  · intro heq
    have hlt := mod_lt j h.dcp_pos
    rw [mul_comm prefill.dcpSize] at heq
    have hm := congrArg (· % prefill.dcpSize) heq
    have hdiv := congrArg (· / prefill.dcpSize) heq
    simp only [add_mul_mod hlt, add_mul_mod hdcp] at hm
    simp only [add_mul_div hlt, add_mul_div hdcp] at hdiv
    exact ⟨hdiv, hm⟩

theorem worldPort_eq (decode : Layout) (po k d : Nat) :
    worldPort decode po 0 k d = po + (d + k * decode.dcpSize) := by
  rw [worldPort, zero_mul, zero_mul, zero_add, add_comm d]

namespace Connected

variable (h : Connected m prefill decode)

include h

theorem lookup_dTransCountMapping {k x : Nat} (hk : k < headGroupSize decode)
    (hx : x < decode.dcpSize) (po pb cb phr : Nat) :
    (dTransCountMapping prefill decode po pb cb phr).lookup (worldPort decode po 0 k x)
      = some (transCount prefill decode pb cb 0 x * phr) := by
  have hf : dTransCountMapping prefill decode po pb cb phr
      = (range (headGroupSize decode * decode.dcpSize)).map fun i =>
        (po + i, transCount prefill decode pb cb 0 (i % decode.dcpSize) * phr) := by
    rw [Align.range_mul_map, dTransCountMapping, h.pcp]
    simp only [range_one, flatMap_cons, flatMap_nil, append_nil, worldPort_eq]
    refine flatMap_congr fun k _ => map_congr_left fun d hd => ?_
    rw [add_comm (k * _), add_mul_mod (mem_range.mp hd)]
  rw [hf, worldPort_eq, lookup_map (add_right_injective po) (mem_range.mpr (place_lt hx hk)),
    add_mul_mod hx]

theorem getTransferMappings_eq {r : Rank} (hr : r.In prefill) {sp sd : List Nat} {kP k : Nat}
    (hP : kP ∈ sp) (hD : k ∈ sd) (hk : k < headGroupSize decode)
    {pbi dbi : List Nat} {tti : Nat}
    (hp : tti ⌈/⌉ prefill.cpSize ≤ pbi.length) (hd : tti ⌈/⌉ decode.cpSize ≤ dbi.length)
    (po pb cb phr ti : Nat) :
    getTransferMappings (pRankBlockMapping prefill tti sp r.pcpRank kP (r.dcpRank prefill))
        (dBlockRankMapping decode po tti sd) [k]
        (dTransCountMapping prefill decode po pb cb phr) pbi dbi
        ti tti
      = .ok (single (worldPort decode po 0 k (r.cpRank prefill % decode.cpSize))
        ((hand prefill.cpSize ti tti (r.cpRank prefill)).map fun j =>
          (pbi.getD (j / prefill.cpSize) 0, dbi.getD (j / decode.cpSize) 0))
        (transCount prefill decode pb cb 0 (r.cpRank prefill % decode.cpSize) * phr)) := by
  have hR := h.prefillEven.cpSize_pos
  have hD' := h.decodeEven.cpSize_pos
  have hx : r.cpRank prefill < prefill.cpSize := (h.prefillEven.eq_rankAt hr).2.2.1
  have hxD : r.cpRank prefill % decode.cpSize < decode.dcpSize :=
    (mod_lt _ hD').trans_eq h.cpSize_eq
  have hco := h.lookup_dTransCountMapping hk hxD po pb cb phr
  -- every block of the rank has the number of its round, and one port
  have hre : ∀ j idx, (j, idx) ∈ (hand prefill.cpSize 0 tti (r.cpRank prefill)).zipIdx → ti ≤ j →
      j < tti ∧ pyIndex pbi (idx : Nat) = .ok (pbi.getD (j / prefill.cpSize) 0) ∧
      dBlockRankMapping decode po tti sd j k
        = some ⟨worldPort decode po 0 k (r.cpRank prefill % decode.cpSize),
          (j / decode.cpSize : Nat)⟩ ∧
      pyIndex dbi (j / decode.cpSize : Nat) = .ok (dbi.getD (j / decode.cpSize) 0) := by
    intro j idx hm _
    obtain ⟨hlt, hi, hmod⟩ := mem_zipIdx_hand hx hm
    have hc : ∀ {n len : Nat}, 0 < n → tti ⌈/⌉ n ≤ len → j / n < len := fun hn hle =>
      lt_of_lt_of_le ((lt_ceilDiv_iff hn).mpr ((div_mul_le_self j _).trans_lt hlt)) hle
    refine ⟨hlt, ?_, ?_, pyIndex_natCast (hc hD' hd)⟩
    · rw [hi, pyIndex_natCast (hc hR hp)]
    · have hpa : j % decode.dcpSize = r.cpRank prefill % decode.cpSize := by
        rw [← hmod, mod_mod_of_dvd _ h.dvd, h.cpSize_eq]
      have hs : ((j : Int) - (j % decode.dcpSize : Nat)) / (decode.dcpSize : Nat)
          = (j / decode.cpSize : Nat) := by
        rw [h.cpSize_eq, ← cast_sub (mod_le _ _), ← Int.natCast_ediv, ← div_eq_sub_mod_div]
      rw [dBlockRankMapping, if_pos ⟨hlt, hk, hD⟩]
      simp only [h.pcp, mod_one, zero_mul, zero_add, one_mul, hs]
      rw [hpa]
  have hke : ((hand prefill.cpSize 0 tti (r.cpRank prefill)).zipIdx.map Prod.fst).filter (ti ≤ ·)
      = hand prefill.cpSize ti tti (r.cpRank prefill) := by
    rw [zipIdx_map_fst]
    refine eq_of_increasing ((hand_sorted ..).filter _) (hand_sorted ..) fun j => ?_
    simp only [mem_filter, mem_hand, decide_eq_true_eq]
    omega
  have ha := addAll_single hre []
  rw [hke, nil_append] at ha
  rw [getTransferMappings, pRankBlockMapping_eq h.prefillEven r hP tti]
  exact (congrArg (· >>= setCounts _) ha).trans (setCounts_single hco _)

end Connected

end

end VllmDual.Push
