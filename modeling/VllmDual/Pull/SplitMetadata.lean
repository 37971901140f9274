/-
  Subject:   THE PULLS OF ONE DECODE RANK (`MooncakeConnectorWorker._get_kv_split_metadata`).

  With context parallelism the blocks of a prompt are spread over several prefill ranks, block `j`
  over the ranks with part `j % cp_size`. A decode rank computes how many blocks it needs of each of
  its prefill ranks and cuts its own block list accordingly.
-/
import VllmDual.Pull.Ports

namespace VllmDual.Pull

open Outcome RoundRobin List Nat Function

/-! ## 1. The function -/

structure ReqMeta where
  localBlockIds : List Nat
  numExternalTokens : Nat
  remoteBlockIds : List Nat
  remotePort : Nat
  remoteEngineId : String
  remotePcpSize : Nat
  remoteDcpSize : Nat
  remotePtpSize : Option Nat
  numPromptBlocks : Nat

/-- A decode worker. `localRemoteBlockPortMapping` is what it has learned about prefill engines. -/
structure Worker where
  heads : KvHeads
  isDeepseekMla : Bool
  layout : Layout
  rank : Rank
  sideChannelPort : Nat
  blockSize : Nat
  prefillTpSize : Nat
  localRemoteBlockPortMapping : String → Option (List (List Nat))

structure SplitMetadata where
  remoteHandshakePortList : List (List Nat)
  localBlockIdsList : List (List Nat)
  remoteBlockIdsList : List (List Nat)

variable (w : Worker) (req : ReqMeta)

/-- `prefill_tp_size`. -/
def effectivePrefillTpSize : Nat :=
  match req.remotePtpSize with
  | some (n + 1) => n + 1
  | _ => w.prefillTpSize

def prefillLayout : Layout :=
  ⟨effectivePrefillTpSize w req, req.remotePcpSize, req.remoteDcpSize⟩

def getTpNumNeedPulls (prefillTpSize : Nat) : Nat :=
  if w.isDeepseekMla then 1
  else max 1 (w.heads.numKeyValueHeads / w.layout.tpSize)
    / max 1 (w.heads.numKeyValueHeads / prefillTpSize)

/-- `remote_block_nums_all` of `n` blocks: one more for the first ranks. -/
def remoteBlockNums (n remoteCpSize : Nat) : List Nat :=
  (replicate remoteCpSize (n / remoteCpSize)).mapIdx fun i num =>
    if i < n % remoteCpSize then num + 1 else num

/-- The same after the locally cached blocks have been taken off. -/
def remoteBlockNumsAll (numPromptBlocks numPrefixCachedBlocks remoteCpSize : Nat) : List Nat :=
  ((remoteBlockNums numPromptBlocks remoteCpSize).map
    (· - numPrefixCachedBlocks / remoteCpSize)).mapIdx
    fun i num => if i < numPrefixCachedBlocks % remoteCpSize then num - 1 else num

def lastBlockLocation (n remoteCpSize : Nat) : Nat :=
  (n % remoteCpSize + remoteCpSize - 1) % remoteCpSize

/-- `l.append(l.pop(i))`. -/
def moveLast {α : Type} (i : Nat) (l : List α) : Except PullError (List α) :=
  match l[i]? with
  | none => .error .indexError
  | some a => .ok (l.eraseIdx i ++ [a])

/-- The first loop over `remote_block_nums_all`: the counts of this rank's prefill ranks, and the
    position of the one with the last block. -/
def ownBlockNums (localCpSize localCpRank lastBlockLocation : Nat) :
    List (Nat × Nat) → List Nat → Option Nat → List Nat × Option Nat
  | [], nums, final => (nums, final)
  | (num, cpRank) :: rest, nums, final =>
    if cpRank % localCpSize = localCpRank then
      ownBlockNums localCpSize localCpRank lastBlockLocation rest (nums ++ [num])
        (if lastBlockLocation = cpRank then some nums.length else final)
    else
      ownBlockNums localCpSize localCpRank lastBlockLocation rest nums final

/-- The prefill rank with the last block goes to the end, in the counts and in every row of
    ports. -/
def putLast (finalBlockIdx : Option Nat) (nums : List Nat) (mapping : List (List Nat)) :
    Except PullError (List Nat × List (List Nat)) :=
  match finalBlockIdx with
  | none => .ok (nums, mapping)
  | some i => do
    let nums ← moveLast i nums
    let mapping ← mapping.mapM (moveLast i)
    return (nums, mapping)

/-- `remote_handshake_port_list`: column by column. -/
def transposePorts (mapping : List (List Nat)) : Except PullError (List (List Nat)) :=
  match mapping with
  | [] => .error .indexError
  | first :: _ => (range first.length).mapM fun idx => mapping.mapM fun row =>
    match row[idx]? with
    | none => .error .indexError
    | some port => .ok port

def cutBlocks (req : ReqMeta) : Nat → List (List Nat) → List Nat →
    Except PullError (List (List Nat) × List (List Nat))
  | _, [], _ => .ok ([], [])
  | _, _ :: _, [] => .error .indexError
  | localBlockOffset, _ :: ports, numBlocksToPull :: nums => do
    let (locals, remotes) ← cutBlocks req (localBlockOffset + numBlocksToPull) ports nums
    return ((req.localBlockIds.drop localBlockOffset).take numBlocksToPull :: locals,
      req.remoteBlockIds.take numBlocksToPull :: remotes)

/-- The mapping of this worker for the request's prefill engine: computed once and kept. -/
def learnMapping : Except PullError (List (List Nat)) :=
  match w.localRemoteBlockPortMapping req.remoteEngineId with
  | some mapping => .ok mapping
  | none => do
    let mappings ← getLocalRemoteBlockPortMappings w.heads (prefillLayout w req)
      w.layout req.remotePort w.sideChannelPort
    match mappings.get (w.rank.port w.layout w.sideChannelPort) with
    | none => .error .keyError
    | some mapping => .ok mapping

def Worker.learn (engine : String) (mapping : List (List Nat)) : Worker :=
  { w with
    localRemoteBlockPortMapping := update w.localRemoteBlockPortMapping engine (some mapping) }

def numExternalBlocks : Nat := req.numExternalTokens ⌈/⌉ w.blockSize

/-- `_get_kv_split_metadata`; `chosenRankList` is the answer of `_get_remote_rank`, which only the
    case without context parallelism asks for. -/
def getKvSplitMetadata (chosenRankList : List Nat) : Except PullError (SplitMetadata × Worker) :=
  let prefill := prefillLayout w req
  if prefill.cpSize * w.layout.cpSize = 1 then
    .ok (⟨[chosenRankList.map (· + req.remotePort)], [req.localBlockIds], [req.remoteBlockIds]⟩, w)
  else do
    let mapping ← learnMapping w req
    let w := w.learn req.remoteEngineId mapping
    ensure (numExternalBlocks w req ⌈/⌉ w.layout.cpSize = req.localBlockIds.length)
      (.assertion "ceil(num_external_blocks / cp_size) == len(local_block_ids)")
    ensure (numExternalBlocks w req ≤ req.numPromptBlocks)
      (.assertion "num_prompt_blocks >= num_external_blocks")
    let nums := remoteBlockNumsAll req.numPromptBlocks
      (req.numPromptBlocks - numExternalBlocks w req) prefill.cpSize
    let (nums, final) := ownBlockNums w.layout.cpSize (w.rank.cpRank w.layout)
      (lastBlockLocation req.numPromptBlocks prefill.cpSize) nums.zipIdx [] none
    let (nums, mapping) ← putLast final nums mapping
    let ports ← transposePorts mapping
    let (locals, remotes) ← cutBlocks req 0 ports nums
    match ports with
    | [] => .error .indexError
    | first :: _ => do
      ensure (getTpNumNeedPulls w (effectivePrefillTpSize w req) = first.length)
        (.assertion "tp_num_need_pulls == len(remote_handshake_port_list[0])")
      return (⟨ports, locals, remotes⟩, w)

structure BlockPull where
  port : Nat
  localBlock : Nat
  remoteBlock : Nat
deriving DecidableEq

/-- The blocks that `_transfer_kv_cache` pairs: of a longer remote list, the end. -/
def transferBlocks (locals remotes : List Nat) : List (Nat × Nat) :=
  locals.zip (remotes.drop (remotes.length - locals.length))

/-- The pulls that `start_load_kv` requests for head group `i` of the rank's. -/
def pulls (res : SplitMetadata) (i : Nat) : List BlockPull :=
  (res.remoteHandshakePortList.zip (res.localBlockIdsList.zip res.remoteBlockIdsList)).flatMap
    fun e =>
    (transferBlocks e.2.1 e.2.2).map fun b => ⟨e.1.getD i 0, b.1, b.2⟩

/-! ## 2. Block counts -/

theorem remoteBlockNumsAll_eq (n c k : Nat) :
    remoteBlockNumsAll n c k = (range k).map fun r => share k n r - share k c r := by
  refine ext_getElem (by simp [remoteBlockNumsAll, remoteBlockNums]) fun i hi _ => ?_
  simp only [remoteBlockNumsAll, remoteBlockNums, getElem_mapIdx, getElem_map, getElem_replicate,
    getElem_range, share]
  split <;> split <;> omega

section

variable {lc lcr la : Nat}

theorem ownBlockNums_eq (l : List (Nat × Nat)) (ns : List Nat) (f : Option Nat)
    (hn : (l.map Prod.snd).Nodup) : ownBlockNums lc lcr la l ns f
      = (ns ++ (l.filter (·.2 % lc = lcr)).map Prod.fst,
        if la ∈ (l.filter (·.2 % lc = lcr)).map Prod.snd then
          some (ns.length + ((l.filter (·.2 % lc = lcr)).map Prod.snd).idxOf la)
        else f) := by
  induction l generalizing ns f with
  | nil => simp [ownBlockNums]
  | cons e l ih =>
    obtain ⟨num, cpRank⟩ := e
    rw [map_cons, nodup_cons] at hn
    unfold ownBlockNums
    by_cases ho : cpRank % lc = lcr
    · rw [if_pos ho, ih _ _ hn.2, filter_cons_of_pos (by simpa using ho)]
      simp only [map_cons, append_assoc, singleton_append, mem_cons, length_append,
        length_singleton]
      by_cases hl : la = cpRank
      · subst hl
        have hout : la ∉ (l.filter (·.2 % lc = lcr)).map Prod.snd := fun hm =>
          hn.1 (map_subset _ filter_sublist.subset hm)
        simp [hout]
      · rw [if_neg hl, idxOf_cons_ne _ (Ne.symm hl)]
        simp only [hl, false_or, add_assoc, add_comm 1]
    · rw [if_neg ho, ih _ _ hn.2, filter_cons_of_neg (by simpa using ho)]

/-- The prefill ranks of a decode rank in the order in which it pulls: the one with the last block
    comes last. -/
def pullRanks (q localCpSize localCpRank last : Nat) : List Nat :=
  if last % localCpSize = localCpRank then
    (range q).eraseIdx (last / localCpSize) ++ [last / localCpSize]
  else range q

variable {q : Nat}

theorem ownBlockNums_range (hr : lcr < lc) (hl : la < q * lc) (f : Nat → Nat) :
    ownBlockNums lc lcr la ((range (q * lc)).map f).zipIdx [] none
      = ((range q).map fun s => f (lcr + s * lc),
        if la % lc = lcr then some (la / lc) else none) := by
  have hsi : 0 < lc := by omega
  have hk : ((range (q * lc)).map fun j => (f j, j)).filter (·.2 % lc = lcr)
      = (range q).map fun s => (f (lcr + s * lc), lcr + s * lc) := by
    rw [filter_map, show ((fun e : Nat × Nat => decide (e.2 % lc = lcr))
      ∘ fun j => (f j, j)) = fun j => decide (j % lc = lcr) from rfl,
      filter_range hr, share_mul hsi, map_map]
    rfl
  rw [zipIdx_map_range, ownBlockNums_eq _ _ _ (by simp [comp_def, nodup_range]), hk]
  simp only [nil_append, map_map, length_nil, zero_add]
  refine Prod.ext rfl ?_
  by_cases ho : la % lc = lcr
  · have hd : la / lc < q := (Nat.div_lt_iff_lt_mul hsi).mpr hl
    have hm : la = lcr + la / lc * lc := by
      rw [← ho, mod_add_div']
    have hinj : ((range q).map (Prod.snd ∘ fun s =>
        (f (lcr + s * lc), lcr + s * lc))).Nodup := by
      refine nodup_range.map fun s t hst => ?_
      exact eq_of_mul_eq_mul_right hsi (Nat.add_left_cancel hst)
    have hi := hinj.idxOf_getElem (la / lc) (by simpa using hd)
    simp only [getElem_map, getElem_range, comp_apply, ← hm] at hi
    rw [if_pos (mem_map.mpr ⟨_, mem_range.mpr hd, hm.symm⟩), if_pos ho, hi]
  · rw [if_neg, if_neg ho]
    intro hm
    obtain ⟨s, -, hs⟩ := mem_map.mp hm
    exact ho (by rw [← hs]; exact add_mul_mod hr s)

theorem perm_pullRanks (hs : 0 < lc) (hl : la < q * lc) (lcr : Nat) :
    (pullRanks q lc lcr la).Perm (range q) := by
  unfold pullRanks
  split
  · have hlt : la / lc < q := (Nat.div_lt_iff_lt_mul hs).mpr hl
    have hp := getElem_cons_eraseIdx_perm (l := range q) (n := _) (by simpa using hlt)
    rw [getElem_range] at hp
    exact perm_append_comm.trans hp
  · exact Perm.refl _

theorem moveLast_map {α : Type} {i : Nat} (hi : i < q) (f : Nat → α) :
    moveLast i ((range q).map f) = .ok (((range q).eraseIdx i ++ [i]).map f) := by
  have hg : ((range q).map f)[i]? = some (f i) := by simp [hi]
  simp only [moveLast, hg, map_append, map_cons, map_nil, eraseIdx_map]

end

/-! ## 3. Ports and blocks -/

theorem transposePorts_eq {n : Nat} (hn : 0 < n) (rs : List Nat) (f : Nat → Nat → Nat) :
    transposePorts ((range n).map fun i => rs.map (f i))
      = .ok (rs.map fun s => (range n).map fun i => f i s) := by
  have hc : ∀ idx ∈ range rs.length,
      ((range n).map fun i => rs.map (f i)).mapM (fun row => match row[idx]? with
        | none => Except.error PullError.indexError
        | some port => .ok port) = .ok ((range n).map fun i => f i (rs.getD idx 0)) := by
    intro idx hi
    have hi := mem_range.mp hi
    rw [mapM_map]
    exact mapM_ok fun i _ => by simp [hi]
  have ha : (range rs.length).map (fun idx => (range n).map fun i => f i (rs.getD idx 0))
      = rs.map fun s => (range n).map fun i => f i s :=
    ext_getElem (by simp) fun idx h₁ h₂ => by
      have hi : idx < rs.length := by simpa using h₂
      simp [hi]
  obtain ⟨first, r, ht, hl⟩ : ∃ first r, (range n).map (fun i => rs.map (f i))
      = first :: r ∧ first.length = rs.length := by
    obtain ⟨k, rfl⟩ : ∃ k, n = k + 1 := ⟨n - 1, by omega⟩
    rw [range_succ_eq_map, map_cons]
    exact ⟨_, _, rfl, by simp⟩
  rw [ht] at hc ⊢
  rw [transposePorts, hl, mapM_ok hc, ha]

def cut (blocks : List Nat) : Nat → List Nat → List (List Nat)
  | _, [] => []
  | offset, num :: nums => (blocks.drop offset).take num :: cut blocks (offset + num) nums

theorem cutBlocks_eq (req : ReqMeta) (off : Nat) {ps : List (List Nat)} {ns : List Nat}
    (hl : ps.length = ns.length) :
    cutBlocks req off ps ns = .ok (cut req.localBlockIds off ns,
      ns.map req.remoteBlockIds.take) := by
  induction ps generalizing off ns with
  | nil =>
    cases ns with
    | nil => rfl
    | cons num ns => simp at hl
  | cons port ps ih =>
    cases ns with
    | nil => simp at hl
    | cons num ns =>
      simp only [cutBlocks, ih (off + num) (by simpa using hl), ok_bind]
      rfl

/-- **Pieces of equal length pair up like the whole lists.** `items s` stands for what is read from
    source `s`. -/
theorem pulls_cut (bs r : List Nat) (ps it : Nat → List Nat) (p : Nat → Nat)
    (i : Nat) (hp : ∀ s, (ps s).getD i 0 = p s) (rs : List Nat) (off : Nat)
    (hr : ∀ s ∈ rs, (it s).length ≤ r.length)
    (hl : off + (rs.flatMap it).length ≤ bs.length) :
    ((rs.map ps).zip ((cut bs off (rs.map fun s => (it s).length)).zip
      ((rs.map fun s => (it s).length).map r.take))).flatMap (fun e =>
        (transferBlocks e.2.1 e.2.2).map fun b => (⟨e.1.getD i 0, b.1, b.2⟩ : BlockPull))
    = ((bs.drop off).zip (rs.flatMap fun s =>
        (r.take (it s).length).map fun b => (p s, b))).map fun e => ⟨e.2.1, e.1, e.2.2⟩ := by
  induction rs generalizing off with
  | nil => simp
  | cons s rs ih =>
    have hl' : off + (it s).length + (rs.flatMap it).length ≤ bs.length := by
      simpa [add_assoc] using hl
    have ht : ((bs.drop off).take (it s).length).length = (it s).length := by
      rw [length_take, length_drop]
      omega
    have hrem : (r.take (it s).length).length = (it s).length := by
      rw [length_take]
      have := hr s (by simp)
      omega
    have hs : bs.drop off = (bs.drop off).take (it s).length ++ bs.drop (off + (it s).length) := by
      rw [← drop_drop, take_append_drop]
    simp only [map_cons, cut, zip_cons_cons, flatMap_cons]
    rw [ih (off + (it s).length) (fun s' hs' => hr s' (mem_cons_of_mem _ hs')) hl']
    conv_rhs => rw [hs]
    rw [zip_append (by rw [ht, length_map, hrem]), map_append, transferBlocks, ht, hrem,
      Nat.sub_self, drop_zero, zip_map_right, map_map, hp]
    rfl

/-! ## 4. The function in closed form -/

def Worker.sources (w : Worker) (req : ReqMeta) : Nat :=
  (prefillLayout w req).cpSize / w.layout.cpSize

def Worker.ratio (w : Worker) (req : ReqMeta) : Nat :=
  headRatio w.heads (prefillLayout w req) w.layout

/-- The port of the worker's prefill rank `s` for head group `i`. -/
def Worker.sourcePort (w : Worker) (req : ReqMeta) (i s : Nat) : Nat :=
  (sourceRank w.heads (prefillLayout w req) w.layout w.rank i s).port (prefillLayout w req)
    req.remotePort

def Worker.mapping (w : Worker) (req : ReqMeta) : List (List Nat) :=
  (range (w.ratio req)).map fun i => (range (w.sources req)).map (w.sourcePort req i)

structure Deployment (w : Worker) (req : ReqMeta) : Prop where
  prefill : (prefillLayout w req).Even w.heads
  decode : w.layout.Even w.heads
  check : contextParallelParametersCheck w.heads (prefillLayout w req) w.layout
  mla : w.isDeepseekMla = w.heads.latent
  cp : 1 < (prefillLayout w req).cpSize

/-- A decode worker of such a deployment. What it has learned about the engine, if anything, is
    about this deployment. -/
structure Deployed (w : Worker) (req : ReqMeta) : Prop extends Deployment w req where
  rank : w.rank.In w.layout
  learned : ∀ mapping, w.localRemoteBlockPortMapping req.remoteEngineId = some mapping →
    mapping = w.mapping req

def numPrefixCachedBlocks (w : Worker) (req : ReqMeta) : Nat :=
  req.numPromptBlocks - numExternalBlocks w req

structure Sized (w : Worker) (req : ReqMeta) : Prop where
  external_le : numExternalBlocks w req ≤ req.numPromptBlocks
  locals : numExternalBlocks w req ⌈/⌉ w.layout.cpSize = req.localBlockIds.length
  remotes : req.numPromptBlocks ⌈/⌉ (prefillLayout w req).cpSize ≤ req.remoteBlockIds.length

section

variable {w : Worker} {req : ReqMeta}

section

variable (w : Worker) (req : ReqMeta) (en : String) (rows : List (List Nat))

@[simp] theorem learn_layout : (w.learn en rows).layout = w.layout := rfl

@[simp] theorem learn_rank : (w.learn en rows).rank = w.rank := rfl

@[simp] theorem numExternalBlocks_learn :
    numExternalBlocks (w.learn en rows) req = numExternalBlocks w req := rfl

end

variable (h : Deployed w req)
include h

theorem Deployed.learn : Deployed (w.learn req.remoteEngineId (w.mapping req)) req :=
  { h with
    learned := fun mapping hm => by
      simp only [Worker.learn, update_self, Option.some.injEq] at hm
      exact hm.symm }

theorem Deployed.learnMapping_eq : learnMapping w req = .ok (w.mapping req) := by
  unfold learnMapping
  cases hm : w.localRemoteBlockPortMapping req.remoteEngineId with
  | some mapping => rw [h.learned mapping hm]
  | none =>
    obtain ⟨d, hr, hg⟩ := mappings_rows h.prefill h.decode h.check req.remotePort
      w.sideChannelPort h.rank
    simp only [hr, ok_bind, hg]
    rfl

omit h in
theorem Layout.Even.max_div {m : KvHeads} {l : Layout} (h : l.Even m) (hl : m.latent = false) :
    max 1 (m.numKeyValueHeads / l.tpSize) = headsPerGroup m l.tpSize := by
  have hc : m.count = m.numKeyValueHeads := by rw [KvHeads.count, hl]; rfl
  rw [headsPerGroup, numGroups, hc]
  rcases hc ▸ h.dvd with hd | hd
  · have hle := le_of_dvd h.tp_pos hd
    rw [min_eq_right hle, Nat.div_self h.heads_pos, max_eq_left]
    exact (div_le_div_left hle h.heads_pos).trans (Nat.div_self h.heads_pos).le
  · have hle := le_of_dvd h.heads_pos hd
    rw [min_eq_left hle, max_eq_right (Nat.div_pos hle h.tp_pos)]

theorem Deployed.needPulls_eq :
    getTpNumNeedPulls w (effectivePrefillTpSize w req) = w.ratio req := by
  unfold getTpNumNeedPulls Worker.ratio
  rw [h.mla]
  cases hl : w.heads.latent with
  | true =>
    have ho : ∀ {l : Layout}, l.Even w.heads → headsPerGroup w.heads l.tpSize = 1 :=
      fun {l} he => by
      have hc : w.heads.count = 1 := by rw [KvHeads.count, hl]; rfl
      exact eq_one_of_dvd_one (hc ▸ Dvd.intro_left _ he.groups_mul_heads)
    rw [headRatio, ho h.decode, ho h.prefill]
    rfl
  | false =>
    rw [if_neg (by simp), h.decode.max_div hl]
    exact congrArg _ (h.prefill.max_div hl)

theorem Deployed.sources_mul : w.sources req * w.layout.cpSize = (prefillLayout w req).cpSize :=
  Nat.div_mul_cancel (dvd_of_mod_eq_zero h.check.1)

theorem Deployed.cpRank_lt : w.rank.cpRank w.layout < w.layout.cpSize :=
  (h.decode.eq_rankAt h.rank).2.2.1

theorem Deployed.source_lt {s : Nat} (hs : s < w.sources req) :
    w.rank.cpRank w.layout + s * w.layout.cpSize < (prefillLayout w req).cpSize :=
  h.sources_mul ▸ place_lt h.cpRank_lt hs

def Worker.pullRanks (w : Worker) (req : ReqMeta) : List Nat :=
  Pull.pullRanks (w.sources req) w.layout.cpSize (w.rank.cpRank w.layout)
    (lastBlockLocation req.numPromptBlocks (prefillLayout w req).cpSize)

/-- The prompt blocks that the worker pulls from its prefill rank `s`. -/
def Worker.blocksFrom (w : Worker) (req : ReqMeta) (s : Nat) : List Nat :=
  hand (prefillLayout w req).cpSize (numPrefixCachedBlocks w req) req.numPromptBlocks
    (w.rank.cpRank w.layout + s * w.layout.cpSize)

theorem Deployed.lastBlockLocation_lt (n : Nat) :
    lastBlockLocation n (prefillLayout w req).cpSize < w.sources req * w.layout.cpSize := by
  rw [h.sources_mul]
  exact mod_lt _ h.prefill.cpSize_pos

theorem Deployed.ownBlockNums_eq : ownBlockNums w.layout.cpSize (w.rank.cpRank w.layout)
      (lastBlockLocation req.numPromptBlocks (prefillLayout w req).cpSize)
      (remoteBlockNumsAll req.numPromptBlocks (numPrefixCachedBlocks w req)
        (prefillLayout w req).cpSize).zipIdx
      [] none
    = ((range (w.sources req)).map fun s => (w.blocksFrom req s).length,
      if lastBlockLocation req.numPromptBlocks (prefillLayout w req).cpSize % w.layout.cpSize
          = w.rank.cpRank w.layout then
        some (lastBlockLocation req.numPromptBlocks (prefillLayout w req).cpSize / w.layout.cpSize)
      else none) := by
  have hr := ownBlockNums_range h.cpRank_lt (h.lastBlockLocation_lt req.numPromptBlocks) fun r =>
    share (prefillLayout w req).cpSize req.numPromptBlocks r
      - share (prefillLayout w req).cpSize (numPrefixCachedBlocks w req) r
  rw [h.sources_mul] at hr
  rw [remoteBlockNumsAll_eq, hr]
  refine congrArg (·, _) (map_congr_left fun s hs => (length_hand ?_).symm)
  exact h.source_lt (mem_range.mp hs)

theorem Deployed.putLast_eq (ns : Nat → Nat) :
    putLast (if lastBlockLocation req.numPromptBlocks (prefillLayout w req).cpSize % w.layout.cpSize
          = w.rank.cpRank w.layout then
        some (lastBlockLocation req.numPromptBlocks (prefillLayout w req).cpSize / w.layout.cpSize)
      else none) ((range (w.sources req)).map ns) (w.mapping req)
    = .ok ((w.pullRanks req).map ns,
      (range (w.ratio req)).map fun i => (w.pullRanks req).map (w.sourcePort req i)) := by
  unfold Worker.pullRanks pullRanks
  split
  · have hlt : lastBlockLocation req.numPromptBlocks (prefillLayout w req).cpSize / w.layout.cpSize
      < w.sources req :=
      (Nat.div_lt_iff_lt_mul h.decode.cpSize_pos).mpr (h.lastBlockLocation_lt req.numPromptBlocks)
    have hr : (w.mapping req).mapM (moveLast _) = .ok _ :=
      (mapM_map ..).trans (mapM_ok fun i _ => moveLast_map hlt (w.sourcePort req i))
    simp only [putLast, moveLast_map hlt, ok_bind, hr]
    rfl
  · rfl

theorem Deployed.pullRanks_ne_nil : w.pullRanks req ≠ [] := by
  unfold Worker.pullRanks pullRanks
  split
  · simp
  · intro hn
    have hm := h.sources_mul
    rw [range_eq_nil.mp hn, zero_mul] at hm
    exact h.prefill.cpSize_pos.ne hm

theorem getKvSplitMetadata_eq (hs : Sized w req) (crl : List Nat) :
    getKvSplitMetadata w req crl
      = .ok (⟨(w.pullRanks req).map fun s => (range (w.ratio req)).map (w.sourcePort req · s),
          cut req.localBlockIds 0 ((w.pullRanks req).map fun s => (w.blocksFrom req s).length),
          ((w.pullRanks req).map fun s => (w.blocksFrom req s).length).map req.remoteBlockIds.take⟩,
        w.learn req.remoteEngineId (w.mapping req)) := by
  have hcp : (prefillLayout w req).cpSize * w.layout.cpSize ≠ 1 := by
    have := Nat.le_mul_of_pos_right (prefillLayout w req).cpSize h.decode.cpSize_pos
    have := h.cp
    omega
  have hp : transposePorts ((range (w.ratio req)).map fun i => (w.pullRanks req).map
      (w.sourcePort req i))
      = .ok ((w.pullRanks req).map fun s => (range (w.ratio req)).map (w.sourcePort req · s)) :=
    transposePorts_eq (headRatio_pos h.prefill h.decode h.check) _ _
  have hc : cutBlocks req 0 ((w.pullRanks req).map fun s => (range (w.ratio req)).map
      (w.sourcePort req · s))
      ((w.pullRanks req).map fun s => (w.blocksFrom req s).length) = .ok _ :=
        cutBlocks_eq req 0 (by simp)
  have hl : numExternalBlocks (w.learn req.remoteEngineId (w.mapping req)) req
      ⌈/⌉ (w.learn req.remoteEngineId (w.mapping req)).layout.cpSize = req.localBlockIds.length :=
        hs.locals
  have he : numExternalBlocks (w.learn req.remoteEngineId (w.mapping req)) req
      ≤ req.numPromptBlocks := hs.external_le
  have hn := h.ownBlockNums_eq
  unfold numPrefixCachedBlocks at hn
  unfold getKvSplitMetadata
  simp only [if_neg hcp, h.learnMapping_eq, ok_bind, ensure_pos hl, ensure_pos he]
  simp only [numExternalBlocks_learn, learn_layout, learn_rank, hn, h.putLast_eq, ok_bind, hp, hc]
  obtain ⟨s, ranks, hr⟩ := exists_cons_of_ne_nil h.pullRanks_ne_nil
  have hne : getTpNumNeedPulls (w.learn req.remoteEngineId (w.mapping req))
      (effectivePrefillTpSize (w.learn req.remoteEngineId (w.mapping req)) req)
      = ((range (w.ratio req)).map (w.sourcePort req · s)).length := by
    rw [length_map, length_range]
    exact h.needPulls_eq
  simp only [hr, map_cons, ensure_pos hne, ok_bind]
  rfl

/-! ## 5. The pulls in closed form -/

/-- The prompt blocks that the worker pulls, in the order of its local blocks. -/
def Worker.pullOrder (w : Worker) (req : ReqMeta) : List Nat :=
  (w.pullRanks req).flatMap (w.blocksFrom req)

/-- The index at which the pull of prompt block `j` reads the remote list: the cached blocks of the
    prefill rank are taken off. -/
def Worker.readIndex (w : Worker) (req : ReqMeta) (j : Nat) : Nat :=
  j / (prefillLayout w req).cpSize
    - share (prefillLayout w req).cpSize (numPrefixCachedBlocks w req)
      (j % (prefillLayout w req).cpSize)

/-- The pull of prompt block `j` for head group `i` into local block `b`. -/
def Worker.pullOf (w : Worker) (req : ReqMeta) (i j b : Nat) : BlockPull where
  port := w.sourcePort req i (j % (prefillLayout w req).cpSize / w.layout.cpSize)
  localBlock := b
  remoteBlock := req.remoteBlockIds.getD (w.readIndex req j) 0

theorem Deployed.perm_pullRanks : (w.pullRanks req).Perm (range (w.sources req)) :=
  Pull.perm_pullRanks h.decode.cpSize_pos (h.lastBlockLocation_lt req.numPromptBlocks) _

theorem Deployed.perm_pullOrder : (w.pullOrder req).Perm
      (hand w.layout.cpSize (numPrefixCachedBlocks w req)
        req.numPromptBlocks (w.rank.cpRank w.layout)) := by
  have hq : 0 < w.sources req := by
    by_contra hzero
    have hm := h.sources_mul
    rw [Nat.eq_zero_of_not_pos hzero, zero_mul] at hm
    exact h.prefill.cpSize_pos.ne hm
  refine (h.perm_pullRanks.flatMap_right _).trans ?_
  unfold Worker.blocksFrom
  rw [← h.sources_mul]
  exact perm_flatMap_hand hq h.cpRank_lt

omit h in
theorem Sized.external_eq (hs : Sized w req) :
    req.numPromptBlocks - numPrefixCachedBlocks w req = numExternalBlocks w req := by
  have := hs.external_le
  unfold numPrefixCachedBlocks
  omega

theorem length_pullOrder_le (hs : Sized w req) :
    (w.pullOrder req).length ≤ req.localBlockIds.length := by
  rw [h.perm_pullOrder.length_eq, ← hs.locals, ← hs.external_eq]
  exact length_hand_le h.cpRank_lt

theorem reads_from (hs : Sized w req) (i : Nat) {s : Nat} (hlt : s < w.sources req) :
    (w.blocksFrom req s).length ≤ req.remoteBlockIds.length ∧
    (req.remoteBlockIds.take (w.blocksFrom req s).length).map (fun b => (w.sourcePort req i s, b))
      = (w.blocksFrom req s).map fun j =>
        (w.sourcePort req i (j % (prefillLayout w req).cpSize / w.layout.cpSize),
        req.remoteBlockIds.getD (w.readIndex req j) 0) := by
  have hr := h.source_lt hlt
  have hsh : share (prefillLayout w req).cpSize req.numPromptBlocks
      (w.rank.cpRank w.layout + s * w.layout.cpSize) ≤ req.remoteBlockIds.length := by
    have hle : (hand _ 0 req.numPromptBlocks _).length ≤ _ := (length_hand_le hr).trans hs.remotes
    rwa [length_hand hr, share_zero, Nat.sub_zero] at hle
  have hl : (w.blocksFrom req s).length = _ := length_hand hr
  refine ⟨by omega, ?_⟩
  have ht : req.remoteBlockIds.take (w.blocksFrom req s).length
      = (range (w.blocksFrom req s).length).map (req.remoteBlockIds.getD · 0) :=
    ext_getElem (by rw [length_take, length_map, length_range]; omega) fun x hx _ => by
      rw [length_take] at hx
      simp [show x < req.remoteBlockIds.length by omega]
  rw [ht, hl, Worker.blocksFrom, hand_eq_map hr, map_map, map_map]
  refine map_congr_left fun x _ => ?_
  simp only [comp_apply, Worker.readIndex, add_mul_mod hr, add_mul_div hr, add_mul_div h.cpRank_lt,
    Nat.add_sub_cancel_left]

/-- **The pulls in closed form**: the local blocks in order, beside the prompt blocks in the order
    in which they are pulled. -/
theorem pulls_eq (hs : Sized w req) (crl : List Nat) :
    ∃ res, getKvSplitMetadata w req crl = .ok (res, w.learn req.remoteEngineId (w.mapping req)) ∧
      ∀ i < w.ratio req, pulls res i
        = (req.localBlockIds.zip (w.pullOrder req)).map fun e => w.pullOf req i e.2 e.1 := by
  refine ⟨_, getKvSplitMetadata_eq h hs crl, fun i hi => ?_⟩
  have hr : ∀ s ∈ w.pullRanks req, s < w.sources req := fun s hm =>
    mem_range.mp (h.perm_pullRanks.mem_iff.mp hm)
  have hc := pulls_cut req.localBlockIds req.remoteBlockIds
    (fun s => (range (w.ratio req)).map (w.sourcePort req · s)) (w.blocksFrom req)
    (w.sourcePort req i) i (fun s => by simp [hi]) (w.pullRanks req) 0
    (fun s hm => (reads_from h hs i (hr s hm)).1)
    (by rw [zero_add]; exact length_pullOrder_le h hs)
  rw [pulls, hc, drop_zero, flatMap_congr fun s hm => (reads_from h hs i (hr s hm)).2,
    ← map_flatMap, zip_map_right, map_map]
  rfl

end

end VllmDual.Pull
