/-
  Subject:   CONTEXT-PARALLEL PULLS COVER EACH BLOCK ONCE.

  The ranks of one decode group share the external blocks of a prompt. What they pull is a
  permutation of these blocks, every block from a prefill rank that holds it, in each head group:

  * `pulls_cover` -- over the ranks of a decode group the pulls fetch every external block once;
  * `pulls_do_not_cover` -- why the layouts must be even, why one decode group at a time, and why a
    rank's last local block may stay without a pull.
-/
import VllmDual.Pull.SplitMetadata

namespace VllmDual.Pull

open RoundRobin Nat List

/-- A pull of prompt block `j` for prefill head group `g` into local block `b`, from a prefill rank
    that holds both. If nothing is cached locally, or no prefill rank has two blocks, it reads the
    block id at which that rank stores the block. -/
structure Fetches (w : Worker) (req : ReqMeta) (g : Nat) (e : Nat × Nat) (pull : BlockPull) :
    Prop where
  target : pull.localBlock = e.1
  source : ∃ r : Rank, r.In (prefillLayout w req) ∧
    r.port (prefillLayout w req) req.remotePort = pull.port ∧
    r.group (prefillLayout w req) w.heads = g ∧
      r.cpRank (prefillLayout w req) = e.2 % (prefillLayout w req).cpSize
  block : numPrefixCachedBlocks w req = 0 ∨ req.numPromptBlocks ≤ (prefillLayout w req).cpSize →
    req.remoteBlockIds[e.2 / (prefillLayout w req).cpSize]? = some pull.remoteBlock

def Worker.at (w : Worker) (r : Rank) (known : String → Option (List (List Nat))) : Worker :=
  { w with rank := r, localRemoteBlockPortMapping := known }

section

variable {w : Worker} {req : ReqMeta}

theorem Deployment.deployed_at {k : Rank → String → Option (List (List Nat))}
    (hd : Deployment w req)
    (hk : ∀ r : Rank, r.In w.layout → ∀ mapping, k r req.remoteEngineId = some mapping →
      mapping = (w.at r (k r)).mapping req) {r : Rank} (hr : r.In w.layout) :
    Deployed (w.at r (k r)) req :=
  ⟨⟨hd.prefill, hd.decode, hd.check, hd.mla, hd.cp⟩, hr, hk r hr⟩

theorem Sized.at (hs : Sized w req) (r : Rank) (k : String → Option (List (List Nat))) :
    Sized (w.at r k) req :=
  ⟨hs.external_le, hs.locals, hs.remotes⟩

theorem lastBlockLocation_eq {n k : Nat} (hn : 0 < n) (hk : 0 < k) :
    lastBlockLocation n k = (n - 1) % k := by
  have hm := mod_lt n hk
  have hpr : n - 1 = n % k + n / k * k - 1 := by rw [mod_add_div']
  unfold lastBlockLocation
  rcases Nat.eq_zero_or_pos (n % k) with hz | hp
  · have hq : 0 < n / k := by
      by_contra hq
      rw [Nat.eq_zero_of_not_pos hq, zero_mul, hz] at hpr
      have := mod_add_div' n k
      rw [Nat.eq_zero_of_not_pos hq, hz] at this
      omega
    obtain ⟨x, hx⟩ : ∃ x, n / k = x + 1 := ⟨n / k - 1, by omega⟩
    rw [hpr, hz, hx, add_mul, one_mul, show 0 + (x * k + k) - 1 = k - 1 + x * k by omega,
      add_mul_mod_self_right, zero_add]
  · rw [hpr, show n % k + n / k * k - 1 = n % k - 1 + n / k * k by omega, add_mul_mod_self_right,
      show n % k + k - 1 = n % k - 1 + k by omega, add_mod_right]

theorem pullOrder_last (h : Deployed w req) (hs : Sized w req)
    (he : numPrefixCachedBlocks w req < req.numPromptBlocks)
    (ho : (req.numPromptBlocks - 1) % w.layout.cpSize = w.rank.cpRank w.layout) :
    (w.pullOrder req).getLast? = some (req.numPromptBlocks - 1) ∧
      (w.pullOrder req).length = req.localBlockIds.length := by
  have hd := dvd_of_mod_eq_zero h.check.1
  have hloc : lastBlockLocation req.numPromptBlocks (prefillLayout w req).cpSize
      = (req.numPromptBlocks - 1) % (prefillLayout w req).cpSize :=
    lastBlockLocation_eq (by omega) h.prefill.cpSize_pos
  have hm : (req.numPromptBlocks - 1) % (prefillLayout w req).cpSize % w.layout.cpSize
      = w.rank.cpRank w.layout := by
    rw [mod_mod_of_dvd _ hd, ho]
  constructor
  · have hf : w.blocksFrom req ((req.numPromptBlocks - 1)
      % (prefillLayout w req).cpSize / w.layout.cpSize)
        = hand (prefillLayout w req).cpSize (numPrefixCachedBlocks w req) req.numPromptBlocks
          ((req.numPromptBlocks - 1) % (prefillLayout w req).cpSize) := by
      rw [Worker.blocksFrom, ← hm, mod_add_div']
    have hl := getLast?_hand (k := (prefillLayout w req).cpSize) he
    rw [Worker.pullOrder, Worker.pullRanks, hloc, pullRanks, if_pos hm, flatMap_append,
      flatMap_cons, flatMap_nil, append_nil, hf, getLast?_append, hl]
    rfl
  · rw [h.perm_pullOrder.length_eq, ← ho, length_hand_last h.decode.cpSize_pos he, hs.external_eq,
      hs.locals]

theorem mem_pullOrder (h : Deployed w req) {j : Nat} : j ∈ w.pullOrder req ↔
    numPrefixCachedBlocks w req ≤ j ∧ j < req.numPromptBlocks ∧
      j % w.layout.cpSize = w.rank.cpRank w.layout := by
  rw [h.perm_pullOrder.mem_iff, mem_hand]

theorem readIndex_eq {j : Nat} (hj : j < req.numPromptBlocks)
    (hc : numPrefixCachedBlocks w req = 0 ∨ req.numPromptBlocks ≤ (prefillLayout w req).cpSize) :
    w.readIndex req j = j / (prefillLayout w req).cpSize := by
  unfold Worker.readIndex
  rcases hc with hc | hc
  · rw [hc, share_zero, Nat.sub_zero]
  · rw [div_eq_of_lt (by omega), Nat.zero_sub]

theorem fetches_pullOf (h : Deployed w req) (hs : Sized w req) {i j b : Nat} (hi : i < w.ratio req)
    (hj : j ∈ w.pullOrder req) :
    Fetches w req (w.rank.group w.layout w.heads * w.ratio req + i) (b, j)
      (w.pullOf req i j b) := by
  obtain ⟨hlo, hhi, hm⟩ := (mem_pullOrder h).mp hj
  have hd := dvd_of_mod_eq_zero h.check.1
  obtain ⟨hg, -, -, -⟩ := h.decode.eq_rankAt h.rank
  have hp : w.rank.cpRank w.layout + j % (prefillLayout w req).cpSize / w.layout.cpSize
      * w.layout.cpSize = j % (prefillLayout w req).cpSize := by
    rw [← hm, ← mod_mod_of_dvd j hd, mod_add_div']
  have hr : w.rank.replica w.layout w.heads % (prefillLayout w req).repeats w.heads
      < (prefillLayout w req).repeats w.heads := mod_lt _ h.prefill.repeats_pos
  have hgr : w.rank.group w.layout w.heads * headRatio w.heads (prefillLayout w req) w.layout + i
      < numGroups w.heads (prefillLayout w req).tpSize := by
    rw [numGroups_eq h.prefill h.decode h.check]
    have hmul := Nat.mul_le_mul_right (headRatio w.heads (prefillLayout w req) w.layout)
        (succ_le_of_lt hg)
    rw [succ_mul] at hmul
    have : i < headRatio w.heads (prefillLayout w req) w.layout := hi
    omega
  refine ⟨rfl, ⟨sourceRank w.heads (prefillLayout w req) w.layout w.rank i
    (j % (prefillLayout w req).cpSize / w.layout.cpSize), ?_, rfl, ?_, ?_⟩, fun hc => ?_⟩
  · refine h.prefill.in_rankAt hgr hr ?_
    rw [hp]
    exact mod_lt _ h.prefill.cpSize_pos
  · exact h.prefill.group_rankAt hr
  · rw [sourceRank, h.prefill.cpRank_rankAt, hp]
  · have hlt : j / (prefillLayout w req).cpSize < req.remoteBlockIds.length := by
      refine lt_of_lt_of_le ?_ hs.remotes
      rw [lt_ceilDiv_iff h.prefill.cpSize_pos]
      exact (div_mul_le_self j _).trans_lt hhi
    simp only [Worker.pullOf, readIndex_eq hhi hc]
    rw [getElem?_eq_getElem hlt, getD_eq_getElem _ _ hlt]

end

/-- **A decode group covers the external blocks**: all ranks together have every external block
    once, `orders x` for part `x`. On every rank the call returns; block `k` of the order goes to
    local block `k`, for every prefill head group inside; and the rank of the last prompt block has
    it last. -/
def CoversGroup (w : Worker) (known : Rank → String → Option (List (List Nat))) (req : ReqMeta)
    (chosenRankList : List Nat) (g t : Nat) : Prop :=
  let need := getTpNumNeedPulls w (effectivePrefillTpSize w req)
  ∃ orders : Nat → List Nat,
    ((range w.layout.cpSize).flatMap orders).Perm (range' (numPrefixCachedBlocks w req)
      (numExternalBlocks w req)) ∧
    (∀ p, (∀ head ∈ headGroup (headsPerGroup w.heads (prefillLayout w req).tpSize) p,
        head ∈ headGroup (headsPerGroup w.heads w.layout.tpSize) g) ↔
          ∃ i < need, p = g * need + i) ∧
    ∀ x < w.layout.cpSize, ∃ res w',
      getKvSplitMetadata (w.at (w.layout.rankAt w.heads g t x)
        (known (w.layout.rankAt w.heads g t x))) req
        chosenRankList = .ok (res, w') ∧ Deployed w' req ∧
      (∀ j ∈ orders x, j % w.layout.cpSize = x) ∧
      (orders x).length ≤ req.localBlockIds.length ∧
      (numPrefixCachedBlocks w req < req.numPromptBlocks →
        (req.numPromptBlocks - 1) % w.layout.cpSize = x →
        (orders x).getLast? = some (req.numPromptBlocks - 1) ∧
        (orders x).length = req.localBlockIds.length) ∧
      ∀ i < need, Forall₂ (Fetches w req (g * need + i)) (req.localBlockIds.zip (orders x))
        (pulls res i)

/-- **Context-parallel pulls cover each block once**, in every decode group of an even
    deployment. -/
theorem pulls_cover (w : Worker) (known : Rank → String → Option (List (List Nat))) (req : ReqMeta)
    (chosenRankList : List Nat) (hdep : Deployment w req)
    (hknown : ∀ r : Rank, r.In w.layout → ∀ mapping, known r req.remoteEngineId = some mapping →
      mapping = (w.at r (known r)).mapping req)
    (hs : Sized w req) {g t : Nat} (hg : g < numGroups w.heads w.layout.tpSize)
    (ht : t < w.layout.repeats w.heads) : CoversGroup w known req chosenRankList g t := by
  have hL : 0 < w.layout.cpSize := hdep.decode.cpSize_pos
  have hd := fun x (hx : x < w.layout.cpSize) =>
      hdep.deployed_at hknown (hdep.decode.in_rankAt hg ht hx)
  have hn : getTpNumNeedPulls w (effectivePrefillTpSize w req) = w.ratio req :=
    (hd 0 hL).needPulls_eq
  refine ⟨fun x => (w.at (w.layout.rankAt w.heads g t x)
    (known (w.layout.rankAt w.heads g t x))).pullOrder req, ?_, fun p => ?_, fun x hx => ?_⟩
  · rw [← hs.external_eq]
    refine Perm.trans ?_ (perm_flatMap_hand_all hL _ _)
    refine Perm.flatMap_left _ fun x hx => ?_
    have hpe := (hd x (mem_range.mp hx)).perm_pullOrder
    simp only [Worker.at] at hpe
    rw [hdep.decode.cpRank_rankAt] at hpe
    exact hpe
  · have hw := headRatio_pos hdep.prefill hdep.decode hdep.check
    rw [headRatio_mul hdep.prefill hdep.decode hdep.check,
      headGroup_subset_iff hdep.prefill.headsPerGroup_pos hw, hn, Worker.ratio]
    constructor
    · intro hp
      exact ⟨p % _, mod_lt p hw, by rw [← hp, div_add_mod']⟩
    · intro ⟨i, hi, hp⟩
      rw [hp, add_comm, add_mul_div hi]
  · have h := hd x hx
    have hr : (w.layout.rankAt w.heads g t x).cpRank w.layout = x := hdep.decode.cpRank_rankAt
    have hgr : (w.layout.rankAt w.heads g t x).group w.layout w.heads = g :=
      hdep.decode.group_rankAt ht
    obtain ⟨res, hrun, hpu⟩ := pulls_eq h (hs.at _ _) chosenRankList
    refine ⟨res, _, hrun, h.learn, fun j hj => ?_, length_pullOrder_le h (hs.at _ _),
      fun hext ho => ?_, fun i hi => ?_⟩
    · exact ((mem_pullOrder h).mp hj).2.2.trans hr
    · exact pullOrder_last h (hs.at _ _) hext (ho.trans hr.symm)
    · rw [hn] at hi ⊢
      rw [hpu i hi, forall₂_map_right_iff, forall₂_same]
      intro e he
      have hf := fetches_pullOf h (hs.at _ _) (b := e.1) hi (of_mem_zip he).2
      change Fetches _ req
        ((w.layout.rankAt w.heads g t x).group w.layout w.heads * w.ratio req + i) _ _ at hf
      rw [hgr] at hf
      exact ⟨hf.target, hf.source, hf.block⟩

def latentWorker (layout : Layout) (rank : Rank) : Worker where
  heads := ⟨true, 1⟩
  isDeepseekMla := true
  layout := layout
  rank := rank
  sideChannelPort := 100
  blockSize := 4
  prefillTpSize := 2
  localRemoteBlockPortMapping := fun _ => none

def threeBlocks (localBlockIds : List Nat) : ReqMeta where
  localBlockIds := localBlockIds
  numExternalTokens := 12
  remoteBlockIds := [5, 6]
  remotePort := 200
  remoteEngineId := "prefill"
  remotePcpSize := 1
  remoteDcpSize := 2
  remotePtpSize := some 2
  numPromptBlocks := 3

theorem threeBlocks_deployment :
    Deployment (latentWorker ⟨1, 1, 1⟩ ⟨0, 0⟩) (threeBlocks [7, 8, 9]) where
  prefill := ⟨by decide, by decide, by decide, by decide, by decide⟩
  decode := ⟨by decide, by decide, by decide, by decide, by decide⟩
  check := by decide
  mla := rfl
  cp := by decide

/-- One decode rank pulls three blocks from two prefill ranks. -/
theorem pulls_cover_threeBlocks :
    CoversGroup (latentWorker ⟨1, 1, 1⟩ ⟨0, 0⟩) (fun _ _ => none) (threeBlocks [7, 8, 9]) [] 0 0 :=
  pulls_cover _ (fun _ _ => none) _ _ threeBlocks_deployment (fun _ _ _ h => nomatch h)
    ⟨by decide, by decide, by decide⟩ (by decide) (by decide)

/-- What a call pulls for head group `i`. -/
def pulled (w : Worker) (req : ReqMeta) (i : Nat) : Except PullError (List BlockPull) :=
  (getKvSplitMetadata w req []).map fun e => pulls e.1 i

example : pulled (latentWorker ⟨1, 1, 1⟩ ⟨0, 0⟩) (threeBlocks [7, 8, 9]) 0
    = .ok [⟨201, 7, 5⟩, ⟨200, 8, 5⟩, ⟨200, 9, 6⟩] := by decide

def headsWorker (heads : KvHeads) (layout : Layout) (rank : Rank) : Worker :=
  { latentWorker layout rank with heads := heads, isDeepseekMla := false }

def threeBlocksFrom (prefill : Layout) (localBlockIds : List Nat) : ReqMeta :=
  { threeBlocks localBlockIds with
    remotePcpSize := prefill.pcpSize, remoteDcpSize := prefill.dcpSize, remotePtpSize :=
      some prefill.tpSize }

/-- **Not every accepted layout covers each block once.** In turn: a rank with one block too few;
    two decode ranks with the same heads; of nine heads, two that no decode rank pulls; a decode
    rank in no context-parallel group; and a latent cache of a model that is not taken for MLA. -/
theorem pulls_do_not_cover :
    (contextParallelParametersCheck ⟨true, 1⟩ ⟨2, 1, 2⟩ ⟨2, 1, 2⟩ ∧
      pulled (latentWorker ⟨2, 1, 2⟩ ⟨0, 1⟩) (threeBlocks [10, 11]) 0 = .ok [⟨201, 10, 5⟩]) ∧
    (contextParallelParametersCheck ⟨true, 1⟩ ⟨2, 1, 2⟩ ⟨2, 1, 1⟩ ∧
      ∀ rank < 2, pulled (latentWorker ⟨2, 1, 1⟩ ⟨0, rank⟩) (threeBlocks [7, 8, 9]) 0
        = .ok [⟨201, 7, 5⟩, ⟨200, 8, 5⟩, ⟨200, 9, 6⟩]) ∧
    (contextParallelParametersCheck ⟨false, 9⟩ ⟨4, 2, 1⟩ ⟨3, 1, 1⟩ ∧
      (range 3).map (fun rank => (pulled (headsWorker ⟨false, 9⟩ ⟨3, 1, 1⟩ ⟨0, rank⟩)
        (threeBlocksFrom ⟨4, 2, 1⟩ [7, 8, 9]) 0).map (·.map BlockPull.port))
        = [.ok [204, 200, 200], .ok [206, 202, 202], .ok [207, 203, 203]]) ∧
    (contextParallelParametersCheck ⟨true, 1⟩ ⟨2, 1, 2⟩ ⟨3, 1, 2⟩ ∧
      pulled (latentWorker ⟨3, 1, 2⟩ ⟨0, 2⟩) (threeBlocks [10, 11]) 0 = .error .keyError) ∧
    (contextParallelParametersCheck ⟨true, 4⟩ ⟨2, 1, 2⟩ ⟨1, 1, 1⟩ ∧
      pulled (headsWorker ⟨true, 4⟩ ⟨1, 1, 1⟩ ⟨0, 0⟩) (threeBlocks [7, 8, 9]) 0
        = .error (.assertion "tp_num_need_pulls == len(remote_handshake_port_list[0])")) := by
  decide

end VllmDual.Pull
