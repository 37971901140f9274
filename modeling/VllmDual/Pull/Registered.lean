/-
  Subject:   WHAT A BLOCK HOLDS AND UNDER WHICH HASH IT IS REGISTERED.

  After a remote load the decode scheduler registers the full blocks of the prompt in the prefix
  cache (`_update_waiting_for_remote_kv`): the block at place `v` of the table under hash `v`. What
  the block holds was decided on the worker, by the order of the pulls.

  * `registered_iff` -- the registered blocks hold what they are registered for, exactly when the
    pulls are in place (`inPlace_iff`);
  * `registers_another_block` -- three blocks from two prefill ranks, where they are not.
-/
import VllmDual.Core.Manager
import VllmDual.Pull.Coverage
import VllmDual.Pull.Order

namespace VllmDual.Pull

open Outcome RoundRobin List Option Nat
open VllmDual.Core

/-! ## 1. Registration -/

def getUnhashedBlockIds (p : BlockPool) (blocks : List BlockId) : List Nat :=
  blocks.filter fun b => p.blockHash b = none

/-- A request of `numTokens` prompt tokens, `cv` blocks of which were cached locally; the others
    have been allocated and pulled. -/
structure AwaitsRemote (m : Manager) (p : BlockPool) (e : Entry) (hashes : List BlockHash)
    (numTokens cv : Nat) (w : Worker) (req : ReqMeta) : Prop where
  worldSize : m.worldSize = w.layout.cpSize
  specBlockSize : m.specBlockSize = w.blockSize
  hash_dvd : p.hashBlockSize ∣ m.blockSize
  hashes : hashes.length = numTokens / p.hashBlockSize
  blocks : e.blocks.length = numTokens ⌈/⌉ m.blockSize
  nodup : e.blocks.Nodup
  real : 0 ∉ e.blocks
  cached : e.numCachedBlock = some cv
  external_pos : cv * m.blockSize < numTokens
  hashed : ∀ v b, e.blocks[v]? = some b → (p.blockHash b = none ↔ cv ≤ v)
  numExternalTokens : req.numExternalTokens = numTokens - cv * m.blockSize
  numPromptBlocks : req.numPromptBlocks = numTokens ⌈/⌉ w.blockSize
  localBlockIds : req.localBlockIds = getUnhashedBlockIds p e.blocks
  remotes : req.numPromptBlocks ⌈/⌉ (prefillLayout w req).cpSize ≤ req.remoteBlockIds.length
  remotes_nodup : req.remoteBlockIds.Nodup

/-- The block at place `v` of the table has been registered under hash `v`. -/
structure RegisteredAt (m : Manager) (p p' : BlockPool) (e : Entry) (hashes : List BlockHash)
    (v : Nat) (b : BlockId) : Prop where
  place : e.blocks[v]? = some b
  new : p.blockHash b = none
  key : ∃ hash, blockHashAt hashes (m.blockSize / p.hashBlockSize) v = some hash ∧
    p'.blockHash b = some ⟨hash, m.group⟩

section

variable {m : Manager} {p : BlockPool} {e : Entry} {hashes : List BlockHash} {numTokens cv : Nat}
  {w : Worker} {req : ReqMeta}

theorem cacheBlocksFrom_registers (gr : Nat) {fa i : Nat} {l : List BlockId} (hn : l.Nodup)
    (hr : 0 ∉ l) (hnew : ∀ b ∈ l, p.blockHash b = none) (hh : (i + l.length) * fa ≤ hashes.length) :
    ∃ p', BlockPool.cacheBlocksFrom hashes fa gr p i l = .ok p' ∧
      (∀ b ∉ l, p'.blockHash b = p.blockHash b) ∧
      ∀ t b, l[t]? = some b → ∃ hash, blockHashAt hashes fa (i + t) = some hash ∧
        p'.blockHash b = some ⟨hash, gr⟩ := by
  induction l generalizing p i with
  | nil => exact ⟨p, rfl, fun _ _ => rfl, fun t b hb => by simp at hb⟩
  | cons a l ih =>
    rw [nodup_cons] at hn
    have hat : (i + 1) * fa ≤ hashes.length :=
      (Nat.mul_le_mul_right fa (by simp only [length_cons]; omega)).trans hh
    have hhe : blockHashAt hashes fa i = some ((hashes.drop (i * fa)).take fa) := if_pos hat
    have hs : ∃ p₁, p.cacheBlock hashes fa gr i a = .ok p₁ ∧
        p₁.blockHash = Function.update p.blockHash a
          (some ⟨(hashes.drop (i * fa)).take fa, gr⟩) := by
      have hz : a ≠ 0 := fun heq => hr (heq ▸ mem_cons_self)
      rw [BlockPool.cacheBlock, if_neg hz, ensure_pos (hnew a (by simp)), ok_bind, hhe]
      exact ⟨_, rfl, rfl⟩
    obtain ⟨p₁, hrun, hp₁⟩ := hs
    have hne : ∀ b ∈ l, b ≠ a := fun b hb heq => hn.1 (heq ▸ hb)
    obtain ⟨p', hre, ho, hin⟩ := ih (p := p₁) (i := i + 1)
      hn.2 (fun h0 => hr (mem_cons_of_mem _ h0))
      (fun b hb => by
        rw [hp₁, Function.update_of_ne (hne b hb)]
        exact hnew b (mem_cons_of_mem _ hb))
      (by rw [length_cons] at hh; rwa [add_assoc, add_comm 1])
    refine ⟨p', by rw [BlockPool.cacheBlocksFrom, hrun, ok_bind, hre], fun b hb => ?_,
      fun t b hb => ?_⟩
    · rw [mem_cons, not_or] at hb
      rw [ho b hb.2, hp₁, Function.update_of_ne hb.1]
    · cases t with
      | zero =>
        rw [getElem?_cons_zero, some_inj] at hb
        subst hb
        exact ⟨_, hhe, by rw [ho a hn.1, hp₁, Function.update_self]⟩
      | succ t =>
        rw [getElem?_cons_succ] at hb
        have := hin t b hb
        rwa [show i + 1 + t = i + (t + 1) by omega] at this

namespace AwaitsRemote

variable (h : AwaitsRemote m p e hashes numTokens cv w req)

include h

theorem localBlockIds_eq : req.localBlockIds = e.blocks.drop cv := by
  have hc : ∀ b ∈ e.blocks.take cv, ¬p.blockHash b = none := by
    intro b hb
    obtain ⟨v, hv, hg⟩ := mem_take_iff_getElem.mp hb
    rw [h.hashed v b (List.getElem?_eq_some_iff.mpr ⟨by omega, hg⟩)]
    omega
  have hn : ∀ b ∈ e.blocks.drop cv, p.blockHash b = none := by
    intro b hb
    obtain ⟨v, hv, hg⟩ := mem_drop_iff_getElem.mp hb
    exact (h.hashed (cv + v) b (List.getElem?_eq_some_iff.mpr ⟨by omega, hg⟩)).mpr (by omega)
  rw [h.localBlockIds, getUnhashedBlockIds]
  conv_lhs => rw [← take_append_drop cv e.blocks]
  rw [filter_append, filter_eq_nil_iff.mpr (by simpa using hc),
    filter_eq_self.mpr (by simpa using hn), nil_append]

theorem full_le : numTokens / m.blockSize ≤ e.blocks.length := by
  rw [h.blocks]
  exact div_le_ceilDiv m.blockSize_pos le_rfl

theorem baseCacheBlocks_registers :
    ∃ e' p', m.baseCacheBlocks (.one p) e hashes numTokens = .ok (e', .one p') ∧
    ∀ v b, RegisteredAt m p p' e hashes v b ↔ cv ≤ v ∧ v < numTokens / m.blockSize ∧
      e.blocks[v]? = some b := by
  have hc : ((numTokens : Int) / (m.blockSize : Int)).toNat = numTokens / m.blockSize := by
    rw [← Int.natCast_ediv, Int.toNat_natCast]
  have hd : numTokens / m.blockSize * m.blockSize ≤ numTokens := div_mul_le_self _ _
  have hpos : 0 < p.hashBlockSize := pos_of_dvd_of_pos h.hash_dvd m.blockSize_pos
  unfold Manager.baseCacheBlocks
  simp only [h.cached, getD_some, hc]
  by_cases hn : numTokens / m.blockSize ≤ cv
  · refine ⟨e, p, if_pos hn, fun v b => ⟨fun hr => ?_, fun hr => absurd hr.2.1 (by omega)⟩⟩
    obtain ⟨hash, -, hk⟩ := hr.key
    rw [hr.new] at hk
    cases hk
  · have hl : numTokens / m.blockSize ≤ hashes.length := by
      rw [h.hashes]
      exact div_le_div_left (le_of_dvd m.blockSize_pos h.hash_dvd) hpos
    have hm : m.blockSize % p.hashBlockSize = 0 := mod_eq_zero_of_dvd h.hash_dvd
    have hsub : ((e.blocks.take (numTokens / m.blockSize)).drop cv).Sublist e.blocks :=
      (drop_sublist ..).trans (take_sublist ..)
    have hg : ∀ t b, ((e.blocks.take (numTokens / m.blockSize)).drop cv)[t]? = some b ↔
        cv + t < numTokens / m.blockSize ∧ e.blocks[cv + t]? = some b := by
      intro t b
      rw [getElem?_drop, getElem?_take]
      split <;> simp [*]
    have hnew : ∀ b ∈ (e.blocks.take (numTokens / m.blockSize)).drop cv, p.blockHash b = none := by
      intro b hb
      obtain ⟨t, ht⟩ := mem_iff_getElem?.mp hb
      exact (h.hashed _ b ((hg t b).mp ht).2).mpr (by omega)
    have hf : (cv + ((e.blocks.take (numTokens / m.blockSize)).drop cv).length)
        * (m.blockSize / p.hashBlockSize) ≤ hashes.length := by
      have hfu := h.full_le
      rw [length_drop, length_take, min_eq_left hfu, Nat.add_sub_cancel' (by omega), h.hashes,
        Nat.le_div_iff_mul_le hpos, mul_assoc, Nat.div_mul_cancel h.hash_dvd]
      exact hd
    obtain ⟨p', hrun, ho, hin⟩ := cacheBlocksFrom_registers m.group (hsub.nodup h.nodup)
      (fun hz => h.real (hsub.subset hz)) hnew hf
    refine ⟨{ e with numCachedBlock := some (numTokens / m.blockSize) }, p', ?_,
      fun v b => ⟨fun hr => ?_, ?_⟩⟩
    · simp only [if_neg hn, Pools.cacheFullBlocks, BlockPool.cacheFullBlocks, ensure_pos hl,
        ensure_pos hm, ok_bind, hrun]
      rfl
    · have hle := (h.hashed v b hr.place).mp hr.new
      refine ⟨hle, ?_, hr.place⟩
      have hmem : b ∈ (e.blocks.take (numTokens / m.blockSize)).drop cv := by
        by_contra hb
        obtain ⟨hash, -, hk⟩ := hr.key
        rw [ho b hb, hr.new] at hk
        cases hk
      obtain ⟨t, ht⟩ := mem_iff_getElem?.mp hmem
      have hp := (hg t b).mp ht
      have hv := (List.getElem?_eq_some_iff.mp hr.place).1
      have hs : v = cv + t := (getElem?_inj hv h.nodup).mp (hr.place.trans hp.2.symm)
      exact hs ▸ hp.1
    · rintro ⟨hle, hlt, hp⟩
      obtain ⟨t, rfl⟩ := Nat.exists_eq_add_of_le hle
      exact ⟨hp, (h.hashed _ b hp).mpr hle, hin t b ((hg t b).mpr ⟨hlt, hp⟩)⟩

end AwaitsRemote

end

/-! ## 2. What a block holds -/

/-- A pull reads prompt block `j` for prefill head group `g`: from a prefill rank that holds both,
    at the id under which that rank stores the block. -/
structure Reads (w : Worker) (req : ReqMeta) (g j : Nat) (pull : BlockPull) : Prop where
  source : ∃ r : Rank, r.In (prefillLayout w req) ∧
    r.port (prefillLayout w req) req.remotePort = pull.port ∧
    r.group (prefillLayout w req) w.heads = g ∧
      r.cpRank (prefillLayout w req) = j % (prefillLayout w req).cpSize
  block : req.remoteBlockIds[j / (prefillLayout w req).cpSize]? = some pull.remoteBlock

/-- After the pulls local block `b` holds prompt block `j`: the one pull into it reads that
    block. -/
def Holds (w : Worker) (req : ReqMeta) (g : Nat) (done : List BlockPull) (b j : Nat) : Prop :=
  ∃ pull, done.filter (·.localBlock = b) = [pull] ∧ Reads w req g j pull

/-- **Registered blocks hold what they are registered for**, on every rank of a decode group: the
    block at place `v` holds block `x + v * L` on the rank for part `x` of `L`. -/
def RegisteredRight (m : Manager) (p : BlockPool) (e : Entry) (hashes : List BlockHash)
    (numTokens : Nat)
    (w : Worker) (known : Rank → String → Option (List (List Nat))) (req : ReqMeta)
    (chosenRankList : List Nat)
    (g t : Nat) : Prop :=
  let need := getTpNumNeedPulls w (effectivePrefillTpSize w req)
  ∃ e' p', m.baseCacheBlocks (.one p) e hashes numTokens = .ok (e', .one p') ∧
    ∀ x < w.layout.cpSize, ∃ res w',
      getKvSplitMetadata (w.at (w.layout.rankAt w.heads g t x)
        (known (w.layout.rankAt w.heads g t x))) req chosenRankList = .ok (res, w') ∧
      ∀ v b, RegisteredAt m p p' e hashes v b → ∀ i < need,
        Holds w req (g * need + i) (pulls res i) b (x + v * w.layout.cpSize)

section

variable {w : Worker} {req : ReqMeta}

variable {i j b : Nat}

theorem reads_pullOf_iff (h : Deployed w req) (hs : Sized w req) (hn : req.remoteBlockIds.Nodup)
    {k : Nat} (hi : i < w.ratio req) (hj : j ∈ w.pullOrder req) :
    Reads w req (w.rank.group w.layout w.heads * w.ratio req + i) k (w.pullOf req i j b) ↔
      content (prefillLayout w req).cpSize (numPrefixCachedBlocks w req) j = k := by
  have hR := h.prefill.cpSize_pos
  have hm := mod_lt j hR
  obtain ⟨r, hr, hpo, hg, hp⟩ := (fetches_pullOf h hs (b := b) hi hj).source
  have hlt : w.readIndex req j < req.remoteBlockIds.length := by
    refine lt_of_le_of_lt (sub_le _ _) (lt_of_lt_of_le ?_ hs.remotes)
    rw [lt_ceilDiv_iff hR]
    exact (div_mul_le_self j _).trans_lt ((mem_pullOrder h).mp hj).2.1
  have hb : req.remoteBlockIds[w.readIndex req j]? = some (w.pullOf req i j b).remoteBlock := by
    simp only [Worker.pullOf]
    rw [getElem?_eq_getElem hlt, getD_eq_getElem _ _ hlt]
  constructor
  · intro hre
    obtain ⟨r', hr', hpo', -, hp'⟩ := hre.source
    rw [Rank.port_inj hr' hr (hpo'.trans hpo.symm), hp] at hp'
    have hin : w.readIndex req j = k / (prefillLayout w req).cpSize :=
      (getElem?_inj hlt hn).mp (hb.trans hre.block.symm)
    rw [content, ← Worker.readIndex, hin, hp', mod_add_div']
  · intro hk
    have hkm : k % (prefillLayout w req).cpSize = j % (prefillLayout w req).cpSize := by
      rw [← hk, content, add_mul_mod hm]
    have hkd : k / (prefillLayout w req).cpSize = w.readIndex req j := by
      rw [← hk, content, add_mul_div hm, Worker.readIndex]
    exact ⟨⟨r, hr, hpo, hg, hp.trans hkm.symm⟩, by rw [hkd, hb]⟩

theorem filter_zip_nodup {ls od : List Nat} (hn : ls.Nodup) (hb : ls[i]? = some b)
    (hj : od[i]? = some j) (f : Nat × Nat → BlockPull) (hf : ∀ e, (f e).localBlock = e.1) :
    ((ls.zip od).map f).filter (·.localBlock = b) = [f (b, j)] := by
  induction ls generalizing i od with
  | nil => simp at hb
  | cons a ls ih =>
    rw [nodup_cons] at hn
    cases od with
    | nil => simp at hj
    | cons o od =>
      cases i with
      | zero =>
        rw [getElem?_cons_zero, some_inj] at hb hj
        subst hb hj
        have hr : ((ls.zip od).map f).filter (·.localBlock = a) = [] := by
          refine filter_eq_nil_iff.mpr fun pu hp => ?_
          obtain ⟨e, he, rfl⟩ := mem_map.mp hp
          rw [hf, decide_eq_true_eq]
          exact fun heq => hn.1 (heq ▸ (of_mem_zip he).1)
        rw [zip_cons_cons, map_cons, filter_cons_of_pos (by simp [hf]), hr]
      | succ i =>
        rw [getElem?_cons_succ] at hb hj
        have hne : a ≠ b := fun heq => hn.1 (heq ▸ mem_of_getElem? hb)
        rw [zip_cons_cons, map_cons, filter_cons_of_neg (by simpa [hf] using hne), ih hn.2 hb hj]

theorem holds_iff (h : Deployed w req) (hs : Sized w req) (hre : req.remoteBlockIds.Nodup)
    (hl : req.localBlockIds.Nodup) {pos : Nat} (hi : i < w.ratio req)
    (hb : req.localBlockIds[pos]? = some b) (hpos : pos < (w.pullOrder req).length) :
    Holds w req (w.rank.group w.layout w.heads * w.ratio req + i)
      ((req.localBlockIds.zip (w.pullOrder req)).map fun e => w.pullOf req i e.2 e.1) b j ↔
      ((w.pullOrder req).map (content (prefillLayout w req).cpSize
        (numPrefixCachedBlocks w req)))[pos]? = some j := by
  have hg := getElem?_eq_getElem hpos
  have hrd := reads_pullOf_iff (b := b) (k := j) h hs hre hi (getElem_mem hpos)
  rw [Holds, filter_zip_nodup hl hb hg _ fun _ => rfl, getElem?_map, hg, map_some, some_inj, ← hrd]
  constructor
  · intro ⟨pu, hp, hr⟩
    rw [List.cons.injEq] at hp
    exact hp.1 ▸ hr
  · exact fun hr => ⟨_, rfl, hr⟩

theorem holds_at {r : Rank} {kn : String → Option (List (List Nat))} {g : Nat}
    {d : List BlockPull} : Holds (w.at r kn) req g d b j ↔ Holds w req g d b j :=
  exists_congr fun _ => and_congr_right fun _ =>
    ⟨fun h => ⟨h.source, h.block⟩, fun h => ⟨h.source, h.block⟩⟩

section

variable (w) (r : Rank) (kn : String → Option (List (List Nat)))

@[simp] theorem at_rank : (w.at r kn).rank = r := rfl

@[simp] theorem at_layout : (w.at r kn).layout = w.layout := rfl

@[simp] theorem at_heads : (w.at r kn).heads = w.heads := rfl

@[simp] theorem at_ratio : (w.at r kn).ratio req = w.ratio req := rfl

@[simp] theorem at_sources : (w.at r kn).sources req = w.sources req := rfl

end

theorem pullOrder_eq_order (h : Deployed w req) (hn : 0 < req.numPromptBlocks) :
    w.pullOrder req = order (w.sources req) w.layout.cpSize (w.rank.cpRank w.layout)
      (numPrefixCachedBlocks w req) req.numPromptBlocks := by
  have hm := h.sources_mul
  rw [Worker.pullOrder, Worker.pullRanks, lastBlockLocation_eq hn h.prefill.cpSize_pos, order, hm]
  unfold Worker.blocksFrom
  rfl

end

namespace AwaitsRemote

variable {m : Manager} {p : BlockPool} {e : Entry} {hashes : List BlockHash} {nt cv : Nat}
  {w : Worker} {req : ReqMeta} (h : AwaitsRemote m p e hashes nt cv w req)

include h

theorem blockSize_eq : m.blockSize = w.blockSize * w.layout.cpSize := by
  rw [Manager.blockSize, h.specBlockSize, h.worldSize]

theorem cpSize_pos : 0 < w.layout.cpSize := h.worldSize ▸ m.worldSize_pos

theorem size_pos : 0 < w.blockSize := h.specBlockSize ▸ m.specBlockSize_pos

theorem cached_lt : cv * w.layout.cpSize < req.numPromptBlocks := by
  have hp := h.external_pos
  rw [h.blockSize_eq, mul_comm w.blockSize, ← mul_assoc] at hp
  rw [h.numPromptBlocks, lt_ceilDiv_iff h.size_pos]
  exact hp

theorem numExternalBlocks_eq :
    numExternalBlocks w req = req.numPromptBlocks - cv * w.layout.cpSize := by
  rw [numExternalBlocks, h.numExternalTokens, h.blockSize_eq, mul_comm w.blockSize, ← mul_assoc,
    ceilDiv_sub_mul h.size_pos, h.numPromptBlocks]

theorem numPrefixCachedBlocks_eq : numPrefixCachedBlocks w req = cv * w.layout.cpSize := by
  have := h.cached_lt
  rw [numPrefixCachedBlocks, h.numExternalBlocks_eq]
  omega

theorem sized : Sized w req := by
  refine ⟨?_, ?_, h.remotes⟩
  · rw [h.numExternalBlocks_eq]
    exact sub_le _ _
  · rw [h.numExternalBlocks_eq, ceilDiv_sub_mul h.cpSize_pos, h.numPromptBlocks,
      ceilDiv_ceilDiv h.size_pos h.cpSize_pos, h.localBlockIds_eq, length_drop, h.blocks,
        h.blockSize_eq]

theorem atRank (r : Rank) (kn : String → Option (List (List Nat))) :
    AwaitsRemote m p e hashes nt cv (w.at r kn) req :=
  { h with worldSize := h.worldSize }

theorem full_bounds : nt / m.blockSize * w.layout.cpSize ≤ req.numPromptBlocks ∧
    req.numPromptBlocks ≤ (nt / m.blockSize + 1) * w.layout.cpSize := by
  have hbs := h.size_pos
  rw [h.numPromptBlocks, h.blockSize_eq]
  constructor
  · refine Nat.le_of_mul_le_mul_right (le_trans ?_ (le_ceilDiv_mul hbs)) hbs
    rw [mul_assoc, mul_comm w.layout.cpSize]
    exact div_mul_le_self _ _
  · rw [ceilDiv_le_iff_le_mul hbs, mul_left_comm]
    exact (lt_mul_of_div_lt (lt_succ_self _) (Nat.mul_pos hbs h.cpSize_pos)).le

end AwaitsRemote

/-! ## 3. The registered blocks -/

section

variable {m : Manager} {p : BlockPool} {e : Entry} {hashes : List BlockHash} {nt cv : Nat}
  {w : Worker} {req : ReqMeta}

theorem rank_holds_iff (h : AwaitsRemote m p e hashes nt cv w req) (hw : Deployed w req)
    {p' : BlockPool} (hreg : ∀ v b, RegisteredAt m p p' e hashes v b ↔
      cv ≤ v ∧ v < nt / m.blockSize ∧ e.blocks[v]? = some b) {res : SplitMetadata}
    (hp : ∀ i < w.ratio req, pulls res i
      = (req.localBlockIds.zip (w.pullOrder req)).map fun e => w.pullOf req i e.2 e.1) :
    (∀ v b, RegisteredAt m p p' e hashes v b → ∀ i < w.ratio req,
      Holds w req (w.rank.group w.layout w.heads * w.ratio req + i) (pulls res i) b
        (w.rank.cpRank w.layout + v * w.layout.cpSize)) ↔
    ∀ i, cv + i < nt / m.blockSize →
      ((order (w.sources req) w.layout.cpSize (w.rank.cpRank w.layout) (cv * w.layout.cpSize)
        req.numPromptBlocks).map (content (w.sources req * w.layout.cpSize)
          (cv * w.layout.cpSize)))[i]?
      = some (w.rank.cpRank w.layout + (cv + i) * w.layout.cpSize) := by
  have hl : req.localBlockIds.Nodup := by
    rw [h.localBlockIds_eq]
    exact (drop_sublist ..).nodup h.nodup
  have ho := pullOrder_eq_order hw (zero_lt_of_lt h.cached_lt)
  rw [h.numPrefixCachedBlocks_eq] at ho
  -- every registered place is one of the order
  have hlen : ∀ i, cv + i < nt / m.blockSize → i < (w.pullOrder req).length := by
    intro i hi
    have hm : (cv + i + 1) * w.layout.cpSize ≤ nt / m.blockSize * w.layout.cpSize :=
      Nat.mul_le_mul_right _ hi
    have := h.full_bounds.1
    have := hw.cpRank_lt
    rw [add_mul _ 1, one_mul] at hm
    rw [hw.perm_pullOrder.length_eq, lt_length_hand_iff hw.cpRank_lt, h.numPrefixCachedBlocks_eq,
      share_mul h.cpSize_pos]
    omega
  have hr : ∀ i b, cv + i < nt / m.blockSize → e.blocks[cv + i]? = some b → ∀ t < w.ratio req,
      (Holds w req (w.rank.group w.layout w.heads * w.ratio req + t) (pulls res t) b
        (w.rank.cpRank w.layout + (cv + i) * w.layout.cpSize) ↔
      ((order (w.sources req) w.layout.cpSize (w.rank.cpRank w.layout) (cv * w.layout.cpSize)
        req.numPromptBlocks).map (content (w.sources req * w.layout.cpSize)
          (cv * w.layout.cpSize)))[i]?
      = some (w.rank.cpRank w.layout + (cv + i) * w.layout.cpSize)) := by
    intro i b hi hb t ht
    rw [hp t ht, ← ho, hw.sources_mul, ← h.numPrefixCachedBlocks_eq]
    exact holds_iff hw h.sized h.remotes_nodup hl ht
      (by rw [h.localBlockIds_eq, getElem?_drop]; exact hb) (hlen i hi)
  constructor
  · intro ha i hi
    have hlt : cv + i < e.blocks.length := hi.trans_le h.full_le
    have hb := getElem?_eq_getElem hlt
    have hpos : 0 < w.ratio req := headRatio_pos hw.prefill hw.decode hw.check
    exact (hr i _ hi hb 0 hpos).mp (ha _ _ ((hreg _ _).mpr ⟨by omega, hi, hb⟩) 0 hpos)
  · intro ha v b hv t ht
    obtain ⟨hle, hlt, hb⟩ := (hreg v b).mp hv
    obtain ⟨i, rfl⟩ := Nat.exists_eq_add_of_le hle
    exact (hr i b hlt hb t ht).mpr (ha i hlt)

theorem registeredRight_iff_inPlace {kn : Rank → String → Option (List (List Nat))} {crl : List Nat}
    (hdep : Deployment w req)
    (hk : ∀ r : Rank, r.In w.layout → ∀ mapping, kn r req.remoteEngineId = some mapping →
      mapping = (w.at r (kn r)).mapping req)
    (h : AwaitsRemote m p e hashes nt cv w req) {g t : Nat}
    (hg : g < numGroups w.heads w.layout.tpSize)
    (ht : t < w.layout.repeats w.heads) :
    RegisteredRight m p e hashes nt w kn req crl g t ↔
      InPlace (w.sources req) w.layout.cpSize cv req.numPromptBlocks (nt / m.blockSize) := by
  have hd := fun x (hx : x < w.layout.cpSize) =>
      hdep.deployed_at hk (hdep.decode.in_rankAt hg ht hx)
  have hn : getTpNumNeedPulls w (effectivePrefillTpSize w req) = w.ratio req :=
    (hd 0 h.cpSize_pos).needPulls_eq
  obtain ⟨e', p', hc, hreg⟩ := h.baseCacheBlocks_registers
  have hr : ∀ x < w.layout.cpSize, ∃ res w',
      getKvSplitMetadata (w.at (w.layout.rankAt w.heads g t x)
        (kn (w.layout.rankAt w.heads g t x))) req crl = .ok (res, w') ∧
      ((∀ v b, RegisteredAt m p p' e hashes v b → ∀ i < w.ratio req,
        Holds w req (g * w.ratio req + i) (pulls res i) b (x + v * w.layout.cpSize)) ↔
      ∀ i, cv + i < nt / m.blockSize →
        ((order (w.sources req) w.layout.cpSize x (cv * w.layout.cpSize) req.numPromptBlocks).map
          (content (w.sources req * w.layout.cpSize) (cv * w.layout.cpSize)))[i]?
        = some (x + (cv + i) * w.layout.cpSize)) := by
    intro x hx
    obtain ⟨res, hrun, hp⟩ := pulls_eq (hd x hx) (h.sized.at _ _) crl
    have hi := rank_holds_iff (h.atRank _ _) (hd x hx) hreg hp
    have hpa : (w.layout.rankAt w.heads g t x).cpRank w.layout = x := hdep.decode.cpRank_rankAt
    have hgr : (w.layout.rankAt w.heads g t x).group w.layout w.heads = g :=
      hdep.decode.group_rankAt ht
    simp only [holds_at, at_rank, at_layout, at_heads, at_ratio, at_sources, hpa, hgr] at hi
    exact ⟨res, _, hrun, hi⟩
  constructor
  · intro ⟨e₁, p₁, hca₁, ha⟩ x hx
    rw [hc, Except.ok.injEq, Prod.mk.injEq, Pools.one.injEq] at hca₁
    obtain ⟨res, w', hrun, hi⟩ := hr x hx
    obtain ⟨res₁, w₁, hrun₁, hh⟩ := ha x hx
    rw [hrun, Except.ok.injEq, Prod.mk.injEq] at hrun₁
    rw [← hca₁.2, ← hrun₁.1, hn] at hh
    exact hi.mp hh
  · intro hpl
    refine ⟨e', p', hc, fun x hx => ?_⟩
    obtain ⟨res, w', hrun, hi⟩ := hr x hx
    rw [hn]
    exact ⟨res, w', hrun, hi.mpr (hpl x hx)⟩

/-- **When the registered blocks hold what they are registered for**: nothing is registered; or both
    sides have equally many ranks for the blocks and nothing was cached; or no prefill rank has two
    blocks; or one has, the first cached and the second not registered. -/
theorem registered_iff (known : Rank → String → Option (List (List Nat)))
    (chosenRankList : List Nat) (hdep : Deployment w req)
    (hknown : ∀ r : Rank, r.In w.layout → ∀ mapping, known r req.remoteEngineId = some mapping →
      mapping = (w.at r (known r)).mapping req)
    (h : AwaitsRemote m p e hashes nt cv w req) {g t : Nat}
    (hg : g < numGroups w.heads w.layout.tpSize)
    (ht : t < w.layout.repeats w.heads) :
    RegisteredRight m p e hashes nt w known req chosenRankList g t ↔ nt / m.blockSize ≤ cv ∨
      ((prefillLayout w req).cpSize = w.layout.cpSize ∧ cv = 0) ∨
      req.numPromptBlocks ≤ (prefillLayout w req).cpSize ∨
      (req.numPromptBlocks = (prefillLayout w req).cpSize + 1 ∧ 0 < cv ∧
        cv * w.layout.cpSize < (prefillLayout w req).cpSize ∧
        nt < ((prefillLayout w req).cpSize + w.layout.cpSize) * w.blockSize) := by
  have hL : 0 < w.layout.cpSize := h.cpSize_pos
  have hm : w.sources req * w.layout.cpSize = (prefillLayout w req).cpSize :=
    (hdep.deployed_at hknown (hdep.decode.in_rankAt hg ht hL)).sources_mul
  have hq : 0 < w.sources req := Nat.pos_of_mul_pos_right (hm ▸ hdep.prefill.cpSize_pos)
  -- the condition, in numbers of blocks
  have ho : (prefillLayout w req).cpSize = w.layout.cpSize ↔ w.sources req = 1 := by
    rw [← hm]
    exact ⟨fun heq => eq_of_mul_eq_mul_right hL (heq.trans (one_mul _).symm),
      fun heq => by rw [heq, one_mul]⟩
  have hcv : cv * w.layout.cpSize < (prefillLayout w req).cpSize ↔ cv < w.sources req := by
    rw [← hm]
    exact Nat.mul_lt_mul_right hL
  have hf : nt < ((prefillLayout w req).cpSize + w.layout.cpSize) * w.blockSize ↔
      nt / m.blockSize ≤ w.sources req := by
    rw [← Nat.lt_succ_iff, Nat.div_lt_iff_lt_mul m.blockSize_pos, h.blockSize_eq, ← hm, succ_mul,
      mul_comm w.blockSize, ← mul_assoc, ← add_mul]
  rw [registeredRight_iff_inPlace hdep hknown h hg ht, ho, hcv, hf, ← hm,
    ← inPlace_iff hL hq h.full_bounds.1 h.full_bounds.2]

end

def oneRankManager : Manager where
  group := 0
  kind := .full
  specBlockSize := 4
  specRest := 0
  worldSize := 1
  enableCaching := true
  specBlockSize_pos := Nat.succ_pos _
  worldSize_pos := Nat.one_pos

def threeBlockTable : Entry := { blocks := [7, 8, 9], numCachedBlock := some 0 }

theorem threeBlocks_awaits :
    AwaitsRemote oneRankManager (.init 10 true 4) threeBlockTable [31, 32, 33] 12 0
    (latentWorker ⟨1, 1, 1⟩ ⟨0, 0⟩) (threeBlocks [7, 8, 9]) where
  worldSize := rfl
  specBlockSize := rfl
  hash_dvd := by decide
  hashes := rfl
  blocks := by decide
  nodup := by decide
  real := by decide
  cached := rfl
  external_pos := by decide
  hashed := fun v _ _ => ⟨fun _ => Nat.zero_le v, fun _ => rfl⟩
  numExternalTokens := rfl
  numPromptBlocks := by decide
  localBlockIds := rfl
  remotes := by decide
  remotes_nodup := by decide

/-- Three blocks from two prefill ranks. -/
theorem registered_iff_threeBlocks :
    RegisteredRight oneRankManager (.init 10 true 4) threeBlockTable [31, 32, 33] 12
      (latentWorker ⟨1, 1, 1⟩ ⟨0, 0⟩) (fun _ _ => none) (threeBlocks [7, 8, 9]) [] 0 0 ↔
      3 ≤ 0 ∨ (2 = 1 ∧ 0 = 0) ∨ 3 ≤ 2 ∨ (3 = 3 ∧ 0 < 0 ∧ 0 < 2 ∧ 12 < (2 + 1) * 4) :=
  registered_iff (fun _ _ => none) [] threeBlocks_deployment (fun _ _ _ h => nomatch h)
    threeBlocks_awaits (by decide) (by decide)

/-- **A block is registered under the hash of another**: block 7 is at place 0, registered under the
    hash of block 0, and the pull into it reads from port 201, the prefill rank of the odd blocks.
    -/
theorem registers_another_block :
    ((oneRankManager.baseCacheBlocks (.one (.init 10 true 4)) threeBlockTable [31, 32, 33]
      12).map fun r =>
      [7, 8, 9].map (r.2.blockHash 0)) = .ok [some ⟨[31], 0⟩, some ⟨[32], 0⟩, some ⟨[33], 0⟩] ∧
    pulled (latentWorker ⟨1, 1, 1⟩ ⟨0, 0⟩) (threeBlocks [7, 8, 9]) 0
      = .ok [⟨201, 7, 5⟩, ⟨200, 8, 5⟩, ⟨200, 9, 6⟩] ∧
    ¬RegisteredRight oneRankManager (.init 10 true 4) threeBlockTable [31, 32, 33] 12
      (latentWorker ⟨1, 1, 1⟩ ⟨0, 0⟩) (fun _ _ => none) (threeBlocks [7, 8, 9]) [] 0 0 := by
  refine ⟨by decide, by decide, fun hr => ?_⟩
  have hp := (registeredRight_iff_inPlace threeBlocks_deployment (by nofun) threeBlocks_awaits
    (by decide) (by decide)).mp hr
  exact absurd (hp 0 (by decide) 0 (by decide)) (by decide)

end VllmDual.Pull
