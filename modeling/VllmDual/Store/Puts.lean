/-
  Subject:   EVERY FULL CHUNK OF A PROMPT IS PUT (`KVCacheStoreSendingThread._handle_request`,
             `ascend/kv_pool/ascend_store/kv_transfer.py`;
             `ChunkedTokenDatabase.prepare_value` and `decode_adaptor_prefill_pp`,
             `config_data.py`).

  The ranks that hold the same heads share the puts of a prompt's chunks. What they put of a request
  is what its tracker has reached, which leaves out the tokens of calls that allocated no block:

  * `savesAll_iff` -- everything is saved exactly if the tokens of calls without a new block fit
    into the partial chunk at the end of the prompt.
-/
import VllmDual.Store.Lookup
import VllmDual.Store.Saves

namespace VllmDual.Store

open Text Slices List Nat PoolKey Config

variable {ρ : Type} [DecidableEq ρ]

/-! ## 1. One order on one rank -/

/-- The caches that a rank has registered, and how a consumer splits a chunk for the prefill
    stages. -/
structure Caches where
  kvCachesBaseAddr : List Nat
  blockLen : List Nat
  kvConsumer : Bool
  partitions : Option (List Nat)

namespace Caches

variable (w : Caches)

def addrs (blockId : Nat) : List Nat :=
  w.kvCachesBaseAddr.mapIdx fun index base =>
    base + blockId * w.blockLen.getD (index % w.blockLen.length) 0

def prepareValue (blockSize start : Nat) (blockIds : List Nat) : Option (List Nat) :=
  (blockIds[start / blockSize]?).map w.addrs

end Caches

/-- The parts of a chunk from a stage on; the last stage takes what is left. -/
def partsFrom (key : List Char) (addrs : List Nat) : Nat → List Nat → List (List Char × List Nat)
  | _, [] => []
  | j, [_] => [(replaceFirst (field "pp_rank:" 0) (field "pp_rank:" j) key, addrs)]
  | j, part :: parts =>
    (replaceFirst (field "pp_rank:" 0) (field "pp_rank:" j) key, addrs.take (part * 2))
      :: partsFrom key (addrs.drop (part * 2)) (j + 1) parts

/-- `decode_adaptor_prefill_pp`, for one chunk. -/
def decodeAdaptorPrefillPp (partitions : Option (List Nat)) (key : List Char) (addrs : List Nat) :
    List (List Char × List Nat) :=
  match partitions with
  | none => [(key, addrs)]
  | some [_] => [(key, addrs)]
  | some parts => partsFrom key addrs 0 parts

/-- An entry that a rank has put. -/
structure StorePut where
  rank : Nat
  key : List Char
  addrs : List Nat

def chunkPuts (w : Caches) (rank : Nat) (key : List Char) (addrs : List Nat) : List StorePut :=
  (if w.kvConsumer then decodeAdaptorPrefillPp w.partitions key addrs else [(key, addrs)]).map
    fun e => ⟨rank, e.1, e.2⟩

variable (c : Config)

/-- `_handle_request` for a request that is counted, on the entries that the store has. If a block
    is missing in the table the thread drops the order. -/
def handleRequest (w : Caches) (rank : Nat) (reachable : Bool) (log : List StorePut)
    (m : ReqMeta ρ) : List StorePut :=
  let chunks := processTokens c.blockSize (c.metadata rank) m.tokenLenChunk m.blockHashes 0
  let chunks := if 1 < c.dcpSize then chunks
    else strided (c.tpRank rank % c.putStep) c.putStep chunks
  let missing := chunks.filter fun e => !(reachable && log.any (·.key = e.2.2.toString))
  match missing.mapM fun e => (w.prepareValue c.blockSize e.1 m.blockIds).map
      (chunkPuts w rank e.2.2.toString) with
  | none => log
  | some values => log ++ values.flatten

structure Handling (ρ : Type) where
  rank : Nat
  reqMeta : ReqMeta ρ
  reachable : Bool

variable (w : Nat → Caches)

def handleAll (handled : List (Handling ρ)) : List StorePut :=
  handled.foldl (fun log h => handleRequest c (w h.rank) h.rank h.reachable log h.reqMeta) []

/-! ## 2. Everything is saved -/

def Config.putGroup (q g : Nat) : List Nat :=
  (range c.putStep).map fun j => q * c.tpSize + (g * c.putStep + j)

def blockPuts (rank : Nat) (hash : BlockHash) (block : Nat) : List StorePut :=
  chunkPuts (w rank) rank (PoolKey.mk (c.metadata rank) (hex hash)).toString ((w rank).addrs block)

/-- A chunk is in the store for a rank, put from its block by a rank with the same key. -/
def ChunkPut (group : List Nat) (log : List StorePut) (rank : Nat) (hash : BlockHash)
    (block : Nat) : Prop :=
  ∃ rank' ∈ group, c.metadata rank' = c.metadata rank ∧
    ∀ e ∈ blockPuts c w rank' hash block, e ∈ log

/-- Every rank of the group handles every save order, in any order. -/
def HandlesAll (group : List Nat) (metas : List (ReqMeta ρ)) (handled : List (Handling ρ)) : Prop :=
  (∀ h ∈ handled, h.rank ∈ group ∧ h.reqMeta ∈ metas ∧ h.reqMeta.canSave = true) ∧
  ∀ rank ∈ group, ∀ m ∈ metas, m.canSave = true → ∃ h ∈ handled, h.rank = rank ∧ h.reqMeta = m

/-- The calls return; in whatever order the ranks handle the save orders, exactly the full chunks of
    the prompt are put, from the blocks that hold them; and the flag is on the order that first
    reaches the last full chunk. -/
def SavesAll (cfg : PoolConfig) (w : Nat → Caches) (group : List Nat) (r : ρ) (s : Schedule) :
    Prop :=
  ∃ metas, s.run cfg r = .ok metas ∧
    (∀ handled, HandlesAll group metas handled →
      (∀ rank ∈ group, ∀ i < s.promptLen / c.blockSize, ∃ hash block,
        s.blockHashes[i]? = some hash ∧
        s.table[i]? = some block ∧ ChunkPut c w group (handleAll c w handled) rank hash block) ∧
      ∀ put ∈ handleAll c w handled, ∃ rank ∈ group, ∃ i < s.promptLen / c.blockSize, ∃ hash block,
        s.blockHashes[i]? = some hash ∧ s.table[i]? = some block ∧
        put ∈ blockPuts c w rank hash block) ∧
    ∀ (i : Nat) (m : ReqMeta ρ), metas[i]? = some m → (m.isLastChunk = some true ↔
      s.promptLen / c.blockSize * c.blockSize ≤ m.tokenLenChunk ∧
      ∀ j < i, ∀ m', metas[j]? = some m' →
        m'.tokenLenChunk < s.promptLen / c.blockSize * c.blockSize)

/-! ## 3. The entries of a chunk -/

section Entries

variable {c : Config} {w : Nat → Caches} {rank r' q g j : Nat} {hash hash' : BlockHash}
  {bl bl' : Nat} {e : StorePut}

theorem key_of_mem_partsFrom {m : KeyMetadata} (hn : '@' ∉ m.modelName) {ps a : List Nat}
    {e : List Char × List Nat} (he : e ∈ partsFrom (mk m (hex hash)).toString a j ps) :
    ∃ pp, e.1 = (mk { m with ppRank := pp } (hex hash)).toString := by
  induction ps generalizing j a with
  | nil => exact absurd he not_mem_nil
  | cons part ps ih =>
    obtain ⟨pp, hpp⟩ := exists_replaceFirst_pp hn hash j
    cases ps with
    | nil =>
      rw [mem_singleton.mp he]
      exact ⟨pp, hpp⟩
    | cons part' ps =>
      rcases mem_cons.mp he with rfl | he
      · exact ⟨pp, hpp⟩
      · exact ih he

theorem key_of_mem_blockPuts (hc : c.Valid) (he : e ∈ blockPuts c w rank hash bl) :
    ∃ pp, e.key = (mk { c.metadata rank with ppRank := pp } (hex hash)).toString := by
  obtain ⟨entry, hen, rfl⟩ := mem_map.mp he
  dsimp only
  split_ifs at hen
  · unfold decodeAdaptorPrefillPp at hen
    split at hen
    · rw [mem_singleton.mp hen]
      exact ⟨_, rfl⟩
    · rw [mem_singleton.mp hen]
      exact ⟨_, rfl⟩
    · exact key_of_mem_partsFrom (m := c.metadata rank) hc.name hen
  · rw [mem_singleton.mp hen]
    exact ⟨_, rfl⟩

theorem exists_mem_blockPuts (hw : (w rank).partitions ≠ some []) :
    ∃ e, e ∈ blockPuts c w rank hash block := by
  unfold blockPuts chunkPuts
  refine exists_mem_of_ne_nil _ ?_
  rw [Ne, map_eq_nil_iff]
  split_ifs
  · unfold decodeAdaptorPrefillPp
    split
    · exact cons_ne_nil _ _
    · exact cons_ne_nil _ _
    · rename_i ps _ hp
      match ps, hp with
      | [], hp => exact absurd hp hw
      | [_], _ => exact cons_ne_nil _ _
      | _ :: _ :: _, _ => exact cons_ne_nil _ _
  · exact not_false

theorem metadata_putGroup (hc : c.Valid) (hgroup : (g + 1) * c.putStep ≤ c.tpSize)
    (hj : j < c.putStep) : c.tpRank (q * c.tpSize + (g * c.putStep + j)) % c.putStep = j ∧
      c.metadata (q * c.tpSize + (g * c.putStep + j)) = ⟨c.modelName, g,
        if 1 < c.pcpSize then q % c.pcpSize else 0,
        c.dcpRank (q * c.tpSize + (g * c.putStep + j)), q % c.ppSize⟩ := by
  have hlt : g * c.putStep + j < c.tpSize := by
    rw [add_mul, one_mul] at hgroup
    omega
  have hr : c.tpRank (q * c.tpSize + (g * c.putStep + j)) = g * c.putStep + j := by
    rw [tpRank, mul_comm q, mul_add_mod, mod_eq_of_lt hlt]
  have hp : (q * c.tpSize + (g * c.putStep + j)) / c.tpSize = q := by
    rw [mul_comm q, mul_add_div hc.tp_pos, div_eq_of_lt hlt, add_zero]
  have hh : c.headOrTpRank (q * c.tpSize + (g * c.putStep + j)) = g := by
    unfold headOrTpRank
    rw [hr]
    split_ifs with hlt
    · rw [mul_comm, mul_add_div (by omega), div_eq_of_lt hj, add_zero]
    · have hone : c.putStep = 1 := if_neg hlt
      rw [hone] at hj ⊢
      omega
  refine ⟨?_, ?_⟩
  · rw [hr, mul_comm, mul_add_mod, mod_eq_of_lt hj]
  · rw [metadata, hh, pcpRank, ppRank, hp]

theorem metadata_eq_of_key (hc : c.Valid) (hgroup : (g + 1) * c.putStep ≤ c.tpSize)
    (hr : rank ∈ c.putGroup q g) (hr' : r' ∈ c.putGroup q g)
    (he : e ∈ blockPuts c w r' hash' bl')
    (hk : e.key = (mk (c.metadata rank) (hex hash)).toString) :
    c.metadata r' = c.metadata rank ∧ hash' = hash := by
  obtain ⟨j, hj, rfl⟩ := mem_map.mp hr
  obtain ⟨j', hj', rfl⟩ := mem_map.mp hr'
  obtain ⟨pp, hpp⟩ := key_of_mem_blockPuts hc he
  rw [hpp] at hk
  obtain ⟨-, -, hd, -, hh⟩ := toString_inj (by rfl) hk
  refine ⟨?_, hex_inj.mp hh⟩
  rw [(metadata_putGroup hc hgroup (mem_range.mp hj)).2,
    (metadata_putGroup hc hgroup (mem_range.mp hj')).2]
  have hd' : c.dcpRank (q * c.tpSize + (g * c.putStep + j'))
      = c.dcpRank (q * c.tpSize + (g * c.putStep + j)) := hd
  rw [hd']

end Entries

/-! ## 4. The log -/

section Log

variable {c : Config} {cfg : PoolConfig} {w : Nat → Caches} {s : Schedule} {q g hi rank i : Nat}
  {log : List StorePut} {m : ReqMeta ρ} {e : Nat × Nat × PoolKey}

omit [DecidableEq ρ]

def IsChunk (s : Schedule) (n i : Nat) (hash : BlockHash) (block : Nat) : Prop :=
  i < n ∧ s.blockHashes[i]? = some hash ∧ s.table[i]? = some block

/-- What a store holds while orders up to a length are handled: all entries of some chunks. -/
def Log (c : Config) (w : Nat → Caches) (s : Schedule) (group : List Nat) (n : Nat)
    (log : List StorePut) : Prop :=
  ∀ put ∈ log, ∃ rank ∈ group, ∃ i hash block, IsChunk s n i hash block ∧
    put ∈ blockPuts c w rank hash block ∧ ∀ e ∈ blockPuts c w rank hash block, e ∈ log

def taken (c : Config) (rank : Nat) (m : ReqMeta ρ) : List (Nat × Nat × PoolKey) :=
  let chunks := processTokens c.blockSize (c.metadata rank) m.tokenLenChunk m.blockHashes 0
  if 1 < c.dcpSize then chunks else strided (c.tpRank rank % c.putStep) c.putStep chunks

/-- A rank takes every chunk, or every `put_step`-th. -/
def Takes (c : Config) (rank i : Nat) : Prop :=
  1 < c.dcpSize ∨ (c.tpRank rank % c.putStep ≤ i ∧ (i - c.tpRank rank % c.putStep) % c.putStep = 0)

theorem getElem?_of_initial {α : Type} {l l' : List α} (h : l <+: l') (hi : i < l.length) :
    l'[i]? = l[i]? := by
  obtain ⟨t, rfl⟩ := h
  exact getElem?_append_left hi

theorem ChunkPut.mono {gp : List Nat} {log' : List StorePut} {hash : BlockHash} {b : Nat}
    (h : ChunkPut c w gp log rank hash b) (hs : log ⊆ log') :
    ChunkPut c w gp log' rank hash b := by
  obtain ⟨r', hr', hm, ha⟩ := h
  exact ⟨r', hr', hm, fun e he => hs (ha e he)⟩

variable (hbs : 0 < c.blockSize) (hcfg : cfg.blockSize = c.blockSize)
  (hlen : hi / c.blockSize ≤ s.blockHashes.length) (ho : Ordered cfg s s.table 0 hi m)
include hbs hcfg hlen ho

theorem getElem?_chunks :
    (processTokens c.blockSize (c.metadata rank) m.tokenLenChunk m.blockHashes 0)[i]? = some e ↔
      ∃ hash b, IsChunk s (m.tokenLenChunk / c.blockSize) i hash b ∧ m.blockIds[i]? = some b ∧
        e = (i * c.blockSize, (i + 1) * c.blockSize, ⟨c.metadata rank, hex hash⟩) := by
  obtain ⟨k, hk⟩ := ho.full
  have hu := ho.upTo
  have hh := ho.held
  rw [hcfg] at hk hu hh
  rw [hk, mul_comm] at hu hh
  have hkhi : k ≤ hi / c.blockSize := le_of_mul_le_mul_right hu hbs
  have hkb : k ≤ m.blockIds.length := le_of_mul_le_mul_right hh hbs
  rw [getElem?_processTokens, hk, Nat.mul_comm c.blockSize k, Nat.mul_div_cancel _ hbs]
  simp only [Nat.mul_lt_mul_right hbs]
  unfold IsChunk
  constructor
  · intro h
    split_ifs at h with hlt
    obtain ⟨hash, hg, rfl⟩ := Option.map_eq_some_iff.mp h
    have hb := getElem?_eq_getElem (hlt.trans_le hkb)
    rw [getElem?_of_initial ho.hashes (by omega)] at hg
    refine ⟨hash, _, ⟨hlt, hg, (getElem?_of_initial ho.blocks (by omega)).trans hb⟩, hb, ?_⟩
    have he : i * c.blockSize + c.blockSize ≤ k * c.blockSize := by
      rw [← succ_mul]
      exact mul_le_mul_right _ hlt
    rw [min_eq_left he, add_mul, one_mul]
  · rintro ⟨hash, b, ⟨hlt, hha, -⟩, -, rfl⟩
    have he : i * c.blockSize + c.blockSize ≤ k * c.blockSize := by
      rw [← succ_mul]
      exact mul_le_mul_right _ hlt
    rw [if_pos hlt, getElem?_of_initial ho.hashes (by omega), hha, Option.map_some,
      min_eq_left he, add_mul, one_mul]

theorem mem_taken : e ∈ taken c rank m ↔ ∃ i, Takes c rank i ∧ ∃ hash b,
      IsChunk s (m.tokenLenChunk / c.blockSize) i hash b ∧ m.blockIds[i]? = some b ∧
        e = (i * c.blockSize, (i + 1) * c.blockSize, ⟨c.metadata rank, hex hash⟩) := by
  simp only [← getElem?_chunks hbs hcfg hlen ho]
  unfold taken Takes
  split_ifs with hd
  · simp only [hd, true_or, true_and, mem_iff_getElem?]
  · simp only [hd, false_or, mem_strided]
    exact exists_congr fun i => and_comm

theorem handleRequest_eq (re : Bool) : handleRequest c (w rank) rank re log m
      = log ++ ((taken c rank m).filter fun e =>
          !(re && log.any (·.key = e.2.2.toString))).flatMap fun e =>
        chunkPuts (w rank) rank e.2.2.toString
          ((w rank).addrs (m.blockIds.getD (e.1 / c.blockSize) 0)) := by
  unfold handleRequest
  have hm : ((taken c rank m).filter fun e => !(re && log.any (·.key = e.2.2.toString))).mapM
      (fun e => ((w rank).prepareValue c.blockSize e.1 m.blockIds).map
        (chunkPuts (w rank) rank e.2.2.toString))
      = some (((taken c rank m).filter fun e => !(re && log.any (·.key = e.2.2.toString))).map
        fun e => chunkPuts (w rank) rank e.2.2.toString
          ((w rank).addrs (m.blockIds.getD (e.1 / c.blockSize) 0))) := by
    rw [Outcome.mapM_eq_some, forall₂_map_right_iff, forall₂_same]
    intro e he
    obtain ⟨i, -, hash, b, -, hb, rfl⟩ :=
      (mem_taken hbs hcfg hlen ho).mp (mem_of_mem_filter he)
    simp [Caches.prepareValue, Nat.mul_div_cancel _ hbs, hb]
  unfold taken at hm ⊢
  dsimp only at hm ⊢
  rw [hm]
  simp only [flatMap_def]

variable (hc : c.Valid) (hgroup : (g + 1) * c.putStep ≤ c.tpSize) (hnodup : s.blockHashes.Nodup)
include hc hgroup hnodup

theorem Log.handle (hr : rank ∈ c.putGroup q g)
    (hl : Log c w s (c.putGroup q g) (hi / c.blockSize) log) (re : Bool) :
    Log c w s (c.putGroup q g) (hi / c.blockSize) (handleRequest c (w rank) rank re log m) ∧
    log ⊆ handleRequest c (w rank) rank re log m ∧
    ∀ i hash b, Takes c rank i → IsChunk s (m.tokenLenChunk / c.blockSize) i hash b →
      ChunkPut c w (c.putGroup q g) (handleRequest c (w rank) rank re log m) rank hash b := by
  have hu : m.tokenLenChunk / c.blockSize ≤ hi / c.blockSize := by
    have hle := ho.upTo
    rw [hcfg] at hle
    exact (Nat.div_le_div_right hle).trans_eq (Nat.mul_div_cancel _ hbs)
  rw [handleRequest_eq hbs hcfg hlen ho re]
  refine ⟨?_, subset_append_left _ _, ?_⟩
  · intro put hp
    rcases mem_append.mp hp with hp | hp
    · obtain ⟨r', hr', i, hash, b, hch, hmem, ha⟩ := hl put hp
      exact ⟨r', hr', i, hash, b, hch, hmem, fun e he => mem_append_left _ (ha e he)⟩
    · obtain ⟨e, he, hp⟩ := mem_flatMap.mp hp
      obtain ⟨i, -, hash, b, ⟨hlt, hh, ht⟩, hb, heq⟩ :=
        (mem_taken hbs hcfg hlen ho).mp (mem_of_mem_filter he)
      have hs : chunkPuts (w rank) rank e.2.2.toString
          ((w rank).addrs (m.blockIds.getD (e.1 / c.blockSize) 0)) = blockPuts c w rank hash b := by
        rw [heq]
        simp [blockPuts, Nat.mul_div_cancel _ hbs, hb]
      rw [hs] at hp
      refine ⟨rank, hr, i, hash, b, ⟨hlt.trans_le hu, hh, ht⟩, hp, fun e' he' => ?_⟩
      exact mem_append_right _ (mem_flatMap.mpr ⟨e, he, hs ▸ he'⟩)
  · intro i hash b hta hch
    obtain ⟨hlt, hh, ht⟩ := hch
    have hb : m.blockIds[i]? = some b := by
      have hhe := ho.held
      rw [hcfg] at hhe
      have hle : m.tokenLenChunk / c.blockSize ≤ m.blockIds.length :=
        (Nat.div_le_div_right hhe).trans_eq (Nat.mul_div_cancel _ hbs)
      rw [← getElem?_of_initial ho.blocks (by omega), ht]
    have hmem : (i * c.blockSize, (i + 1) * c.blockSize, mk (c.metadata rank) (hex hash))
        ∈ taken c rank m :=
      (mem_taken hbs hcfg hlen ho).mpr ⟨i, hta, hash, b, ⟨hlt, hh, ht⟩, hb, rfl⟩
    by_cases hf : (re && log.any (·.key = (mk (c.metadata rank) (hex hash)).toString)) = true
    · -- the entry that was found is of a chunk with the same hash, so of this one
      obtain ⟨-, hany⟩ := Bool.and_eq_true_iff.mp hf
      obtain ⟨put, hp, hk⟩ := any_eq_true.mp hany
      obtain ⟨r', hr', i', hash', b', ⟨-, hh', ht'⟩, hmem', ha⟩ := hl put hp
      obtain ⟨hm, rfl⟩ := metadata_eq_of_key hc hgroup hr hr' hmem' (of_decide_eq_true hk)
      have hs : i = i' :=
        (getElem?_inj (List.getElem?_eq_some_iff.mp hh).1 hnodup).mp (hh.trans hh'.symm)
      rw [← hs, ht] at ht'
      obtain rfl := Option.some.inj ht'
      exact ⟨r', hr', hm, fun e he => mem_append_left _ (ha e he)⟩
    · refine ⟨rank, hr, rfl, fun e he => mem_append_right _ (mem_flatMap.mpr ⟨_,
        mem_filter.mpr ⟨hmem, by simp only [Bool.eq_false_iff.mpr hf, Bool.not_false]⟩, ?_⟩)⟩
      dsimp only
      rw [Nat.mul_div_cancel _ hbs, getD_eq_getElem?_getD, hb]
      exact he

omit ho in
theorem Log.handleAll {ha : List (Handling ρ)}
    (hha : ∀ h ∈ ha, h.rank ∈ c.putGroup q g ∧ Ordered cfg s s.table 0 hi h.reqMeta)
    (hl : Log c w s (c.putGroup q g) (hi / c.blockSize) log) :
    let log' := ha.foldl
      (fun log h => handleRequest c (w h.rank) h.rank h.reachable log h.reqMeta) log
    Log c w s (c.putGroup q g) (hi / c.blockSize) log' ∧ log ⊆ log' ∧
    ∀ h ∈ ha, ∀ i hash b, Takes c h.rank i → IsChunk s (h.reqMeta.tokenLenChunk / c.blockSize)
      i hash b → ChunkPut c w (c.putGroup q g) log' h.rank hash b := by
  induction ha generalizing log with
  | nil => exact ⟨hl, List.Subset.refl _, fun h hh => absurd hh not_mem_nil⟩
  | cons first re ih =>
    obtain ⟨hr, ho⟩ := hha first mem_cons_self
    obtain ⟨hs, hsub, hp⟩ :=
      hl.handle hbs hcfg hlen ho hc hgroup hnodup hr first.reachable
    obtain ⟨hre, hsub', hp'⟩ := ih (fun h hh => hha h (mem_cons_of_mem _ hh)) hs
    refine ⟨hre, List.Subset.trans hsub hsub', fun h hh i hash b ht hch => ?_⟩
    rcases mem_cons.mp hh with rfl | hh
    · exact (hp i hash b ht hch).mono hsub'
    · exact hp' h hh i hash b ht hch

omit hbs hcfg hlen ho hnodup in
theorem exists_takes (hs : 0 < c.putStep) (hr : rank ∈ c.putGroup q g) (i : Nat) :
    ∃ r' ∈ c.putGroup q g, c.metadata r' = c.metadata rank ∧ Takes c r' i := by
  by_cases hd : 1 < c.dcpSize
  · exact ⟨rank, hr, rfl, .inl hd⟩
  · have hj : i % c.putStep < c.putStep := mod_lt _ hs
    obtain ⟨hmod, hm⟩ := metadata_putGroup (q := q) hc hgroup hj
    obtain ⟨j, hjm, rfl⟩ := mem_map.mp hr
    refine ⟨_, mem_map_of_mem (mem_range.mpr hj), ?_, .inr ?_⟩
    · rw [hm, (metadata_putGroup hc hgroup (mem_range.mp hjm)).2, dcpRank, if_neg hd, dcpRank,
        if_neg hd]
    · rw [hmod]
      exact ⟨mod_le _ _, sub_mod_eq_zero_of_mod_eq (mod_mod _ _).symm⟩

end Log

/-! ## 5. When everything is saved -/

section Saved

variable {c : Config} {cfg : PoolConfig} {w : Nat → Caches} {s : Schedule} {q g : Nat} {r : ρ}
  {ms : List (ReqMeta ρ)} {gr : List Nat}

omit [DecidableEq ρ] in
theorem isLastChunk_iff {hi i : Nat} {m : ReqMeta ρ} (h : Emitted cfg s s.table 0 hi ms)
    (hhi : hi ≤ s.promptLen) (hg : ms[i]? = some m) :
    m.isLastChunk = some true ↔ s.promptLen / cfg.blockSize * cfg.blockSize ≤ m.tokenLenChunk ∧
      ∀ j < i, ∀ m', ms[j]? = some m' →
        m'.tokenLenChunk < s.promptLen / cfg.blockSize * cfg.blockSize := by
  have ho := h.ordered m (mem_of_getElem? hg)
  rw [ho.last, Option.some.injEq, decide_eq_true_eq]
  refine ⟨fun hle => ⟨hle, fun j hj m' hg' => ?_⟩, And.left⟩
  have hlt : m'.tokenLenChunk < m.tokenLenChunk := by
    obtain ⟨hil, rfl⟩ := List.getElem?_eq_some_iff.mp hg
    obtain ⟨hjl, rfl⟩ := List.getElem?_eq_some_iff.mp hg'
    exact pairwise_iff_getElem.mp h.sorted j i hjl hil hj
  exact hlt.trans_le (ho.upTo.trans (Nat.mul_le_mul_right _ (Nat.div_le_div_right hhi)))

theorem tracked_full_iff {bs P S : Nat} (hbs : 0 < bs) (hS : S ≤ P) :
    (P - S) / bs = P / bs ↔ S ≤ P % bs := by
  have hP := div_add_mod' P bs
  have hle : (P - S) / bs ≤ P / bs := Nat.div_le_div_right (sub_le _ _)
  rw [le_antisymm_iff, and_iff_right hle, le_div_iff_mul_le hbs]
  omega

omit [DecidableEq ρ] in
theorem ordered_of_handlesAll {hi : Nat} {ha : List (Handling ρ)}
    (h : Emitted cfg s s.table 0 hi ms) (hh : HandlesAll gr ms ha) :
    ∀ e ∈ ha, e.rank ∈ gr ∧ Ordered cfg s s.table 0 hi e.reqMeta := by
  intro e he
  obtain ⟨hr, hm, -⟩ := hh.1 e he
  exact ⟨hr, h.ordered _ hm⟩

theorem log_nil {n : Nat} : Log c w s gr n [] :=
  fun _ hp => absurd hp not_mem_nil

section

variable (hc : c.Valid) (hcfg : cfg.Saves) (hsize : cfg.blockSize = c.blockSize)
  (hgroup : (g + 1) * c.putStep ≤ c.tpSize) (hfits : s.Fits c.blockSize)
  (hlen : s.promptLen / c.blockSize ≤ s.blockHashes.length) (hnodup : s.blockHashes.Nodup)
include hc hcfg hsize hgroup hfits hlen hnodup

theorem savesAll_of_le (hs : s.skipped ≤ s.promptLen % c.blockSize) :
    SavesAll c cfg w (c.putGroup q g) r s := by
  have hbs : 0 < c.blockSize := hsize ▸ hcfg.blockSize_pos
  obtain ⟨hem, hle⟩ := emitted_emitted (r := r) hcfg.blockSize_pos (hsize ▸ hfits)
  have hf : (s.promptLen - s.skipped) / c.blockSize = s.promptLen / c.blockSize :=
    (tracked_full_iff hbs hle).mpr hs
  refine ⟨_, run_eq hcfg (hsize ▸ hfits), fun ha hhn => ?_, fun i m hg => ?_⟩
  · obtain ⟨hl, -, hp⟩ := log_nil.handleAll (w := w) hbs hsize (hf.trans_le hlen) hc hgroup hnodup
      (ordered_of_handlesAll hem hhn)
    refine ⟨fun ra hr i hi => ?_, fun put hput => ?_⟩
    · -- the last order has all full chunks, and some rank of the group takes this one of it
      obtain ⟨m, hm, hto⟩ := hem.ends (by rw [hsize, Nat.zero_div, hf]; omega)
      have ho := hem.ordered m hm
      have hch : m.tokenLenChunk / c.blockSize = s.promptLen / c.blockSize := by
        rw [hto, hsize, Nat.mul_div_cancel _ hbs, hf]
      have hh : s.promptLen / c.blockSize ≤ m.blockIds.length := by
        have hh := ho.held
        rw [hsize] at hh
        exact hch ▸ (Nat.div_le_div_right hh).trans_eq (Nat.mul_div_cancel _ hbs)
      obtain ⟨r', hr', hme, hta⟩ :=
        exists_takes hc hgroup (hc.dcp_pos.trans_le hc.dcp_le) hr i
      obtain ⟨e, he, rfl, rfl⟩ := hhn.2 r' hr' m hm ho.canSave
      have hha := getElem?_eq_getElem (hi.trans_le hlen)
      have ht := (getElem?_of_initial ho.blocks (hi.trans_le hh)).trans
          (getElem?_eq_getElem (hi.trans_le hh))
      obtain ⟨rank'', hr'', hme', hall⟩ :=
        hp e he i _ _ hta ⟨hch.symm ▸ hi, hha, ht⟩
      exact ⟨_, _, hha, ht, rank'', hr'', hme'.trans hme, hall⟩
    · obtain ⟨ra, hr, i, hash, b, ⟨hi, hha, ht⟩, hmem, -⟩ := hl put hput
      exact ⟨ra, hr, i, hf ▸ hi, hash, b, hha, ht, hmem⟩
  · rw [← hsize]
    exact isLastChunk_iff hem (sub_le _ _) hg

theorem not_savesAll_of_lt (hw : ∀ ra, (w ra).partitions ≠ some [])
    (hsk : s.promptLen % c.blockSize < s.skipped) : ¬ SavesAll c cfg w (c.putGroup q g) r s := by
  have hbs : 0 < c.blockSize := hsize ▸ hcfg.blockSize_pos
  have hst : 0 < c.putStep := hc.dcp_pos.trans_le hc.dcp_le
  obtain ⟨hem, hle⟩ := emitted_emitted (r := r) hcfg.blockSize_pos (hsize ▸ hfits)
  have hs : (s.promptLen - s.skipped) / c.blockSize < s.promptLen / c.blockSize := by
    refine lt_of_le_of_ne (Nat.div_le_div_right (sub_le _ _)) fun heq => ?_
    exact absurd ((tracked_full_iff hbs hle).mp heq) (by omega)
  rintro ⟨ms, hrun, hsa, -⟩
  rw [run_eq hcfg (hsize ▸ hfits)] at hrun
  obtain rfl := Except.ok.inj hrun
  -- every rank handles every order
  have hhn : HandlesAll (c.putGroup q g) (emitted cfg r s)
      ((emitted cfg r s).flatMap fun m => (c.putGroup q g).map fun ra => ⟨ra, m, true⟩) := by
    constructor
    · intro h hh
      obtain ⟨m, hm, hh⟩ := mem_flatMap.mp hh
      obtain ⟨ra, hr, rfl⟩ := mem_map.mp hh
      exact ⟨hr, hm, (hem.ordered m hm).canSave⟩
    · intro ra hr m hm _
      exact ⟨⟨ra, m, true⟩, mem_flatMap.mpr ⟨m, hm, mem_map_of_mem hr⟩, rfl, rfl⟩
  have hme : q * c.tpSize + (g * c.putStep + 0) ∈ c.putGroup q g :=
    mem_map_of_mem (mem_range.mpr hst)
  obtain ⟨hash, b, hha, -, ra, -, -, ha⟩ :=
    (hsa _ hhn).1 _ hme (s.promptLen / c.blockSize - 1) (sub_lt (zero_lt_of_lt hs) one_pos)
  obtain ⟨hl, -, -⟩ := log_nil.handleAll (w := w) hbs hsize (hs.le.trans hlen) hc hgroup hnodup
    (ordered_of_handlesAll hem hhn)
  have hen : ∃ e, e ∈ blockPuts c w ra hash b := exists_mem_blockPuts (hw ra)
  obtain ⟨e, he⟩ := hen
  obtain ⟨r', -, i, hash', b', ⟨hi, hha', -⟩, he', -⟩ := hl e (ha e he)
  obtain ⟨pp, hk⟩ := key_of_mem_blockPuts hc he
  obtain ⟨pp', hk'⟩ := key_of_mem_blockPuts hc he'
  obtain ⟨-, -, -, -, hsm⟩ := toString_inj (by rfl) (hk.symm.trans hk')
  rw [← hex_inj.mp hsm] at hha'
  have hin := (getElem?_inj (List.getElem?_eq_some_iff.mp hha).1 hnodup).mp (hha.trans hha'.symm)
  omega

end

/-- **Every full chunk of a prompt is put exactly if the tokens of calls without a new block fit
    into the partial chunk at its end.** -/
theorem savesAll_iff (hc : c.Valid) (hcfg : cfg.Saves) (hsize : cfg.blockSize = c.blockSize)
    (hw : ∀ rank, (w rank).partitions ≠ some []) (hgroup : (g + 1) * c.putStep ≤ c.tpSize)
    (hfits : s.Fits c.blockSize) (hlen : s.promptLen / c.blockSize ≤ s.blockHashes.length)
    (hnodup : s.blockHashes.Nodup) :
    SavesAll c cfg w (c.putGroup q g) r s ↔ s.skipped ≤ s.promptLen % c.blockSize := by
  constructor
  · intro h
    by_contra hlt
    exact not_savesAll_of_lt hc hcfg hsize hgroup hfits hlen hnodup hw (Nat.lt_of_not_le hlt) h
  · exact savesAll_of_le hc hcfg hsize hgroup hfits hlen hnodup

end Saved

def pairConfig : Config where
  modelName := "m".toList
  tpSize := 2
  ppSize := 1
  pcpSize := 1
  dcpSize := 1
  numKvHead := 1
  cacheBlockSize := 4
  numLayers := fun _ => 1
  useLayerwise := false

theorem pairConfig_valid : pairConfig.Valid := by
  constructor
  case layers_pos => exact fun _ _ => one_pos
  all_goals decide

def pairCaches (_ : Nat) : Caches := ⟨[1000, 2000], [16], false, none⟩

def savingConfig : PoolConfig := ⟨4, true, false, false⟩

/-- A prompt of nine tokens: two, then one into the same block, then the rest with two new
    blocks. -/
def partialSchedule : Schedule :=
  ⟨9, [[1], [2]], 0, 2, [7], [some ⟨1, none, 9, []⟩, none, some ⟨6, some [3, 5], 9, []⟩]⟩

theorem partialSchedule_saved :
    SavesAll pairConfig savingConfig pairCaches (pairConfig.putGroup 0 0) 0 partialSchedule := by
  refine (savesAll_iff pairConfig_valid ⟨by decide, rfl, rfl⟩ rfl (fun _ => by simp [pairCaches])
    (by decide) ⟨by decide, by decide, ?_⟩ (by decide) (by decide)).mpr (by decide)
  simp [Schedule.FitsFrom, partialSchedule, Schedule.tokensOf, Schedule.blocksOf, pairConfig,
    blockSize]

def shortSchedule : Schedule :=
  ⟨8, [[1], [2]], 0, 2, [7], [some ⟨1, none, 8, []⟩, some ⟨5, some [3], 8, []⟩]⟩

/-- The tracker ends at seven tokens, so the second chunk is never ordered. -/
theorem shortSchedule_not_saved :
    (shortSchedule.run savingConfig 0).map (·.map fun m => (m.tokenLenChunk, m.isLastChunk))
      = .ok [(4, some false)] ∧
    ¬ SavesAll pairConfig savingConfig pairCaches (pairConfig.putGroup 0 0) 0 shortSchedule := by
  refine ⟨rfl, not_savesAll_of_lt pairConfig_valid ⟨by decide, rfl, rfl⟩ rfl (by decide)
    ⟨by decide, by decide, ?_⟩ (by decide) (by decide) (fun _ => by simp [pairCaches]) (by decide)⟩
  simp [Schedule.FitsFrom, shortSchedule, Schedule.tokensOf, Schedule.blocksOf, pairConfig,
    blockSize]

end VllmDual.Store
