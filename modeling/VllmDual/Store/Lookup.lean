/-
  Subject:   THE SCHEDULER'S LOOKUP (`KVPoolWorker.lookup_scheduler`, `check_all_layers_exists`,
             `find_min_first_non_one_index`,
             `vllm/distributed/kv_transfer/ascend/kv_pool/ascend_store/pool_worker.py`).

  The worker of rank zero asks the store for the keys of all workers, which it makes from its own by
  replacing ranks in their texts, and cuts the answers up again by worker and layer.
-/
import VllmDual.Lib.Slices
import VllmDual.Store.Keys

namespace VllmDual.Store

open Text Slices List

/-! ## 1. Workers -/

/-- The configuration of the workers of one engine. `numLayers` is by pipeline rank. -/
structure Config where
  modelName : List Char
  tpSize : Nat
  ppSize : Nat
  pcpSize : Nat
  dcpSize : Nat
  numKvHead : Nat
  cacheBlockSize : Nat
  numLayers : Nat → Nat
  useLayerwise : Bool

namespace Config

variable (c : Config)

/-- The ranks are laid out as pipeline stage, prefill context rank, tensor rank. -/
def worldSize : Nat := c.ppSize * c.pcpSize * c.tpSize

variable (rank : Nat)

def tpRank : Nat := rank % c.tpSize

def pcpRank : Nat := if 1 < c.pcpSize then rank / c.tpSize % c.pcpSize else 0

/-- A decode context group is made of neighbours in a tensor group. -/
def dcpRank : Nat := if 1 < c.dcpSize then rank % c.dcpSize else 0

def stage : Nat := rank / c.tpSize / c.pcpSize

def ppRank : Nat := rank / c.tpSize % c.ppSize

def putStep : Nat := if c.numKvHead < c.tpSize then c.tpSize / c.numKvHead else 1

def headOrTpRank : Nat :=
  if c.numKvHead < c.tpSize then c.tpRank rank / c.putStep else c.tpRank rank

def metadata : KeyMetadata :=
  ⟨c.modelName, c.headOrTpRank rank, c.pcpRank rank, c.dcpRank rank, c.ppRank rank⟩

def blockSize : Nat :=
  let size := if 1 < c.pcpSize then c.cacheBlockSize * c.pcpSize else c.cacheBlockSize
  if 1 < c.dcpSize then size * c.dcpSize else size

/-- The sizes that the engine accepts, and a model name without the separator of the keys. -/
structure Valid : Prop where
  name : '@' ∉ c.modelName
  tp_pos : 0 < c.tpSize
  pp_pos : 0 < c.ppSize
  pcp_pos : 0 < c.pcpSize
  dcp_pos : 0 < c.dcpSize
  head_pos : 0 < c.numKvHead
  block_pos : 0 < c.cacheBlockSize
  layers_pos : ∀ s < c.ppSize, 0 < c.numLayers s
  dcp_dvd : c.dcpSize ∣ c.tpSize
  dcp_le : c.dcpSize ≤ c.putStep

end Config

/-! ## 2. The lookup -/

def storeKeys (useLayerwise : Bool) (numLayers : Nat) (k : PoolKey) : List (List Char) :=
  if useLayerwise then (k.splitLayers numLayers).map LayerPoolKey.toString else [k.toString]

def checkAllLayersExists (res : List Int) (numLayers : Nat) : List Int :=
  (slices numLayers (res.length / numLayers) res).map fun chunk =>
    if chunk.all (· = 1) then 1 else 0

def findMinFirstNonOneIndex (rows : List (List Int)) : Option Nat :=
  (rows.flatMap fun row => (row.zipIdx.filter (·.1 ≠ 1)).map Prod.snd).min?

def multiTpKeys (c : Config) (keys : List (List Char)) : List (List Char) :=
  keys ++ (range' 1 (min c.tpSize c.numKvHead - 1)).flatMap fun i =>
    keys.map (replaceFirst (field "head_or_tp_rank:" 0) (field "head_or_tp_rank:" i))

def multiPpKeys (c : Config) (keys : List (List Char)) : List (List Char) :=
  keys ++ (range' 1 (c.ppSize - 1)).flatMap fun i =>
    keys.map (replaceFirst (field "pp_rank:" 0) (field "pp_rank:" i))

/-- `lookup_scheduler`, on the worker of rank zero. `present` asks the store, which may raise. -/
def lookupScheduler (c : Config) (present : List (List Char) → Option (List Int)) (tokenLen : Nat)
    (blockHashes : List BlockHash) : Nat :=
  let numLayers := c.numLayers 0
  let chunks := processTokens c.blockSize (c.metadata 0) tokenLen blockHashes 0
  let keys := chunks.flatMap fun e => storeKeys c.useLayerwise numLayers e.2.2
  match present (multiPpKeys c (multiTpKeys c keys)) with
  | none => 0
  | some res =>
    if c.useLayerwise ∧ numLayers = 0 then
      -- the division raises
      0
    else
      let res := if c.useLayerwise then checkAllLayersExists res numLayers else res
      let numBlock := if c.useLayerwise then keys.length / numLayers else keys.length
      let multiTpValues := slices numBlock (min c.tpSize c.numKvHead * c.ppSize) res
      match findMinFirstNonOneIndex multiTpValues with
      | some index => (chunks[index]?).elim 0 (·.1)
      | none => (chunks.getLast?).elim 0 (·.2.1)

/-! ## 3. The keys asked for -/

section Keys

variable {c : Config} {tl : Nat} {bh : List BlockHash}

def views (c : Config) : List (Nat × Nat) :=
  (range c.ppSize).flatMap fun p => (range (min c.tpSize c.numKvHead)).map fun h => (h, p)

theorem mem_views {h p : Nat} : (h, p) ∈ views c ↔ h < min c.tpSize c.numKvHead ∧ p < c.ppSize := by
  simp [views, and_comm]

theorem length_views : (views c).length = min c.tpSize c.numKvHead * c.ppSize := by
  unfold views
  rw [length_flatMap (k := min c.tpSize c.numKvHead) (fun _ _ => by simp), length_range]
  ring

/-- The key of a chunk for a head and a pipeline rank, with rank zero's other coordinates. -/
def viewKey (c : Config) (view : Nat × Nat) (chunkHash : List Char) : PoolKey :=
  ⟨{ c.metadata 0 with headOrTpRank := view.1, ppRank := view.2 }, chunkHash⟩

def viewKeys (c : Config) (view : Nat × Nat) (chunkHash : List Char) : List (List Char) :=
  storeKeys c.useLayerwise (c.numLayers 0) (viewKey c view chunkHash)

theorem range_flatMap {α : Type} {n : Nat} (hn : 0 < n) (f : Nat → List α) :
    (range n).flatMap f = f 0 ++ (range' 1 (n - 1)).flatMap f := by
  obtain ⟨n, rfl⟩ := Nat.exists_eq_succ_of_ne_zero hn.ne'
  rw [range_eq_range', Nat.succ_sub_one, range'_succ, flatMap_cons]

theorem map_replaceFirst_head (hn : '@' ∉ c.modelName) (p i : Nat) (ch : List Char) :
    (viewKeys c (0, p) ch).map (replaceFirst (field "head_or_tp_rank:" 0)
      (field "head_or_tp_rank:" i)) = viewKeys c (i, p) ch := by
  unfold viewKeys storeKeys
  cases c.useLayerwise with
  | false => exact congrArg (fun k => [k]) (replaceFirst_head hn i)
  | true =>
    simp only [if_true, PoolKey.splitLayers, map_map]
    exact map_congr_left fun l _ => replaceFirst_head hn i

theorem map_replaceFirst_pp (hn : '@' ∉ c.modelName) (h i : Nat) (hash : BlockHash) :
    (viewKeys c (h, 0) (hex hash)).map (replaceFirst (field "pp_rank:" 0) (field "pp_rank:" i))
      = viewKeys c (h, i) (hex hash) := by
  unfold viewKeys storeKeys
  cases c.useLayerwise with
  | false => exact congrArg (fun k => [k]) (replaceFirst_pp hn rfl i)
  | true =>
    simp only [if_true, PoolKey.splitLayers, map_map]
    exact map_congr_left fun l _ =>
      replaceFirst_pp_layer hn (notMem_hex (by decide)) (notMem_hex (by decide)) i

theorem viewKey_zero {ch : List Char} : viewKey c (0, 0) ch = ⟨c.metadata 0, ch⟩ := by
  have hh : c.headOrTpRank 0 = 0 := by simp [Config.headOrTpRank, Config.tpRank]
  have hpp : c.ppRank 0 = 0 := by simp [Config.ppRank]
  simp [viewKey, Config.metadata, hh, hpp]

theorem mem_chunks {e : Nat × Nat × PoolKey}
    (he : e ∈ processTokens c.blockSize (c.metadata 0) tl bh 0) :
    ∃ hash, e.2.2 = ⟨c.metadata 0, hex hash⟩ := by
  obtain ⟨i, hi⟩ := mem_iff_getElem?.mp he
  rw [getElem?_processTokens] at hi
  split_ifs at hi
  obtain ⟨hash, -, heq⟩ := Option.map_eq_some_iff.mp hi
  exact ⟨hash, by rw [← heq]⟩

theorem allKeys_eq (hc : c.Valid) {cs : List (Nat × Nat × PoolKey)}
    (hch : ∀ e ∈ cs, ∃ hash, e.2.2 = ⟨c.metadata 0, hex hash⟩) :
    multiPpKeys c (multiTpKeys c (cs.flatMap fun e =>
        storeKeys c.useLayerwise (c.numLayers 0) e.2.2))
      = (views c).flatMap fun vi => cs.flatMap fun e => viewKeys c vi e.2.2.chunkHash := by
  have hz : (cs.flatMap fun e => storeKeys c.useLayerwise (c.numLayers 0) e.2.2)
      = cs.flatMap fun e => viewKeys c (0, 0) e.2.2.chunkHash := by
    refine flatMap_congr fun e he => ?_
    obtain ⟨hash, hk⟩ := hch e he
    rw [viewKeys, viewKey_zero, hk]
  have hm : 0 < min c.tpSize c.numKvHead := lt_min hc.tp_pos hc.head_pos
  have htp : multiTpKeys c (cs.flatMap fun e => viewKeys c (0, 0) e.2.2.chunkHash)
      = (range (min c.tpSize c.numKvHead)).flatMap fun h =>
        cs.flatMap fun e => viewKeys c (h, 0) e.2.2.chunkHash := by
    rw [multiTpKeys, range_flatMap hm]
    refine congrArg _ (flatMap_congr fun i _ => ?_)
    rw [map_flatMap]
    exact flatMap_congr fun e _ => map_replaceFirst_head hc.name 0 i _
  rw [hz, htp, multiPpKeys, views, flatMap_assoc, range_flatMap hc.pp_pos, flatMap_map]
  refine congrArg _ (flatMap_congr fun i _ => ?_)
  rw [map_flatMap, flatMap_map]
  refine flatMap_congr fun h _ => ?_
  rw [map_flatMap]
  refine flatMap_congr fun e he => ?_
  obtain ⟨hash, hk⟩ := hch e he
  rw [hk]
  exact map_replaceFirst_pp hc.name h i hash

end Keys

/-! ## 4. The answer -/

/-- The store answers one for the keys it has, if it can be reached. -/
def answers (reachable : Bool) (stored : List Char → Bool) (keys : List (List Char)) :
    Option (List Int) :=
  if reachable then some (keys.map fun k => if stored k then 1 else 0) else none

section Answer

variable {c : Config} {tl i j : Nat} {bh : List BlockHash} {st : List Char → Bool}
  {rs : List (List Int)} {vi : Nat × Nat}

def there (c : Config) (stored : List Char → Bool) (view : Nat × Nat)
    (chunkHash : List Char) : Int :=
  if (viewKeys c view chunkHash).all stored then 1 else 0

theorem length_viewKeys (vi : Nat × Nat) (ch : List Char) :
    (viewKeys c vi ch).length = if c.useLayerwise then c.numLayers 0 else 1 := by
  unfold viewKeys storeKeys
  split_ifs <;> simp [PoolKey.splitLayers]

theorem checkAllLayersExists_eq {β : Type} {nl : Nat} (hp : 0 < nl)
    {vs : List β} {f : β → List (List Char)} (hl : ∀ v ∈ vs, (f v).length = nl) :
    checkAllLayersExists ((vs.flatMap f).map fun k => if st k then 1 else 0) nl
      = vs.map fun v => if (f v).all st then 1 else 0 := by
  have hlen : ((vs.flatMap f).map fun k => if st k then (1 : Int) else 0).length / nl
      = vs.length := by
    rw [length_map, length_flatMap hl, Nat.mul_div_cancel _ hp]
  rw [checkAllLayersExists, hlen, map_flatMap,
    slices_flatMap fun v hv => (length_map _).trans (hl v hv), map_map]
  refine map_congr_left fun v _ => ?_
  have ha : ((f v).map fun k => if st k then (1 : Int) else 0).all (· = 1)
      = (f v).all st := by
    rw [all_map]
    refine congrArg (fun p => (f v).all p) (funext fun k => ?_)
    by_cases hk : st k <;> simp [hk]
  simp only [Function.comp, ha]

theorem rows_eq (hc : c.Valid) (st : List Char → Bool) {cs : List (Nat × Nat × PoolKey)}
    (hch : ∀ e ∈ cs, ∃ hash, e.2.2 = ⟨c.metadata 0, hex hash⟩) :
    let keys := cs.flatMap fun e => storeKeys c.useLayerwise (c.numLayers 0) e.2.2
    let res : List Int := (multiPpKeys c (multiTpKeys c keys)).map fun k => if st k then 1 else 0
    slices (if c.useLayerwise then keys.length / c.numLayers 0 else keys.length)
        (min c.tpSize c.numKvHead * c.ppSize)
        (if c.useLayerwise then checkAllLayersExists res (c.numLayers 0) else res)
      = (views c).map fun vi => cs.map fun e => there c st vi e.2.2.chunkHash := by
  intro keys res
  have hl := hc.layers_pos 0 hc.pp_pos
  have hk : ∀ e ∈ cs, (storeKeys c.useLayerwise (c.numLayers 0) e.2.2).length
      = if c.useLayerwise then c.numLayers 0 else 1 := by
    intro e _
    unfold storeKeys
    split_ifs <;> simp [PoolKey.splitLayers]
  have hb : (if c.useLayerwise then keys.length / c.numLayers 0 else keys.length)
      = cs.length := by
    have hlen : keys.length = cs.length * if c.useLayerwise then c.numLayers 0 else 1 :=
      length_flatMap hk
    split_ifs at hlen ⊢
    · rw [hlen, Nat.mul_div_cancel _ hl]
    · rw [hlen, Nat.mul_one]
  have hr : (if c.useLayerwise then checkAllLayersExists res (c.numLayers 0) else res)
      = (views c).flatMap fun vi => cs.map fun e => there c st vi e.2.2.chunkHash := by
    have ha : res = (((views c).flatMap fun vi => cs.map fun e => (vi, e)).flatMap
        fun pair => viewKeys c pair.1 pair.2.2.2.chunkHash).map fun k => if st k then 1 else 0 := by
      simp only [res, keys]
      rw [allKeys_eq hc hch, flatMap_assoc]
      simp only [flatMap_map]
    rw [ha]
    split_ifs with hm
    · rw [checkAllLayersExists_eq hl fun pair _ => by rw [length_viewKeys, if_pos hm], map_flatMap]
      simp only [map_map]
      rfl
    · rw [map_flatMap, flatMap_assoc]
      refine flatMap_congr fun vi _ => ?_
      rw [flatMap_map]
      have ho : ∀ e : Nat × Nat × PoolKey, ((viewKeys c vi e.2.2.chunkHash).map
          fun k => if st k then (1 : Int) else 0) = [there c st vi e.2.2.chunkHash] := by
        intro e
        simp [there, viewKeys, storeKeys, hm]
      simp only [ho]
      exact map_eq_flatMap.symm
  rw [hb, hr, ← length_views, slices_flatMap fun vi _ => length_map _]

theorem mem_nonOnes : j ∈ rs.flatMap (fun row => (row.zipIdx.filter (·.1 ≠ 1)).map Prod.snd) ↔
      ∃ row ∈ rs, ∃ x, row[j]? = some x ∧ x ≠ 1 := by
  simp only [mem_flatMap, mem_map, mem_filter, decide_eq_true_eq]
  constructor
  · rintro ⟨row, hr, ⟨x, k⟩, ⟨hm, hx⟩, rfl⟩
    exact ⟨row, hr, x, mem_zipIdx_iff_getElem?.mp hm, hx⟩
  · rintro ⟨row, hr, x, hg, hx⟩
    exact ⟨row, hr, (x, j), ⟨mem_zipIdx_iff_getElem?.mpr hg, hx⟩, rfl⟩

theorem eq_one_of_lt_index {row : List Int} {x : Int}
    (hf : ∀ ix, findMinFirstNonOneIndex rs = some ix → j < ix) (hr : row ∈ rs)
    (hg : row[j]? = some x) : x = 1 := by
  by_contra hne
  have hmem := mem_nonOnes.mpr ⟨row, hr, x, hg, hne⟩
  cases hm : findMinFirstNonOneIndex rs with
  | none =>
    rw [findMinFirstNonOneIndex, min?_eq_none_iff] at hm
    rw [hm] at hmem
    cases hmem
  | some ix =>
    have hlt := hf ix hm
    have hle := (min?_eq_some_iff.mp hm).2 j hmem
    omega

theorem findMin_eq_none (h : ∀ row ∈ rs, ∀ x ∈ row, x = 1) : findMinFirstNonOneIndex rs = none := by
  rw [findMinFirstNonOneIndex, min?_eq_none_iff, eq_nil_iff_forall_not_mem]
  intro j hj
  obtain ⟨row, hr, x, hg, hne⟩ := mem_nonOnes.mp hj
  exact hne (h row hr x (mem_of_getElem? hg))

theorem there_eq_one {ch : List Char} :
    there c st vi ch = 1 ↔ ∀ k ∈ viewKeys c vi ch, st k = true := by
  unfold there
  rw [← all_eq_true]
  split_ifs with h <;> simp [h]

theorem lookupScheduler_eq (hc : c.Valid) :
    lookupScheduler c (answers true st) tl bh
      = let cs := processTokens c.blockSize (c.metadata 0) tl bh 0
        match findMinFirstNonOneIndex ((views c).map fun vi =>
          cs.map fun e => there c st vi e.2.2.chunkHash) with
        | some ix => (cs[ix]?).elim 0 (·.1)
        | none => (cs.getLast?).elim 0 (·.2.1) := by
  have hl := hc.layers_pos 0 hc.pp_pos
  have hch : ∀ e ∈ processTokens c.blockSize (c.metadata 0) tl bh 0,
      ∃ hash, e.2.2 = ⟨c.metadata 0, hex hash⟩ := fun e he => mem_chunks he
  have hr := rows_eq hc st hch
  dsimp only at hr ⊢
  rw [← hr]
  unfold lookupScheduler answers
  simp only [if_true]
  rw [if_neg fun h => hl.ne' h.2]

/-- **The chunks before the answer are there**, for every head and pipeline rank. -/
theorem lookup_hits (hc : c.Valid) {r : Bool} {hash : BlockHash}
    (hlt : i * c.blockSize < lookupScheduler c (answers r st) tl bh)
    (hg : bh[i]? = some hash) (hv : vi ∈ views c) :
    ∀ k ∈ viewKeys c vi (hex hash), st k = true := by
  cases r with
  | false => exact absurd hlt (Nat.not_lt_zero _)
  | true =>
    rw [lookupScheduler_eq hc] at hlt
    dsimp only at hlt
    have hch : ∀ j, (processTokens c.blockSize (c.metadata 0) tl bh 0)[j]? = _ :=
      fun j => getElem?_processTokens
    generalize processTokens c.blockSize (c.metadata 0) tl bh 0 = chunks at hlt hch
    -- the chunk is looked up, and it comes before the index
    have hb : i * c.blockSize < tl ∧ ∀ ix, findMinFirstNonOneIndex ((views c).map
        fun vi => chunks.map fun e => there c st vi e.2.2.chunkHash) = some ix →
        i < ix := by
      split at hlt
      · rename_i ix hf
        cases hidx : chunks[ix]? with
        | none =>
          rw [hidx] at hlt
          exact absurd hlt (Nat.not_lt_zero _)
        | some e =>
          rw [hidx] at hlt
          have he := hch ix
          rw [hidx] at he
          split_ifs at he with hl
          obtain ⟨h, -, rfl⟩ := Option.map_eq_some_iff.mp he.symm
          have hlt' : i * c.blockSize < ix * c.blockSize := hlt
          refine ⟨hlt'.trans hl, fun ix' hf' => ?_⟩
          rw [hf] at hf'
          cases hf'
          exact Nat.lt_of_mul_lt_mul_right hlt'
      · rename_i hf
        rw [getLast?_eq_getElem?] at hlt
        cases hidx : chunks[chunks.length - 1]? with
        | none =>
          rw [hidx] at hlt
          exact absurd hlt (Nat.not_lt_zero _)
        | some e =>
          rw [hidx] at hlt
          have he := hch (chunks.length - 1)
          rw [hidx] at he
          split_ifs at he with hl
          obtain ⟨h, -, rfl⟩ := Option.map_eq_some_iff.mp he.symm
          refine ⟨hlt.trans_le (Nat.min_le_right _ _), fun ix' hf' => ?_⟩
          rw [hf] at hf'
          cases hf'
    have hi := hch i
    rw [if_pos hb.1, hg] at hi
    refine there_eq_one.mp (eq_one_of_lt_index hb.2 (mem_map.mpr ⟨vi, hv, rfl⟩) ?_)
    rw [getElem?_map, hi]
    rfl

theorem lookup_all (hc : c.Valid)
    (ha : ∀ vi ∈ views c, ∀ hash ∈ bh, ∀ k ∈ viewKeys c vi (hex hash), st k = true) :
    lookupScheduler c (answers true st) tl bh
      = ((processTokens c.blockSize (c.metadata 0) tl bh 0).getLast?).elim 0 (·.2.1) := by
  rw [lookupScheduler_eq hc]
  dsimp only
  rw [findMin_eq_none]
  intro row hr x hx
  obtain ⟨vi, hv, rfl⟩ := mem_map.mp hr
  obtain ⟨e, he, rfl⟩ := mem_map.mp hx
  obtain ⟨j, hj⟩ := mem_iff_getElem?.mp he
  rw [getElem?_processTokens] at hj
  split_ifs at hj
  obtain ⟨hash, hh, rfl⟩ := Option.map_eq_some_iff.mp hj
  exact there_eq_one.mpr (ha vi hv hash (mem_of_getElem? hh))

end Answer

end VllmDual.Store
