/-
  Subject:   THE MANAGERS OF THE KV CACHE GROUPS (`vllm/v1/core/single_type_kv_cache_manager.py`).

  A manager keeps a block table for each request and moves blocks between the tables and its pool.
  Every method works on the entry of one request and on the pools.

  The overrides of `DSALatentManager` and the dispatch to the class are in `Latent.lean`. A table is
  the list of its block ids, and a request without an entry has the empty one. Left out:
  `new_block_ids`, the counts of common blocks, and the log lines.
-/
import VllmDual.Lib.Ceil
import VllmDual.Core.Pools

namespace VllmDual.Core

open Outcome Ceil

/-! ## 1. Managers and entries -/

abbrev RequestId := Nat

/-- The class of a manager, with what it reads from its spec. `full` covers full attention, MLA and
    sink attention. -/
inductive ManagerKind where
  | full
  | dsaLatent (scratchBlocks : Nat)
  | slidingWindow (slidingWindow : Nat)
  | chunkedLocal (attentionChunkSize : Nat)
  | mamba (align : Bool) (numSpeculativeBlocks : Nat)
  | crossAttention
deriving DecidableEq

def ManagerKind.isFullAttention : ManagerKind → Bool
  | full | dsaLatent _ => true
  | _ => false

/-- A manager. `specRest` stands for the fields of its spec that only the comparison of two specs
    reads. -/
structure Manager where
  group : Nat
  kind : ManagerKind
  specBlockSize : Nat
  specRest : Nat
  worldSize : Nat
  enableCaching : Bool
  specBlockSize_pos : 0 < specBlockSize
  worldSize_pos : 0 < worldSize

/-- `self.block_size`: in tokens, over all context-parallel ranks. -/
def Manager.blockSize (m : Manager) : Nat := m.specBlockSize * m.worldSize

theorem Manager.blockSize_pos (m : Manager) : 0 < m.blockSize :=
  Nat.mul_pos m.specBlockSize_pos m.worldSize_pos

/-- What a manager keeps for one request: `req_to_blocks`, `num_cached_block`, the two maps of
    `DSALatentManager`, and `last_state_block_idx` and `_allocated_block_reqs` of `MambaManager`. -/
structure Entry where
  blocks : List BlockId := []
  numCachedBlock : Option Nat := none
  compactPrefixTokens : Option Int := none
  compactReleasedBlocks : Option Int := none
  lastStateBlockIdx : Option Int := none
  allocated : Bool := false

/-- `request_id in self.num_cached_block`. -/
def Entry.running (e : Entry) : Bool := e.numCachedBlock.isSome

namespace Manager

variable (m : Manager)

/-! ## 2. The base class -/

def getNumSkippedTokens (numComputedTokens : Int) : Int :=
  match m.kind with
  | .slidingWindow w => max 0 (numComputedTokens - w + 1)
  | .chunkedLocal c => numComputedTokens / c * c
  | .mamba .. => numComputedTokens - 1
  | _ => 0

variable (pools : Pools)

def getNumEvictableBlocks (blocks : List BlockId) : Int :=
  (blocks.countP fun b => pools.refCnt m.group b = 0 ∧ b ≠ 0 : Nat)

variable (e : Entry)

/-- `SingleTypeKVCacheManager.get_num_blocks_to_allocate`. -/
def baseGetNumBlocksToAllocate (numTokens : Int) (newComputedBlocks : List BlockId)
    (totalComputedTokens : Int) : Except CoreError Int :=
  let numRequiredBlocks := cdiv numTokens m.blockSize
  let numReqBlocks : Int := e.blocks.length
  if e.running then do
    ensure (newComputedBlocks = []) (.assertion "len(new_computed_blocks) == 0")
    return max (numRequiredBlocks - numReqBlocks) 0
  else
    let numSkippedBlocks := m.getNumSkippedTokens totalComputedTokens / m.blockSize
    let numLocalComputedBlocks := newComputedBlocks.length + numReqBlocks
    let numNewBlocks := max (numRequiredBlocks - max numSkippedBlocks numLocalComputedBlocks) 0
    let numSkippedNew := max 0 (numSkippedBlocks - numReqBlocks)
    .ok (numNewBlocks + m.getNumEvictableBlocks pools (newComputedBlocks.drop numSkippedNew.toNat))

/-- The blocks for the external tokens, at the end of `allocate_new_computed_blocks`. -/
def allocateExternal (numTotalComputedTokens numExternalComputedTokens : Int) :
    Except CoreError (Entry × Pools) :=
  if 0 < numExternalComputedTokens then do
    let (allocated, pools) ← pools.getNewBlocks m.group
      (cdiv numTotalComputedTokens m.blockSize - e.blocks.length)
    return ({ e with blocks := e.blocks ++ allocated }, pools)
  else
    .ok (e, pools)

variable (newComputedBlocks : List BlockId)

/-- The computed blocks and external tokens that remain after the skipped ones. -/
def unskipped (numTotalComputedTokens numExternalComputedTokens : Int) : List BlockId × Int :=
  let numSkippedTokens := m.getNumSkippedTokens numTotalComputedTokens
  let numSkippedBlocks := numSkippedTokens / m.blockSize
  if 0 < numSkippedBlocks then
    (newComputedBlocks.drop numSkippedBlocks.toNat,
      min (numTotalComputedTokens - numSkippedTokens) numExternalComputedTokens)
  else
    (newComputedBlocks, numExternalComputedTokens)

/-- The computed blocks are touched, or there are none without prefix caching. -/
def touchComputed : Except CoreError Pools :=
  if m.enableCaching then
    pools.touch m.group newComputedBlocks
  else do
    ensure (newComputedBlocks = [])
      (.assertion "Computed blocks should be empty when prefix caching is disabled")
    return pools

/-- `SingleTypeKVCacheManager.allocate_new_computed_blocks`. -/
def baseAllocateNewComputedBlocks (numLocalComputedTokens numExternalComputedTokens : Int) :
    Except CoreError (Entry × Pools) :=
  if e.running then do
    ensure (newComputedBlocks = []) (.assertion "len(new_computed_blocks) == 0")
    return (e, pools)
  else do
    ensure (e.blocks = []) (.assertion "len(req_blocks) == 0")
    let total := numLocalComputedTokens + numExternalComputedTokens
    let numSkippedBlocks := m.getNumSkippedTokens total / m.blockSize
    let rest := m.unskipped newComputedBlocks total numExternalComputedTokens
    let pools ← m.touchComputed pools rest.1
    let blocks := List.replicate numSkippedBlocks.toNat 0 ++ rest.1
    m.allocateExternal pools { e with blocks, numCachedBlock := some blocks.length } total rest.2

/-- `SingleTypeKVCacheManager.allocate_new_blocks`; also the blocks it returns. -/
def baseAllocateNewBlocks (numTokens : Int) : Except CoreError (List BlockId × Entry × Pools) :=
  let numNewBlocks := cdiv numTokens m.blockSize - e.blocks.length
  if numNewBlocks ≤ 0 then
    .ok ([], e, pools)
  else do
    let (newBlocks, pools) ← pools.getNewBlocks m.group numNewBlocks
    return (newBlocks, { e with blocks := e.blocks ++ newBlocks }, pools)

/-- `SingleTypeKVCacheManager.cache_blocks`. -/
def baseCacheBlocks (hashes : List BlockHash) (numTokens : Int) :
    Except CoreError (Entry × Pools) :=
  let numCachedBlocks := e.numCachedBlock.getD 0
  let numFullBlocks := (numTokens / m.blockSize).toNat
  if numFullBlocks ≤ numCachedBlocks then
    .ok (e, pools)
  else do
    let pools ← pools.cacheFullBlocks m.group hashes e.blocks numCachedBlocks numFullBlocks
      m.blockSize
    return ({ e with numCachedBlock := some numFullBlocks }, pools)

/-- `free`, of every class: the entry is gone and its blocks are freed from the tail on. -/
def free : Except CoreError (Entry × Pools) := do
  let pools ← pools.freeBlocks m.group e.blocks.reverse
  return ({}, pools)

/-- The loop of `remove_skipped_blocks`: from index `n - 1` down to the first null block. The
    removed blocks in that order, and the table they leave. -/
def removeFrom (blocks : List BlockId) (n : Nat) : List BlockId × List BlockId :=
  let removed := (blocks.take n).reverse.takeWhile (· ≠ 0)
  (removed, blocks.take (n - removed.length) ++ List.replicate removed.length 0 ++ blocks.drop n)

/-- `SingleTypeKVCacheManager.remove_skipped_blocks`. -/
def baseRemoveSkippedBlocks (totalComputedTokens : Int) : Except CoreError (Entry × Pools) :=
  let numSkippedTokens := m.getNumSkippedTokens totalComputedTokens
  if numSkippedTokens ≤ 0 then
    .ok (e, pools)
  else do
    let numSkippedBlocks := min (numSkippedTokens / m.blockSize).toNat e.blocks.length
    let (removed, blocks) := removeFrom e.blocks numSkippedBlocks
    let pools ← pools.freeBlocks m.group removed
    return ({ e with blocks }, pools)

/-! ## 3. Mamba -/

/-- The last computed block was cached in this step, so its state is not there yet. -/
def hitsThisStep (cachedBlocksThisStep : List BlockKey) (newComputedBlocks : List BlockId) : Bool :=
  (newComputedBlocks.getLast?.bind (pools.blockHash m.group)).any (· ∈ cachedBlocksThisStep)

variable (align : Bool)

/-- `MambaManager.get_num_blocks_to_allocate`. One block more than there are keeps the request out
    of this step. Without `align` speculative blocks are blocks of the spec. -/
def mambaGetNumBlocksToAllocate (numSpeculativeBlocks : Nat) (pools : Pools)
    (cachedBlocksThisStep : List BlockKey) (e : Entry) (numTokens : Int)
    (newComputedBlocks : List BlockId) (totalComputedTokens numTokensMainModel : Int) :
    Except CoreError Int :=
  if m.hitsThisStep pools cachedBlocksThisStep newComputedBlocks then
    .ok (pools.numGpuBlocks m.group + 1)
  else if !align then
    m.baseGetNumBlocksToAllocate pools e (numTokens + m.specBlockSize * numSpeculativeBlocks)
      newComputedBlocks totalComputedTokens
  else
    let numRequiredBlocks := cdiv numTokensMainModel m.blockSize + numSpeculativeBlocks
    let missing := numRequiredBlocks - newComputedBlocks.length - e.blocks.length
    let numNewBlocks :=
      if 0 < missing then
        if e.allocated then 1 else 1 + (numSpeculativeBlocks : Int)
      else
        missing
    .ok (numNewBlocks + m.getNumEvictableBlocks pools newComputedBlocks)

/-- The speculative blocks of the previous step move to the end of the table, as long as they are
    before the skipped part's end. -/
def reuseSpeculative (numSkippedBlocks : Int) : Nat → Nat → List BlockId → List BlockId
  | 0, _, blocks => blocks
  | n + 1, i, blocks =>
    if (i : Int) < numSkippedBlocks then
      reuseSpeculative numSkippedBlocks n (i + 1) (blocks.set i 0 ++ [blocks.getD i 0])
    else
      blocks

variable (numSpeculativeBlocks : Nat)

/-- `last_state_block_idx` after the table has grown. -/
def lastStateBlock (e : Entry) : Option Int :=
  if e.allocated then
    some ((e.blocks.length : Int) - 1 - numSpeculativeBlocks)
  else if 0 < e.blocks.length then
    some ((e.blocks.length : Int) - 1)
  else
    e.lastStateBlockIdx

/-- The table of `align` mode before new blocks: null blocks up to the running state, and the
    speculative blocks of the previous step after them. -/
def alignedTable (e : Entry) (numSkippedBlocks : Int) : List BlockId :=
  let blocks := e.blocks ++ List.replicate (numSkippedBlocks.toNat - e.blocks.length) 0
  if e.allocated then
    reuseSpeculative numSkippedBlocks numSpeculativeBlocks
      (e.blocks.length - numSpeculativeBlocks) blocks
  else
    blocks

/-- `MambaManager.allocate_new_blocks` in `align` mode. -/
def alignAllocateNewBlocks (pools : Pools) (e : Entry) (numTokensMainModel : Int) :
    Except CoreError (List BlockId × Entry × Pools) :=
  let numRequiredBlocks := cdiv numTokensMainModel m.blockSize + numSpeculativeBlocks
  if numRequiredBlocks = e.blocks.length then
    .ok ([], e, pools)
  else do
    ensure ((e.blocks.length : Int) < numRequiredBlocks)
      (.assertion "num_required_blocks > len(req_blocks)")
    let blocks := alignedTable numSpeculativeBlocks e (numRequiredBlocks - numSpeculativeBlocks - 1)
    let numNewBlocks := numRequiredBlocks - blocks.length
    ensure (numNewBlocks ≤ if e.allocated then 1 else (numSpeculativeBlocks : Int) + 1)
      (.assertion "num_new_blocks <= num_speculative_blocks + 1")
    let (newBlocks, pools) ← pools.getNewBlocks m.group numNewBlocks
    let blocks := blocks ++ newBlocks
    return (blocks.drop e.blocks.length,
      { e with
        blocks
        lastStateBlockIdx := lastStateBlock numSpeculativeBlocks e
        allocated := true }, pools)

/-- `MambaManager.allocate_new_blocks`. -/
def mambaAllocateNewBlocks (numSpeculativeBlocks : Nat) (pools : Pools) (e : Entry)
    (numTokens numTokensMainModel : Int) : Except CoreError (List BlockId × Entry × Pools) :=
  if align then
    m.alignAllocateNewBlocks numSpeculativeBlocks pools e numTokensMainModel
  else
    m.baseAllocateNewBlocks pools e (numTokens + m.blockSize * numSpeculativeBlocks)

/-- The index a Python subscript stands for: a negative one counts from the end. -/
def subscript (length : Nat) (i : Int) : Option Nat :=
  let i := if i < 0 then i + length else i
  if 0 ≤ i ∧ i < length then some i.toNat else none

/-- `MambaManager.remove_skipped_blocks`: also the state block of two steps ago. -/
def mambaRemoveSkippedBlocks (numSpeculativeBlocks : Nat) (pools : Pools) (e : Entry)
    (numComputedTokens : Int) : Except CoreError (Entry × Pools) := do
  let numComputedTokens := max 0 (numComputedTokens - numSpeculativeBlocks)
  let (e, pools) ← m.baseRemoveSkippedBlocks pools e numComputedTokens
  match if align then e.lastStateBlockIdx else none with
  | none => return (e, pools)
  | some last =>
    if last < cdiv numComputedTokens m.blockSize - 1 then
      match subscript e.blocks.length last with
      | none => .error .index
      | some i =>
        if e.blocks.getD i 0 = 0 then
          return (e, pools)
        else do
          let pools ← pools.freeBlocks m.group [e.blocks.getD i 0]
          return ({ e with blocks := e.blocks.set i 0 }, pools)
    else
      return (e, pools)

/-- `MambaManager.cache_blocks`; also the hashes it adds to `cached_blocks_this_step`. -/
def mambaCacheBlocks (hashes : List BlockHash) (numTokens : Int) :
    Except CoreError (List BlockKey × Entry × Pools) := do
  let (e', pools) ← m.baseCacheBlocks pools e hashes numTokens
  let newlyCached := (e'.blocks.take (e'.numCachedBlock.getD 0)).drop (e.numCachedBlock.getD 0)
  let keys ← (newlyCached.filter (· ≠ 0)).mapM fun b =>
    match pools.blockHash m.group b with
    | none => .error (.assertion "block.block_hash is not None")
    | some key => .ok key
  return (keys, e', pools)

end Manager

end VllmDual.Core
