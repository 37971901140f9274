/-
  Subject:   THE MANAGER OF THE LATENT GROUP (`DSALatentManager`,
             `vllm/v1/core/single_type_kv_cache_manager.py`).

  A request admitted with a compact external load has a table with holes: scratch rows at the
  front, null blocks for the loaded prompt, live rows at the tail. The holes are filled when the
  load fails and the prompt is computed after all.

  The last section dispatches each method of a manager to its class.
-/
import VllmDual.Core.Manager

namespace VllmDual.Core

open Outcome Ceil

namespace Manager

variable (m : Manager)

/-! ## 1. Required rows -/

/-- `self.scratch_blocks`; the other classes have none. -/
def scratchBlocks : Nat :=
  match m.kind with
  | .dsaLatent scratchBlocks => scratchBlocks
  | _ => 0

/-- `isinstance(manager, DSALatentManager)`. -/
def isDsaLatent : Bool :=
  match m.kind with
  | .dsaLatent _ => true
  | _ => false

/-- `_compact_required_indices`, with `bundle` blocks to a bundle. -/
def compactRequiredIndices (bundle : Nat) (prefixTokens numTokens numTokensMainModel : Int)
    (forceCompact : Bool) (releasedBlocks : Int) : List Nat :=
  let requiredBlocks := roundUp (cdiv numTokens m.blockSize) bundle
  if !forceCompact && numTokensMainModel ≤ prefixTokens then
    -- the load failed: dense prefill needs every row
    List.range requiredBlocks.toNat
  else
    let scratchEnd := roundUp m.scratchBlocks bundle
    let tail := max (roundDown (prefixTokens / m.blockSize) bundle) releasedBlocks
    let finalPromptIdx := max (cdiv prefixTokens m.blockSize - 1) 0
    let tailStart := if forceCompact then min tail (roundDown finalPromptIdx bundle) else tail
    let start := max scratchEnd tailStart
    List.range scratchEnd.toNat ++ List.range' start.toNat (requiredBlocks - start).toNat

variable (blocks : List BlockId)

def isMissing (i : Nat) : Bool := blocks.getD i 0 = 0

variable (pools : Pools) (e : Entry)

def getNumMissingBlocks (requiredIndices : List Nat) : Int :=
  (requiredIndices.countP (isMissing e.blocks) : Nat)

/-! ## 2. Admission -/

variable (numTokens : Int) (newComputedBlocks : List BlockId)

/-- `get_num_blocks_to_allocate_compact_external`. It marks the request as compact, whether it is
    admitted or not. -/
def getNumBlocksToAllocateCompactExternal (totalComputedTokens numTokensMainModel : Int) :
    Int × Entry :=
  let required := m.compactRequiredIndices (pools.blocksPerBundle m.group) totalComputedTokens
    numTokens numTokensMainModel true 0
  (getNumMissingBlocks e required + m.getNumEvictableBlocks pools newComputedBlocks,
    { e with
      compactPrefixTokens := some totalComputedTokens
      compactReleasedBlocks := some (e.compactReleasedBlocks.getD 0) })

/-- `DSALatentManager.get_num_blocks_to_allocate`. -/
def latentGetNumBlocksToAllocate (totalComputedTokens numTokensMainModel : Int) :
    Except CoreError Int :=
  match e.compactPrefixTokens with
  | none => m.baseGetNumBlocksToAllocate pools e numTokens newComputedBlocks totalComputedTokens
  | some prefixTokens =>
    let required := m.compactRequiredIndices (pools.blocksPerBundle m.group) prefixTokens
      numTokens numTokensMainModel false (e.compactReleasedBlocks.getD 0)
    .ok (getNumMissingBlocks e required + m.getNumEvictableBlocks pools newComputedBlocks)

/-! ## 3. Allocation -/

/-- `allocate_new_computed_blocks_compact_external`: a table as long as the prompt, with blocks
    only for the scratch rows. -/
def allocateNewComputedBlocksCompactExternal
    (numLocalComputedTokens numExternalComputedTokens : Int) : Except CoreError (Entry × Pools) :=
  if e.running then do
    ensure (newComputedBlocks = []) (.assertion "len(new_computed_blocks) == 0")
    return (e, pools)
  else do
    ensure (newComputedBlocks = [])
      (.assertion "DSA compact external allocation does not support local prefix-cache blocks")
    ensure (0 < numExternalComputedTokens) (.assertion "num_external_computed_tokens > 0")
    let prefixTokens := numLocalComputedTokens + numExternalComputedTokens
    let scratchEnd := roundUp m.scratchBlocks (pools.blocksPerBundle m.group)
    let (allocated, pools) ← pools.getNewBlocks m.group scratchEnd
    ensure ((allocated.length : Int) = scratchEnd)
      (.assertion "len(allocated_blocks) == scratch_blocks")
    let logicalBlocks := max (cdiv prefixTokens m.blockSize) scratchEnd
    ensure (e.blocks = []) (.assertion "not req_blocks")
    let blocks := allocated ++ List.replicate (logicalBlocks - scratchEnd).toNat 0
    return ({ e with
      blocks
      numCachedBlock := some blocks.length
      compactPrefixTokens := some prefixTokens
      compactReleasedBlocks := some (e.compactReleasedBlocks.getD 0) }, pools)

def extended (requiredIndices : List Nat) : List BlockId :=
  match requiredIndices.getLast? with
  | none => blocks
  | some last => blocks ++ List.replicate (last + 1 - blocks.length) 0

def fillMissing (missing : List Nat) (newBlocks : List BlockId) : List BlockId :=
  (missing.zip newBlocks).foldl (fun blocks x => blocks.set x.1 x.2) blocks

variable (numTokensMainModel : Int)

def allocateCompactRequestBlocks (forceCompact : Bool) :
    Except CoreError (List BlockId × Entry × Pools) :=
  match e.compactPrefixTokens with
  | none => .error (.assertion "prefix_tokens is not None")
  | some prefixTokens =>
    let required := m.compactRequiredIndices (pools.blocksPerBundle m.group) prefixTokens
      numTokens numTokensMainModel forceCompact (e.compactReleasedBlocks.getD 0)
    let blocks := extended e.blocks required
    let missing := required.filter (isMissing blocks)
    if missing = [] then
      .ok ([], { e with blocks }, pools)
    else do
      let (newBlocks, pools) ← pools.getNewBlocks m.group missing.length
      ensure (newBlocks.length = missing.length)
        (.assertion "len(new_blocks) == len(missing_indices)")
      return (newBlocks, { e with blocks := fillMissing blocks missing newBlocks }, pools)

/-- `DSALatentManager.allocate_new_blocks`. -/
def latentAllocateNewBlocks : Except CoreError (List BlockId × Entry × Pools) :=
  if e.compactPrefixTokens.isSome then
    m.allocateCompactRequestBlocks pools e numTokens numTokensMainModel false
  else
    m.baseAllocateNewBlocks pools e numTokens

/-! ## 4. Release -/

def released (start stop : Nat) : List BlockId :=
  blocks.take start ++ List.replicate (stop - start) 0 ++ blocks.drop stop

/-- `remove_saved_decode_window_blocks`; also how many blocks it freed. -/
def removeSavedDecodeWindowBlocks (committedEnd : Int) : Except CoreError (Nat × Entry × Pools) :=
  if committedEnd ≤ 0 ∨ e.blocks = [] then
    .ok (0, e, pools)
  else do
    ensure (committedEnd % m.blockSize = 0) (.notBlockAligned committedEnd m.blockSize)
    let start := m.scratchBlocks
    let stop := min (committedEnd / m.blockSize).toNat e.blocks.length
    -- the frontier of a compact request moves even when no block is freed
    let frontier := e.compactPrefixTokens.map fun _ => max (e.compactReleasedBlocks.getD 0) stop
    let e := { e with compactReleasedBlocks := frontier <|> e.compactReleasedBlocks }
    if stop ≤ start then
      return (0, e, pools)
    else do
      let removed := ((e.blocks.take stop).drop start).reverse.filter (· ≠ 0)
      let pools ← pools.freeBlocks m.group removed
      return (removed.length, { e with blocks := released e.blocks start stop }, pools)

/-! ## 5. Dispatch -/

def getNumBlocksToAllocate (cachedBlocksThisStep : List BlockKey) (e : Entry) (numTokens : Int)
    (newComputedBlocks : List BlockId) (totalComputedTokens numTokensMainModel : Int) :
    Except CoreError Int :=
  match m.kind with
  | .dsaLatent _ => m.latentGetNumBlocksToAllocate pools e numTokens newComputedBlocks
      totalComputedTokens numTokensMainModel
  | .mamba align numSpeculativeBlocks =>
    m.mambaGetNumBlocksToAllocate align numSpeculativeBlocks pools cachedBlocksThisStep e numTokens
      newComputedBlocks totalComputedTokens numTokensMainModel
  | _ => m.baseGetNumBlocksToAllocate pools e numTokens newComputedBlocks totalComputedTokens

/-- `allocate_new_computed_blocks`. Cross attention takes no computed blocks. -/
def allocateNewComputedBlocks (numLocalComputedTokens numExternalComputedTokens : Int) :
    Except CoreError (Entry × Pools) :=
  match m.kind with
  | .crossAttention => do
    ensure (newComputedBlocks = []) (.assertion "len(new_computed_blocks) == 0")
    return (e, pools)
  | _ =>
    m.baseAllocateNewComputedBlocks pools e newComputedBlocks numLocalComputedTokens
      numExternalComputedTokens

def allocateNewBlocks : Except CoreError (List BlockId × Entry × Pools) :=
  match m.kind with
  | .dsaLatent _ => m.latentAllocateNewBlocks pools e numTokens numTokensMainModel
  | .mamba align numSpeculativeBlocks =>
    m.mambaAllocateNewBlocks align numSpeculativeBlocks pools e numTokens numTokensMainModel
  | _ => m.baseAllocateNewBlocks pools e numTokens

/-- `cache_blocks`; also the hashes for `cached_blocks_this_step`. -/
def cacheBlocks (hashes : List BlockHash) (numTokens : Int) :
    Except CoreError (List BlockKey × Entry × Pools) :=
  match m.kind with
  | .crossAttention => .error (.notSupported "Should not be called as prefix caching is disabled.")
  | .mamba .. => m.mambaCacheBlocks pools e hashes numTokens
  | _ => do
    let (e, pools) ← m.baseCacheBlocks pools e hashes numTokens
    return ([], e, pools)

/-- `remove_skipped_blocks`. The latent group releases nothing here. -/
def removeSkippedBlocks (totalComputedTokens : Int) : Except CoreError (Entry × Pools) :=
  match m.kind with
  | .dsaLatent _ => .ok (e, pools)
  | .mamba align numSpeculativeBlocks =>
    m.mambaRemoveSkippedBlocks align numSpeculativeBlocks pools e totalComputedTokens
  | _ => m.baseRemoveSkippedBlocks pools e totalComputedTokens

end Manager

end VllmDual.Core
