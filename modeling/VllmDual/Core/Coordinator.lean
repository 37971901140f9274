/-
  Subject:   THE COORDINATOR OF THE GROUPS AND THE KV CACHE MANAGER
             (`vllm/v1/core/kv_cache_coordinator.py`, `vllm/v1/core/kv_cache_manager.py`).

  The coordinator calls the manager of every group in turn; the KV cache manager is what the
  scheduler calls.

  An operation that raises has no state after it: the engine stops there. Statistics, events, log
  lines and the common-block counts are left out.
-/
import VllmDual.Core.CacheHit

namespace VllmDual.Core

open Outcome Ceil

/-! ## 1. Configuration, requests and state -/

/-- What a request brings to the KV cache manager. Its block hashes are chained digests of its
    tokens, so no two are equal. -/
structure Request where
  requestId : RequestId
  numTokens : Nat
  numComputedTokens : Nat
  blockHashes : List BlockHash
  skipReadingPrefixCache : Bool
  numTokens_pos : 0 < numTokens
  blockHashes_nodup : blockHashes.Nodup

/-- The configuration, with what the constructors assert. -/
structure Config where
  managers : List Manager
  maxModelLen : Nat
  enableCaching : Bool
  useEagle : Bool
  hashBlockSize : Nat
  hashBlockSize_pos : 0 < hashBlockSize
  managers_group : managers.map (·.group) = List.range managers.length
  managers_caching : ∀ m ∈ managers, m.enableCaching = enableCaching
  /-- `UnitaryKVCacheCoordinator` and `HybridKVCacheCoordinator` -/
  hash_dvd : enableCaching = true → ∀ m ∈ managers, hashBlockSize ∣ m.blockSize
  unitary : enableCaching = true → managers.length = 1 → ∀ m ∈ managers, m.blockSize = hashBlockSize
  hybrid : enableCaching = true → managers.length ≠ 1 →
    (∀ m ∈ managers, m.worldSize = 1) ∧ 1 < (HitQuery.attentionGroups managers).length

/-- The pools, what each manager keeps for each request, and `cached_blocks_this_step` of each. -/
structure State where
  pools : Pools
  entries : Nat × RequestId → Entry
  cachedBlocksThisStep : Nat → List BlockKey

def State.table (s : State) (k : Nat × RequestId) : List BlockId := (s.entries k).blocks

def State.put (s : State) (k : Nat × RequestId) (e : Entry) (pools : Pools) : State :=
  { s with pools, entries := Function.update s.entries k e }

def State.init (pools : Pools) : State where
  pools := pools
  entries := fun _ => {}
  cachedBlocksThisStep := fun _ => []

/-! ## 2. The loop over the managers -/

abbrev Call (α : Type) := Manager → Pools → Entry → Except CoreError (α × Entry × Pools)

/-- `for manager in self.single_type_managers`, collecting what the calls return. -/
def forManagers {α : Type} (r : RequestId) (call : Call α) :
    List Manager → State → Except CoreError (List α × State)
  | [], s => .ok ([], s)
  | m :: rest, s => do
    let (a, e, pools) ← call m s.pools (s.entries (m.group, r))
    let (as, s) ← forManagers r call rest (s.put (m.group, r) e pools)
    return (a :: as, s)

def quiet (x : Except CoreError (Entry × Pools)) : Except CoreError (Unit × Entry × Pools) := do
  let (e, pools) ← x
  return ((), e, pools)

namespace Config

variable (c : Config)

/-! ## 3. Admission -/

structure Demand where
  numTokens : Int
  numTokensMainModel : Int
  numLocalComputedTokens : Int
  numExternalComputedTokens : Int
  numEncoderTokens : Int
  newComputedBlocks : HitQuery.Hits
  compact : Bool

variable (r : RequestId) (d : Demand)

/-- `total_computed_tokens` as the admission test sees it. -/
def Demand.totalComputedTokens : Int :=
  d.numLocalComputedTokens + d.numExternalComputedTokens

/-- One round of `get_num_blocks_to_allocate_per_group`. -/
def needed (cachedBlocksThisStep : Nat → List BlockKey) (d : Demand) : Call Int :=
  fun m pools e =>
    if m.kind = .crossAttention then do
      let n ← m.getNumBlocksToAllocate pools [] e d.numEncoderTokens [] 0 d.numEncoderTokens
      return (n, e, pools)
    else if d.compact && m.isDsaLatent then
      let (n, e) := m.getNumBlocksToAllocateCompactExternal pools e d.numTokens
        (d.newComputedBlocks m.group) d.totalComputedTokens d.numTokensMainModel
      .ok (n, e, pools)
    else do
      let n ← m.getNumBlocksToAllocate pools (cachedBlocksThisStep m.group) e d.numTokens
        (d.newComputedBlocks m.group) d.totalComputedTokens d.numTokensMainModel
      return (n, e, pools)

variable (s : State)

def getNumBlocksToAllocatePerGroup : Except CoreError (List Int × State) :=
  forManagers r (needed s.cachedBlocksThisStep d) c.managers s

def fits (pools : Pools) (perGroup : List Int) : Bool :=
  match pools with
  | .one p => perGroup.sum ≤ p.getNumFreeBlocks
  | .perGroup ps =>
    (c.managers.zip perGroup).all fun x => x.2 ≤ (ps x.1.group).getNumFreeBlocks
  | .shared owner _ s =>
    ((c.managers.zip perGroup).map fun x =>
      s.allocator.bundleCountForBlocks (owner x.1.group) x.2).sum ≤ s.allocator.freeBundleCount

/-- `has_enough_free_blocks`; the state keeps the marks of the compact requests. -/
def hasEnoughFreeBlocks : Except CoreError (Bool × State) := do
  let (perGroup, s) ← c.getNumBlocksToAllocatePerGroup r d s
  return (c.fits s.pools perGroup, s)

/-! ## 4. Allocation -/

/-- One round of `KVCacheCoordinator.allocate_new_computed_blocks`. -/
def takeComputed : Call Unit :=
  fun m pools e => quiet <|
    if d.compact && m.isDsaLatent then
      m.allocateNewComputedBlocksCompactExternal pools e (d.newComputedBlocks m.group)
        d.numLocalComputedTokens d.numExternalComputedTokens
    else
      m.allocateNewComputedBlocks pools e (d.newComputedBlocks m.group)
        d.numLocalComputedTokens d.numExternalComputedTokens

/-- One round of `KVCacheCoordinator.allocate_new_blocks`. -/
def takeNew : Call (List BlockId) :=
  fun m pools e =>
    if d.compact && m.isDsaLatent then
      m.allocateCompactRequestBlocks pools e d.numTokens d.numTokensMainModel true
    else
      m.allocateNewBlocks pools e
        (if m.kind = .crossAttention then d.numEncoderTokens else d.numTokens) d.numTokensMainModel

/-- `allocate_new_computed_blocks` runs if a group has a hit or tokens come from outside. -/
def allocateComputed : Except CoreError State :=
  if c.managers.any (fun m => d.newComputedBlocks m.group ≠ []) ∨
    0 < d.numExternalComputedTokens then
    (·.2) <$> forManagers r (takeComputed d) c.managers s
  else
    .ok s

/-- The allocation after a positive admission test: the computed blocks, then the new ones. -/
def allocate : Except CoreError (List (List BlockId) × State) := do
  let s ← c.allocateComputed r d s
  forManagers r (takeNew d) c.managers s

/-! ## 5. The calls of the scheduler -/

variable (request : Request)

def getComputedBlocks : Except CoreError (HitQuery.Hits × Nat) :=
  if !c.enableCaching || request.skipReadingPrefixCache then
    .ok (fun _ => [], 0)
  else
    let q : HitQuery := ⟨s.pools, request.blockHashes, c.hashBlockSize, c.useEagle⟩
    match c.managers with
    | [m] => q.unitaryHit m (request.numTokens - 1)
    | managers => q.hybridHit managers (request.numTokens - 1)

def removeSkippedBlocks (r : RequestId) (totalComputedTokens : Int) (s : State) :
    Except CoreError State :=
  (·.2) <$> forManagers r (fun m pools e => quiet
    (m.removeSkippedBlocks pools e totalComputedTokens)) c.managers s

def noteCached (cachedBlocksThisStep : Nat → List BlockKey) (keys : List (List BlockKey)) :
    Nat → List BlockKey :=
  fun g => cachedBlocksThisStep g ++ keys.getD g []

def cacheBlocks (request : Request) (numComputedTokens : Int) (s : State) :
    Except CoreError State :=
  if c.enableCaching then do
    let (keys, s) ← forManagers request.requestId
      (fun m pools e => m.cacheBlocks pools e request.blockHashes numComputedTokens) c.managers s
    return { s with cachedBlocksThisStep := noteCached s.cachedBlocksThisStep keys }
  else
    .ok s

/-- The arguments of `allocate_slots`. -/
structure SlotArgs where
  numNewTokens : Nat
  numNewComputedTokens : Nat
  newComputedBlocks : HitQuery.Hits
  numLookaheadTokens : Nat
  numExternalComputedTokens : Nat
  delayCacheBlocks : Bool
  numEncoderTokens : Nat
  compact : Bool

variable (a : SlotArgs)

def SlotArgs.totalComputedTokens : Int :=
  min (request.numComputedTokens + a.numNewComputedTokens + a.numExternalComputedTokens)
    c.maxModelLen

def demand : Demand :=
  let numTokensMainModel := a.totalComputedTokens c request + a.numNewTokens
  { numTokens := min (numTokensMainModel + a.numLookaheadTokens) c.maxModelLen
    numTokensMainModel
    numLocalComputedTokens := request.numComputedTokens + a.numNewComputedTokens
    numExternalComputedTokens := a.numExternalComputedTokens
    numEncoderTokens := a.numEncoderTokens
    newComputedBlocks := a.newComputedBlocks
    compact := a.compact }

/-- `allocate_slots`: the new blocks of each group, or nothing if the pools do not have them. -/
def allocateSlots (s : State) : Except CoreError (Option (List (List BlockId)) × State) := do
  ensure (¬(a.numNewTokens = 0 ∧ a.numExternalComputedTokens = 0)) .noNewTokens
  let r := request.requestId
  let d := c.demand request a
  let s ← c.removeSkippedBlocks r (a.totalComputedTokens c request) s
  let (enough, s) ← c.hasEnoughFreeBlocks r d s
  if !enough then
    return (none, s)
  else do
    let (newBlocks, s) ← c.allocate r d s
    if !c.enableCaching || a.delayCacheBlocks then
      return (some newBlocks, s)
    else do
      let s ← c.cacheBlocks request (min d.numTokensMainModel request.numTokens) s
      return (some newBlocks, s)

/-- `remove_saved_decode_window_blocks`, of the latent groups; also how many blocks it freed. -/
def removeSavedDecodeWindowBlocks (r : RequestId) (committedEnd : Int) (s : State) :
    Except CoreError (Nat × State) := do
  let (counts, s) ← forManagers r (fun m pools e => m.removeSavedDecodeWindowBlocks pools e
    committedEnd) (c.managers.filter (·.isDsaLatent)) s
  return (counts.sum, s)

def free (r : RequestId) (s : State) : Except CoreError State :=
  (·.2) <$> forManagers r (fun m pools e => quiet (m.free pools e)) c.managers s

def newStepStarts : State := { s with cachedBlocksThisStep := fun _ => [] }

end Config

end VllmDual.Core
