/-
  Subject:   THE POOLS BEHIND THE KV CACHE GROUPS (`KVCacheCoordinator.__init__`,
             `vllm/v1/core/kv_cache_coordinator.py`).

  A group's manager talks to one pool, and there are three arrangements: one `BlockPool` for all
  groups, one for each, or two logical pools over shared bundles. `Pools` is all of them, and its
  calls are those of the pool of the given group.
-/
import VllmDual.Core.BlockPool

namespace VllmDual.Core

open Dsa

/-- `block_pools`, with the mode. In the shared mode the group has an owner, and Python's set
    order is a parameter. -/
inductive Pools where
  | one (p : BlockPool)
  | perGroup (ps : Nat → BlockPool)
  | shared (owner : Nat → DSASharedBlockOwner) (order : SetOrder) (s : SharedPools)

namespace Pools

def refCnt : Pools → Nat → BlockId → Int
  | one p, _, b => p.refCnt b
  | perGroup ps, g, b => (ps g).refCnt b
  | shared owner _ s, g, b => s.refCnt (owner g) b

/-- The hash of a block; the shared pools have no prefix cache. -/
def blockHash : Pools → Nat → BlockId → Option BlockKey
  | one p, _, b => p.blockHash b
  | perGroup ps, g, b => (ps g).blockHash b
  | shared .., _, _ => none

def numGpuBlocks : Pools → Nat → Int
  | one p, _ => p.numGpuBlocks
  | perGroup ps, g => (ps g).numGpuBlocks
  | shared owner _ s, g => s.allocator.layout.rowCount (owner g)

/-- `blocks_per_bundle`, 1 for a pool without bundles. -/
def blocksPerBundle : Pools → Nat → Nat
  | shared owner _ s, g => s.allocator.layout.blocksPerBundle (owner g)
  | _, _ => 1

def getNumFreeBlocks : Pools → Nat → Int
  | one p, _ => p.getNumFreeBlocks
  | perGroup ps, g => (ps g).getNumFreeBlocks
  | shared owner _ s, g => s.getNumFreeBlocks (owner g)

variable (pools : Pools) (g : Nat)

def getNewBlocks (numBlocks : Int) : Except CoreError (List BlockId × Pools) :=
  match pools with
  | one p => do
    let (ids, p) ← p.getNewBlocks numBlocks
    return (ids, one p)
  | perGroup ps => do
    let (ids, p) ← (ps g).getNewBlocks numBlocks
    return (ids, perGroup (Function.update ps g p))
  | shared owner order s =>
    match s.getNewBlocks (owner g) numBlocks with
    | .error e => .error (.shared e)
    | .ok (ids, s) => .ok (ids, shared owner order s)

def touch (blocks : List BlockId) : Except CoreError Pools :=
  match pools with
  | one p => do return one (← p.touch blocks)
  | perGroup ps => do return perGroup (Function.update ps g (← (ps g).touch blocks))
  | shared .. => .error (.notSupported "DSA shared pool does not support prefix caching")

def freeBlocks (blocks : List BlockId) : Except CoreError Pools :=
  match pools with
  | one p => .ok (one (p.freeBlocks blocks))
  | perGroup ps => .ok (perGroup (Function.update ps g ((ps g).freeBlocks blocks)))
  | shared owner order s =>
    match s.freeBlocks (owner g) order blocks with
    | .error e => .error (.shared e)
    | .ok s => .ok (shared owner order s)

def cacheFullBlocks (hashes : List BlockHash) (blocks : List BlockId)
    (numCachedBlocks numFullBlocks blockSize : Nat) : Except CoreError Pools :=
  match pools with
  | one p => do
    return one (← p.cacheFullBlocks hashes blocks numCachedBlocks numFullBlocks blockSize g)
  | perGroup ps => do
    let p ← (ps g).cacheFullBlocks hashes blocks numCachedBlocks numFullBlocks blockSize g
    return perGroup (Function.update ps g p)
  | shared .. => .error (.notSupported "DSA shared pool does not support prefix caching")

/-- `self.block_pool`, the first pool, where the prefix cache is looked up. -/
def getCachedBlock (hash : List BlockHash) (groups : List Nat) : Option (List BlockId) :=
  match pools with
  | one p => p.getCachedBlock hash groups
  | perGroup ps => (ps 0).getCachedBlock hash groups
  | shared .. => none

end Pools

end VllmDual.Core
