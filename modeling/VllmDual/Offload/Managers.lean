/-
  Subject:   THE OFFLOADING MANAGERS
             (`vllm/v1/kv_offload/lru_manager.py`, `arc_manager.py`, `backends/cpu.py`).

  A manager knows which blocks are in CPU memory and where, and evicts blocks to make room for new
  ones.

  A call that raises has no result here.
-/
import VllmDual.Lib.Outcome
import VllmDual.Lib.OrderedDict

namespace VllmDual.Offload

open Outcome

variable {H : Type} [DecidableEq H]

/-! ## 1. The backend -/

/-- `CPUBlockStatus`. A counter of -1 is a block that is not ready; the code keeps it in 32 bits
    (`Sound.fits`). -/
structure BlockStatus where
  refCnt : Int
  blockId : Nat

def BlockStatus.isReady (b : BlockStatus) : Bool := 0 ≤ b.refCnt

inductive OffloadError (H : Type) where
  | notFound (hash : H)
  | notReady (hash : H)
  | noLoads (hash : H)
  | allocation

structure CPUBackend where
  blockSize : Nat
  numBlocks : Nat
  numAllocatedBlocks : Nat
  allocatedBlocksFreeList : List Nat
  bounded : numAllocatedBlocks ≤ numBlocks

namespace CPUBackend

variable (b : CPUBackend)

def init (blockSize numBlocks : Nat) : CPUBackend := ⟨blockSize, numBlocks, 0, [], Nat.zero_le _⟩

def getNumFreeBlocks : Nat :=
  b.allocatedBlocksFreeList.length + (b.numBlocks - b.numAllocatedBlocks)

/-- `allocate_blocks`, for a number of hashes. -/
def allocateBlocks (n : Nat) : Except (OffloadError H) (CPUBackend × List BlockStatus) := do
  let numFresh := min n (b.numBlocks - b.numAllocatedBlocks)
  let numReused := n - numFresh
  ensure (numReused ≤ b.allocatedBlocksFreeList.length) .allocation
  let ids := List.range' b.numAllocatedBlocks numFresh ++
    b.allocatedBlocksFreeList.reverse.take numReused
  pure ({ b with
      numAllocatedBlocks := b.numAllocatedBlocks + numFresh
      allocatedBlocksFreeList :=
        b.allocatedBlocksFreeList.take (b.allocatedBlocksFreeList.length - numReused)
      bounded := by have := b.bounded; omega },
    ids.map fun id => ⟨-1, id⟩)

def free (block : BlockStatus) : CPUBackend :=
  { b with allocatedBlocksFreeList := b.allocatedBlocksFreeList ++ [block.blockId] }

end CPUBackend

structure OffloadingEvent (H : Type) where
  blockHashes : List H
  blockSize : Nat
  medium : String
  removed : Bool

/-- The events with one for some hashes, if events are kept and there are any. -/
def addEvent (events : Option (List (OffloadingEvent H))) (b : CPUBackend) (hashes : List H)
    (removed : Bool) : Option (List (OffloadingEvent H)) :=
  if hashes = [] then events else events.map (· ++ [⟨hashes, b.blockSize, "CPU", removed⟩])

/-- `storeSpec` has the block ids. -/
structure PrepareStoreOutput (H : Type) where
  blockHashesToStore : List H
  storeSpec : List Nat
  blockHashesEvicted : List H

/-- The calls of a manager with states `S`. -/
structure OffloadingManager (H S : Type) where
  lookup : S → List H → Nat
  touch : S → List H → S
  prepareLoad : S → List H → Except (OffloadError H) (S × List Nat)
  completeLoad : S → List H → Except (OffloadError H) S
  prepareStore : S → List H → Except (OffloadError H) (S × Option (PrepareStoreOutput H))
  completeStore : S → List H → Bool → Except (OffloadError H) S

section Loads

variable {S : Type} (find : S → H → Option BlockStatus) (put : S → H → BlockStatus → S)

/-- `lookup`, by how a manager finds a block. -/
def lookupWith (s : S) (hashes : List H) : Nat :=
  (hashes.takeWhile fun h => (find s h).any (·.isReady)).length

/-- `prepare_load`, by how a manager finds a block and changes its counter. -/
def prepareLoadWith (s : S) (hashes : List H) : Except (OffloadError H) (S × List Nat) :=
  hashes.foldlM (fun acc h =>
    match find acc.1 h with
    | none => .error (.notFound h)
    | some block => do
      ensure (block.isReady = true) (.notReady h)
      pure (put acc.1 h { block with refCnt := block.refCnt + 1 }, acc.2 ++
        [block.blockId])) (s, [])

/-- `complete_load`. -/
def completeLoadWith (s : S) (hashes : List H) : Except (OffloadError H) S :=
  hashes.foldlM (fun s h =>
    match find s h with
    | none => .error (.notFound h)
    | some block => do
      ensure (0 < block.refCnt) (.noLoads h)
      pure (put s h { block with refCnt := block.refCnt - 1 })) s

end Loads

/-- The blocks of a map that may be evicted: nobody reads them and the call does not name them. -/
def evictable (d : OrderedDict H BlockStatus) (named : List H) : List (H × BlockStatus) :=
  d.entries.filter fun e => e.2.refCnt = 0 ∧ e.1 ∉ named

/-! ## 2. Least recently used -/

structure LRU (H : Type) where
  backend : CPUBackend
  blocks : OrderedDict H BlockStatus
  events : Option (List (OffloadingEvent H))

namespace LRU

variable (s : LRU H)

def init (backend : CPUBackend) (enableEvents : Bool) : LRU H :=
  ⟨backend, .empty, if enableEvents then some [] else none⟩

def find (h : H) : Option BlockStatus := s.blocks.get h

def setStatus (h : H) (block : BlockStatus) : LRU H := { s with blocks := s.blocks.set h block }

def lookup : LRU H → List H → Nat := lookupWith find

variable (hashes : List H)

def touch : LRU H :=
  hashes.reverse.foldl (fun s h => { s with blocks := s.blocks.moveToEnd h }) s

def prepareLoad : LRU H → List H → Except (OffloadError H) (LRU H × List Nat) :=
  prepareLoadWith find setStatus

def completeLoad : LRU H → List H → Except (OffloadError H) (LRU H) :=
    completeLoadWith find setStatus

def collect (named : List H) : Nat → List (H × BlockStatus) → Option (List (H × BlockStatus))
  | _, [] => none
  | n, e :: rest =>
    if e.2.refCnt = 0 ∧ e.1 ∉ named then
      if n = 1 then some [e] else (collect named (n - 1) rest).map (e :: ·)
    else collect named n rest

def blockHashesToStore : List H := hashes.filter (· ∉ s.blocks.keys)

def store (toEvict : List (H × BlockStatus)) :
    Except (OffloadError H) (LRU H × Option (PrepareStoreOutput H)) := do
  let toStore := s.blockHashesToStore hashes
  let backend := toEvict.foldl (fun b e => b.free e.2) s.backend
  let kept := toEvict.foldl (fun d e => d.pop e.1) s.blocks
  let (backend, blocks) ← backend.allocateBlocks toStore.length
  pure (⟨backend, (toStore.zip blocks).foldl (fun d e => d.set e.1 e.2) kept,
      addEvent s.events s.backend (toEvict.map Prod.fst) true⟩,
    some ⟨toStore, blocks.map (·.blockId), toEvict.map Prod.fst⟩)

def prepareStore : Except (OffloadError H) (LRU H × Option (PrepareStoreOutput H)) :=
  let numBlocksToEvict := (s.blockHashesToStore hashes).length - s.backend.getNumFreeBlocks
  if 0 < numBlocksToEvict then
    match collect hashes numBlocksToEvict s.blocks.entries with
    | none => .ok (s, none)
    | some toEvict => s.store hashes toEvict
  else s.store hashes []

/-- One hash of a store that has ended; the hash too, if it became ready. -/
def completeOne (success : Bool) (acc : LRU H × List H) (h : H) :
    Except (OffloadError H) (LRU H × List H) :=
  match acc.1.blocks.get h with
  | none => .error (.notFound h)
  | some block =>
    if block.isReady then .ok acc
    else if success then
      .ok ({ acc.1 with blocks := acc.1.blocks.set h { block with refCnt := 0 } }, acc.2 ++ [h])
    else .ok ({ acc.1 with
      backend := acc.1.backend.free block, blocks := acc.1.blocks.pop h }, acc.2)

def completeStore (success : Bool) : Except (OffloadError H) (LRU H) := do
  let (s, stored) ← hashes.foldlM (completeOne success) (s, [])
  pure { s with events := addEvent s.events s.backend stored false }

end LRU

def lruManager : OffloadingManager H (LRU H) :=
  ⟨LRU.lookup, LRU.touch, LRU.prepareLoad, LRU.completeLoad, LRU.prepareStore, LRU.completeStore⟩

/-! ## 3. Adaptive replacement -/

structure ARC (H : Type) where
  backend : CPUBackend
  targetT1Size : ℚ
  t1 : OrderedDict H BlockStatus
  t2 : OrderedDict H BlockStatus
  b1 : OrderedDict H Unit
  b2 : OrderedDict H Unit
  events : Option (List (OffloadingEvent H))
  cacheCapacity : Nat

/-- `int(x)`. -/
def truncate (x : ℚ) : Int := if 0 ≤ x then ⌊x⌋ else ⌈x⌉

namespace ARC

variable (rnd : ℚ → ℚ) (s : ARC H)

def init (backend : CPUBackend) (enableEvents : Bool) : ARC H :=
  ⟨backend, 0, .empty, .empty, .empty, .empty, if enableEvents then some [] else none,
    backend.getNumFreeBlocks⟩

/-- `self.t1.get(block_hash) or self.t2.get(block_hash)`. -/
def find (h : H) : Option BlockStatus := (s.t1.get h).or (s.t2.get h)

/-- The block that `find` finds gets another counter. -/
def setStatus (h : H) (block : BlockStatus) : ARC H :=
  if h ∈ s.t1.keys then { s with t1 := s.t1.set h block } else { s with t2 := s.t2.set h block }

def lookup : ARC H → List H → Nat := lookupWith find

def prepareLoad : ARC H → List H → Except (OffloadError H) (ARC H × List Nat) :=
  prepareLoadWith find setStatus

def touchOne (h : H) : ARC H :=
  match s.t1.get h with
  | some block =>
    if block.isReady then { s with t1 := s.t1.pop h, t2 := s.t2.set h block }
    else { s with t1 := (s.t1.pop h).set h block }
  | none =>
    if h ∈ s.t2.keys then { s with t2 := s.t2.moveToEnd h }
    else if h ∈ s.b1.keys then
      let delta := max 1 (rnd (s.b2.entries.length / s.b1.entries.length))
      { s with
        targetT1Size := min (rnd (s.targetT1Size + delta)) s.cacheCapacity
        b1 := s.b1.moveToEnd h }
    else if h ∈ s.b2.keys then
      let delta := max 1 (rnd (s.b1.entries.length / s.b2.entries.length))
      { s with
        targetT1Size := max (rnd (s.targetT1Size - delta)) 0
        b2 := s.b2.moveToEnd h }
    else s

variable (hashes : List H)

def touch : ARC H := hashes.reverse.foldl (touchOne rnd) s

def completeLoad : ARC H → List H → Except (OffloadError H) (ARC H) :=
    completeLoadWith find setStatus

def blockHashesToStore : List H :=
  hashes.filter fun h => h ∉ s.t1.keys ∧ h ∉ s.t2.keys

/-- One turn of the eviction loop: the block that goes, from which map, into which ghost list. -/
def evictOne (named : List H) : Option (ARC H × H) :=
  let fromT1 :=
    if truncate s.targetT1Size ≤ s.t1.entries.length then (evictable s.t1 named).head? else none
  match fromT1 with
  | some (h, block) => some ({ s with
      t1 := s.t1.pop h
      b1 := s.b1.set h ()
      backend := s.backend.free block }, h)
  | none =>
    match (evictable s.t2 named).head? with
    | some (h, block) => some ({ s with
        t2 := s.t2.pop h
        b2 := s.b2.set h ()
        backend := s.backend.free block }, h)
    | none => none

/-- The eviction loop. What was evicted before it gives up stays evicted. -/
def evictLoop (named : List H) : Nat → ARC H → ARC H × Option (List H)
  | 0, s => (s, some [])
  | n + 1, s =>
    match s.evictOne named with
    | none => (s, none)
    | some (s', h) =>
      let (s'', rest) := evictLoop named n s'
      (s'', rest.map (h :: ·))

def trim (d : OrderedDict H Unit) (capacity : Nat) : OrderedDict H Unit :=
  Nat.iterate OrderedDict.popFirst (d.entries.length - capacity) d

def insertNew (s : ARC H) (e : H × BlockStatus) : ARC H :=
  { s with t1 := s.t1.set e.1 e.2, b1 := s.b1.pop e.1, b2 := s.b2.pop e.1 }

def store (toStore evicted : List H) :
    Except (OffloadError H) (ARC H × Option (PrepareStoreOutput H)) := do
  let (backend, blocks) ← s.backend.allocateBlocks toStore.length
  let s := { s with
    backend
    b1 := trim s.b1 s.cacheCapacity
    b2 := trim s.b2 s.cacheCapacity
    events := addEvent s.events s.backend evicted true }
  pure ((toStore.zip blocks).foldl insertNew s, some ⟨toStore, blocks.map (·.blockId), evicted⟩)

def prepareStore : Except (OffloadError H) (ARC H × Option (PrepareStoreOutput H)) :=
  let toStore := s.blockHashesToStore hashes
  if toStore = [] then .ok (s, some ⟨[], [], []⟩)
  else
    match evictLoop hashes (toStore.length - s.backend.getNumFreeBlocks) s with
    | (s', none) => .ok (s', none)
    | (s', some evicted) => s'.store toStore evicted

def completeOne (success : Bool) (acc : ARC H × List H) (h : H) : ARC H × List H :=
  let (s, stored) := acc
  if success then
    match s.find h with
    | none => acc
    | some block =>
      if block.isReady then acc else (s.setStatus h { block with refCnt := 0 }, stored ++ [h])
  else
    match s.t1.get h with
    | some block =>
      let s := { s with t1 := s.t1.pop h }
      (if block.isReady then s else { s with backend := s.backend.free block }, stored)
    | none =>
      match s.t2.get h with
      | some block =>
        let s := { s with t2 := s.t2.pop h }
        (if block.isReady then s else { s with backend := s.backend.free block }, stored)
      | none => acc

def completeStore (success : Bool) : ARC H :=
  let (s, stored) := hashes.foldl (completeOne success) (s, [])
  { s with events := addEvent s.events s.backend stored false }

end ARC

def arcManager (rnd : ℚ → ℚ) : OffloadingManager H (ARC H) :=
  ⟨ARC.lookup, ARC.touch rnd, ARC.prepareLoad, ARC.completeLoad, ARC.prepareStore,
    fun s hashes success => .ok (s.completeStore hashes success)⟩

end VllmDual.Offload
