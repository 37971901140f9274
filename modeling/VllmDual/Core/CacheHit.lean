/-
  Subject:   THE PREFIX-CACHE LOOKUP (`find_longest_cache_hit` of the managers and of the
             coordinators).

  A lookup walks the block hashes of a request and returns, for each group, the cached blocks that
  hold its first tokens, with null blocks where the group does not need them.

  A lookup for several groups of one spec fills all their tables alike, so its result is kept by
  rows: row `i` has the block of every group at index `i`.
-/
import VllmDual.Core.Latent

namespace VllmDual.Core

open Outcome Ceil

/-! ## 1. Lookup by class -/

abbrev Row := List BlockId

structure HitQuery where
  pools : Pools
  hashes : List BlockHash
  hashBlockSize : Nat
  useEagle : Bool

namespace HitQuery

variable (q : HitQuery) (m : Manager) (groups : List Nat)

/-- The cached blocks under the hash at index `i`; nothing past the end of the hashes. -/
def cachedAt (i : Nat) : Option Row :=
  (blockHashAt q.hashes (m.blockSize / q.hashBlockSize) i).bind (q.pools.getCachedBlock · groups)

def subscriptAt (i : Nat) : Except CoreError (Option Row) :=
  match blockHashAt q.hashes (m.blockSize / q.hashBlockSize) i with
  | none => .error .index
  | some hash => .ok (q.pools.getCachedBlock hash groups)

/-- The rows from index `i` on, up to the first miss and at most `n`. -/
def leading : Nat → Nat → List Row
  | 0, _ => []
  | n + 1, i =>
    match q.cachedAt m groups i with
    | none => []
    | some row => row :: leading n (i + 1)

/-- How many of `n` blocks remain when blocks are popped until the alignment fits. -/
def alignedLength (blockSize alignmentTokens : Nat) : Nat → Nat
  | 0 => 0
  | n + 1 =>
    if blockSize ≠ alignmentTokens ∧ (n + 1) * blockSize % alignmentTokens ≠ 0 then
      alignedLength blockSize alignmentTokens n
    else
      n + 1

/-- `FullAttentionManager.find_longest_cache_hit`. -/
def fullHit (alignmentTokens maxLength : Nat) : List Row :=
  let rows := q.leading m groups (maxLength / m.blockSize) 0
  let rows := if q.useEagle then rows.dropLast else rows
  rows.take (alignedLength m.blockSize alignmentTokens rows.length)

/-- What the scan of the sliding window has found: the rows, how many blocks are contiguous, and
    whether they suffice. -/
structure Scan where
  computed : List Row
  numContiguousBlocks : Nat
  matchFound : Bool

def slidingScan (contiguousBlocks : Int) (alignmentTokens : Nat) :
    Nat → List Row → Nat → Except CoreError Scan
  | 0, computed, numContiguous => .ok ⟨computed, numContiguous, false⟩
  | i + 1, computed, numContiguous => do
    match ← q.subscriptAt m groups i with
    | none => slidingScan contiguousBlocks alignmentTokens i computed 0
    | some row =>
      if numContiguous = 0 ∧ m.specBlockSize ≠ alignmentTokens ∧
          (i + 1) * m.specBlockSize % alignmentTokens ≠ 0 then
        slidingScan contiguousBlocks alignmentTokens i computed numContiguous
      else
        let computed := computed.set i row
        if contiguousBlocks ≤ (numContiguous + 1 : Nat) then
          .ok ⟨computed.take (i + (numContiguous + 1)), numContiguous + 1, true⟩
        else
          slidingScan contiguousBlocks alignmentTokens i computed (numContiguous + 1)

def Scan.rows (scan : Scan) (blockSize alignmentTokens : Nat) : List Row :=
  if scan.matchFound then
    scan.computed
  else
    let rows := scan.computed.take scan.numContiguousBlocks
    rows.take (alignedLength blockSize alignmentTokens rows.length)

/-- `SlidingWindowManager.find_longest_cache_hit`. -/
def slidingHit (slidingWindow alignmentTokens maxLength : Nat) : Except CoreError (List Row) := do
  ensure (m.worldSize = 1) (.assertion "DCP not support sliding window attn now.")
  let contiguousBlocks := cdiv ((slidingWindow : Int) - 1) m.specBlockSize
    + if q.useEagle then 1 else 0
  let maxNumBlocks := maxLength / m.specBlockSize
  let scan ← q.slidingScan m groups contiguousBlocks alignmentTokens maxNumBlocks
    (List.replicate maxNumBlocks (List.replicate groups.length 0)) 0
  let rows := scan.rows m.specBlockSize alignmentTokens
  if q.useEagle ∧ rows ≠ [] then do
    ensure (m.specBlockSize = alignmentTokens)
      (.assertion "aligned_length is not compatible with eagle now")
    return rows.dropLast
  else
    return rows

/-- The rows of chunked local attention from index `i` on; a miss ends them. -/
def chunkedRows : Nat → Nat → Except CoreError (List Row)
  | 0, _ => .ok []
  | n + 1, i => do
    match ← q.subscriptAt m groups i with
    | none => return []
    | some row => return row :: (← chunkedRows n (i + 1))

/-- `ChunkedLocalAttentionManager.find_longest_cache_hit`. -/
def chunkedHit (attentionChunkSize alignmentTokens maxLength : Nat) :
    Except CoreError (List Row) := do
  ensure (q.useEagle = false)
    (.assertion "Hybrid KV cache is not supported for eagle + chunked local attention.")
  ensure (m.worldSize = 1) (.assertion "DCP not support chunked local attn now.")
  ensure (m.specBlockSize = alignmentTokens)
    (.assertion
      "KV cache groups with different block sizes are not compatible with chunked local attention now")
  let maxNumBlocks := maxLength / m.specBlockSize
  let start := maxLength / attentionChunkSize * attentionChunkSize / m.specBlockSize
  let rows ← q.chunkedRows m groups (maxNumBlocks - start) start
  return List.replicate start (List.replicate groups.length 0) ++ rows

/-- The search of Mamba for the last match, from index `n - 1` down. -/
def mambaSearch (alignmentTokens : Nat) : Nat → Except CoreError (List Row)
  | 0 => .ok []
  | i + 1 => do
    match ← q.subscriptAt m groups i with
    | none => mambaSearch alignmentTokens i
    | some row =>
      if m.specBlockSize ≠ alignmentTokens ∧ (i + 1) * m.specBlockSize % alignmentTokens ≠ 0 then
        mambaSearch alignmentTokens i
      else
        .ok (List.replicate i (List.replicate groups.length 0) ++ [row])

/-- `MambaManager.find_longest_cache_hit`. -/
def mambaHit (alignmentTokens maxLength : Nat) : Except CoreError (List Row) := do
  ensure (m.worldSize = 1) (.assertion "DCP not support mamba now.")
  q.mambaSearch m groups alignmentTokens (maxLength / m.specBlockSize)

/-- `find_longest_cache_hit` of a manager's class. -/
def managerHit (alignmentTokens maxLength : Nat) : Except CoreError (List Row) :=
  match m.kind with
  | .full | .dsaLatent _ => .ok (q.fullHit m groups alignmentTokens maxLength)
  | .slidingWindow w => q.slidingHit m groups w alignmentTokens maxLength
  | .chunkedLocal c => q.chunkedHit m groups c alignmentTokens maxLength
  | .mamba .. => q.mambaHit m groups alignmentTokens maxLength
  | .crossAttention => .error (.notSupported "CrossAttentionManager does not support caching")

/-! ## 2. The coordinators -/

abbrev Hits := Nat → List BlockId

/-- An entry of `attention_groups`: a manager of the class and spec, and the groups that share
    the spec. -/
structure AttentionGroup where
  manager : Manager
  groups : List Nat

def sameSpec (m m' : Manager) : Bool :=
  m.kind = m'.kind ∧ m.specBlockSize = m'.specBlockSize ∧ m.specRest = m'.specRest

def addGroup : List AttentionGroup → Manager → List AttentionGroup
  | [], m => [⟨m, [m.group]⟩]
  | a :: rest, m =>
    if sameSpec a.manager m then ⟨a.manager, a.groups ++ [m.group]⟩ :: rest
    else a :: addGroup rest m

/-- `verify_and_split_kv_cache_groups`: full attention first. -/
def attentionGroups (managers : List Manager) : List AttentionGroup :=
  let groups := managers.foldl addGroup []
  groups.filter (·.manager.kind.isFullAttention) ++ groups.filter (!·.manager.kind.isFullAttention)

def lcmBlockSize (attention : List AttentionGroup) : Nat :=
  attention.foldr (fun a n => Nat.lcm a.manager.specBlockSize n) 1

def column (rows : List Row) (j : Nat) : List BlockId := rows.map (·.getD j 0)

def setHits (hits : Nat → Option (List BlockId)) (groups : List Nat) (rows : List Row) :
    Nat → Option (List BlockId) :=
  fun g => if g ∈ groups then some (column rows (groups.idxOf g)) else hits g

/-- One pass of the fixed-point search over the specs. A full-attention spec is looked up once;
    later passes only round the length. -/
def hybridPass (lcm : Nat) : List AttentionGroup → (Nat → Option (List BlockId)) → Nat →
    Except CoreError ((Nat → Option (List BlockId)) × Nat)
  | [], hits, curr => .ok (hits, curr)
  | a :: rest, hits, curr =>
    if a.manager.kind.isFullAttention ∧ (hits (a.groups.headD 0)).isSome then
      hybridPass lcm rest hits (curr / a.manager.specBlockSize * a.manager.specBlockSize)
    else do
      let rows ← q.managerHit a.manager a.groups lcm curr
      hybridPass lcm rest (setHits hits a.groups rows) (rows.length * a.manager.specBlockSize)

/-- The fixed-point loop. The length falls with every round but the last, so as many rounds as
    the first length, and one more, are enough. -/
def hybridLoop (attention : List AttentionGroup) (simple : Bool) :
    Nat → (Nat → Option (List BlockId)) → Nat →
      Except CoreError ((Nat → Option (List BlockId)) × Nat)
  | 0, hits, hitLength => .ok (hits, hitLength)
  | fuel + 1, hits, hitLength => do
    let (hits, curr) ← q.hybridPass (lcmBlockSize attention) attention hits hitLength
    if hitLength ≤ curr then
      return (hits, hitLength)
    else if simple then
      return (hits, curr)
    else
      hybridLoop attention simple fuel hits curr

/-- The hits of the first entry are cut to the final length, if it is full attention. -/
def truncateFirst (attention : List AttentionGroup) (hits : Nat → Option (List BlockId))
    (hitLength : Nat) : Hits :=
  match attention with
  | a :: _ => fun g =>
    if a.manager.kind.isFullAttention ∧ g ∈ a.groups then
      ((hits g).getD []).take (hitLength / a.manager.specBlockSize)
    else
      (hits g).getD []
  | [] => fun g => (hits g).getD []

/-- `HybridKVCacheCoordinator.find_longest_cache_hit`. -/
def hybridHit (managers : List Manager) (maxLength : Nat) : Except CoreError (Hits × Nat) := do
  let attention := attentionGroups managers
  let simple := attention.length = 2 ∧ (attention.head?.any (·.manager.kind.isFullAttention))
  let (hits, hitLength) ← q.hybridLoop attention simple (maxLength + 1) (fun _ => none) maxLength
  return (truncateFirst attention hits hitLength, hitLength)

/-- `UnitaryKVCacheCoordinator.find_longest_cache_hit`. -/
def unitaryHit (m : Manager) (maxLength : Nat) : Except CoreError (Hits × Nat) := do
  let rows ← q.managerHit m [m.group] m.blockSize maxLength
  return (fun g => if g = m.group then column rows 0 else [], rows.length * m.blockSize)

end HitQuery

end VllmDual.Core
