/-
  Subject:   THE BLOCK POOL (`vllm/v1/core/block_pool.py`, `FreeKVCacheBlockQueue` of
             `vllm/v1/core/kv_cache_utils.py`).

  The pool counts references per block, keeps the blocks without one in a queue, and maps block
  hashes to the blocks cached under them. Block 0 is the null block.

  The linked list is modelled by the list of its blocks. A pop that runs past the last block walks
  onto the sentinel in the source, which raises at once or at the next pop or release; here it is
  an error. Events and metrics are left out.
-/
import VllmDual.Lib.Outcome
import VllmDual.Dsa.LogicalPool

namespace VllmDual.Core

open Outcome Function
open List hiding beq_eq_decide
open List (count_eq_zero mem_filter filter_congr nodup_append mem_cons_self mem_append)

/-! ## 1. Blocks and hashes -/

abbrev BlockId := Nat

abbrev BlockHash := Nat

/-- `BlockHashWithGroupId`: the digests of a block's hash blocks, joined, with the group. All
    digests have one length, so joining them loses nothing. -/
structure BlockKey where
  hash : List BlockHash
  group : Nat
deriving DecidableEq

inductive CoreError where
  | cannotGetBlocks (numBlocks : Int)
  | assertion (text : String)
  | pastTheTail
  | removeInvalidBlock (blockId : BlockId)
  | index
  | noNewTokens
  | notBlockAligned (committedEnd blockSize : Int)
  | notSupported (text : String)
  | shared (e : Dsa.PoolError)
deriving DecidableEq

/-- The block hashes at a group's granularity: `BlockHashListWithBlockSize`. With a factor of 1 it
    is the list itself. -/
def blockHashAt (hashes : List BlockHash) (factor i : Nat) : Option (List BlockHash) :=
  if (i + 1) * factor ≤ hashes.length then some ((hashes.drop (i * factor)).take factor) else none

/-! ## 2. The queue -/

/-- The free blocks in eviction order, and `num_free_blocks`. -/
structure FreeKVCacheBlockQueue where
  blocks : List BlockId
  numFreeBlocks : Int

namespace FreeKVCacheBlockQueue

variable (q : FreeKVCacheBlockQueue)

/-- `popleft_n`. A negative count pops nothing and still moves the counter. -/
def popleftN (n : Int) : Except CoreError (List BlockId × FreeKVCacheBlockQueue) :=
  if n = 0 then
    .ok ([], q)
  else do
    ensure (n ≤ q.numFreeBlocks) (.assertion "self.num_free_blocks >= n")
    ensure (n ≤ q.blocks.length) .pastTheTail
    return (q.blocks.take n.toNat, ⟨q.blocks.drop n.toNat, q.numFreeBlocks - n⟩)

def remove (b : BlockId) : Except CoreError FreeKVCacheBlockQueue := do
  ensure (b ∈ q.blocks) (.removeInvalidBlock b)
  return ⟨q.blocks.erase b, q.numFreeBlocks - 1⟩

def appendN (blocks : List BlockId) : FreeKVCacheBlockQueue :=
  ⟨q.blocks ++ blocks, q.numFreeBlocks + blocks.length⟩

end FreeKVCacheBlockQueue

/-! ## 3. The pool -/

/-- The pool's state. `cached` is `BlockHashToBlockMap`: the blocks of a key in insertion order. -/
structure BlockPool where
  numGpuBlocks : Nat
  enableCaching : Bool
  hashBlockSize : Nat
  queue : FreeKVCacheBlockQueue
  refCnt : BlockId → Int
  blockHash : BlockId → Option BlockKey
  cached : BlockKey → List BlockId

namespace BlockPool

variable (p : BlockPool)

def init (numGpuBlocks : Nat) (enableCaching : Bool) (hashBlockSize : Nat) : BlockPool where
  numGpuBlocks := numGpuBlocks
  enableCaching := enableCaching
  hashBlockSize := hashBlockSize
  queue := ⟨range' 1 (numGpuBlocks - 1), (numGpuBlocks : Int) - 1⟩
  refCnt := fun _ => 0
  blockHash := fun _ => none
  cached := fun _ => []

def getNumFreeBlocks : Int := p.queue.numFreeBlocks

/-- `BlockHashToBlockMap.get_one_block`: the oldest block of the key. -/
def getOneBlock (key : BlockKey) : Option BlockId := (p.cached key).head?

/-- `get_cached_block`: one block for each group, or none at all. -/
def getCachedBlock (hash : List BlockHash) (groups : List Nat) : Option (List BlockId) :=
  groups.mapM fun g => p.getOneBlock ⟨hash, g⟩

variable (b : BlockId)

def maybeEvictCachedBlock : BlockPool :=
  match p.blockHash b with
  | none => p
  | some key =>
    if b ∈ p.cached key then
      { p with
        cached := Function.update p.cached key ((p.cached key).erase b)
        blockHash := Function.update p.blockHash b none }
    else
      p

/-- One round of the loops of `get_new_blocks`. -/
def takeBlock : Except CoreError BlockPool := do
  let p := if p.enableCaching then p.maybeEvictCachedBlock b else p
  ensure (p.refCnt b = 0) (.assertion "block.ref_cnt == 0")
  return { p with refCnt := Function.update p.refCnt b (p.refCnt b + 1) }

def getNewBlocks (numBlocks : Int) : Except CoreError (List BlockId × BlockPool) := do
  ensure (numBlocks ≤ p.getNumFreeBlocks) (.cannotGetBlocks numBlocks)
  let (ret, queue) ← p.queue.popleftN numBlocks
  let p ← ret.foldlM takeBlock { p with queue }
  return (ret, p)

/-- One round of `touch`. -/
def touchBlock : Except CoreError BlockPool := do
  let queue ← if p.refCnt b = 0 ∧ b ≠ 0 then p.queue.remove b else .ok p.queue
  return { p with queue, refCnt := Function.update p.refCnt b (p.refCnt b + 1) }

def touch (blocks : List BlockId) : Except CoreError BlockPool := blocks.foldlM touchBlock p

/-- `free_blocks`: first every count, then the queue. -/
def freeBlocks (blocks : List BlockId) : BlockPool :=
  let refCnt := fun b => p.refCnt b - blocks.count b
  { p with refCnt, queue := p.queue.appendN (blocks.filter fun b => refCnt b = 0 ∧ b ≠ 0) }

/-- One round of `cache_full_blocks`, for the block at index `i` of the request. -/
def cacheBlock (hashes : List BlockHash) (factor group : Nat) (i : Nat) (b : BlockId) :
    Except CoreError BlockPool :=
  if b = 0 then
    .ok p
  else do
    ensure (p.blockHash b = none) (.assertion "blk.block_hash is None")
    match blockHashAt hashes factor i with
    | none => .error .index
    | some hash =>
      let key : BlockKey := ⟨hash, group⟩
      let blocks := if b ∈ p.cached key then p.cached key else p.cached key ++ [b]
      return { p with
        blockHash := Function.update p.blockHash b (some key)
        cached := Function.update p.cached key blocks }

/-- The loop of `cache_full_blocks` over the blocks from index `i` on. -/
def cacheBlocksFrom (hashes : List BlockHash) (factor group : Nat) :
    BlockPool → Nat → List BlockId → Except CoreError BlockPool
  | p, _, [] => .ok p
  | p, i, b :: blocks => do
    let p ← p.cacheBlock hashes factor group i b
    cacheBlocksFrom hashes factor group p (i + 1) blocks

def cacheFullBlocks (hashes : List BlockHash) (blocks : List BlockId)
    (numCachedBlocks numFullBlocks : Nat) (blockSize group : Nat) : Except CoreError BlockPool :=
  if numFullBlocks ≤ numCachedBlocks then
    .ok p
  else do
    ensure (numFullBlocks ≤ hashes.length)
      (.assertion "len(request.block_hashes) >= num_full_blocks")
    ensure (blockSize % p.hashBlockSize = 0) (.assertion "block_size % self.hash_block_size == 0")
    cacheBlocksFrom hashes (blockSize / p.hashBlockSize) group p numCachedBlocks
      ((blocks.take numFullBlocks).drop numCachedBlocks)

/-- One round of `evict_blocks`. A negative id counts from the end of `self.blocks`. -/
def evictBlock (blockId : Int) : Except CoreError BlockPool := do
  ensure (blockId < p.numGpuBlocks) (.assertion "block_id < len(self.blocks)")
  ensure (-p.numGpuBlocks ≤ blockId) .index
  return p.maybeEvictCachedBlock (if blockId < 0 then blockId + p.numGpuBlocks else blockId).toNat

/-- `evict_blocks`, over a set in some order. -/
def evictBlocks (blockIds : List Int) : Except CoreError BlockPool := blockIds.foldlM evictBlock p

def resetPrefixCache : Bool × BlockPool :=
  if p.numGpuBlocks - p.getNumFreeBlocks ≠ 1 then (false, p)
  else (true, { p with cached := fun _ => [], blockHash := fun _ => none })

end BlockPool

/-! ## 4. The invariant -/

open BlockPool

/-- The hash map and the blocks' own hashes say the same. -/
structure HashOk (p : BlockPool) : Prop where
  hash : ∀ key b, b ∈ p.cached key ↔ p.blockHash b = some key
  keys : ∀ key, (p.cached key).Nodup
  null : p.blockHash 0 = none
  plain : p.enableCaching = false → ∀ b, p.blockHash b = none

/-- A pool between two calls. -/
structure PoolOk (p : BlockPool) : Prop extends HashOk p where
  nodup : p.queue.blocks.Nodup
  /-- the counter is never below the queue; a negative pop moves it above -/
  size : (p.queue.blocks.length : Int) ≤ p.queue.numFreeBlocks
  nonneg : ∀ b, b ≠ 0 → 0 ≤ p.refCnt b
  /-- a queued block is free -/
  free : ∀ b ∈ p.queue.blocks, b ≠ 0 ∧ p.refCnt b = 0
  /-- a cached block that is free is queued, as an eviction candidate -/
  evictable : ∀ b, p.blockHash b ≠ none → p.refCnt b = 0 → b ∈ p.queue.blocks

theorem PoolOk.init (ngb : Nat) (ec : Bool) (ha : Nat) (h : 0 < ngb) :
    PoolOk (BlockPool.init ngb ec ha) := by
  refine ⟨⟨by simp [BlockPool.init], by simp [BlockPool.init], rfl, fun _ _ => rfl⟩,
    nodup_range', ?_, fun b _ => le_rfl, fun b hb => ⟨?_, rfl⟩, fun b hb => absurd rfl hb⟩
  · simp only [BlockPool.init, length_range']
    omega
  · exact Nat.pos_iff_ne_zero.mp (mem_range'_1.mp hb).1

section Spec

variable {p p' : BlockPool} {b : BlockId} {n : Int} {bs : List BlockId}

theorem takeBlock_spec (h : HashOk p) (hb : p.refCnt b = 0) : p.takeBlock b = .ok { p with
      refCnt := update p.refCnt b 1
      blockHash := update p.blockHash b none
      cached := fun key => (p.cached key).filter (· ≠ b) } := by
  -- a key without the block keeps its list
  have ho : ∀ key, p.blockHash b ≠ some key → (p.cached key).filter (· ≠ b) = p.cached key := by
    intro key hne
    refine filter_eq_self.mpr fun c hc => ?_
    have hcb : c ≠ b := fun hcb => hne (hcb ▸ (h.hash key c).mp hc)
    simpa using hcb
  have hn : p.blockHash b = none → p = { p with
      blockHash := update p.blockHash b none
      cached := fun key => (p.cached key).filter (· ≠ b) } := by
    intro hb0
    have hcc : (fun key => (p.cached key).filter (· ≠ b)) = p.cached :=
      funext fun key => ho key (by simp [hb0])
    rw [hcc, ← hb0, update_eq_self]
  have he : (if p.enableCaching then p.maybeEvictCachedBlock b else p) = { p with
      blockHash := update p.blockHash b none
      cached := fun key => (p.cached key).filter (· ≠ b) } := by
    split
    · cases hkey : p.blockHash b with
      | none =>
        rw [maybeEvictCachedBlock, hkey]
        exact hn hkey
      | some key =>
        have hm := (h.hash key b).mpr hkey
        rw [maybeEvictCachedBlock, hkey]
        simp only [if_pos hm]
        congr 1
        funext key'
        by_cases hk : key' = key
        · subst hk
          rw [update_self, (h.keys key').erase_eq_filter]
          exact filter_congr fun c _ => by rw [bne, decide_not, beq_eq_decide]
        · rw [update_of_ne hk, ho key' (by rw [hkey]; simpa using Ne.symm hk)]
    · rename_i hca
      exact hn (h.plain (by simpa using hca) b)
  rw [takeBlock]
  simp only [he]
  rw [ensure_pos hb, ok_bind, hb]
  rfl

def BlockPool.taken (p : BlockPool) (ids : List BlockId) : BlockPool :=
  { p with
    refCnt := fun b => p.refCnt b + ids.count b
    blockHash := fun b => if b ∈ ids then none else p.blockHash b
    cached := fun key => (p.cached key).filter (· ∉ ids) }

theorem HashOk.taken (h : HashOk p) (ids : List BlockId) : HashOk (p.taken ids) := by
  refine ⟨fun key b => ?_, fun key => (h.keys key).filter _, ?_, fun hc b => ?_⟩
  · by_cases hb : b ∈ ids <;> simp [BlockPool.taken, hb, h.hash]
  · simp [BlockPool.taken, h.null]
  · simp [BlockPool.taken, h.plain hc]

theorem takeBlocks_spec (h : HashOk p) {ids : List BlockId} (hnd : ids.Nodup)
    (hf : ∀ b ∈ ids, p.refCnt b = 0) : ids.foldlM takeBlock p = .ok (p.taken ids) := by
  induction ids generalizing p with
  | nil => simp [taken, pure, Except.pure]
  | cons c ids ih =>
    obtain ⟨hc, hnd⟩ := nodup_cons.mp hnd
    have ho : p.takeBlock c = .ok (p.taken [c]) := by
      rw [takeBlock_spec h (hf c mem_cons_self)]
      refine congrArg Except.ok ?_
      simp only [taken, mk.injEq, true_and]
      refine ⟨funext fun b => ?_, funext fun b => ?_, funext fun key => ?_⟩
      · by_cases hb : b = c
        · subst hb
          simp [hf b mem_cons_self]
        · simp [hb, count_eq_zero.mpr (show b ∉ [c] by simpa using hb)]
      · by_cases hb : b = c <;> simp [update, hb]
      · simp
    have hf' : ∀ b ∈ ids, (p.taken [c]).refCnt b = 0 := by
      intro b hb
      have hbc : b ∉ [c] := by
        intro hm
        exact hc (mem_singleton.mp hm ▸ hb)
      simp [taken, count_eq_zero.mpr hbc, hf b (mem_cons_of_mem _ hb)]
    rw [foldlM_cons, ho, ok_bind, ih (h.taken [c]) hnd hf']
    refine congrArg Except.ok ?_
    simp only [taken, mk.injEq, true_and]
    refine ⟨funext fun b => ?_, funext fun b => ?_, funext fun key => ?_⟩
    · have hco : (c :: ids).count b = [c].count b + ids.count b := by
        rw [← count_append, singleton_append]
      rw [hco]
      push_cast
      ring
    · by_cases hb : b = c <;> by_cases hb' : b ∈ ids <;> simp [hb, hb']
    · rw [filter_filter]
      exact filter_congr fun b _ => by by_cases hb : b = c <;> simp [hb]

/-- What `get_new_blocks` returns and leaves: the queue's first blocks, taken. -/
def BlockPool.gotten (p : BlockPool) (n : Int) : List BlockId × BlockPool :=
  (p.queue.blocks.take n.toNat,
    { p.taken (p.queue.blocks.take n.toNat) with
      queue := ⟨p.queue.blocks.drop n.toNat, p.queue.numFreeBlocks - n⟩ })

@[simp] theorem gotten_zero : p.gotten 0 = ([], p) := by
  simp [gotten, taken]

variable (h : PoolOk p)
include h

theorem PoolOk.gotten (hn : n ≤ p.queue.blocks.length) : PoolOk (p.gotten n).2 := by
  have hs := take_append_drop n.toNat p.queue.blocks
  have hnd := h.nodup
  rw [← hs, nodup_append] at hnd
  have hnot : ∀ b ∈ p.queue.blocks.drop n.toNat, b ∉ p.queue.blocks.take n.toNat :=
    fun b hb hb' => hnd.2.2 b hb' b hb rfl
  have hh := h.toHashOk.taken (p.queue.blocks.take n.toNat)
  have hsi := h.size
  refine ⟨⟨hh.hash, hh.keys, hh.null, hh.plain⟩, hnd.2.1, ?_, fun b hb => ?_,
    fun b hb => ?_, fun b hne h0 => ?_⟩
  · simp only [BlockPool.gotten, length_drop]
    omega
  · have := h.nonneg b hb
    simp only [BlockPool.gotten, BlockPool.taken]
    omega
  · obtain ⟨h1, h2⟩ := h.free b (mem_of_mem_drop hb)
    exact ⟨h1, by simp [BlockPool.gotten, BlockPool.taken, h2, count_eq_zero.mpr (hnot b hb)]⟩
  · -- a block with a hash was not taken, so it keeps its place in the queue
    simp only [BlockPool.gotten, BlockPool.taken] at hne h0
    split at hne
    · exact absurd rfl hne
    · rename_i hb
      rw [count_eq_zero.mpr hb, Nat.cast_zero, add_zero] at h0
      have hm := h.evictable b hne h0
      rw [← hs, mem_append] at hm
      exact hm.resolve_left hb

/-- **`get_new_blocks` succeeds exactly up to the length of the queue.** -/
theorem getNewBlocks_spec {r : List BlockId × BlockPool} :
    p.getNewBlocks n = .ok r ↔ n ≤ p.queue.blocks.length ∧ r = p.gotten n := by
  have hs := h.size
  have hr : n ≤ p.queue.blocks.length → p.getNewBlocks n = .ok (p.gotten n) := by
    intro hle
    have hf : n ≤ p.getNumFreeBlocks := hle.trans hs
    have hp : p.queue.popleftN n = .ok (p.queue.blocks.take n.toNat,
        ⟨p.queue.blocks.drop n.toNat, p.queue.numFreeBlocks - n⟩) := by
      rw [FreeKVCacheBlockQueue.popleftN]
      split
      · rename_i h0
        simp [h0]
      · rw [ensure_pos (hle.trans hs), ok_bind, ensure_pos hle, ok_bind]
        rfl
    have hl := takeBlocks_spec (p := { p with queue := ⟨p.queue.blocks.drop n.toNat,
        p.queue.numFreeBlocks - n⟩ }) ⟨h.hash, h.keys, h.null, h.plain⟩
      (h.nodup.sublist (take_sublist n.toNat _))
      fun b hb => (h.free b (mem_of_mem_take hb)).2
    rw [getNewBlocks, ensure_pos hf, ok_bind, hp, ok_bind]
    simp only
    rw [hl, ok_bind]
    rfl
  constructor
  · intro hg
    have hle : n ≤ p.queue.blocks.length := by
      obtain ⟨x, hx, -⟩ := bind_eq_ok.mp (ensure_bind_eq_ok.mp hg).2
      unfold FreeKVCacheBlockQueue.popleftN at hx
      split at hx
      · omega
      · exact (ensure_bind_eq_ok.mp (ensure_bind_eq_ok.mp hx).2).1
    rw [hr hle] at hg
    exact ⟨hle, (Except.ok.inj hg).symm⟩
  · rintro ⟨hle, rfl⟩
    exact hr hle

def BlockPool.touched (p : BlockPool) (blocks : List BlockId) : BlockPool :=
  { p with
    refCnt := fun b => p.refCnt b + blocks.count b
    queue := ⟨p.queue.blocks.filter (· ∉ blocks), p.queue.numFreeBlocks
      - (p.queue.blocks.length - (p.queue.blocks.filter (· ∉ blocks)).length)⟩ }

omit h in
@[simp] theorem touched_nil : p.touched [] = p := by
  simp [touched]

theorem PoolOk.touched (bs : List BlockId) : PoolOk (p.touched bs) := by
  refine ⟨⟨h.hash, h.keys, h.null, h.plain⟩, h.nodup.filter _, ?_, fun b hb => ?_, fun b hb => ?_,
    fun b hne h0 => ?_⟩
  · have hs := h.size
    simp only [BlockPool.touched]
    omega
  · have := h.nonneg b hb
    simp only [BlockPool.touched]
    omega
  · obtain ⟨hb, hnot⟩ := mem_filter.mp hb
    have hc := count_eq_zero.mpr (of_decide_eq_true hnot)
    exact ⟨(h.free b hb).1, by simp [BlockPool.touched, (h.free b hb).2, hc]⟩
  · have hb0 : b ≠ 0 := fun hb0 => hne (hb0 ▸ h.null)
    have hn := h.nonneg b hb0
    simp only [BlockPool.touched] at hne h0
    have hc : bs.count b = 0 := by omega
    refine mem_filter.mpr ⟨h.evictable b hne (by omega), ?_⟩
    simpa using count_eq_zero.mp hc

/-- **`touch` of blocks that are in use or queued** takes the queued ones out of the queue. -/
theorem touch_spec (hb : ∀ b ∈ bs, b ≠ 0 → p.refCnt b = 0 → b ∈ p.queue.blocks) :
    p.touch bs = .ok (p.touched bs) := by
  induction bs generalizing p with
  | nil =>
    rw [touched_nil]
    rfl
  | cons c bs ih =>
    have ho : p.touchBlock c = .ok (p.touched [c]) := by
      have href : update p.refCnt c (p.refCnt c + 1) = fun b =>
          p.refCnt b + ([c].count b : Int) := by
        funext b
        by_cases hbc : b = c
        · subst hbc
          simp
        · simp [hbc, count_eq_zero.mpr (show b ∉ [c] by simpa using hbc)]
      rw [touchBlock]
      split
      · rename_i hc
        have hm := hb c mem_cons_self hc.2 hc.1
        have he : p.queue.blocks.erase c = p.queue.blocks.filter (· ∉ [c]) := by
          rw [h.nodup.erase_eq_filter]
          exact filter_congr fun b _ => by simp [bne, beq_eq_decide]
        have hl : p.queue.numFreeBlocks - 1 = p.queue.numFreeBlocks
            - (p.queue.blocks.length - (p.queue.blocks.filter (· ∉ [c])).length) := by
          have hp := length_pos_of_mem hm
          rw [← he, length_erase_of_mem hm]
          omega
        rw [FreeKVCacheBlockQueue.remove, ensure_pos hm, ok_bind]
        simp only [pure, Except.pure, bind, Except.bind, touched, href, he, hl]
      · rename_i hc
        -- a block in use, or the null block, is not in the queue
        have hnot : c ∉ p.queue.blocks := fun hm =>
          hc ⟨(h.free c hm).2, (h.free c hm).1⟩
        have hf : p.queue.blocks.filter (· ∉ [c]) = p.queue.blocks := by
          refine filter_eq_self.mpr fun b hb => ?_
          have hbc : b ≠ c := fun hbc => hnot (hbc ▸ hb)
          simpa using hbc
        simp only [pure, Except.pure, bind, Except.bind, touched, href, hf, sub_self, sub_zero]
    have hb' : ∀ b ∈ bs, b ≠ 0 → (p.touched [c]).refCnt b = 0 →
        b ∈ (p.touched [c]).queue.blocks := by
      intro b hm hb0 href
      have hn := h.nonneg b hb0
      simp only [touched] at href ⊢
      have hco : [c].count b = 0 := by omega
      refine mem_filter.mpr ⟨hb b (mem_cons_of_mem _ hm) hb0 (by omega), ?_⟩
      simpa using count_eq_zero.mp hco
    have hr := ih (h.touched [c]) hb'
    rw [touch] at hr ⊢
    rw [foldlM_cons, ho, ok_bind, hr]
    refine congrArg Except.ok ?_
    have hq : (p.queue.blocks.filter (· ∉ [c])).filter (· ∉ bs)
        = p.queue.blocks.filter (· ∉ c :: bs) := by
      rw [filter_filter]
      exact filter_congr fun b _ => by by_cases hbc : b = c <;> simp [hbc]
    simp only [touched, hq, mk.injEq, FreeKVCacheBlockQueue.mk.injEq, true_and, and_true]
    refine ⟨by ring, funext fun b => ?_⟩
    have hco : (c :: bs).count b = [c].count b + bs.count b := by
      rw [← count_append, singleton_append]
    rw [hco]
    push_cast
    ring

/-- **`free_blocks` of held blocks**, each at most as often as it is referenced. -/
theorem PoolOk.freed (hnd : (bs.filter (· ≠ 0)).Nodup) (hh : ∀ b ∈ bs, b ≠ 0 → 0 < p.refCnt b) :
    PoolOk (p.freeBlocks bs) := by
  have hco : ∀ b, b ≠ 0 → (bs.count b : Int) ≤ 1 := by
    intro b hb
    have hle := nodup_iff_count_le_one.mp hnd b
    rw [count_filter (by simpa using hb)] at hle
    exact_mod_cast hle
  have hz : ∀ b, b ∉ bs → bs.count b = 0 := fun b hb => count_eq_zero.mpr hb
  refine ⟨⟨h.hash, h.keys, h.null, h.plain⟩, ?_, ?_, fun b hb => ?_, fun b hb => ?_,
    fun b hne h0 => ?_⟩
  · refine nodup_append.mpr ⟨h.nodup, ?_, fun a ha b hb hab => ?_⟩
    · refine hnd.sublist ?_
      exact monotone_filter_right _ fun b hb => by simpa using (of_decide_eq_true hb).2
    · obtain ⟨hb, hb0⟩ := mem_filter.mp hb
      have hp := hh b hb (of_decide_eq_true hb0).2
      have hf := (h.free a ha).2
      rw [hab] at hf
      omega
  · simpa [freeBlocks, FreeKVCacheBlockQueue.appendN] using h.size
  · have hn := h.nonneg b hb
    have hc := hco b hb
    simp only [freeBlocks]
    by_cases hm : b ∈ bs
    · have hp := hh b hm hb
      omega
    · rw [hz b hm]
      omega
  · rcases mem_append.mp hb with hb | hb
    · obtain ⟨hb0, hr⟩ := h.free b hb
      have hnot : b ∉ bs := fun hm => by
        have := hh b hm hb0
        omega
      exact ⟨hb0, by simp [freeBlocks, hr, hz b hnot]⟩
    · have hb0 := of_decide_eq_true (mem_filter.mp hb).2
      exact ⟨hb0.2, hb0.1⟩
  · have hb0 : b ≠ 0 := fun hb0 => hne (hb0 ▸ h.null)
    refine mem_append.mpr ?_
    by_cases hm : b ∈ bs
    · exact .inr (mem_filter.mpr ⟨hm, decide_eq_true ⟨h0, hb0⟩⟩)
    · simp only [freeBlocks, hz b hm] at h0
      exact .inl (h.evictable b hne (by simpa using h0))

def BlockPool.hashed (p : BlockPool) (b : BlockId) (key : BlockKey) : BlockPool :=
  { p with
    blockHash := Function.update p.blockHash b (some key)
    cached := Function.update p.cached key (p.cached key ++ [b]) }

omit h in
/-- **One round of `cache_full_blocks`** skips the null block, and caches any other block, which
    must not have a hash. -/
theorem cacheBlock_spec (h : HashOk p) {hs : List BlockHash} {fa gr i : Nat}
    (hc : p.cacheBlock hs fa gr i b = .ok p') : b = 0 ∧ p' = p ∨ b ≠ 0 ∧ p.blockHash b = none ∧
      ∃ hash, blockHashAt hs fa i = some hash ∧ p' = p.hashed b ⟨hash, gr⟩ := by
  unfold cacheBlock at hc
  split at hc
  · rename_i hb
    exact .inl ⟨hb, (Except.ok.inj hc).symm⟩
  · rename_i hb
    obtain ⟨hn, hc⟩ := ensure_bind_eq_ok.mp hc
    split at hc
    · cases hc
    · rename_i hash hh
      have hnot : b ∉ p.cached ⟨hash, gr⟩ := by
        rw [h.hash, hn]
        simp
      simp only [if_neg hnot] at hc
      exact .inr ⟨hb, hn, hash, hh, (pure_eq_ok.mp hc).symm⟩

theorem PoolOk.hashed (hb : b ≠ 0) (hn : p.blockHash b = none) (hp : 0 < p.refCnt b)
    (hca : p.enableCaching = true) (key : BlockKey) : PoolOk (p.hashed b key) := by
  have hnot : ∀ key', b ∉ p.cached key' := by
    intro key' hm
    rw [h.hash, hn] at hm
    cases hm
  refine ⟨⟨fun key' c => ?_, fun key' => ?_, ?_, fun hc => ?_⟩, h.nodup, h.size, h.nonneg, h.free,
    fun c hne h0 => ?_⟩
  · simp only [BlockPool.hashed]
    by_cases hk : key' = key <;> by_cases hcb : c = b
    · simp [hk, hcb]
    · simp [hk, hcb, h.hash]
    · subst hcb
      simp [hk, hnot, Ne.symm hk]
    · simp [hk, hcb, h.hash]
  · simp only [BlockPool.hashed]
    by_cases hk : key' = key
    · subst hk
      rw [update_self]
      refine nodup_append.mpr ⟨h.keys key', nodup_singleton b, fun c hc d hd hcd => ?_⟩
      rw [mem_singleton.mp hd] at hcd
      exact hnot key' (hcd ▸ hc)
    · rw [update_of_ne hk]
      exact h.keys key'
  · simp only [BlockPool.hashed, update_of_ne hb.symm, h.null]
  · exact absurd hc (by simp [BlockPool.hashed, hca])
  · simp only [BlockPool.hashed] at hne h0 ⊢
    by_cases hcb : c = b
    · rw [hcb] at h0
      omega
    · rw [update_of_ne hcb] at hne
      exact h.evictable c hne h0

end Spec

end VllmDual.Core
