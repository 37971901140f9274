/-
  Subject:   THE BLOCK POOL DOWN TO ITS LINKS (`BlockPool`, `BlockHashToBlockMap`,
             `vllm/v1/core/block_pool.py`; `FreeKVCacheBlockQueue`,
             `vllm/v1/core/kv_cache_utils.py`).

  `Core/BlockPool` keeps the free blocks in a list and the cached blocks of a key in another. Here
  is what the source keeps: blocks that are linked to each other between two sentinels, and a map
  from a key to one block or to a dict of blocks. The two agree as long as the queue is sound.
-/
import VllmDual.Lib.Linked
import VllmDual.Core.BlockPool

namespace VllmDual.Core

open Outcome Function List Except

/-! ## 1. The linked queue -/

/-- `FreeKVCacheBlockQueue`, with the blocks' own links. -/
structure LinkedBlockQueue where
  links : Linked.Links BlockId
  numFreeBlocks : Int

namespace LinkedBlockQueue

open Linked

/-- `__init__` for the blocks `0 .. n - 1`. -/
def init (n : Nat) : LinkedBlockQueue where
  links :=
    { prev := fun
        | .head => none
        | .item i => if n ≤ i then none else if i = 0 then some .head else some (.item (i - 1))
        | .tail => if n = 0 then some .head else some (.item (n - 1))
      next := fun
        | .head => if n = 0 then some .tail else some (.item 0)
        | .item i => if n ≤ i then none else if i + 1 < n then some (.item (i + 1)) else some .tail
        | .tail => none }
  numFreeBlocks := n

variable (q : LinkedBlockQueue)

/-- `popleft`; none where it raises. -/
def popleft : Option (Node BlockId × LinkedBlockQueue) :=
  match q.links.next .head with
  | none => none
  | some .tail => none
  | some first =>
    (q.links.next first).map fun second =>
      (first, ⟨(q.links.link .head second).clear first, q.numFreeBlocks - 1⟩)

def blockId : Node BlockId → Except CoreError BlockId
  | .item b => .ok b
  | _ => .error .pastTheTail

def popleftN (n : Int) : Except CoreError (List BlockId × LinkedBlockQueue) :=
  if n = 0 then
    .ok ([], q)
  else do
    ensure (n ≤ q.numFreeBlocks) (.assertion "self.num_free_blocks >= n")
    match takeFront q.links n.toNat with
    | none => .error (.assertion "curr_block is not None")
    | some (ret, links) => do
      let ret ← ret.mapM blockId
      return (ret, ⟨links, q.numFreeBlocks - n⟩)

def remove (q : LinkedBlockQueue) (b : BlockId) : Except CoreError LinkedBlockQueue :=
  match unlink q.links (.item b) with
  | none => .error (.removeInvalidBlock b)
  | some links => .ok ⟨links, q.numFreeBlocks - 1⟩

def appendN (blocks : List BlockId) : Except CoreError LinkedBlockQueue :=
  match pushBack q.links blocks with
  | none => .error (.assertion "prev_free_block of fake_free_list_tail should always exist")
  | some links => .ok ⟨links, q.numFreeBlocks + blocks.length⟩

/-- `get_all_free_blocks`: the walk along the links, with room for `fuel` nodes. -/
def getAllFreeBlocks (fuel : Nat) : Option (List (Node BlockId)) :=
  (q.links.next .head).bind fun first => walk q.links fuel first

end LinkedBlockQueue

/-! ## 2. The hash map -/

/-- A value of `BlockHashToBlockMap`: one block, or a dict of blocks by their ids. -/
inductive CacheEntry where
  | single (b : BlockId)
  | many (blocks : List BlockId)

abbrev BlockHashToBlockMap := BlockKey → Option CacheEntry

namespace BlockHashToBlockMap

variable (cache : BlockHashToBlockMap) (key : BlockKey) (b : BlockId)

def getOneBlock : Option BlockId :=
  match cache key with
  | none => none
  | some (.single c) => some c
  | some (.many blocks) => blocks.head?

def insert : BlockHashToBlockMap :=
  Function.update cache key <| some <| match cache key with
    | none => .single b
    | some (.single c) => .many (if c = b then [b] else [c, b])
    | some (.many blocks) => .many (if b ∈ blocks then blocks else blocks ++ [b])

/-- `pop`: whether the block was found, and the map without it. -/
def pop : Bool × BlockHashToBlockMap :=
  match cache key with
  | none => (false, cache)
  | some (.single c) => if c = b then (true, Function.update cache key none) else (false, cache)
  | some (.many blocks) =>
    -- the dict is put back unless the pop has emptied it
    let rest := blocks.erase b
    (b ∈ blocks, Function.update cache key (if rest = [] then none else some (.many rest)))

def blocks : List BlockId :=
  match cache key with
  | none => []
  | some (.single c) => [c]
  | some (.many blocks) => blocks

end BlockHashToBlockMap

/-! ## 3. The pool -/

/-- `BlockPool`, with its links and its map. -/
structure LinkedPool where
  numGpuBlocks : Nat
  enableCaching : Bool
  hashBlockSize : Nat
  queue : LinkedBlockQueue
  refCnt : BlockId → Int
  blockHash : BlockId → Option BlockKey
  cache : BlockHashToBlockMap

namespace LinkedPool

variable (p : LinkedPool)

/-- `__init__`: the null block is popped from the queue of all blocks. -/
def init (numGpuBlocks : Nat) (enableCaching : Bool) (hashBlockSize : Nat) : Option LinkedPool :=
  (LinkedBlockQueue.init numGpuBlocks).popleft.map fun (_, queue) =>
    { numGpuBlocks, enableCaching, hashBlockSize, queue
      refCnt := fun _ => 0
      blockHash := fun _ => none
      cache := fun _ => none }

def getNumFreeBlocks : Int := p.queue.numFreeBlocks

def getCachedBlock (hash : List BlockHash) (groups : List Nat) : Option (List BlockId) :=
  groups.mapM fun g => p.cache.getOneBlock ⟨hash, g⟩

variable (b : BlockId)

def maybeEvictCachedBlock : LinkedPool :=
  match p.blockHash b with
  | none => p
  | some key =>
    let (found, cache) := p.cache.pop key b
    if found then { p with cache, blockHash := Function.update p.blockHash b none }
    else { p with cache }

def takeBlock : Except CoreError LinkedPool := do
  let p := if p.enableCaching then p.maybeEvictCachedBlock b else p
  ensure (p.refCnt b = 0) (.assertion "block.ref_cnt == 0")
  return { p with refCnt := Function.update p.refCnt b (p.refCnt b + 1) }

def getNewBlocks (numBlocks : Int) : Except CoreError (List BlockId × LinkedPool) := do
  ensure (numBlocks ≤ p.getNumFreeBlocks) (.cannotGetBlocks numBlocks)
  let (ret, queue) ← p.queue.popleftN numBlocks
  let p ← ret.foldlM takeBlock { p with queue }
  return (ret, p)

def touchBlock : Except CoreError LinkedPool := do
  let queue ← if p.refCnt b = 0 ∧ b ≠ 0 then p.queue.remove b else .ok p.queue
  return { p with queue, refCnt := Function.update p.refCnt b (p.refCnt b + 1) }

def touch (blocks : List BlockId) : Except CoreError LinkedPool := blocks.foldlM touchBlock p

/-- `free_blocks`: first every count, then the queue. -/
def freeBlocks (blocks : List BlockId) : Except CoreError LinkedPool := do
  let refCnt := fun b => p.refCnt b - blocks.count b
  let queue ← p.queue.appendN (blocks.filter fun b => refCnt b = 0 ∧ b ≠ 0)
  return { p with refCnt, queue }

def cacheBlock (hashes : List BlockHash) (factor group : Nat) (i : Nat) (b : BlockId) :
    Except CoreError LinkedPool :=
  if b = 0 then
    .ok p
  else do
    ensure (p.blockHash b = none) (.assertion "blk.block_hash is None")
    match blockHashAt hashes factor i with
    | none => .error .index
    | some hash =>
      let key : BlockKey := ⟨hash, group⟩
      return { p with
        blockHash := Function.update p.blockHash b (some key)
        cache := p.cache.insert key b }

def cacheBlocksFrom (hashes : List BlockHash) (factor group : Nat) :
    LinkedPool → Nat → List BlockId → Except CoreError LinkedPool
  | p, _, [] => .ok p
  | p, i, b :: blocks => do
    let p ← p.cacheBlock hashes factor group i b
    cacheBlocksFrom hashes factor group p (i + 1) blocks

def cacheFullBlocks (hashes : List BlockHash) (blocks : List BlockId)
    (numCachedBlocks numFullBlocks : Nat) (blockSize group : Nat) : Except CoreError LinkedPool :=
  if numFullBlocks ≤ numCachedBlocks then
    .ok p
  else do
    ensure (numFullBlocks ≤ hashes.length)
      (.assertion "len(request.block_hashes) >= num_full_blocks")
    ensure (blockSize % p.hashBlockSize = 0) (.assertion "block_size % self.hash_block_size == 0")
    cacheBlocksFrom hashes (blockSize / p.hashBlockSize) group p numCachedBlocks
      ((blocks.take numFullBlocks).drop numCachedBlocks)

def evictBlock (blockId : Int) : Except CoreError LinkedPool := do
  ensure (blockId < p.numGpuBlocks) (.assertion "block_id < len(self.blocks)")
  ensure (-p.numGpuBlocks ≤ blockId) .index
  return p.maybeEvictCachedBlock (if blockId < 0 then blockId + p.numGpuBlocks else blockId).toNat

def evictBlocks (blockIds : List Int) : Except CoreError LinkedPool := blockIds.foldlM evictBlock p

def resetPrefixCache : Bool × LinkedPool :=
  if p.numGpuBlocks - p.getNumFreeBlocks ≠ 1 then (false, p)
  else (true, { p with cache := fun _ => none, blockHash := fun _ => none })

/-- The pool of `Core/BlockPool` with the same blocks, when `free` is the list of the linked
    ones. -/
def abs (free : List BlockId) : BlockPool where
  numGpuBlocks := p.numGpuBlocks
  enableCaching := p.enableCaching
  hashBlockSize := p.hashBlockSize
  queue := ⟨free, p.queue.numFreeBlocks⟩
  refCnt := p.refCnt
  blockHash := p.blockHash
  cached := p.cache.blocks

end LinkedPool

/-! ## 4. The queue against its list -/

open LinkedPool

section Queue

open Linked LinkedBlockQueue

variable {q : LinkedBlockQueue} {f blocks : List BlockId} {b : BlockId} {n : Int}

theorem mapM_blockId (ids : List BlockId) : (ids.map Node.item).mapM blockId = .ok ids := by
  rw [mapM_eq_ok, forall₂_map_left_iff]
  exact forall₂_same.mpr fun _ _ => rfl

variable (h : Represents q.links f)
include h

theorem popleftN_spec (hs : q.numFreeBlocks = f.length) (h0 : 0 ≤ n) (hn : n ≤ f.length) :
    ∃ links, q.popleftN n = .ok (f.take n.toNat, ⟨links, q.numFreeBlocks - n⟩) ∧
      Represents links (f.drop n.toNat) := by
  by_cases hz : n = 0
  · subst hz
    exact ⟨q.links, by simp [popleftN], by simpa using h⟩
  · have hl : (f.take n.toNat).length = n.toNat := by
      rw [length_take]
      omega
    rw [← take_append_drop n.toNat f] at h
    obtain ⟨links, ht, hr⟩ := takeFront_spec h
    rw [hl] at ht
    refine ⟨links, ?_, hr⟩
    rw [popleftN, if_neg hz, ensure_pos (hs ▸ hn), ok_bind, ht]
    dsimp only
    rw [mapM_blockId]
    rfl

theorem remove_spec {q' : LinkedBlockQueue} :
    q.remove b = .ok q' ↔ b ∈ f ∧ ∃ links, q' = ⟨links, q.numFreeBlocks - 1⟩ ∧
      unlink q.links (.item b) = some links ∧ Represents links (f.erase b) := by
  constructor
  · intro hr
    unfold remove at hr
    split at hr
    · cases hr
    · rename_i links hu
      have hm : b ∈ f := by
        rw [h.mem_iff]
        intro hn
        rw [unlink, hn] at hu
        split at hu <;> simp_all
      obtain ⟨l₁, l₂, rfl⟩ := append_of_mem hm
      have hb : b ∉ l₁ := fun hb =>
        (nodup_append.mp h.nodup).2.2 b hb b mem_cons_self rfl
      obtain ⟨links', hu', hrep⟩ := unlink_spec h
      obtain rfl : links = links' := Option.some.inj (hu.symm.trans hu')
      refine ⟨hm, links, (ok.inj hr).symm, hu, ?_⟩
      rwa [erase_append_right _ hb, erase_cons_head]
  · rintro ⟨-, links, rfl, hu, -⟩
    rw [remove, hu]

theorem appendN_spec (hnd : (f ++ blocks).Nodup) :
    ∃ links, q.appendN blocks = .ok ⟨links, q.numFreeBlocks + blocks.length⟩ ∧
      Represents links (f ++ blocks) := by
  obtain ⟨links, hp, hr⟩ := pushBack_spec h hnd
  exact ⟨links, by rw [appendN, hp], hr⟩

theorem getAllFreeBlocks_eq {fu : Nat} (hf : f.length < fu) :
    q.getAllFreeBlocks fu = some (f.map Node.item) := by
  rw [getAllFreeBlocks, h.seg.next_eq]
  exact h.seg.walk_eq h.ended hf

omit h

theorem init_represents (n : Nat) : Represents (LinkedBlockQueue.init n).links (range n) := by
  -- the links from the block before `i` through the `m` blocks from `i` on
  have hs : ∀ m i, i + m = n → Seg (LinkedBlockQueue.init n).links
      (if i = 0 then .head else .item (i - 1)) (range' i m) .tail := by
    intro m
    induction m with
    | zero =>
      intro i hi
      obtain rfl : i = n := hi
      by_cases h0 : i = 0
      · simp [Seg, LinkedBlockQueue.init, h0]
      · have hlt : ¬i ≤ i - 1 := by omega
        have hl : ¬i - 1 + 1 < i := by omega
        simp [Seg, LinkedBlockQueue.init, h0, hlt, hl]
    | succ m ih =>
      intro i hi
      have hr := ih (i + 1) (by omega)
      rw [if_neg (Nat.succ_ne_zero i), Nat.add_sub_cancel] at hr
      rw [range'_succ]
      have hin : ¬n ≤ i := by omega
      have hn : n ≠ 0 := by omega
      refine ⟨?_, ?_, hr⟩
      · by_cases h0 : i = 0
        · simp [LinkedBlockQueue.init, h0, hn]
        · have hin' : ¬n ≤ i - 1 := by omega
          have hne : i - 1 + 1 = i := by omega
          simp [LinkedBlockQueue.init, h0, hin', hne, Nat.lt_of_not_le hin]
      · by_cases h0 : i = 0 <;> simp [LinkedBlockQueue.init, h0, hin, hn]
  refine ⟨?_, nodup_range, fun i hi => ?_, rfl⟩
  · simpa [range_eq_range'] using hs n 0 (by omega)
  · have hle : n ≤ i := by simpa using hi
    simp [LinkedBlockQueue.init, hle]

theorem popleft_spec (h : Represents q.links (b :: f)) :
    ∃ links, q.popleft = some (.item b, ⟨links, q.numFreeBlocks - 1⟩) ∧ Represents links f := by
  have hh : q.links.next .head = some (.item b) := h.seg.1
  have hn : q.links.next (.item b) = some (firstNode .tail f) := h.seg.2.2.next_eq
  have hf : Represents q.links ([] ++ b :: f) := h
  obtain ⟨links, hu, hr⟩ := unlink_spec hf
  have hl : links = (q.links.link .head (firstNode .tail f)).clear (.item b) := by
    rw [unlink, h.seg.2.1, hn] at hu
    exact (Option.some.inj hu).symm
  refine ⟨links, ?_, hr⟩
  rw [popleft, hh, hl]
  simp [hn]

end Queue

/-! ## 5. The map against its lists -/

section Map

open BlockHashToBlockMap

variable {ca : BlockHashToBlockMap} {key k' : BlockKey} {b : BlockId}

theorem getOneBlock_eq : getOneBlock ca key = (blocks ca key).head? := by
  unfold getOneBlock blocks
  cases ca key with
  | none => rfl
  | some entry => cases entry <;> rfl

theorem blocks_insert : blocks (BlockHashToBlockMap.insert ca key b) k' = update (blocks ca) key
    (if b ∈ blocks ca key then blocks ca key else blocks ca key ++ [b]) k' := by
  by_cases hk : k' = key
  · subst hk
    rw [update_self, blocks, BlockHashToBlockMap.insert, update_self]
    unfold blocks
    cases ca k' with
    | none => simp
    | some entry =>
      cases entry with
      | single c =>
        by_cases hcb : b = c
        · simp [hcb]
        · simp [hcb, Ne.symm hcb]
      | many blocks => rfl
  · rw [update_of_ne hk, blocks, BlockHashToBlockMap.insert, update_of_ne hk]
    rfl

theorem pop_fst : (pop ca key b).1 = decide (b ∈ blocks ca key) := by
  unfold pop blocks
  cases ca key with
  | none => simp
  | some entry =>
    cases entry with
    | single c =>
      by_cases hcb : b = c
      · simp [hcb]
      · simp [hcb, Ne.symm hcb]
    | many blocks => rfl

theorem blocks_pop :
    blocks (pop ca key b).2 k' = update (blocks ca) key ((blocks ca key).erase b) k' := by
  by_cases hk : k' = key
  · subst hk
    rw [update_self]
    unfold pop blocks
    cases he : ca k' with
    | none => simp [he]
    | some entry =>
      cases entry with
      | single c =>
        by_cases hcb : c = b
        · simp [hcb]
        · simp [hcb, he]
      | many blocks =>
        by_cases hr : blocks.erase b = [] <;> simp [hr]
  · rw [update_of_ne hk]
    unfold pop blocks
    cases he : ca key with
    | none => rfl
    | some entry =>
      cases entry with
      | single c => by_cases hcb : c = b <;> simp [hcb, update_of_ne hk]
      | many blocks => simp [update_of_ne hk]

end Map

/-! ## 6. The pool against its lists -/

section Pool

open Linked

variable {p p' : LinkedPool} {f blocks : List BlockId} {b : BlockId} {bh : List BlockHash}
  {fa gr i : Nat}

theorem abs_maybeEvictCachedBlock :
    (p.maybeEvictCachedBlock b).abs f = (p.abs f).maybeEvictCachedBlock b := by
  unfold LinkedPool.maybeEvictCachedBlock BlockPool.maybeEvictCachedBlock
  simp only [LinkedPool.abs]
  cases p.blockHash b with
  | none => rfl
  | some key =>
    simp only [pop_fst]
    have hp : BlockHashToBlockMap.blocks (p.cache.pop key b).2
        = update p.cache.blocks key ((p.cache.blocks key).erase b) :=
      funext fun _ => blocks_pop
    by_cases hb : b ∈ p.cache.blocks key
    · simp [hb, hp]
    · have hk : (p.cache.blocks key).erase b = p.cache.blocks key := erase_of_not_mem hb
      simp [hb, hp, hk]

theorem maybeEvictCachedBlock_queue : (p.maybeEvictCachedBlock b).queue = p.queue := by
  unfold maybeEvictCachedBlock
  split
  · rfl
  · dsimp only
    split <;> rfl

theorem takeBlock_abs (f : List BlockId) (h : p.takeBlock b = .ok p') :
    (p.abs f).takeBlock b = .ok (p'.abs f) ∧ p'.queue = p.queue := by
  have hif : (if (p.abs f).enableCaching then (p.abs f).maybeEvictCachedBlock b else p.abs f)
      = (if p.enableCaching then p.maybeEvictCachedBlock b else p).abs f := by
    rw [← abs_maybeEvictCachedBlock]
    exact (apply_ite (abs · f) _ _ _).symm
  obtain ⟨hr, rfl⟩ := ensure_bind_pure_eq_ok.mp h
  refine ⟨?_, ?_⟩
  · rw [BlockPool.takeBlock, hif]
    exact ensure_bind_eq_ok.mpr ⟨hr, rfl⟩
  · dsimp only
    split
    · exact maybeEvictCachedBlock_queue
    · rfl

theorem takeBlocks_abs (f : List BlockId) {ids : List BlockId}
    (h : ids.foldlM takeBlock p = .ok p') :
    ids.foldlM BlockPool.takeBlock (p.abs f) = .ok (p'.abs f) ∧ p'.queue = p.queue := by
  induction ids generalizing p with
  | nil =>
    obtain rfl := pure_eq_ok.mp h
    exact ⟨rfl, rfl⟩
  | cons c ids ih =>
    rw [foldlM_cons] at h ⊢
    obtain ⟨p₁, h₁, h⟩ := of_bind h
    obtain ⟨ho, hqu₁⟩ := takeBlock_abs f h₁
    obtain ⟨hr, hq⟩ := ih h
    exact ⟨by rw [ho, ok_bind, hr], hq.trans hqu₁⟩

variable (h : Represents p.queue.links f)
include h

theorem getNewBlocks_abs (hs : p.queue.numFreeBlocks = f.length) {n : Int} (h0 : 0 ≤ n)
    {ret : List BlockId} (hg : p.getNewBlocks n = .ok (ret, p')) :
    ret = f.take n.toNat ∧ Represents p'.queue.links (f.drop n.toNat) ∧
      (p.abs f).getNewBlocks n = .ok (ret, p'.abs (f.drop n.toNat)) := by
  obtain ⟨hle, hg⟩ := ensure_bind_eq_ok.mp hg
  have hn : n ≤ f.length := hs ▸ hle
  obtain ⟨links, hp, hr⟩ := popleftN_spec h hs h0 hn
  rw [hp, ok_bind] at hg
  obtain ⟨p₁, hl, hret⟩ := of_bind hg
  obtain ⟨rfl, rfl⟩ := pair_inj hret
  obtain ⟨ha, hq⟩ := takeBlocks_abs (f.drop n.toNat) hl
  refine ⟨rfl, by rw [hq]; exact hr, ?_⟩
  have hp' : (p.abs f).queue.popleftN n
      = .ok (f.take n.toNat, ⟨f.drop n.toNat, p.queue.numFreeBlocks - n⟩) := by
    by_cases hz : n = 0
    · subst hz
      simp [FreeKVCacheBlockQueue.popleftN, LinkedPool.abs]
    · rw [FreeKVCacheBlockQueue.popleftN, if_neg hz]
      exact ensure_bind_eq_ok.mpr ⟨hle, ensure_bind_eq_ok.mpr ⟨hn, rfl⟩⟩
  refine ensure_bind_eq_ok.mpr ⟨hle, ?_⟩
  rw [hp', ok_bind]
  exact bind_eq_ok.mpr ⟨_, ha, rfl⟩

theorem touchBlock_abs (ht : p.touchBlock b = .ok p') : ∃ fr', Represents p'.queue.links fr' ∧
      (p.abs f).touchBlock b = .ok (p'.abs fr') := by
  unfold touchBlock at ht
  unfold BlockPool.touchBlock
  split at ht
  · rename_i hb
    obtain ⟨queue, hq, rfl⟩ := bind_pure_eq_ok.mp ht
    obtain ⟨hm, links, rfl, -, hr⟩ := (remove_spec h).mp hq
    refine ⟨f.erase b, hr, ?_⟩
    rw [if_pos (show (p.abs f).refCnt b = 0 ∧ b ≠ 0 from hb)]
    exact bind_eq_ok.mpr ⟨_, ensure_bind_eq_ok.mpr ⟨hm, rfl⟩, rfl⟩
  · rename_i hb
    obtain rfl := pure_eq_ok.mp ht
    refine ⟨f, h, ?_⟩
    rw [if_neg (show ¬((p.abs f).refCnt b = 0 ∧ b ≠ 0) from hb)]
    rfl

theorem touch_abs (ht : p.touch blocks = .ok p') :
    ∃ fr', Represents p'.queue.links fr' ∧ (p.abs f).touch blocks = .ok (p'.abs fr') := by
  induction blocks generalizing p f with
  | nil =>
    obtain rfl := pure_eq_ok.mp ht
    exact ⟨f, h, rfl⟩
  | cons c blocks ih =>
    rw [touch, foldlM_cons] at ht
    obtain ⟨p₁, ho, hr⟩ := of_bind ht
    obtain ⟨fr₁, hrep₁, habs₁⟩ := touchBlock_abs h ho
    obtain ⟨fr', hrep, ha⟩ := ih hrep₁ hr
    refine ⟨fr', hrep, ?_⟩
    rw [BlockPool.touch, foldlM_cons, habs₁]
    exact ha

theorem freeBlocks_abs (hnd : ((p.abs f).freeBlocks blocks).queue.blocks.Nodup)
    (hf : p.freeBlocks blocks = .ok p') :
    Represents p'.queue.links ((p.abs f).freeBlocks blocks).queue.blocks ∧
      p'.abs ((p.abs f).freeBlocks blocks).queue.blocks = (p.abs f).freeBlocks blocks := by
  obtain ⟨queue, hq, rfl⟩ := bind_pure_eq_ok.mp hf
  obtain ⟨links, ha, hr⟩ := appendN_spec h hnd
  obtain rfl := ok.inj (hq.symm.trans ha)
  exact ⟨hr, rfl⟩

omit h

theorem cacheBlock_abs (f : List BlockId) (h : p.cacheBlock bh fa gr i b = .ok p') :
    (p.abs f).cacheBlock bh fa gr i b = .ok (p'.abs f) ∧ p'.queue = p.queue := by
  unfold cacheBlock at h
  unfold BlockPool.cacheBlock
  split at h
  · rename_i hb
    obtain rfl := ok.inj h
    exact ⟨if_pos hb, rfl⟩
  · rename_i hb
    obtain ⟨hn, h⟩ := ensure_bind_eq_ok.mp h
    rw [if_neg hb]
    cases hh : blockHashAt bh fa i with
    | none => simp [hh] at h
    | some hash =>
      rw [hh] at h
      obtain rfl := pure_eq_ok.mp h
      refine ⟨ensure_bind_eq_ok.mpr ⟨hn, ?_⟩, rfl⟩
      simp only [LinkedPool.abs, pure, Except.pure, Except.ok.injEq, BlockPool.mk.injEq, true_and]
      exact funext fun k' => blocks_insert.symm

theorem cacheBlocksFrom_abs (f : List BlockId)
    (h : LinkedPool.cacheBlocksFrom bh fa gr p i blocks = .ok p') :
    BlockPool.cacheBlocksFrom bh fa gr (p.abs f) i blocks = .ok (p'.abs f) ∧
      p'.queue = p.queue := by
  induction blocks generalizing p i with
  | nil =>
    obtain rfl := ok.inj h
    exact ⟨rfl, rfl⟩
  | cons c blocks ih =>
    obtain ⟨p₁, ho, hr⟩ := of_bind h
    obtain ⟨habs₁, hqu₁⟩ := cacheBlock_abs f ho
    obtain ⟨ha, hq⟩ := ih hr
    exact ⟨bind_eq_ok.mpr ⟨_, habs₁, ha⟩, hq.trans hqu₁⟩

theorem cacheFullBlocks_abs (f : List BlockId) {ncb nfb bz : Nat}
    (h : p.cacheFullBlocks bh blocks ncb nfb bz gr = .ok p') :
    (p.abs f).cacheFullBlocks bh blocks ncb nfb bz gr = .ok (p'.abs f) ∧ p'.queue = p.queue := by
  unfold cacheFullBlocks at h
  unfold BlockPool.cacheFullBlocks
  split at h
  · rename_i hle
    obtain rfl := ok.inj h
    exact ⟨if_pos hle, rfl⟩
  · rename_i hle
    obtain ⟨hl, h⟩ := ensure_bind_eq_ok.mp h
    obtain ⟨hm, h⟩ := ensure_bind_eq_ok.mp h
    obtain ⟨ha, hq⟩ := cacheBlocksFrom_abs f h
    rw [if_neg hle]
    exact ⟨ensure_bind_eq_ok.mpr ⟨hl, ensure_bind_eq_ok.mpr ⟨hm, ha⟩⟩, hq⟩

theorem evictBlocks_abs (f : List BlockId) {bi : List Int} (h : p.evictBlocks bi = .ok p') :
    (p.abs f).evictBlocks bi = .ok (p'.abs f) ∧ p'.queue = p.queue := by
  induction bi generalizing p with
  | nil =>
    obtain rfl := pure_eq_ok.mp h
    exact ⟨rfl, rfl⟩
  | cons blockId bi ih =>
    rw [evictBlocks, foldlM_cons] at h
    obtain ⟨p₁, ho, hr⟩ := of_bind h
    obtain ⟨hlt, ho⟩ := ensure_bind_eq_ok.mp ho
    obtain ⟨hge, rfl⟩ := ensure_bind_pure_eq_ok.mp ho
    obtain ⟨ha, hq⟩ := ih hr
    refine ⟨?_, hq.trans maybeEvictCachedBlock_queue⟩
    rw [BlockPool.evictBlocks, foldlM_cons]
    refine bind_eq_ok.mpr ⟨_, ensure_bind_eq_ok.mpr ⟨hlt, ensure_bind_eq_ok.mpr ⟨hge, rfl⟩⟩, ?_⟩
    rw [abs_maybeEvictCachedBlock] at ha
    exact ha

theorem resetPrefixCache_abs (f : List BlockId) :
    (p.abs f).resetPrefixCache = (p.resetPrefixCache.1, p.resetPrefixCache.2.abs f) ∧
      p.resetPrefixCache.2.queue = p.queue := by
  unfold BlockPool.resetPrefixCache resetPrefixCache
  by_cases h : (p.numGpuBlocks : Int) - p.getNumFreeBlocks ≠ 1
  · rw [if_pos h,
      if_pos (show ((p.abs f).numGpuBlocks : Int) - (p.abs f).getNumFreeBlocks ≠ 1 from h)]
    exact ⟨rfl, rfl⟩
  · rw [if_neg h,
      if_neg (show ¬((p.abs f).numGpuBlocks : Int) - (p.abs f).getNumFreeBlocks ≠ 1 from h)]
    exact ⟨rfl, rfl⟩

end Pool

end VllmDual.Core
