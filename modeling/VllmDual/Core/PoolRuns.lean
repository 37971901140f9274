/-
  Subject:   THE BLOCK POOL IS CONSISTENT IN EVERY STATE ITS CALLS REACH.

  The calls of the pool come in any order, from holders who free what they hold. What keeps the
  pool consistent is an invariant of the lists (`Consistent`), carried over to the links:

  * `pool_consistent` -- the state in every run in which no call frees all of a block's two or more
    references at once and none asks for a negative number of blocks;
  * `freedTwice_outOfSync` -- what one such call does.
-/
import VllmDual.Core.LinkedPool

namespace VllmDual.Core

open Outcome Function BlockPool List Option

/-! ## 1. The invariant of the lists -/

structure HashSync (p : BlockPool) : Prop where
  hash : ∀ key b, b ∈ p.cached key ↔ p.blockHash b = some key
  keys : ∀ key, (p.cached key).Nodup
  null : p.blockHash 0 = none
  range : ∀ b, p.blockHash b ≠ none → b < p.numGpuBlocks

structure Consistent (p : BlockPool) (holders : BlockId → Nat) : Prop extends HashSync p where
  nodup : p.queue.blocks.Nodup
  size : p.queue.numFreeBlocks = p.queue.blocks.length
  queued : ∀ b, b ∈ p.queue.blocks ↔ b ≠ 0 ∧ b < p.numGpuBlocks ∧ p.refCnt b = 0
  refs : ∀ b, b ≠ 0 → p.refCnt b = holders b
  held : ∀ b, 0 < holders b → b < p.numGpuBlocks

section Calls

variable {p p' : BlockPool} {holders : BlockId → Nat} {b : BlockId} {blocks : List BlockId}
  {hashes : List BlockHash}

theorem HashSync.congr (h : HashSync p) (hh : p'.blockHash = p.blockHash)
    (hc : p'.cached = p.cached) (hn : p'.numGpuBlocks = p.numGpuBlocks) : HashSync p' where
  hash key b := by rw [hh, hc]; exact h.hash key b
  keys key := by rw [hc]; exact h.keys key
  null := by rw [hh]; exact h.null
  range b hb := by rw [hn]; exact h.range b (hh ▸ hb)

theorem Consistent.of_hashSync (h : Consistent p holders) (hs : HashSync p')
    (hq : p'.queue = p.queue) (hr : p'.refCnt = p.refCnt)
    (hn : p'.numGpuBlocks = p.numGpuBlocks) : Consistent p' holders where
  toHashSync := hs
  nodup := hq ▸ h.nodup
  size := hq ▸ h.size
  queued b := by rw [hq, hn, hr]; exact h.queued b
  refs b hb := by rw [hr]; exact h.refs b hb
  held b hb := by rw [hn]; exact h.held b hb

theorem HashSync.maybeEvictCachedBlock (h : HashSync p) (b : BlockId) :
    HashSync (p.maybeEvictCachedBlock b) := by
  unfold BlockPool.maybeEvictCachedBlock
  split
  · exact h
  · rename_i key hkey
    rw [if_pos ((h.hash key b).mpr hkey)]
    have ho : ∀ c, c ≠ b → update p.blockHash b none c = p.blockHash c :=
      fun c hc => update_of_ne hc _ _
    refine ⟨fun key' c => ?_, fun key' => ?_, ?_, fun c hc => ?_⟩
    · by_cases hcb : c = b <;> by_cases hk : key' = key
      · subst hcb hk
        simp [(h.keys key').mem_erase_iff]
      · subst hcb
        simp [update_of_ne hk, h.hash, hkey, Ne.symm hk]
      · subst hk
        simp [(h.keys key').mem_erase_iff, hcb, h.hash]
      · simp [update_of_ne hk, hcb, h.hash]
    · by_cases hk : key' = key
      · subst hk
        simpa using (h.keys key').erase b
      · simpa [update_of_ne hk] using h.keys key'
    · by_cases h0 : 0 = b
      · simp [← h0]
      · exact (ho 0 h0).trans h.null
    · refine h.range c fun hn => hc ?_
      by_cases hcb : c = b
      · simp [hcb]
      · exact (ho c hcb).trans hn

theorem maybeEvictCachedBlock_frame (p : BlockPool) (b : BlockId) :
    (p.maybeEvictCachedBlock b).queue = p.queue ∧ (p.maybeEvictCachedBlock b).refCnt = p.refCnt ∧
      (p.maybeEvictCachedBlock b).numGpuBlocks = p.numGpuBlocks := by
  unfold maybeEvictCachedBlock
  split
  · exact ⟨rfl, rfl, rfl⟩
  · split <;> exact ⟨rfl, rfl, rfl⟩

theorem takeBlocks_hashSync {ids : List BlockId} (h : HashSync p)
    (ht : ids.foldlM takeBlock p = .ok p') :
    HashSync p' ∧ p'.queue = p.queue ∧ p'.numGpuBlocks = p.numGpuBlocks ∧
      ∀ b, p'.refCnt b = p.refCnt b + ids.count b := by
  induction ids generalizing p with
  | nil =>
    obtain rfl := pure_eq_ok.mp ht
    exact ⟨h, rfl, rfl, fun b => by simp⟩
  | cons c ids ih =>
    rw [foldlM_cons] at ht
    obtain ⟨p₁, ho, hr⟩ := of_bind ht
    obtain ⟨-, rfl⟩ := ensure_bind_pure_eq_ok.mp ho
    -- the block's own round
    let p₀ := if p.enableCaching then p.maybeEvictCachedBlock c else p
    have hsync₀ : HashSync p₀ := by
      by_cases hc : p.enableCaching = true
      · simpa [p₀, hc] using h.maybeEvictCachedBlock c
      · simpa [p₀, hc] using h
    have hf : p₀.queue = p.queue ∧ p₀.refCnt = p.refCnt ∧ p₀.numGpuBlocks = p.numGpuBlocks := by
      by_cases hc : p.enableCaching = true
      · simpa [p₀, hc] using maybeEvictCachedBlock_frame p c
      · simp [p₀, hc]
    have hsync₁ : HashSync { p₀ with refCnt := update p₀.refCnt c (p₀.refCnt c + 1) } :=
      hsync₀.congr rfl rfl rfl
    obtain ⟨hs, hq, hn, href⟩ := ih hsync₁ hr
    refine ⟨hs, hq.trans hf.1, hn.trans hf.2.2, fun b => ?_⟩
    rw [href b]
    show update p₀.refCnt c (p₀.refCnt c + 1) b + _ = _
    rw [hf.2.1, count_cons]
    by_cases hbc : b = c
    · subst hbc
      simp
      omega
    · simp [update_of_ne hbc, Ne.symm hbc]

theorem getNewBlocks_consistent (h : Consistent p holders) {n : Int} (h0 : 0 ≤ n)
    {ret : List BlockId} (hg : p.getNewBlocks n = .ok (ret, p')) :
    Consistent p' fun b => holders b + ret.count b := by
  replace hg := of_ensure hg
  obtain ⟨⟨ids, queue⟩, hp, hg⟩ := of_bind hg
  obtain ⟨p₁, hl, hret⟩ := of_bind hg
  obtain ⟨rfl, rfl⟩ := pair_inj hret
  -- the queue is cut into the blocks handed out and the rest
  have hcut : p.queue.blocks = ids ++ queue.blocks ∧ queue.numFreeBlocks = queue.blocks.length := by
    have hsi := h.size
    unfold FreeKVCacheBlockQueue.popleftN at hp
    split at hp
    · obtain ⟨rfl, rfl⟩ := pair_inj hp
      exact ⟨rfl, h.size⟩
    · replace hp := of_ensure hp
      obtain ⟨hle, hp⟩ := ensure_bind_eq_ok.mp hp
      obtain ⟨rfl, rfl⟩ := pair_inj hp
      refine ⟨(take_append_drop _ _).symm, ?_⟩
      show p.queue.numFreeBlocks - n = ((p.queue.blocks.drop n.toNat).length : Int)
      rw [length_drop]
      omega
  have hsync₁ : HashSync { p with queue } := h.toHashSync.congr rfl rfl rfl
  obtain ⟨hs, hq, hn, href⟩ := takeBlocks_hashSync hsync₁ hl
  have hnd := h.nodup
  rw [hcut.1, nodup_append] at hnd
  obtain ⟨hi, hr, hd⟩ := hnd
  have hm : ∀ b, b ∈ ids ∨ b ∈ queue.blocks ↔ b ≠ 0 ∧ b < p.numGpuBlocks ∧ p.refCnt b = 0 := by
    intro b
    rw [← mem_append, ← hcut.1]
    exact h.queued b
  refine ⟨hs, ?_, ?_, fun b => ?_, fun b hb => ?_, fun b hb => ?_⟩
  · rw [hq]
    exact hr
  · rw [hq]
    exact hcut.2
  · rw [hq, hn, href b]
    show b ∈ queue.blocks ↔ b ≠ 0 ∧ b < p.numGpuBlocks ∧ p.refCnt b + _ = 0
    by_cases hb : b ∈ ids
    · have hc : 0 < ids.count b := count_pos_iff.mpr hb
      have hze := ((hm b).mp (.inl hb)).2.2
      constructor
      · exact fun hb' => absurd rfl (hd b hb b hb')
      · intro hz
        omega
    · rw [count_eq_zero.mpr hb, Nat.cast_zero, add_zero, ← hm b]
      simp [hb]
  · rw [href b]
    show p.refCnt b + _ = _
    rw [h.refs b hb]
    push_cast
    rfl
  · rw [hn]
    by_cases hb' : b ∈ ids
    · exact ((hm b).mp (.inl hb')).2.1
    · rw [count_eq_zero.mpr hb'] at hb
      exact h.held b hb

theorem touchBlock_consistent (h : Consistent p holders) (hb0 : b ≠ 0) (hb : b < p.numGpuBlocks)
    (ht : p.touchBlock b = .ok p') :
    Consistent p' (fun c => holders c + [b].count c) ∧ p'.blockHash = p.blockHash ∧
      p'.numGpuBlocks = p.numGpuBlocks := by
  have hco : ∀ c, ([b].count c : Int) = if c = b then 1 else 0 := by
    intro c
    by_cases hcb : c = b
    · simp [hcb]
    · simp [hcb, count_eq_zero.mpr (show c ∉ [b] by simpa using hcb)]
  have href : ∀ c, update p.refCnt b (p.refCnt b + 1) c = p.refCnt c + [b].count c := by
    intro c
    rw [hco]
    by_cases hcb : c = b <;> simp [hcb]
  have hr : ∀ c, c ≠ 0 → update p.refCnt b (p.refCnt b + 1) c
      = ((holders c + [b].count c : Nat) : Int) := by
    intro c hc
    rw [href, h.refs c hc]
    push_cast
    rfl
  have hh : ∀ c, 0 < holders c + [b].count c → c < p.numGpuBlocks := by
    intro c hc
    by_cases hcb : c = b
    · exact hcb ▸ hb
    · rw [count_eq_zero.mpr (show c ∉ [b] by simpa using hcb)] at hc
      exact h.held c hc
  unfold touchBlock at ht
  split at ht
  · rename_i hf
    obtain ⟨q, hq, rfl⟩ := bind_pure_eq_ok.mp ht
    obtain ⟨hm, rfl⟩ := ensure_bind_pure_eq_ok.mp hq
    refine ⟨⟨h.toHashSync.congr rfl rfl rfl, h.nodup.erase b, ?_, fun c => ?_, hr, hh⟩, rfl, rfl⟩
    · show p.queue.numFreeBlocks - 1 = ((p.queue.blocks.erase b).length : Int)
      have hp := length_pos_of_mem hm
      rw [h.size, length_erase_of_mem hm]
      omega
    · show c ∈ p.queue.blocks.erase b ↔ c ≠ 0 ∧ c < p.numGpuBlocks ∧
        update p.refCnt b (p.refCnt b + 1) c = 0
      rw [h.nodup.mem_erase_iff, h.queued, href, hco]
      by_cases hcb : c = b
      · subst hcb
        simp [hf.1]
      · simp [hcb]
  · rename_i hu
    obtain rfl := pure_eq_ok.mp ht
    refine ⟨⟨h.toHashSync.congr rfl rfl rfl, h.nodup, h.size, fun c => ?_, hr, hh⟩, rfl, rfl⟩
    show c ∈ p.queue.blocks ↔ c ≠ 0 ∧ c < p.numGpuBlocks ∧ update p.refCnt b (p.refCnt b + 1) c = 0
    rw [h.queued, href, hco]
    by_cases hcb : c = b
    · subst hcb
      have hne : p.refCnt c ≠ 0 := fun h0 => hu ⟨h0, hb0⟩
      have hn : 0 ≤ p.refCnt c := by rw [h.refs c hb0]; exact Int.natCast_nonneg _
      constructor
      · exact fun hz => absurd hz.2.2 hne
      · intro hz
        simp only [if_true] at hz
        omega
    · simp [hcb]

theorem touch_consistent (h : Consistent p holders) (hca : ∀ b ∈ blocks, p.blockHash b ≠ none)
    (ht : p.touch blocks = .ok p') : Consistent p' fun b => holders b + blocks.count b := by
  induction blocks generalizing p holders with
  | nil =>
    obtain rfl := pure_eq_ok.mp ht
    simpa using h
  | cons c blocks ih =>
    obtain ⟨hc, hca⟩ := forall_mem_cons.mp hca
    rw [touch, foldlM_cons] at ht
    obtain ⟨p₁, ho, hr⟩ := of_bind ht
    have hc0 : c ≠ 0 := fun h0 => hc (h0 ▸ h.null)
    obtain ⟨h₁, hh, -⟩ := touchBlock_consistent h hc0 (h.range c hc) ho
    have ha := ih h₁ (fun b hb => by rw [hh]; exact hca b hb) hr
    have hco : (fun b => holders b + [c].count b + blocks.count b) = fun b =>
        holders b + (c :: blocks).count b := by
      funext b
      rw [add_assoc, ← count_append, singleton_append]
    exact hco ▸ ha

/-- No block loses its last two or more references in one call. -/
def Sparing (p : BlockPool) (blocks : List BlockId) : Prop :=
  ∀ b ∈ blocks, b ≠ 0 → 2 ≤ blocks.count b → (blocks.count b : Int) ≠ p.refCnt b

theorem freeBlocks_consistent (h : Consistent p holders)
    (hh : ∀ b ∈ blocks, b ≠ 0 → blocks.count b ≤ holders b) (hs : Sparing p blocks) :
    Consistent (p.freeBlocks blocks) fun b => holders b - blocks.count b := by
  let freed := blocks.filter fun b => p.refCnt b - blocks.count b = 0 ∧ b ≠ 0
  have hf : ∀ b, b ∈ freed ↔ b ∈ blocks ∧ b ≠ 0 ∧ p.refCnt b = blocks.count b := by
    intro b
    simp only [freed, mem_filter, decide_eq_true_eq]
    constructor
    · intro ⟨hb, hz, hb0⟩
      exact ⟨hb, hb0, by omega⟩
    · intro ⟨hb, hb0, hz⟩
      exact ⟨hb, by omega, hb0⟩
  have ho : ∀ b ∈ freed, blocks.count b ≤ 1 := by
    intro b hb
    obtain ⟨hm, hb0, heq⟩ := (hf b).mp hb
    by_contra hge
    exact hs b hm hb0 (by omega) heq.symm
  have hn : ∀ b ∈ p.queue.blocks, b ∉ freed := by
    intro b hb hb'
    obtain ⟨hm, -, heq⟩ := (hf b).mp hb'
    have hp := count_pos_iff.mpr hm
    have hze := ((h.queued b).mp hb).2.2
    omega
  refine ⟨h.toHashSync.congr rfl rfl rfl, ?_, ?_, fun b => ?_, fun b hb => ?_, fun b hb => ?_⟩
  · refine nodup_append.mpr ⟨h.nodup, ?_, fun a ha b hb hab => hn a ha (hab ▸ hb)⟩
    refine nodup_iff_count_le_one.mpr fun b => ?_
    by_cases hb : b ∈ freed
    · exact (filter_sublist.count_le b).trans (ho b hb)
    · rw [count_eq_zero.mpr hb]
      exact Nat.zero_le _
  · show p.queue.numFreeBlocks + freed.length = ((p.queue.blocks ++ freed).length : Int)
    rw [h.size, length_append]
    push_cast
    rfl
  · show b ∈ p.queue.blocks ++ freed ↔ b ≠ 0 ∧ b < p.numGpuBlocks ∧ p.refCnt b - blocks.count b = 0
    rw [mem_append, h.queued, hf]
    constructor
    · rintro (⟨hb0, hb, hz⟩ | ⟨hm, hb0, heq⟩)
      · have hc : blocks.count b = 0 := by
          by_contra hne
          have hm := count_pos_iff.mp (Nat.pos_of_ne_zero hne)
          have hle := hh b hm hb0
          have hr := h.refs b hb0
          omega
        exact ⟨hb0, hb, by omega⟩
      · have hp := count_pos_iff.mpr hm
        have hle := hh b hm hb0
        exact ⟨hb0, h.held b (by omega), by omega⟩
    · intro ⟨hb0, hb, hz⟩
      by_cases hm : b ∈ blocks
      · exact .inr ⟨hm, hb0, by omega⟩
      · rw [count_eq_zero.mpr hm] at hz
        exact .inl ⟨hb0, hb, by omega⟩
  · show p.refCnt b - blocks.count b = ((holders b - blocks.count b : Nat) : Int)
    have hr := h.refs b hb
    by_cases hm : b ∈ blocks
    · have hle := hh b hm hb
      omega
    · rw [count_eq_zero.mpr hm]
      omega
  · exact h.held b (by omega)

theorem cacheBlock_hashSync (h : HashSync p) {fa gr i : Nat} (hb : b ≠ 0 → b < p.numGpuBlocks)
    (hca : p.cacheBlock hashes fa gr i b = .ok p') :
    HashSync p' ∧ p'.queue = p.queue ∧ p'.refCnt = p.refCnt ∧ p'.numGpuBlocks = p.numGpuBlocks := by
  unfold cacheBlock at hca
  split at hca
  · obtain rfl := Except.ok.inj hca
    exact ⟨h, rfl, rfl, rfl⟩
  · rename_i hb0
    obtain ⟨hn, hca⟩ := ensure_bind_eq_ok.mp hca
    split at hca
    · cases hca
    · rename_i hash _
      obtain rfl := pure_eq_ok.mp hca
      have hnot : ∀ key, b ∉ p.cached key := by
        intro key hm
        rw [h.hash, hn] at hm
        cases hm
      refine ⟨⟨fun key c => ?_, fun key => ?_, ?_, fun c hc => ?_⟩, rfl, rfl, rfl⟩
      · simp only [if_neg (hnot _)]
        by_cases hk : key = ⟨hash, gr⟩ <;> by_cases hcb : c = b
        · simp [hk, hcb]
        · simp [hk, hcb, h.hash]
        · subst hcb
          simp [hk, hnot, Ne.symm hk]
        · simp [hk, hcb, h.hash]
      · simp only [if_neg (hnot _)]
        by_cases hk : key = ⟨hash, gr⟩
        · rw [hk, update_self]
          refine nodup_append.mpr ⟨h.keys _, nodup_singleton b, fun c hc d hd hcd => ?_⟩
          exact hnot _ (mem_singleton.mp hd ▸ hcd ▸ hc)
        · rw [update_of_ne hk]
          exact h.keys key
      · exact (update_of_ne (Ne.symm hb0) _ _).trans h.null
      · by_cases hcb : c = b
        · exact hcb ▸ hb hb0
        · exact h.range c fun hn' => hc ((update_of_ne hcb _ _).trans hn')

theorem cacheFullBlocks_consistent (h : Consistent p holders) {ncb nfb bz gr : Nat}
    (hh : ∀ b ∈ (blocks.take nfb).drop ncb, b ≠ 0 → 0 < holders b)
    (hca : p.cacheFullBlocks hashes blocks ncb nfb bz gr = .ok p') :
    Consistent p' holders := by
  have hl : ∀ (blocks : List BlockId) (p p' : BlockPool) (i fa : Nat), Consistent p holders →
      (∀ b ∈ blocks, b ≠ 0 → 0 < holders b) →
      cacheBlocksFrom hashes fa gr p i blocks = .ok p' → Consistent p' holders := by
    intro blocks
    induction blocks with
    | nil =>
      intro p p' i fa h _ hrun
      obtain rfl := Except.ok.inj hrun
      exact h
    | cons c blocks ih =>
      intro p p' i fa h hh hrun
      obtain ⟨hc, hh⟩ := forall_mem_cons.mp hh
      obtain ⟨p₁, ho, hr⟩ := of_bind hrun
      obtain ⟨hs, hq, href, hn⟩ :=
        cacheBlock_hashSync h.toHashSync (fun hc0 => h.held c (hc hc0)) ho
      exact ih p₁ p' (i + 1) fa (h.of_hashSync hs hq href hn) hh hr
  unfold cacheFullBlocks at hca
  split at hca
  · obtain rfl := Except.ok.inj hca
    exact h
  · replace hca := of_ensure (of_ensure hca)
    exact hl _ p p' _ _ h hh hca

theorem evictBlocks_consistent (h : Consistent p holders) {bi : List Int}
    (he : p.evictBlocks bi = .ok p') : Consistent p' holders := by
  induction bi generalizing p with
  | nil =>
    obtain rfl := pure_eq_ok.mp he
    exact h
  | cons blockId bi ih =>
    rw [evictBlocks, foldlM_cons] at he
    obtain ⟨p₁, ho, hr⟩ := of_bind he
    replace ho := of_ensure ho
    obtain ⟨-, rfl⟩ := ensure_bind_pure_eq_ok.mp ho
    obtain ⟨hq, href, hn⟩ := maybeEvictCachedBlock_frame p
      (if blockId < 0 then blockId + p.numGpuBlocks else blockId).toNat
    exact ih (h.of_hashSync (h.toHashSync.maybeEvictCachedBlock _) hq href hn) hr

theorem resetPrefixCache_consistent (h : Consistent p holders) :
    Consistent p.resetPrefixCache.2 holders := by
  unfold resetPrefixCache
  split
  · exact h
  · exact h.of_hashSync ⟨by simp, by simp, rfl, fun b hb => absurd rfl hb⟩ rfl rfl rfl

end Calls

/-! ## 2. Runs of the linked pool -/

inductive PoolCall where
  | getNewBlocks (numBlocks : Int)
  | touch (blocks : List BlockId)
  | freeBlocks (blocks : List BlockId)
  | cacheFullBlocks (hashes : List BlockHash) (blocks : List BlockId)
      (numCachedBlocks numFullBlocks blockSize group : Nat)
  | evictBlocks (blockIds : List Int)
  | resetPrefixCache

variable (p : LinkedPool)

def PoolCall.exec (holders : BlockId → Nat) :
    PoolCall → Except CoreError (LinkedPool × (BlockId → Nat))
  | .getNewBlocks n => do
    let (ret, p) ← p.getNewBlocks n
    return (p, fun b => holders b + ret.count b)
  | .touch blocks => do return (← p.touch blocks, fun b => holders b + blocks.count b)
  | .freeBlocks blocks => do return (← p.freeBlocks blocks, fun b => holders b - blocks.count b)
  | .cacheFullBlocks hashes blocks numCachedBlocks numFullBlocks blockSize group => do
    return (← p.cacheFullBlocks hashes blocks numCachedBlocks numFullBlocks blockSize
      group, holders)
  | .evictBlocks blockIds => do return (← p.evictBlocks blockIds, holders)
  | .resetPrefixCache => .ok (p.resetPrefixCache.2, holders)

/-- Callers touch cached blocks, free references they hold and cache blocks they hold. -/
def PoolCall.Allowed (holders : BlockId → Nat) : PoolCall → Prop
  | .touch blocks => ∀ b ∈ blocks, p.blockHash b ≠ none
  | .freeBlocks blocks => ∀ b ∈ blocks, b ≠ 0 → blocks.count b ≤ holders b
  | .cacheFullBlocks _ blocks numCachedBlocks numFullBlocks _ _ =>
    ∀ b ∈ (blocks.take numFullBlocks).drop numCachedBlocks, b ≠ 0 → 0 < holders b
  | _ => True

/-- No negative number of blocks is asked for, and no call frees all of two or more references to a
    block. -/
def PoolCall.Careful : PoolCall → Prop
  | .getNewBlocks n => 0 ≤ n
  | .freeBlocks blocks =>
    ∀ b ∈ blocks, b ≠ 0 → 2 ≤ blocks.count b → (blocks.count b : Int) ≠ p.refCnt b
  | _ => True

/-- The states that runs of allowed calls reach from a new pool, when every call also meets a
    condition. -/
inductive Reached (meets : LinkedPool → PoolCall → Prop) (numGpuBlocks : Nat) (enableCaching : Bool)
    (hashBlockSize : Nat) : LinkedPool → (BlockId → Nat) → Prop
  | init {p : LinkedPool} (h : LinkedPool.init numGpuBlocks enableCaching hashBlockSize = some p) :
      Reached meets numGpuBlocks enableCaching hashBlockSize p fun _ => 0
  | step {p p' : LinkedPool} {holders holders' : BlockId → Nat} (c : PoolCall)
      (h : Reached meets numGpuBlocks enableCaching hashBlockSize p holders)
      (hallowed : c.Allowed p holders) (hmeets : meets p c)
      (hexec : c.exec p holders = .ok (p', holders')) :
      Reached meets numGpuBlocks enableCaching hashBlockSize p' holders'

/-- The pool is what its callers rely on. -/
structure PoolState (p : LinkedPool) (holders : BlockId → Nat) : Prop where
  /-- the queue holds each free block once and no other, and counts them -/
  queue : ∃ free : List BlockId, p.queue.getAllFreeBlocks (p.numGpuBlocks + 1) = some
    (free.map .item) ∧ free.Nodup ∧ (∀ b, b ∈ free ↔ b ≠ 0 ∧ b < p.numGpuBlocks ∧ p.refCnt b = 0) ∧
    p.queue.numFreeBlocks = free.length
  /-- a reference count is the number of holders -/
  refs : ∀ b, b ≠ 0 → p.refCnt b = holders b
  /-- a block is in the map under its own hash -/
  hash : ∀ b key, b ∈ p.cache.blocks key ↔ p.blockHash b = some key
  /-- a lookup finds a block with the hash for each group, or misses where there is none -/
  lookup : ∀ hash groups,
    (∀ bs, p.getCachedBlock hash groups = some bs →
      Forall₂ (fun g b => p.blockHash b = some ⟨hash, g⟩) groups bs) ∧
    (p.getCachedBlock hash groups = none ↔ ∃ g ∈ groups, ∀ b, p.blockHash b ≠ some ⟨hash, g⟩)

section Runs

variable {p p' : LinkedPool} {holders holders' : BlockId → Nat} {ngb hashBlockSize : Nat}
  {ec : Bool}

def Sound (p : LinkedPool) (holders : BlockId → Nat) : Prop :=
  ∃ free, Linked.Represents p.queue.links free ∧ Consistent (p.abs free) holders

theorem Sound.init (h : LinkedPool.init ngb ec hashBlockSize = some p) : Sound p fun _ => 0 := by
  obtain ⟨⟨first, q⟩, hp, rfl⟩ := map_eq_some_iff.mp h
  cases ngb with
  | zero => simp [LinkedBlockQueue.popleft, LinkedBlockQueue.init] at hp
  | succ n =>
    have hr := init_represents (n + 1)
    rw [range_eq_range', range'_succ] at hr
    obtain ⟨ls, hp', hf⟩ := popleft_spec hr
    obtain ⟨-, rfl⟩ := Prod.mk.inj (Option.some.inj (hp.symm.trans hp'))
    refine ⟨range' 1 n, hf, ⟨by simp [LinkedPool.abs, BlockHashToBlockMap.blocks], ?_, rfl,
      fun b hb => absurd rfl hb⟩, nodup_range', ?_, fun b => ?_, fun b _ => rfl, by simp⟩
    · simp [LinkedPool.abs, BlockHashToBlockMap.blocks]
    · simp [LinkedPool.abs, LinkedBlockQueue.init]
    · rw [LinkedPool.abs, mem_range'_1, Nat.one_le_iff_ne_zero, Nat.add_comm 1 n]
      exact and_congr_right fun _ => (and_iff_left rfl).symm

theorem Sound.step (h : Sound p holders) {c : PoolCall} (ha : c.Allowed p holders)
    (hca : c.Careful p) (he : c.exec p holders = .ok (p', holders')) : Sound p' holders' := by
  obtain ⟨free, hrep, hc⟩ := h
  cases c with
  | getNewBlocks n =>
    obtain ⟨⟨ret, p₁⟩, hg, he⟩ := of_bind he
    obtain ⟨rfl, rfl⟩ := pair_inj he
    obtain ⟨-, hrep', habs⟩ := getNewBlocks_abs hrep hc.size hca hg
    exact ⟨_, hrep', getNewBlocks_consistent hc hca habs⟩
  | touch bl =>
    obtain ⟨p₁, ht, he⟩ := of_bind he
    obtain ⟨rfl, rfl⟩ := pair_inj he
    obtain ⟨free', hrep', habs⟩ := touch_abs hrep ht
    exact ⟨free', hrep', touch_consistent hc ha habs⟩
  | freeBlocks bl =>
    obtain ⟨p₁, hf, he⟩ := of_bind he
    obtain ⟨rfl, rfl⟩ := pair_inj he
    have hc' := freeBlocks_consistent hc ha hca
    obtain ⟨hrep', habs⟩ := freeBlocks_abs hrep hc'.nodup hf
    exact ⟨_, hrep', habs ▸ hc'⟩
  | cacheFullBlocks hashes bl ncb nfb blockSize group =>
    obtain ⟨p₁, hcc, he⟩ := of_bind he
    obtain ⟨rfl, rfl⟩ := pair_inj he
    obtain ⟨habs, hq⟩ := cacheFullBlocks_abs free hcc
    exact ⟨free, hq ▸ hrep, cacheFullBlocks_consistent hc ha habs⟩
  | evictBlocks bi =>
    obtain ⟨p₁, hev, he⟩ := of_bind he
    obtain ⟨rfl, rfl⟩ := pair_inj he
    obtain ⟨habs, hq⟩ := evictBlocks_abs free hev
    exact ⟨free, hq ▸ hrep, evictBlocks_consistent hc habs⟩
  | resetPrefixCache =>
    obtain ⟨rfl, rfl⟩ := pair_inj he
    obtain ⟨habs, hq⟩ := resetPrefixCache_abs (p := p) free
    refine ⟨free, hq ▸ hrep, ?_⟩
    have hr := resetPrefixCache_consistent hc
    rwa [habs] at hr

theorem Sound.poolState (h : Sound p holders) : PoolState p holders := by
  obtain ⟨free, hr, hc⟩ := h
  have ho : ∀ hash g, p.cache.getOneBlock ⟨hash, g⟩ = none ↔
      ∀ b, p.blockHash b ≠ some ⟨hash, g⟩ := by
    intro hash g
    rw [getOneBlock_eq, head?_eq_none_iff, eq_nil_iff_forall_not_mem]
    exact forall_congr' fun b => not_congr (hc.hash ⟨hash, g⟩ b)
  refine ⟨⟨free, ?_, hc.nodup, hc.queued, hc.size⟩, hc.refs,
    fun b key => hc.hash key b, fun hash gs => ⟨fun bs hbs => ?_, ?_⟩⟩
  · refine getAllFreeBlocks_eq hr (Nat.lt_succ_of_le ?_)
    have hs : free ⊆ range p.numGpuBlocks := fun b hb =>
      mem_range.mpr ((hc.queued b).mp hb).2.1
    have hn : free.Nodup := hc.nodup
    simpa using (subperm_of_subset hn hs).length_le
  · refine (mapM_eq_some.mp hbs).imp fun g b hb => ?_
    rw [getOneBlock_eq] at hb
    exact (hc.hash ⟨hash, g⟩ b).mp (mem_of_mem_head? hb)
  · rw [LinkedPool.getCachedBlock, mapM_eq_none]
    exact exists_congr fun g => and_congr_right fun _ => ho hash g

/-- **The pool is consistent in every state of every run** whose calls free what is held and meet
    the condition. -/
theorem pool_consistent (h : Reached PoolCall.Careful ngb ec hashBlockSize p holders) :
    PoolState p holders := by
  suffices hs : Sound p holders from hs.poolState
  induction h with
  | init h => exact .init h
  | step c _ ha hc he ih => exact ih.step ha hc he

end Runs

/-! ## 3. Runs that are evaluated -/

instance (p : LinkedPool) (holders : BlockId → Nat) (c : PoolCall) :
    Decidable (c.Allowed p holders) := by
  cases c <;> unfold PoolCall.Allowed <;> infer_instance

instance (p : LinkedPool) (c : PoolCall) : Decidable (c.Careful p) := by
  cases c <;> unfold PoolCall.Careful <;> infer_instance

def follow (meets : LinkedPool → PoolCall → Prop) [∀ p c, Decidable (meets p c)] (p : LinkedPool)
    (holders : BlockId → Nat) : List PoolCall → Option (LinkedPool × (BlockId → Nat))
  | [] => some (p, holders)
  | c :: calls =>
    if c.Allowed p holders ∧ meets p c then
      match c.exec p holders with
      | .ok (p, holders) => follow meets p holders calls
      | .error _ => none
    else none

theorem Reached.follow {ms : LinkedPool → PoolCall → Prop} [∀ p c, Decidable (ms p c)]
    {ns has : Nat} {e : Bool} {p : LinkedPool}
    {hol : BlockId → Nat} (h : Reached ms ns e has p hol)
    {cs : List PoolCall} {s : LinkedPool × (BlockId → Nat)}
    (hr : Core.follow ms p hol cs = some s) :
    Reached ms ns e has s.1 s.2 := by
  induction cs generalizing p hol with
  | nil =>
    obtain rfl := Option.some.inj hr
    exact h
  | cons c cs ih =>
    rw [Core.follow] at hr
    split at hr
    · rename_i hg
      split at hr
      · rename_i p' holders' he
        exact ih (.step c h hg.1 hg.2 he) hr
      · cases hr
    · cases hr

def smallPool : LinkedPool := (LinkedPool.init 3 true 4).get (by decide)

/-- A block is taken and cached, a second holder finds it, and both give it back. -/
def shareCalls : List PoolCall :=
  [.getNewBlocks 1, .cacheFullBlocks [7] [1] 0 1 4 0, .touch [1], .freeBlocks [1], .freeBlocks [1]]

def shared : LinkedPool × (BlockId → Nat) :=
  (follow PoolCall.Careful smallPool (fun _ => 0) shareCalls).get (by decide)

theorem shared_consistent : PoolState shared.1 shared.2 ∧
    shared.1.getCachedBlock [7] [0] = some [1] ∧ shared.1.getNumFreeBlocks = 2 := by
  have hr : Reached PoolCall.Careful 3 true 4 shared.1 shared.2 :=
    Reached.follow (.init (some_get _).symm) (some_get _).symm
  exact ⟨pool_consistent hr, by decide, by decide⟩

def freeBothCalls : List PoolCall :=
  [.getNewBlocks 1, .cacheFullBlocks [7] [1] 0 1 4 0, .touch [1], .freeBlocks [1, 1]]

def freedBoth : LinkedPool × (BlockId → Nat) :=
  (follow (fun _ _ => True) smallPool (fun _ => 0) freeBothCalls).get (by decide)

/-- The block is linked into the queue once and counted twice. -/
theorem freedTwice_outOfSync : Reached (fun _ _ => True) 3 true 4 freedBoth.1 freedBoth.2 ∧
    freedBoth.1.queue.getAllFreeBlocks 4 = some [.item 2, .item 1] ∧
    freedBoth.1.queue.numFreeBlocks = 3 ∧ ¬PoolState freedBoth.1 freedBoth.2 := by
  have hw : freedBoth.1.queue.getAllFreeBlocks 4 = some [.item 2, .item 1] := by decide
  have hc : freedBoth.1.queue.numFreeBlocks = 3 := by decide
  refine ⟨Reached.follow (.init (some_get _).symm) (some_get _).symm, hw, hc,
    fun hs => ?_⟩
  obtain ⟨free, hf, -, -, hlen⟩ := hs.queue
  have ht : [Linked.Node.item 2, .item 1] = free.map .item :=
    Option.some.inj (hw.symm.trans hf)
  have hl := congrArg List.length ht
  rw [hc] at hlen
  simp only [length_map, length_cons, length_nil] at hl
  omega

end VllmDual.Core
