/-
  Subject:   RUNS OF THE KV CACHE MANAGER OVER ANY OF THE THREE POOL MODES.

  Whatever pools a group has, its manager relies on two things: a block it gets is not the null
  block, and the number of blocks to a bundle never changes. Every call of a pool keeps both; and
  all a manager or a loop over the managers does to the pools is to call them.
-/
import VllmDual.Core.Ownership

namespace VllmDual.Core

open Outcome Ceil Dsa DSASharedBundleAllocator BlockPool List Function FreeKVCacheBlockQueue Except

/-! ## 1. Live pools -/

structure BlockPool.Live (p : BlockPool) : Prop where
  queue : 0 ∉ p.queue.blocks
  cached : ∀ key, 0 ∉ p.cached key

section Pool

variable {p p' : BlockPool} {ids blocks : List BlockId} {n : Int}

theorem BlockPool.Live.start {n k : Nat} (c : Config) : (start n k c).Live := by
  refine ⟨fun h0 => ?_, fun key => not_mem_nil⟩
  have hm : 0 ∈ range' 1 (n - 1) := mem_of_mem_drop h0
  simp at hm

theorem takeBlock_frame {b : BlockId} (h : p.takeBlock b = .ok p') :
    p'.queue = p.queue ∧ ∀ key, (p'.cached key).Sublist (p.cached key) := by
  obtain ⟨-, rfl⟩ := ensure_bind_pure_eq_ok.mp h
  by_cases hc : p.enableCaching = true
  · simp only [hc, if_true]
    unfold maybeEvictCachedBlock
    split
    · exact ⟨rfl, fun _ => Sublist.refl _⟩
    · rename_i key _
      split
      · refine ⟨rfl, fun key' => ?_⟩
        by_cases hk : key' = key
        · subst hk
          simpa using erase_sublist
        · simp [update_of_ne hk]
      · exact ⟨rfl, fun _ => Sublist.refl _⟩
  · simp [hc]

theorem takeBlocks_frame (h : ids.foldlM takeBlock p = .ok p') :
    p'.queue = p.queue ∧ ∀ key, (p'.cached key).Sublist (p.cached key) := by
  induction ids generalizing p with
  | nil =>
    obtain rfl := pure_eq_ok.mp h
    exact ⟨rfl, fun _ => Sublist.refl _⟩
  | cons b ids ih =>
    rw [foldlM_cons] at h
    obtain ⟨p₁, ho, hr⟩ := of_bind h
    obtain ⟨hq, hc⟩ := takeBlock_frame ho
    obtain ⟨hq', hc'⟩ := ih hr
    exact ⟨hq'.trans hq, fun key => (hc' key).trans (hc key)⟩

theorem BlockPool.getNewBlocks_front (h : p.getNewBlocks n = .ok (ids, p')) :
    ids = p.queue.blocks.take n.toNat ∧ ids.length = n.toNat ∧
    p'.queue.blocks = p.queue.blocks.drop n.toNat ∧
      ∀ key, (p'.cached key).Sublist (p.cached key) := by
  replace h := of_ensure h
  obtain ⟨⟨ret, q⟩, hp, h⟩ := of_bind h
  obtain ⟨p₁, ht, h⟩ := of_bind h
  obtain ⟨rfl, rfl⟩ := pair_inj h
  obtain ⟨hq, hc⟩ := takeBlocks_frame ht
  unfold popleftN at hp
  split at hp
  · rename_i h0
    obtain ⟨rfl, rfl⟩ := pair_inj hp
    subst h0
    exact ⟨rfl, rfl, congrArg blocks hq, hc⟩
  · replace hp := of_ensure hp
    obtain ⟨hl, hp⟩ := ensure_bind_eq_ok.mp hp
    obtain ⟨rfl, rfl⟩ := pair_inj hp
    refine ⟨rfl, ?_, congrArg blocks hq, hc⟩
    rw [length_take]
    omega

theorem BlockPool.Live.getNewBlocks (h : p.Live) (hg : p.getNewBlocks n = .ok (ids, p')) :
    p'.Live ∧ ∀ b ∈ ids, b ≠ 0 := by
  obtain ⟨hi, -, hq, hc⟩ := getNewBlocks_front hg
  refine ⟨⟨fun h0 => h.queue ?_, fun key h0 => h.cached key ((hc key).subset h0)⟩,
    fun b hb hb0 => ?_⟩
  · exact mem_of_mem_drop (hq ▸ h0)
  · subst hb0
    exact h.queue (mem_of_mem_take (hi ▸ hb))

theorem BlockPool.Live.touch (h : p.Live) (ht : p.touch blocks = .ok p') : p'.Live := by
  unfold BlockPool.touch at ht
  induction blocks generalizing p with
  | nil => exact pure_eq_ok.mp ht ▸ h
  | cons b blocks ih =>
    rw [foldlM_cons] at ht
    obtain ⟨p₁, ho, hr⟩ := of_bind ht
    refine ih ?_ hr
    unfold touchBlock at ho
    split at ho
    · obtain ⟨q, hq, ho⟩ := of_bind ho
      obtain ⟨-, rfl⟩ := ensure_bind_pure_eq_ok.mp hq
      obtain rfl := pure_eq_ok.mp ho
      exact ⟨fun h0 => h.queue (mem_of_mem_erase h0), h.cached⟩
    · obtain rfl := pure_eq_ok.mp ho
      exact ⟨h.queue, h.cached⟩

theorem BlockPool.Live.freeBlocks (h : p.Live) (blocks : List BlockId) :
    (p.freeBlocks blocks).Live := by
  refine ⟨fun h0 => ?_, h.cached⟩
  rcases mem_append.mp h0 with h0 | h0
  · exact h.queue h0
  · simpa using (mem_filter.mp h0).2

theorem BlockPool.Live.cacheBlocksFrom (h : p.Live) {bh : List BlockHash} {fa gr i : Nat}
    (hc : cacheBlocksFrom bh fa gr p i blocks = .ok p') : p'.Live := by
  induction blocks generalizing p i with
  | nil => exact ok.inj hc ▸ h
  | cons b blocks ih =>
    obtain ⟨p₁, ho, hr⟩ := of_bind hc
    refine ih ?_ hr
    unfold cacheBlock at ho
    split at ho
    · exact ok.inj ho ▸ h
    · rename_i hb
      replace ho := of_ensure ho
      split at ho
      · cases ho
      · rename_i hash _
        obtain rfl := pure_eq_ok.mp ho
        refine ⟨h.queue, fun key => ?_⟩
        by_cases hk : key = ⟨hash, gr⟩
        · subst hk
          simp only [update_self]
          split
          · exact h.cached _
          · simp [h.cached, Ne.symm hb]
        · simpa [update_of_ne hk] using h.cached key

end Pool

section Shared

variable {s s' : SharedPools} {ow : DSASharedBlockOwner} {lo : DSASharedBlockLayout} {n : Int}

theorem allocate_le {a a' : DSASharedBundleAllocator} {ch : List Nat}
    (h : a.allocate ow n = .ok (ch, a')) : n ≤ a.freeBundleCount := by
  unfold allocate at h
  split at h
  · omega
  · split at h
    · cases h
    · omega

theorem shared_getNewBlocks (h : DSASharedBundleAllocator.AllocatorInv s.allocator) {ids : List Nat}
    (hg : s.getNewBlocks ow n = .ok (ids, s')) :
    DSASharedBundleAllocator.AllocatorInv s'.allocator ∧ s'.allocator.layout = s.allocator.layout ∧
    (∀ b ∈ ids, b ≠ 0) ∧
      ids.length = (roundUp n (s.allocator.layout.blocksPerBundle ow)).toNat := by
  unfold SharedPools.getNewBlocks at hg
  split at hg
  · cases hg
  · split at hg
    · cases hg
    · rename_i bi al hr
      obtain ⟨ids', hi, hg⟩ := of_bind hg
      obtain ⟨rc, -, hg⟩ := of_bind hg
      obtain ⟨rfl, rfl⟩ := pair_inj hg
      obtain ⟨ch, a', hr', hinv, hl, hlen, -, hf, -⟩ :=
        allocate_spec h ow (allocate_le hr)
      obtain ⟨rfl, rfl⟩ := pair_inj (hr.symm.trans hr')
      have hv : ∀ b ∈ bi, 1 ≤ b ∧ b ≤ al.layout.capacityBundles := fun b hb =>
        hl ▸ (h.bundles b).mpr (.inl (hf b hb))
      rw [blockIdsOf_ok hv] at hi
      obtain rfl := ok.inj hi
      refine ⟨hinv, hl, fun id hid => ?_, ?_⟩
      · obtain ⟨b, hb, hidb⟩ := mem_flatMap.mp hid
        exact al.layout.ne_zero_of_mem (hv b hb).1 (Nat.lt_succ_of_le (hv b hb).2) hidb
      · have hp := Int.natCast_pos.mpr (s.allocator.layout.blocksPerBundle_pos ow)
        have hc : s.allocator.bundleCountForBlocks ow n
            = cdiv n (s.allocator.layout.blocksPerBundle ow) := (cdiv_eq_ediv hp).symm
        simp only [length_flatMap, DSASharedBlockLayout.length_slotBlockIds, map_const',
          sum_replicate, smul_eq_mul]
        rw [hlen, hc, hl, roundUp, toNat_mul_natCast]

theorem shared_freeBlocks (h : DSASharedBundleAllocator.AllocatorInv s.allocator) {o : SetOrder}
    {blocks : List Nat} (hf : s.freeBlocks ow o blocks = .ok s') :
    DSASharedBundleAllocator.AllocatorInv s'.allocator ∧
      s'.allocator.layout = s.allocator.layout := by
  unfold SharedPools.freeBlocks at hf
  dsimp only at hf
  split at hf
  · obtain rfl := ok.inj hf
    exact ⟨h, rfl⟩
  · obtain ⟨⟨rc, af⟩, -, hf⟩ := of_bind hf
    obtain ⟨bi, -, hf⟩ := of_bind hf
    split at hf
    · cases hf
    · rename_i al hr
      obtain rfl := ok.inj hf
      have hg := hr
      unfold free at hr
      split at hr
      · cases hr
      · rename_i hnd
        split at hr
        · cases hr
        · rename_i hn
          obtain ⟨a', hr', hi, hl, -⟩ := free_spec h (not_not.mp hnd)
            fun b hb => by simpa using find?_eq_none.mp hn b hb
          obtain rfl := ok.inj (hg.symm.trans hr')
          exact ⟨hi, hl⟩

theorem reachable_layout (h : PoolReachable lo s) : s.allocator.layout = lo := by
  induction h with
  | start => rfl
  | step s s' hr hs ih =>
    have hi := (poolInv_reachable hr).allocator
    cases hs with
    | get _ ow n ids hg => exact (shared_getNewBlocks hi hg).2.1.trans ih
    | refused => exact ih
    | free _ ow o bl hh hf => exact (shared_freeBlocks hi hf).2.trans ih

/-- **The pools are what is in use.** Two runs over one layout that end with the same reference
    counts end in the same state: how the runs got there leaves no trace. -/
theorem sharedPools_determined (layout : DSASharedBlockLayout) (s s' : SharedPools)
    (h : PoolReachable layout s) (h' : PoolReachable layout s') (hr : s.refCnt = s'.refCnt) :
    s = s' := by
  have ho := (poolInv_reachable h).ownership
  have ho' := (poolInv_reachable h').ownership
  have hl := reachable_layout h
  obtain rfl := reachable_layout h'
  have how : s.allocator.owners = s'.allocator.owners :=
    Finmap.ext_lookup fun b => Option.ext fun o => by rw [ho.owned, ho'.owned, hl, hr]
  have hf : s.allocator.freeRanges = s'.allocator.freeRanges := by
    refine ho.ranges.ext ho'.ranges fun b => ?_
    have hp := ho.partition b
    rw [hl, how, ho'.partition b, xor_def, xor_def] at hp
    tauto
  obtain ⟨⟨_, _, _⟩, _⟩ := s
  obtain ⟨⟨_, _, _⟩, _⟩ := s'
  simp_all

/-- Two latent blocks taken and given back: the pools are as at the start. -/
theorem sharedPools_determined_latent :
    ∃ s, (SharedPools.init testLayout).getNewBlocks .latent 2 = .ok ([2, 3], s) ∧
      ∀ order, s.freeBlocks .latent order [2, 3] = .ok (SharedPools.init testLayout) := by
  obtain ⟨s, hg, hc⟩ : ∃ s, (SharedPools.init testLayout).getNewBlocks .latent 2 = .ok ([2, 3], s) ∧
      s.refCnt = update (fun _ _ => 0) .latent (update (update (fun _ => 0) 2 1) 3 1) :=
        ⟨_, rfl, rfl⟩
  refine ⟨s, hg, fun order => ?_⟩
  have hs := PoolReachable.step _ s .start (.get _ s .latent 2 _ hg)
  have hh : ∀ id, s.refCnt .latent id = ([2, 3].filter (· ≠ 0)).count id := fun id => by
    simp [hc, update_apply, count_cons]
    grind
  have hld : Holds s .latent [2, 3] := fun id => (hh id).ge
  obtain ⟨s', hf, -, hr⟩ := Dsa.freeBlocks_spec (poolInv_reachable hs) order hld
  rw [hf, sharedPools_determined testLayout s' _
    (.step _ _ hs (.free _ _ .latent order _ hld hf)) .start]
  simp only [hr, hh, Nat.sub_self, hc, update_idem]
  exact update_eq_self _ _

end Shared

def Pools.Live : Pools → Prop
  | .one p => p.Live
  | .perGroup ps => ∀ g, (ps g).Live
  | .shared _ _ s => DSASharedBundleAllocator.AllocatorInv s.allocator

def Pools.Later (pools pools' : Pools) : Prop :=
  pools.Live → pools'.Live ∧ ∀ g, pools'.blocksPerBundle g = pools.blocksPerBundle g

namespace Pools

variable {po po' pools₁ : Pools} {g : Nat} {blocks : List BlockId} {bh : List BlockHash}

theorem blocksPerBundle_pos (po : Pools) (g : Nat) : 0 < po.blocksPerBundle g := by
  cases po with
  | shared o _ s => exact s.allocator.layout.blocksPerBundle_pos (o g)
  | one _ => exact Nat.one_pos
  | perGroup _ => exact Nat.one_pos

theorem Later.refl : Later po po := fun hl => ⟨hl, fun _ => rfl⟩

theorem Later.trans (h : Later po pools₁) (h' : Later pools₁ po') : Later po po' := by
  intro hl
  obtain ⟨hv₁, hb⟩ := h hl
  obtain ⟨hl', hb'⟩ := h' hv₁
  exact ⟨hl', fun g => (hb' g).trans (hb g)⟩

theorem update_live {ps : Nat → BlockPool} {p' : BlockPool} (h : (perGroup ps).Live)
    (hp' : p'.Live) : (perGroup (update ps g p')).Live := by
  intro g'
  by_cases hg : g' = g
  · subst hg
    simpa using hp'
  · simpa [update_of_ne hg] using h g'

theorem roundUp_one (n : Int) : roundUp n (1 : Nat) = n := by
  have hc : cdiv (n * 1) 1 = n := cdiv_mul_self Int.one_pos
  simpa [roundUp] using hc

theorem getNewBlocks_spec {n : Int} {ids : List BlockId}
    (h : po.getNewBlocks g n = .ok (ids, po')) :
    Later po po' ∧ (po.Live → (∀ b ∈ ids, b ≠ 0) ∧
      ids.length = (roundUp n (po.blocksPerBundle g)).toNat) := by
  unfold getNewBlocks at h
  split at h
  · obtain ⟨⟨ids', p'⟩, hg, h⟩ := of_bind h
    obtain ⟨rfl, rfl⟩ := pair_inj h
    refine ⟨fun hl => ⟨(hl.getNewBlocks hg).1, fun _ => rfl⟩, fun hl =>
      ⟨(hl.getNewBlocks hg).2, ?_⟩⟩
    show ids'.length = (roundUp n (1 : Nat)).toNat
    rw [roundUp_one, (getNewBlocks_front hg).2.1]
  · rename_i ps
    obtain ⟨⟨ids', p'⟩, hg, h⟩ := of_bind h
    obtain ⟨rfl, rfl⟩ := pair_inj h
    refine ⟨fun hl => ⟨update_live hl ((hl g).getNewBlocks hg).1, fun _ => rfl⟩,
      fun hl => ⟨((hl g).getNewBlocks hg).2, ?_⟩⟩
    · show ids'.length = (roundUp n (1 : Nat)).toNat
      rw [roundUp_one, (getNewBlocks_front hg).2.1]
  · rename_i o order s
    split at h
    · cases h
    · rename_i ids' s' hg
      obtain ⟨rfl, rfl⟩ := pair_inj h
      refine ⟨fun hl => ?_, fun hl => (shared_getNewBlocks hl hg).2.2⟩
      obtain ⟨hi, hlay, -, -⟩ := shared_getNewBlocks hl hg
      exact ⟨hi, fun g => by rw [blocksPerBundle, blocksPerBundle, hlay]⟩

theorem touch_later (h : po.touch g blocks = .ok po') : Later po po' := by
  unfold touch at h
  split at h
  · obtain ⟨p', ht, rfl⟩ := bind_pure_eq_ok.mp h
    exact fun hl => ⟨hl.touch ht, fun _ => rfl⟩
  · obtain ⟨p', ht, rfl⟩ := bind_pure_eq_ok.mp h
    exact fun hl => ⟨update_live hl ((hl g).touch ht), fun _ => rfl⟩
  · cases h

theorem freeBlocks_later (h : po.freeBlocks g blocks = .ok po') : Later po po' := by
  unfold freeBlocks at h
  split at h
  · obtain rfl := ok.inj h
    exact fun hl => ⟨hl.freeBlocks blocks, fun _ => rfl⟩
  · obtain rfl := ok.inj h
    exact fun hl => ⟨update_live hl ((hl g).freeBlocks blocks), fun _ => rfl⟩
  · split at h
    · cases h
    · rename_i s' hf
      obtain rfl := ok.inj h
      intro hl
      obtain ⟨hi, hlay⟩ := shared_freeBlocks hl hf
      exact ⟨hi, fun g => by rw [blocksPerBundle, blocksPerBundle, hlay]⟩

theorem cacheFullBlocks_later {ncb nfb bz : Nat}
    (h : po.cacheFullBlocks g bh blocks ncb nfb bz = .ok po') : Later po po' := by
  have hp : ∀ {p p' : BlockPool}, p.Live → p.cacheFullBlocks bh blocks ncb nfb bz g = .ok p' →
      p'.Live := by
    intro p p' hl hc
    unfold BlockPool.cacheFullBlocks at hc
    split at hc
    · exact ok.inj hc ▸ hl
    · replace hc := of_ensure (of_ensure hc)
      exact hl.cacheBlocksFrom hc
  unfold cacheFullBlocks at h
  split at h
  · obtain ⟨p', hc, rfl⟩ := bind_pure_eq_ok.mp h
    exact fun hl => ⟨hp hl hc, fun _ => rfl⟩
  · obtain ⟨p', hc, rfl⟩ := bind_pure_eq_ok.mp h
    exact fun hl => ⟨update_live hl (hp (hl g) hc), fun _ => rfl⟩
  · cases h

theorem Live.getCachedBlock (h : po.Live) {hash : List BlockHash} {gs : List Nat} {row : Row}
    (hget : po.getCachedBlock hash gs = some row) :
    row.length = gs.length ∧ ∀ b ∈ row, b ≠ 0 := by
  have hp : ∀ {p : BlockPool}, p.Live → p.getCachedBlock hash gs = some row →
      row.length = gs.length ∧ ∀ b ∈ row, b ≠ 0 := by
    intro p hl hr
    have ha := mapM_eq_some.mp hr
    refine ⟨ha.length_eq.symm, fun b hb hb0 => ?_⟩
    have hba : Forall₂ (fun b g => p.getOneBlock ⟨hash, g⟩ = some b) row gs := ha.flip
    obtain ⟨g, -, hg⟩ := exists_of_mem_left hba hb
    exact hl.cached ⟨hash, g⟩ (hb0 ▸ mem_of_mem_head? hg)
  unfold Pools.getCachedBlock at hget
  split at hget
  · exact hp h hget
  · exact hp (h 0) hget
  · cases hget

/-- What the methods do to the pools for a request with these hashes: they get, touch, free and
    cache blocks. -/
inductive Steps (hashes : List BlockHash) : Pools → Pools → Prop
  | refl {pools : Pools} : Steps hashes pools pools
  | get {pools pools₁ pools' : Pools} {g : Nat} {n : Int} {ids : List BlockId} :
    pools.getNewBlocks g n = .ok (ids, pools₁) → Steps hashes pools₁ pools' →
      Steps hashes pools pools'
  | touch {pools pools₁ pools' : Pools} {g : Nat} {blocks : List BlockId} :
    pools.touch g blocks = .ok pools₁ → Steps hashes pools₁ pools' → Steps hashes pools pools'
  | free {pools pools₁ pools' : Pools} {g : Nat} {blocks : List BlockId} :
    pools.freeBlocks g blocks = .ok pools₁ → Steps hashes pools₁ pools' → Steps hashes pools pools'
  | cache {pools pools₁ pools' : Pools} {g : Nat} {blocks : List BlockId}
      {numCachedBlocks numFullBlocks blockSize : Nat} : 0 < blockSize →
    pools.cacheFullBlocks g hashes blocks numCachedBlocks numFullBlocks blockSize = .ok pools₁ →
    Steps hashes pools₁ pools' → Steps hashes pools pools'

theorem Steps.trans (h : Steps bh po pools₁) (h' : Steps bh pools₁ po') : Steps bh po po' := by
  induction h with
  | refl => exact h'
  | get hg _ ih => exact .get hg (ih h')
  | touch ht _ ih => exact .touch ht (ih h')
  | free hf _ ih => exact .free hf (ih h')
  | cache hp hc _ ih => exact .cache hp hc (ih h')

theorem Steps.later (h : Steps bh po po') : Later po po' := by
  induction h with
  | refl => exact .refl
  | get hg _ ih => exact (getNewBlocks_spec hg).1.trans ih
  | touch ht _ ih => exact (touch_later ht).trans ih
  | free hf _ ih => exact (freeBlocks_later hf).trans ih
  | cache _ hc _ ih => exact (cacheFullBlocks_later hc).trans ih

end Pools

variable {g : Nat} {x y : Pools × List BlockId}

theorem Takes.steps (bh : List BlockHash) (h : Takes g x y) : Pools.Steps bh x.1 y.1 := by
  cases h with
  | keep _ => exact .refl
  | get hg _ => exact .get hg .refl

theorem Releases.steps (bh : List BlockHash) (h : Releases g x y) : Pools.Steps bh x.1 y.1 := by
  induction h with
  | refl => exact .refl
  | free hf _ _ ih => exact .free hf ih

/-! ## 2. The methods of the managers -/

namespace Manager

variable {m : Manager} {ps ps' : Pools} {e e' : Entry}

open Pools (Steps)

variable (bh : List BlockHash) {ex l' : Int} {hits : List BlockId}

theorem allocateExternal_steps {t : Int} (h : m.allocateExternal ps e t ex = .ok (e', ps')) :
    Steps bh ps ps' := by
  unfold allocateExternal at h
  split at h
  · obtain ⟨⟨ids, pools₁⟩, hg, h⟩ := of_bind h
    obtain ⟨-, rfl⟩ := pair_inj h
    exact .get hg .refl
  · obtain ⟨-, rfl⟩ := pair_inj h
    exact .refl

theorem touchComputed_steps {blocks : List BlockId} (h : m.touchComputed ps blocks = .ok ps') :
    Steps bh ps ps' := by
  unfold touchComputed at h
  split at h
  · exact .touch h .refl
  · replace h := of_ensure h
    exact pure_eq_ok.mp h ▸ .refl

theorem baseAllocateNewComputedBlocks_steps
    (h : m.baseAllocateNewComputedBlocks ps e hits l' ex = .ok (e', ps')) : Steps bh ps ps' := by
  unfold baseAllocateNewComputedBlocks at h
  split at h
  · replace h := of_ensure h
    obtain ⟨-, rfl⟩ := pair_inj h
    exact .refl
  · replace h := of_ensure h
    obtain ⟨pools₁, ht, h⟩ := of_bind h
    exact (touchComputed_steps bh ht).trans (allocateExternal_steps bh h)

theorem allocateNewComputedBlocksCompactExternal_steps
    (h : m.allocateNewComputedBlocksCompactExternal ps e hits l' ex = .ok (e', ps')) :
    Steps bh ps ps' := by
  unfold allocateNewComputedBlocksCompactExternal at h
  split at h
  · replace h := of_ensure h
    obtain ⟨-, rfl⟩ := pair_inj h
    exact .refl
  · replace h := of_ensure (of_ensure h)
    obtain ⟨⟨ids, pools₁⟩, hg, h⟩ := of_bind h
    replace h := of_ensure (of_ensure h)
    obtain ⟨-, rfl⟩ := pair_inj h
    exact .get hg .refl

theorem takeComputed_steps {d : Config.Demand} {u : Unit}
    (h : Config.takeComputed d m ps e = .ok (u, e', ps')) : Steps bh ps ps' := by
  have h := quiet_eq_ok.mp h
  split at h
  · exact allocateNewComputedBlocksCompactExternal_steps bh h
  · unfold allocateNewComputedBlocks at h
    split at h
    · replace h := of_ensure h
      obtain ⟨-, rfl⟩ := pair_inj h
      exact .refl
    · exact baseAllocateNewComputedBlocks_steps bh h

theorem cacheBlocks_steps {ks : List BlockKey} {bh : List BlockHash} {nt : Int}
    (h : m.cacheBlocks ps e bh nt = .ok (ks, e', ps')) : Steps bh ps ps' := by
  have hb := cacheBlocks_base h
  unfold baseCacheBlocks at hb
  dsimp only at hb
  split at hb
  · obtain ⟨-, rfl⟩ := pair_inj hb
    exact .refl
  · obtain ⟨pools₁, hc, hb⟩ := of_bind hb
    obtain ⟨-, rfl⟩ := pair_inj hb
    exact .cache m.blockSize_pos hc .refl

end Manager

/-! ## 3. Loops over the managers -/

section Loops

variable {r : RequestId} {s s' : State} {α : Type} {ms : List Manager} {ca : Call α} {as : List α}

theorem forManagers_steps {bh : List BlockHash}
    (hc : ∀ m po e a e' po', ca m po e = .ok (a, e', po') → Pools.Steps bh po po')
    (hr : forManagers r ca ms s = .ok (as, s')) : Pools.Steps bh s.pools s'.pools :=
  forManagers_pools (fun _ => .refl) (fun _ _ _ h h' => h.trans h') hc hr

theorem forManagers_frame (hr : forManagers r ca ms s = .ok (as, s')) {k : Nat × RequestId}
    (hk : k.2 = r → ∀ m ∈ ms, m.group ≠ k.1) : s'.entries k = s.entries k := by
  refine forManagers_invariant (fun t => t.entries k = s.entries k)
    (fun m hm t a e po h _ => ?_) hr rfl
  have hne : k ≠ (m.group, r) := by
    rintro rfl
    exact hk rfl m hm rfl
  exact (update_of_ne hne _ _).trans h

/-- **What a loop does to one manager**: its one call, on the entry as the loop found it and on
    later pools. -/
theorem forManagers_at (hc : ∀ m po e a e' po', ca m po e = .ok (a, e', po') → Pools.Later po po')
    (hrun : forManagers r ca ms s = .ok (as, s')) (hg : (ms.map (·.group)).Nodup) {m : Manager}
    (hm : m ∈ ms) : ∃ po a po', Pools.Later s.pools po ∧
      ca m po (s.entries (m.group, r)) = .ok (a, s'.entries (m.group, r), po') := by
  induction ms generalizing s as with
  | nil => cases hm
  | cons m' re ih =>
    obtain ⟨⟨a, e, po⟩, ho, hrun⟩ := of_bind hrun
    obtain ⟨⟨as', s₁⟩, hr, hret⟩ := of_bind hrun
    obtain ⟨-, rfl⟩ := pair_inj hret
    obtain ⟨hn, hg⟩ := nodup_cons.mp hg
    rcases mem_cons.mp hm with rfl | hr'
    · refine ⟨s.pools, a, po, .refl, ?_⟩
      have hk := forManagers_frame (k := (m.group, r)) hr fun _ m'' hm'' heq =>
        hn (mem_map.mpr ⟨m'', hm'', heq⟩)
      rw [hk, ho]
      simp [State.put]
    · obtain ⟨pools₁, a₁, pools₂, hl, h₁⟩ := ih hr hg hr'
      refine ⟨pools₁, a₁, pools₂, (hc _ _ _ _ _ _ ho).trans hl, ?_⟩
      have hne : (m.group, r) ≠ (m'.group, r) := by
        intro heq
        exact hn (mem_map.mpr ⟨m, hr', congrArg Prod.fst heq⟩)
      simpa [State.put, update_of_ne hne] using h₁

end Loops

/-! ## 4. Runs -/

inductive Pools.Start (c : Config) : Pools → Prop
  | one (numGpuBlocks numSinkBlocks : Nat) : Pools.Start c (.one
    (.start numGpuBlocks numSinkBlocks c))
  | perGroup (numGpuBlocks numSinkBlocks : Nat → Nat) :
      Pools.Start c (.perGroup fun g => .start (numGpuBlocks g) (numSinkBlocks g) c)
  | shared (owner : Nat → DSASharedBlockOwner) (order : SetOrder) (layout : DSASharedBlockLayout) :
      Pools.Start c (.shared owner order (.init layout))

theorem Pools.Start.live {c : Config} {po : Pools} (h : Pools.Start c po) : po.Live := by
  cases h with
  | one n k => exact .start c
  | perGroup n k => exact fun g => .start c
  | shared o order lo => exact init_inv lo

/-- The worlds of runs from a start in any mode whose steps all meet `ok`. -/
inductive ModeReachable (c : Config) (ok : World → Op → Prop) : World → Prop
  | start {w : World} : (∀ r, (w.requests r).requestId = r) → (∃ pools, Pools.Start c pools ∧
      w.state = State.init pools) → ModeReachable c ok w
  | step {w w' : World} (op : Op) : ModeReachable c ok w → op.Allowed c w → ok w op →
    op.run c w = .ok w' → ModeReachable c ok w'

section Runs

variable {c : Config} {s s' : State} {r : RequestId} {req : Request} {a : Config.SlotArgs}
  {w w' : World} {op : Op}

theorem removeSkippedBlocks_steps (bh : List BlockHash) {t : Int}
    (h : c.removeSkippedBlocks r t s = .ok s') : Pools.Steps bh s.pools s'.pools := by
  obtain ⟨x, hl, rfl⟩ := map_eq_ok.mp h
  exact forManagers_steps (fun _ _ _ _ _ _ hc =>
    (Manager.removeSkippedBlocks_releases (quiet_eq_ok.mp hc)).steps bh) hl

theorem allocateComputed_steps (bh : List BlockHash) {d : Config.Demand}
    (h : c.allocateComputed r d s = .ok s') : Pools.Steps bh s.pools s'.pools := by
  unfold Config.allocateComputed at h
  split at h
  · obtain ⟨x, hl, rfl⟩ := map_eq_ok.mp h
    exact forManagers_steps (fun _ _ _ _ _ _ hc => Manager.takeComputed_steps bh hc) hl
  · exact ok.inj h ▸ .refl

theorem cacheBlocks_steps {n : Int} (h : c.cacheBlocks req n s = .ok s') :
    Pools.Steps req.blockHashes s.pools s'.pools := by
  unfold Config.cacheBlocks at h
  split at h
  · obtain ⟨⟨keys, s₁⟩, hl, h⟩ := of_bind h
    obtain rfl := pure_eq_ok.mp h
    show Pools.Steps req.blockHashes s.pools s₁.pools
    exact forManagers_steps (fun _ _ _ _ _ _ hc => Manager.cacheBlocks_steps hc) hl
  · exact ok.inj h ▸ .refl

theorem allocateSlots_stages {ids : List (List BlockId)}
    (h : c.allocateSlots req a s = .ok (some ids, s')) :
    ∃ s₁ s₂ s₃ s₄, c.removeSkippedBlocks req.requestId (a.totalComputedTokens c req) s = .ok s₁ ∧
      c.hasEnoughFreeBlocks req.requestId (c.demand req a) s₁ = .ok (true, s₂) ∧
      c.allocateComputed req.requestId (c.demand req a) s₂ = .ok s₃ ∧
      forManagers req.requestId (Config.takeNew (c.demand req a)) c.managers s₃ = .ok (ids, s₄) ∧
      (s' = s₄ ∨
        c.cacheBlocks req (min (c.demand req a).numTokensMainModel req.numTokens) s₄ = .ok s') := by
  replace h := of_ensure h
  obtain ⟨s₁, hs, h⟩ := of_bind h
  obtain ⟨⟨en, s₂⟩, he, h⟩ := of_bind h
  cases en with
  | false => cases h
  | true =>
    obtain ⟨⟨ids', s₄⟩, ha, h⟩ := of_bind h
    obtain ⟨s₃, hc, hn⟩ := of_bind ha
    dsimp only at h
    split at h
    · obtain ⟨hi, rfl⟩ := pair_inj h
      obtain rfl := Option.some.inj hi
      exact ⟨s₁, s₂, s₃, s₄, hs, he, hc, hn, .inl rfl⟩
    · obtain ⟨s₅, hca, h⟩ := of_bind h
      obtain ⟨hi, rfl⟩ := pair_inj h
      obtain rfl := Option.some.inj hi
      exact ⟨s₁, s₂, s₃, s₄, hs, he, hc, hn, .inr hca⟩

theorem allocateSlots_refused : c.allocateSlots req a s = .ok (none, s') ↔
      ¬(a.numNewTokens = 0 ∧ a.numExternalComputedTokens = 0) ∧
      ∃ s₁, c.removeSkippedBlocks req.requestId (a.totalComputedTokens c req) s = .ok s₁ ∧
        c.hasEnoughFreeBlocks req.requestId (c.demand req a) s₁ = .ok (false, s') := by
  constructor
  · intro h
    obtain ⟨hn, h⟩ := ensure_bind_eq_ok.mp h
    obtain ⟨s₁, hs, h⟩ := of_bind h
    obtain ⟨⟨en, s₂⟩, he, h⟩ := of_bind h
    cases en with
    | false =>
      obtain ⟨-, rfl⟩ := pair_inj h
      exact ⟨hn, s₁, hs, he⟩
    | true =>
      obtain ⟨⟨ids', s₄⟩, ha, h⟩ := of_bind h
      dsimp only at h
      split at h
      · cases h
      · obtain ⟨s₅, hc, h⟩ := of_bind h
        cases h
  · rintro ⟨hn, s₁, hs, he⟩
    rw [Config.allocateSlots, ensure_pos hn, ok_bind]
    dsimp only
    rw [hs, ok_bind, he]
    rfl

theorem allocateSlots_steps {re : Option (List (List BlockId))}
    (h : c.allocateSlots req a s = .ok (re, s')) :
    Pools.Steps req.blockHashes s.pools s'.pools := by
  cases re with
  | none =>
    obtain ⟨-, s₁, hs, he⟩ := allocateSlots_refused.mp h
    rw [hasEnoughFreeBlocks_pools he]
    exact removeSkippedBlocks_steps _ hs
  | some ids =>
    obtain ⟨s₁, s₂, s₃, s₄, hs, he, hc, hn, hl⟩ := allocateSlots_stages h
    have hlo : Pools.Steps req.blockHashes s₃.pools s₄.pools :=
      forManagers_steps (fun _ _ _ _ _ _ hcl => (Manager.takeNew_takes hcl).steps _) hn
    have h₂ : Pools.Steps req.blockHashes s.pools s₂.pools := by
      rw [hasEnoughFreeBlocks_pools he]
      exact removeSkippedBlocks_steps _ hs
    have h₄ := (h₂.trans (allocateComputed_steps _ hc)).trans hlo
    rcases hl with rfl | hca
    · exact h₄
    · exact h₄.trans (cacheBlocks_steps hca)

def Op.hashes (w : World) : Op → List BlockHash
  | allocateSlots r _ | cacheBlocks r _ | removeSkippedBlocks r _
  | removeSavedDecodeWindowBlocks r _ | free r =>
    (w.requests r).blockHashes
  | newStepStarts | setRequest .. => []

theorem Op.run_steps (h : op.run c w = .ok w') :
    Pools.Steps (op.hashes w) w.state.pools w'.state.pools := by
  cases op with
  | allocateSlots r a =>
    obtain ⟨x, hc, rfl⟩ := map_eq_ok.mp h
    exact allocateSlots_steps hc
  | cacheBlocks r n =>
    obtain ⟨x, hc, rfl⟩ := map_eq_ok.mp h
    exact cacheBlocks_steps hc
  | removeSkippedBlocks r n =>
    obtain ⟨x, hc, rfl⟩ := map_eq_ok.mp h
    exact removeSkippedBlocks_steps _ hc
  | removeSavedDecodeWindowBlocks r n =>
    obtain ⟨x, hc, rfl⟩ := map_eq_ok.mp h
    obtain ⟨⟨ns, s₁⟩, hl, hr⟩ := of_bind hc
    obtain rfl := pure_eq_ok.mp hr
    exact forManagers_steps (fun _ _ _ _ _ _ ho =>
      (Manager.removeSavedDecodeWindowBlocks_releases ho).steps _) hl
  | free r =>
    obtain ⟨x, hc, rfl⟩ := map_eq_ok.mp h
    obtain ⟨y, hl, rfl⟩ := map_eq_ok.mp hc
    exact forManagers_steps (fun _ _ _ _ _ _ ho =>
      (Manager.free_releases (quiet_eq_ok.mp ho)).steps _) hl
  | newStepStarts =>
    obtain rfl := ok.inj h
    exact .refl
  | setRequest r req =>
    obtain rfl := ok.inj h
    exact .refl

theorem Op.run_later (h : op.run c w = .ok w') : Pools.Later w.state.pools w'.state.pools :=
  (op.run_steps h).later

theorem ModeReachable.live {ok : World → Op → Prop} (h : ModeReachable c ok w) :
    w.state.pools.Live := by
  induction h with
  | start _ hs =>
    obtain ⟨po, hp, hst⟩ := hs
    rw [hst]
    exact hp.live
  | step op _ _ _ hr ih => exact (op.run_later hr ih).1

end Runs

end VllmDual.Core
