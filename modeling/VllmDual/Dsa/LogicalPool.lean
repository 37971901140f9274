/-
  Subject:   THE TWO LOGICAL POOLS OVER ONE BUNDLE ALLOCATOR (`DSASharedLogicalBlockPool`,
             `vllm/v1/core/block_pool.py`), AND WHAT HOLDS OF EVERY RUN OF THEM.

  A logical pool counts references per block and asks the shared allocator for whole bundles; a
  bundle goes back when the last of its blocks is free. A run interleaves `get_new_blocks` and
  `free_blocks` of both pools in any order:

  * `sharedPool_ownership` -- the ownership over whole runs, and that no free raises;
  * `freesAtomically_iff` -- which frees of any blocks succeed or change nothing.

  The iteration order of Python's `set` is a parameter (`SetOrder`).
-/
import VllmDual.Dsa.Allocator

namespace VllmDual.Dsa

open Ranges DSASharedBundleAllocator Function List Nat

/-! ## 1. The pools -/

/-- What the pools raise; `index` is the `IndexError` of `self.blocks[block_id]`. -/
inductive PoolError where
  | cannotGetBlocks (numBlocks : Int)
  | invalidBundle (bundleId : Nat)
  | index (blockId : Nat)
  | refCntNotZero (blockId : Nat)
  | alreadyFree (owner : DSASharedBlockOwner) (blockId : Nat)
  | notARealBlock (blockId : Nat)
  | allocator (e : AllocatorError)
deriving DecidableEq

/-- Reference counts by block id; block 0 is the pool's null block. -/
abbrev RefCnts := Nat → Nat

structure SharedPools where
  allocator : DSASharedBundleAllocator
  refCnt : DSASharedBlockOwner → RefCnts

/-- The iteration order of a Python set of bundle ids: any listing without repetition. -/
structure SetOrder where
  list : Finset Nat → List Nat
  nodup : ∀ s, (list s).Nodup
  mem_iff : ∀ s b, b ∈ list s ↔ b ∈ s

namespace SharedPools

variable (s : SharedPools) (owner : DSASharedBlockOwner)

def init (layout : DSASharedBlockLayout) : SharedPools :=
  ⟨DSASharedBundleAllocator.init layout, fun _ _ => 0⟩

def getNumFreeBlocks : Nat :=
  s.allocator.freeBundleCount * s.allocator.layout.blocksPerBundle owner

/-- The blocks of a bundle: `block_ids_for_bundle` and the lookups `self.blocks[block_id]`. -/
def blocksOfBundle (layout : DSASharedBlockLayout) (owner : DSASharedBlockOwner) (b : Nat) :
    Except PoolError (List Nat) :=
  match layout.blockIdsForBundle owner b with
  | none => .error (.invalidBundle b)
  | some ids =>
    match ids.find? fun id => layout.rowCount owner ≤ id with
    | some id => .error (.index id)
    | none => .ok ids

def blockIdsOf (layout : DSASharedBlockLayout) (owner : DSASharedBlockOwner) :
    List Nat → Except PoolError (List Nat)
  | [] => .ok []
  | b :: bs => do
    let ids ← blocksOfBundle layout owner b
    return ids ++ (← blockIdsOf layout owner bs)

/-- The loop of `get_new_blocks` that takes the blocks: each must be free. -/
def takeBlocks : RefCnts → List Nat → Except PoolError RefCnts
  | rc, [] => .ok rc
  | rc, id :: ids =>
    if rc id ≠ 0 then
      .error (.refCntNotZero id)
    else
      takeBlocks (Function.update rc id 1) ids

/-- `get_new_blocks`: whole bundles, so possibly more blocks than asked for. -/
def getNewBlocks (numBlocks : Int) : Except PoolError (List Nat × SharedPools) :=
  if (s.getNumFreeBlocks owner : Int) < numBlocks then
    .error (.cannotGetBlocks numBlocks)
  else
    match s.allocator.allocate owner (s.allocator.bundleCountForBlocks owner numBlocks) with
    | .error e => .error (.allocator e)
    | .ok (bundleIds, allocator) => do
      let ids ← blockIdsOf allocator.layout owner bundleIds
      let rc ← takeBlocks (s.refCnt owner) ids
      return (ids, ⟨allocator, Function.update s.refCnt owner rc⟩)

/-- The first loop of `free_blocks`: one reference less per block, and the bundles touched. -/
def dropBlocks (layout : DSASharedBlockLayout) (owner : DSASharedBlockOwner) :
    RefCnts → Finset Nat → List Nat → Except PoolError (RefCnts × Finset Nat)
  | rc, affected, [] => .ok (rc, affected)
  | rc, affected, id :: ids =>
    if rc id = 0 then
      .error (.alreadyFree owner id)
    else
      match layout.bundleIdForBlock owner id with
      | none => .error (.notARealBlock id)
      | some b =>
        dropBlocks layout owner (Function.update rc id (rc id - 1)) (insert b affected) ids

/-- The second loop of `free_blocks`: the affected bundles none of whose blocks is in use. -/
def unusedBundles (layout : DSASharedBlockLayout) (owner : DSASharedBlockOwner) (rc : RefCnts) :
    List Nat → Except PoolError (List Nat)
  | [] => .ok []
  | b :: bs => do
    let ids ← blocksOfBundle layout owner b
    let rest ← unusedBundles layout owner rc bs
    return if ids.all (fun id => rc id = 0) then b :: rest else rest

def freeBlocks (order : SetOrder) (orderedBlocks : List Nat) : Except PoolError SharedPools :=
  let blocksList := orderedBlocks.filter (· ≠ 0)
  if blocksList = [] then
    .ok s
  else do
    let (rc, affected) ← dropBlocks s.allocator.layout owner (s.refCnt owner) ∅ blocksList
    let bundleIds ← unusedBundles s.allocator.layout owner rc (order.list affected)
    match s.allocator.free owner bundleIds with
    | .error e => .error (.allocator e)
    | .ok allocator => .ok ⟨allocator, Function.update s.refCnt owner rc⟩

/-- The counts when the first loop of `free_blocks` ends or raises. -/
def countsLeft : RefCnts → List Nat → RefCnts
  | rc, [] => rc
  | rc, id :: ids =>
    if rc id = 0 then rc else countsLeft (Function.update rc id (rc id - 1)) ids

/-- `free_blocks` with the state it leaves when it raises. Whatever raises behind the first loop,
    the counts are those of the loop; the allocator checks every bundle before it takes one back. -/
def freeBlocksLeaves (order : SetOrder) (orderedBlocks : List Nat) :
    SharedPools × Option PoolError :=
  match s.freeBlocks owner order orderedBlocks with
  | .ok s' => (s', none)
  | .error e =>
    let rc := countsLeft (s.refCnt owner) (orderedBlocks.filter (· ≠ 0))
    (⟨s.allocator, Function.update s.refCnt owner rc⟩, some e)

end SharedPools

open SharedPools

/-! ## 2. Runs -/

/-- The pool holds these blocks: as many references to each as the call gives back. -/
def Holds (s : SharedPools) (owner : DSASharedBlockOwner) (blocks : List Nat) : Prop :=
  ∀ id, (blocks.filter (· ≠ 0)).count id ≤ s.refCnt owner id

/-- One call on one of the pools. A refused `get_new_blocks` stops at its first check and
    leaves the state as it was. -/
inductive PoolStep : SharedPools → SharedPools → Prop where
  | get (s s' : SharedPools) (owner : DSASharedBlockOwner) (numBlocks : Int) (ids : List Nat)
      (h : s.getNewBlocks owner numBlocks = .ok (ids, s')) : PoolStep s s'
  | refused (s : SharedPools) (owner : DSASharedBlockOwner) (numBlocks : Int) (e : PoolError)
      (h : s.getNewBlocks owner numBlocks = .error e) : PoolStep s s
  | free (s s' : SharedPools) (owner : DSASharedBlockOwner) (order : SetOrder)
      (blocks : List Nat) (hheld : Holds s owner blocks)
      (h : s.freeBlocks owner order blocks = .ok s') : PoolStep s s'

inductive PoolReachable (layout : DSASharedBlockLayout) : SharedPools → Prop where
  | start : PoolReachable layout (init layout)
  | step (s s' : SharedPools) (h : PoolReachable layout s) (hs : PoolStep s s') :
    PoolReachable layout s'

/-- The invariant of the runs. -/
structure PoolInv (s : SharedPools) : Prop where
  allocator : AllocatorInv s.allocator
  /-- a block in use belongs to a bundle its pool owns, and is referenced once -/
  inUse : ∀ owner id, s.refCnt owner id ≠ 0 → s.refCnt owner id = 1 ∧
    ∃ b, s.allocator.owners.lookup b = some owner ∧ id ∈ s.allocator.layout.slotBlockIds owner b
  /-- an owned bundle has a block in use -/
  owned : ∀ owner b, s.allocator.owners.lookup b = some owner →
    ∃ id ∈ s.allocator.layout.slotBlockIds owner b, s.refCnt owner id ≠ 0

theorem poolInv_start (lo : DSASharedBlockLayout) : PoolInv (init lo) := by
  refine ⟨init_inv lo, fun ow id h => absurd rfl h, fun ow b h => ?_⟩
  simp [SharedPools.init, DSASharedBundleAllocator.init] at h

variable {s : SharedPools} {owner : DSASharedBlockOwner} {layout : DSASharedBlockLayout}

theorem PoolInv.bundle_range (h : PoolInv s) {b : Nat}
    (hb : s.allocator.owners.lookup b = some owner) :
    1 ≤ b ∧ b ≤ s.allocator.layout.capacityBundles :=
  (h.allocator.bundles b).mpr (.inr (Finmap.mem_of_lookup_eq_some hb))

/-! ## 3. The loops -/

section Loops

variable {bs ids : List Nat} {rc : RefCnts}

theorem blocksOfBundle_ok {b : Nat} (h : 1 ≤ b ∧ b ≤ layout.capacityBundles) :
    blocksOfBundle layout owner b = .ok (layout.slotBlockIds owner b) := by
  have hn : (layout.slotBlockIds owner b).find? (fun id => layout.rowCount owner ≤ id) = none := by
    rw [find?_eq_none]
    intro id hid
    have := layout.lt_rowCount_of_mem (lt_succ_of_le h.2) hid
    simp only [decide_eq_true_eq]
    omega
  rw [blocksOfBundle, layout.blockIdsForBundle_eq_some h.1 h.2]
  simp only [hn]

theorem blockIdsOf_ok (h : ∀ b ∈ bs, 1 ≤ b ∧ b ≤ layout.capacityBundles) :
    blockIdsOf layout owner bs = .ok (bs.flatMap (layout.slotBlockIds owner)) := by
  induction bs with
  | nil => rfl
  | cons b bs ih =>
    rw [blockIdsOf, blocksOfBundle_ok (h b mem_cons_self),
      ih fun c hc => h c (mem_cons_of_mem _ hc)]
    rfl

theorem unusedBundles_ok (ow : DSASharedBlockOwner) (rc : RefCnts)
    (h : ∀ b ∈ bs, 1 ≤ b ∧ b ≤ layout.capacityBundles) : unusedBundles layout ow rc bs
      = .ok (bs.filter fun b => (layout.slotBlockIds ow b).all fun id => rc id = 0) := by
  induction bs with
  | nil => rfl
  | cons b bs ih =>
    rw [unusedBundles, blocksOfBundle_ok (h b mem_cons_self),
      ih fun c hc => h c (mem_cons_of_mem _ hc), filter_cons]
    rfl

theorem takeBlocks_ok (hnd : ids.Nodup) (hf : ∀ id ∈ ids, rc id = 0) :
    takeBlocks rc ids = .ok fun id => if id ∈ ids then 1 else rc id := by
  induction ids generalizing rc with
  | nil => simp [takeBlocks]
  | cons c ids ih =>
    obtain ⟨hc, hnd⟩ := nodup_cons.mp hnd
    have hf' : ∀ id ∈ ids, update rc c 1 id = 0 := by
      intro id hid
      rw [update_of_ne fun he : id = c => hc (he ▸ hid)]
      exact hf id (mem_cons_of_mem _ hid)
    rw [takeBlocks, if_neg (not_not.mpr (hf c mem_cons_self)), ih hnd hf']
    congr 1
    funext id
    by_cases hid : id = c
    · subst hid
      simp
    · simp [hid]

theorem dropBlocks_ok (a : Finset Nat) (hh : ∀ id, ids.count id ≤ rc id)
    (hr : ∀ id ∈ ids, ∃ b, layout.bundleIdForBlock owner id = some b) :
    ∃ a', dropBlocks layout owner rc a ids = .ok (fun id => rc id - ids.count id, a') ∧
      ∀ b, b ∈ a' ↔ b ∈ a ∨ ∃ id ∈ ids, layout.bundleIdForBlock owner id = some b := by
  induction ids generalizing rc a with
  | nil => exact ⟨a, by simp [dropBlocks], by simp⟩
  | cons c ids ih =>
    obtain ⟨b, hb⟩ := hr c mem_cons_self
    have hc : rc c ≠ 0 := by
      have := hh c
      rw [count_cons_self] at this
      omega
    have hh' : ∀ id, ids.count id ≤ update rc c (rc c - 1) id := by
      intro id
      have := hh id
      by_cases hid : id = c
      · subst hid
        rw [count_cons_self] at this
        rw [update_self]
        omega
      · rw [count_cons_of_ne (Ne.symm hid)] at this
        rwa [update_of_ne hid]
    obtain ⟨a', hrun, ha⟩ := ih (insert b a) hh'
      fun id hid => hr id (mem_cons_of_mem _ hid)
    refine ⟨a', ?_, fun b' => ?_⟩
    · rw [dropBlocks, if_neg hc, hb]
      simp only [hrun]
      congr 2
      funext id
      by_cases hid : id = c
      · subst hid
        rw [update_self, count_cons_self]
        omega
      · rw [update_of_ne hid, count_cons_of_ne (Ne.symm hid)]
    · rw [ha, Finset.mem_insert]
      constructor
      · rintro ((rfl | hm) | ⟨id, hid, hm⟩)
        · exact .inr ⟨c, mem_cons_self, hb⟩
        · exact .inl hm
        · exact .inr ⟨id, mem_cons_of_mem _ hid, hm⟩
      · rintro (hm | ⟨id, hid, hm⟩)
        · exact .inl (.inr hm)
        · rcases mem_cons.mp hid with rfl | hid
          · exact .inl (.inl (Option.some.inj (hm.symm.trans hb)))
          · exact .inr ⟨id, hid, hm⟩

end Loops

/-! ## 4. The two calls -/

theorem nodup_flatMap_slotBlockIds {bs : List Nat} (hnd : bs.Nodup)
    (h : ∀ b ∈ bs, b < layout.slotCount) : (bs.flatMap (layout.slotBlockIds owner)).Nodup := by
  rw [nodup_flatMap]
  refine ⟨fun b hb => layout.nodup_slotBlockIds owner (h b hb), ?_⟩
  refine hnd.imp_of_mem fun {b c} hb hc hne => ?_
  intro id hid hid'
  exact hne (layout.slot_unique (h b hb) (h c hc) hid hid')

/-- **`get_new_blocks` within the free count**: it succeeds with distinct blocks and keeps the
    invariant. -/
theorem getNewBlocks_spec (h : PoolInv s) {nb : Int} (hn : nb ≤ s.getNumFreeBlocks owner) :
    ∃ ids s', s.getNewBlocks owner nb = .ok (ids, s') ∧ PoolInv s' := by
  have hbpb : (0 : Int) < s.allocator.layout.blocksPerBundle owner :=
    Int.natCast_pos.mpr (s.allocator.layout.blocksPerBundle_pos owner)
  have hco : s.allocator.bundleCountForBlocks owner nb ≤ s.allocator.freeBundleCount := by
    rw [bundleCountForBlocks, ← Int.lt_add_one_iff, Int.ediv_lt_iff_lt_mul hbpb]
    rw [getNumFreeBlocks, cast_mul] at hn
    rw [add_mul, one_mul]
    omega
  obtain ⟨ch, a', hr, hinv, hlay, -, hnd, hf, hl⟩ :=
    allocate_spec h.allocator owner hco
  have hv : ∀ b ∈ ch, 1 ≤ b ∧ b ≤ s.allocator.layout.capacityBundles := fun b hb =>
    (h.allocator.bundles b).mpr (.inl (hf b hb))
  have hs : ∀ b ∈ ch, b < s.allocator.layout.slotCount := fun b hb =>
    lt_succ_of_le (hv b hb).2
  -- a block of a free bundle is free: a block in use names an owned bundle, and only one
  have hz : ∀ id ∈ ch.flatMap (s.allocator.layout.slotBlockIds owner), s.refCnt owner id = 0 := by
    intro id hid
    obtain ⟨b, hb, hi⟩ := mem_flatMap.mp hid
    by_contra hne
    obtain ⟨-, c, hc, hidc⟩ := h.inUse owner id hne
    have hcs := lt_succ_of_le (h.bundle_range hc).2
    obtain rfl := s.allocator.layout.slot_unique (hs b hb) hcs hi hidc
    exact h.allocator.apart b (hf b hb) (Finmap.mem_of_lookup_eq_some hc)
  refine ⟨ch.flatMap (s.allocator.layout.slotBlockIds owner), ⟨a', update s.refCnt
    owner fun id => if id ∈ ch.flatMap (s.allocator.layout.slotBlockIds owner) then 1
      else s.refCnt owner id⟩, ?_, hinv, fun o id hne => ?_, fun o b hb => ?_⟩
  · rw [getNewBlocks, if_neg (Int.not_lt.mpr hn), hr]
    simp only [hlay, blockIdsOf_ok hv, bind, Except.bind,
      takeBlocks_ok (nodup_flatMap_slotBlockIds hnd hs) hz, pure, Except.pure]
  · by_cases ho : o = owner
    · subst ho
      simp only [update_self] at hne ⊢
      by_cases hid : id ∈ ch.flatMap (s.allocator.layout.slotBlockIds o)
      · obtain ⟨b, hb, hi⟩ := mem_flatMap.mp hid
        exact ⟨if_pos hid, b, by rw [hl, if_pos hb], by rwa [hlay]⟩
      · rw [if_neg hid] at hne ⊢
        obtain ⟨h1, b, hb, hi⟩ := h.inUse o id hne
        have hbc : b ∉ ch := fun hb => hid (mem_flatMap.mpr ⟨b, hb, hi⟩)
        exact ⟨h1, b, by rw [hl, if_neg hbc, hb], by rwa [hlay]⟩
    · simp only [update_of_ne ho] at hne ⊢
      obtain ⟨h1, b, hb, hi⟩ := h.inUse o id hne
      have hbc : b ∉ ch := fun hc =>
        h.allocator.apart b (hf b hc) (Finmap.mem_of_lookup_eq_some hb)
      exact ⟨h1, b, by rw [hl, if_neg hbc, hb], by rwa [hlay]⟩
  · rw [hl] at hb
    rw [hlay]
    by_cases hbc : b ∈ ch
    · rw [if_pos hbc] at hb
      obtain rfl := Option.some.inj hb
      obtain ⟨id, hid⟩ := exists_mem_of_length_pos (l := s.allocator.layout.slotBlockIds owner b)
        (by rw [DSASharedBlockLayout.length_slotBlockIds]
            exact s.allocator.layout.blocksPerBundle_pos owner)
      refine ⟨id, hid, ?_⟩
      simp only [update_self, if_pos (mem_flatMap.mpr ⟨b, hbc, hid⟩)]
      decide
    · rw [if_neg hbc] at hb
      obtain ⟨id, hid, hne⟩ := h.owned o b hb
      refine ⟨id, hid, ?_⟩
      by_cases ho : o = owner
      · subst ho
        simp only [update_self]
        split
        · decide
        · exact hne
      · simpa only [update_of_ne ho] using hne

/-- **`free_blocks` of held blocks**: it succeeds, gives the references back and keeps the
    invariant. -/
theorem freeBlocks_spec (h : PoolInv s) (od : SetOrder) {bl : List Nat} (hh : Holds s owner bl) :
    ∃ s', s.freeBlocks owner od bl = .ok s' ∧ PoolInv s' ∧ s'.refCnt = update s.refCnt owner
      fun id => s.refCnt owner id - (bl.filter (· ≠ 0)).count id := by
  set ids := bl.filter (· ≠ 0) with hids
  set layout := s.allocator.layout with hla
  unfold freeBlocks
  rw [← hids, ← hla]
  by_cases hn : ids = []
  · exact ⟨s, if_pos hn, h, by rw [hn]; exact (update_eq_self owner s.refCnt).symm⟩
  -- the bundle of a block the pool gives back is owned by the pool
  have hbu : ∀ id ∈ ids, ∃ b, layout.bundleIdForBlock owner id = some b ∧
      s.allocator.owners.lookup b = some owner ∧ id ∈ layout.slotBlockIds owner b := by
    intro id hid
    have hp : s.refCnt owner id ≠ 0 := by
      have h1 := count_pos_iff.mpr hid
      have h2 := hh id
      rw [← hids] at h2
      omega
    obtain ⟨-, b, hb, hidb⟩ := h.inUse owner id hp
    have hs := lt_succ_of_le (h.bundle_range hb).2
    have h0 : id ≠ 0 := by
      rw [hids, mem_filter] at hid
      exact of_decide_eq_true hid.2
    exact ⟨b, (layout.bundleIdForBlock_eq_iff h0 (.inr (layout.lt_rowCount_of_mem hs hidb)) hs).mpr
      hidb, hb, hidb⟩
  obtain ⟨a, hd, haff⟩ := dropBlocks_ok ∅ hh fun id hid =>
    (hbu id hid).imp fun _ hb => hb.1
  have how : ∀ b ∈ od.list a, s.allocator.owners.lookup b = some owner := by
    intro b hb
    rw [od.mem_iff, haff] at hb
    obtain hb | ⟨id, hid, hidb⟩ := hb
    · simp at hb
    · obtain ⟨c, hc, hl, -⟩ := hbu id hid
      rwa [Option.some.inj (hidb.symm.trans hc)]
  set rc : RefCnts := fun id => s.refCnt owner id - ids.count id with hrc
  have hu := unusedBundles_ok owner rc fun b hb => h.bundle_range (how b hb)
  rw [← hla] at hu
  set bi := (od.list a).filter fun b =>
    (layout.slotBlockIds owner b).all fun id => rc id = 0 with hbn
  obtain ⟨a', hf, hinv, hlay, hl⟩ :=
    free_spec h.allocator (show bi.Nodup from (od.nodup a).filter _)
    fun b hb => how b (mem_filter.mp hb).1
  have hl' : ∀ {o b}, a'.owners.lookup b = some o → b ∉ bi ∧
      s.allocator.owners.lookup b = some o := by
    intro o b hb
    rw [hl] at hb
    by_cases hm : b ∈ bi
    · rw [if_pos hm] at hb
      cases hb
    · rw [if_neg hm] at hb
      exact ⟨hm, hb⟩
  refine ⟨⟨a', update s.refCnt owner rc⟩, ?_, ⟨hinv, fun o id hne => ?_,
    fun o b hb => ?_⟩, rfl⟩
  · rw [if_neg hn, hd]
    simp only [bind, Except.bind, hu, hf]
  · -- a block still in use keeps its bundle: the bundle is not among the unused ones
    have hk : ∀ {b}, s.allocator.owners.lookup b = some o → id ∈ layout.slotBlockIds o b →
        b ∉ bi := by
      intro b hb hidb hm
      have ho : some o = some owner := hb.symm.trans (how b (mem_filter.mp hm).1)
      obtain rfl := Option.some.inj ho
      have ha := all_eq_true.mp (mem_filter.mp hm).2 id hidb
      simp only [update_self] at hne
      exact hne (of_decide_eq_true ha)
    have hne' : s.refCnt o id ≠ 0 := by
      by_cases ho : o = owner
      · subst ho
        simp only [update_self, hrc] at hne
        omega
      · simpa only [update_of_ne ho] using hne
    obtain ⟨h1, b, hb, hidb⟩ := h.inUse o id hne'
    refine ⟨?_, b, by rw [hl, if_neg (hk hb hidb), hb], by rwa [hlay]⟩
    by_cases ho : o = owner
    · subst ho
      simp only [update_self, hrc] at hne ⊢
      omega
    · simpa only [update_of_ne ho] using h1
  · obtain ⟨hm, hbo⟩ := hl' hb
    rw [hlay]
    obtain ⟨id, hid, hne⟩ := h.owned o b hbo
    by_cases ho : o = owner
    · subst ho
      simp only [update_self]
      by_cases hba : b ∈ a
      · -- affected and not unused: some block of it is still in use
        have hnot : ¬ (layout.slotBlockIds o b).all (fun id => rc id = 0) = true := fun ha =>
          hm (mem_filter.mpr ⟨(od.mem_iff a b).mpr hba, ha⟩)
        rw [all_eq_true] at hnot
        push Not at hnot
        obtain ⟨id, hid, hne⟩ := hnot
        exact ⟨id, hid, by simpa using hne⟩
      · refine ⟨id, hid, ?_⟩
        have hco : ids.count id = 0 := by
          rw [count_eq_zero]
          intro hi
          obtain ⟨c, hc, hl, hidc⟩ := hbu id hi
          have hs := lt_succ_of_le (h.bundle_range hbo).2
          have hsl := lt_succ_of_le (h.bundle_range hl).2
          obtain rfl := layout.slot_unique hs hsl hid hidc
          exact hba ((haff b).mpr (.inr ⟨id, hi, hc⟩))
        rw [hrc]
        simpa only [hco, Nat.sub_zero] using hne
    · exact ⟨id, hid, by simpa only [update_of_ne ho] using hne⟩

/-! ## 5. Whole runs -/

theorem poolInv_step {s' : SharedPools} (h : PoolInv s) (hs : PoolStep s s') : PoolInv s' := by
  cases hs with
  | get _ owner nb ids hg =>
    have hn : nb ≤ s.getNumFreeBlocks owner := by
      by_contra hlt
      rw [getNewBlocks, if_pos (Int.not_le.mp hlt)] at hg
      cases hg
    obtain ⟨ids', t, hok, hi⟩ := getNewBlocks_spec h hn
    rw [hok] at hg
    obtain ⟨-, rfl⟩ := Prod.mk.inj (Except.ok.inj hg)
    exact hi
  | refused => exact h
  | free _ owner order blocks hh hf =>
    obtain ⟨t, hok, hi, -⟩ := freeBlocks_spec h order hh
    rw [hok] at hf
    obtain rfl := Except.ok.inj hf
    exact hi

theorem poolInv_reachable (h : PoolReachable layout s) : PoolInv s := by
  induction h with
  | start => exact poolInv_start layout
  | step s s' _ hs ih => exact poolInv_step ih hs

structure SharedOwnership (s : SharedPools) : Prop where
  /-- `_free_ranges`: nonempty, strictly sorted, disjoint, not adjacent, within 1..capacity -/
  ranges : Gapped s.allocator.freeRanges
  within : ∀ r ∈ s.allocator.freeRanges, 1 ≤ r.1 ∧ r.2 ≤ s.allocator.layout.capacityBundles
  /-- the free bundles and the keys of `_owners` partition 1..capacity -/
  partition : ∀ b, 1 ≤ b ∧ b ≤ s.allocator.layout.capacityBundles ↔
    Xor (b ∈ cover s.allocator.freeRanges) (b ∈ s.allocator.owners)
  /-- a bundle is owned by a pool exactly when a block of it is in use there -/
  owned : ∀ owner b, s.allocator.owners.lookup b = some owner ↔
    1 ≤ b ∧ b ≤ s.allocator.layout.capacityBundles ∧
      ∃ id ∈ s.allocator.layout.slotBlockIds owner b, 0 < s.refCnt owner id
  count : s.allocator.freeBundleCount + s.allocator.owners.keys.card
    = s.allocator.layout.capacityBundles

theorem PoolInv.ownership (h : PoolInv s) : SharedOwnership s := by
  refine ⟨h.allocator.gapped, fun r hr => ?_, fun b => ?_, fun owner b => ?_, h.allocator.count⟩
  · have hne := h.allocator.gapped.nonempty r hr
    have h1 := (h.allocator.bundles r.1).mpr (.inl (mem_cover.mpr ⟨r, hr, Nat.le_refl _, hne⟩))
    have h2 := (h.allocator.bundles r.2).mpr (.inl (mem_cover.mpr ⟨r, hr, hne, Nat.le_refl _⟩))
    exact ⟨h1.1, h2.2⟩
  · have ha := h.allocator.apart b
    rw [h.allocator.bundles, xor_def]
    tauto
  · constructor
    · intro hb
      obtain ⟨id, hid, hne⟩ := h.owned owner b hb
      exact ⟨(h.bundle_range hb).1, (h.bundle_range hb).2, id, hid, Nat.pos_of_ne_zero hne⟩
    · rintro ⟨_, hb, id, hid, hp⟩
      obtain ⟨-, c, hc, hi⟩ := h.inUse owner id (Nat.ne_of_gt hp)
      have hs := lt_succ_of_le (h.bundle_range hc).2
      rwa [s.allocator.layout.slot_unique (lt_succ_of_le hb) hs hid hi]

/-- **Ownership of the shared pool over whole runs.** In every state any interleaving of calls
    reaches, every bundle is free or owned, it is owned exactly when its pool uses one of its
    blocks, and a pool that frees blocks it holds never raises. -/
theorem sharedPool_ownership (layout : DSASharedBlockLayout) (s : SharedPools)
    (h : PoolReachable layout s) :
    SharedOwnership s ∧ ∀ owner order blocks, Holds s owner blocks →
      ∃ s', s.freeBlocks owner order blocks = .ok s' :=
  have hi := poolInv_reachable h
  ⟨hi.ownership, fun _ order _ hh => (freeBlocks_spec hi order hh).imp fun _ hs => hs.1⟩

/-- Three latent blocks of the test layout, two whole bundles, and the state they leave. -/
theorem testLayout_sharedPool_ownership :
    ∃ ids s, (SharedPools.init testLayout).getNewBlocks .latent 3 = .ok (ids, s) ∧
      SharedOwnership s ∧
      ∀ owner order blocks, Holds s owner blocks →
        ∃ s', s.freeBlocks owner order blocks = .ok s' := by
  obtain ⟨ids, s, hg, -⟩ := getNewBlocks_spec (poolInv_start testLayout)
    (show (3 : Int) ≤ (SharedPools.init testLayout).getNumFreeBlocks .latent by decide)
  exact ⟨ids, s, hg, sharedPool_ownership testLayout s
    (.step _ s .start (.get _ s .latent 3 ids hg))⟩

/-! ## 6. Frees that raise -/

/-- A call of `free_blocks` is atomic: it succeeds, takes one reference for each listed block and
    no other, and leaves the ownership right; or it raises and changes nothing. -/
def FreesAtomically (s : SharedPools) (owner : DSASharedBlockOwner) (order : SetOrder)
    (blocks : List Nat) : Prop :=
  (∃ s', s.freeBlocksLeaves owner order blocks = (s', none) ∧ SharedOwnership s' ∧
    (∀ id, s'.refCnt owner id + (blocks.filter (· ≠ 0)).count id = s.refCnt owner id) ∧
    ∀ o, o ≠ owner → s'.refCnt o = s.refCnt o) ∨
  ∃ e, s.freeBlocksLeaves owner order blocks = (s, some e)

theorem countsLeft_le (rc : RefCnts) (ids : List Nat) (i : Nat) : countsLeft rc ids i ≤ rc i := by
  fun_induction countsLeft rc ids with
  | case1 => exact Nat.le_refl _
  | case2 => exact Nat.le_refl _
  | case3 rc id ids hp ih =>
    refine ih.trans ?_
    by_cases hi : i = id
    · rw [hi, update_self]
      exact sub_le _ _
    · rw [update_of_ne hi]

theorem countsLeft_lt {rc : RefCnts} {id : Nat} (hp : rc id ≠ 0) (ids : List Nat) :
    countsLeft rc (id :: ids) id < rc id := by
  rw [countsLeft, if_neg hp]
  refine (countsLeft_le _ ids id).trans_lt ?_
  rw [update_self]
  omega

/-- **When a free is atomic.** The counts go down before the next block is checked: a free that
    raises changes nothing only when its first block is the one that is not held. -/
theorem freesAtomically_iff (layout : DSASharedBlockLayout) (s : SharedPools)
    (h : PoolReachable layout s) (owner : DSASharedBlockOwner) (order : SetOrder)
    (blocks : List Nat) : FreesAtomically s owner order blocks ↔
      (∃ id ∈ (blocks.filter (· ≠ 0)).head?, s.refCnt owner id = 0) ∨ Holds s owner blocks := by
  constructor
  · rintro (⟨s', -, -, hr, -⟩ | ⟨e, hrun⟩)
    · exact .inr fun id => (Nat.le_add_left _ _).trans_eq (hr id)
    · left
      unfold freeBlocksLeaves at hrun
      split at hrun
      · cases (Prod.mk.inj hrun).2
      · rename_i hf
        have hs : countsLeft (s.refCnt owner) (blocks.filter (· ≠ 0)) = s.refCnt owner := by
          have hr := congrFun (congrArg (fun r => r.1.refCnt) hrun) owner
          dsimp only at hr
          rwa [update_self] at hr
        cases hl : blocks.filter (· ≠ 0) with
        | nil =>
          rw [freeBlocks, hl] at hf
          cases hf
        | cons id rest =>
          refine ⟨id, rfl, by_contra fun hp => ?_⟩
          rw [hl] at hs
          exact Nat.ne_of_lt (countsLeft_lt hp rest) (congrFun hs id)
  · rintro (⟨id, hhe, hz⟩ | hh)
    · obtain ⟨rest, hl⟩ := head?_eq_some_iff.mp hhe
      have hf : s.freeBlocks owner order blocks = .error (.alreadyFree owner id) := by
        rw [freeBlocks, hl, dropBlocks, if_pos hz]
        rfl
      refine .inr ⟨.alreadyFree owner id, ?_⟩
      rw [freeBlocksLeaves, hf, hl]
      simp only [countsLeft, if_pos hz, update_eq_self]
    · obtain ⟨s', hf, hi, hr⟩ := freeBlocks_spec (poolInv_reachable h) order hh
      refine .inl ⟨s', by rw [freeBlocksLeaves, hf], hi.ownership, fun id => ?_, fun o ho => ?_⟩
      · rw [hr, update_self]
        exact Nat.sub_add_cancel (hh id)
      · rw [hr, update_of_ne ho]

/-- Two latent blocks of the test layout, and the frees in the state they leave. -/
theorem testLayout_freesAtomically_iff :
    ∃ ids s, (SharedPools.init testLayout).getNewBlocks .latent 2 = .ok (ids, s) ∧
      ∀ order blocks, FreesAtomically s .latent order blocks ↔
        (∃ id ∈ (blocks.filter (· ≠ 0)).head?, s.refCnt .latent id = 0) ∨
          Holds s .latent blocks := by
  obtain ⟨ids, s, hg, -⟩ := getNewBlocks_spec (poolInv_start testLayout)
    (show (2 : Int) ≤ (SharedPools.init testLayout).getNumFreeBlocks .latent by decide)
  exact ⟨ids, s, hg, freesAtomically_iff testLayout s
    (.step _ s .start (.get _ s .latent 2 ids hg)) .latent⟩

/-- Two held blocks of one bundle, and one of them listed twice: the free raises at the second
    listing, after the block has lost its reference. -/
theorem repeated_free_not_atomic :
    ∃ s, (SharedPools.init testLayout).getNewBlocks .latent 2 = .ok ([2, 3], s) ∧
      s.refCnt .latent 2 = 1 ∧ ∀ order, ¬ FreesAtomically s .latent order [2, 2] := by
  refine ⟨_, rfl, rfl, fun order => ?_⟩
  rintro (⟨s', hr, -⟩ | ⟨e, hr⟩)
  · cases (Prod.mk.inj hr).2
  · have h : (0 : Nat) = 1 := congrArg (fun r => r.1.refCnt .latent 2) hr
    cases h

end VllmDual.Dsa
