/-
  Subject:   THE LATENT TABLE ROW BY ROW.

  The rows of a latent table are live or null, and each method of `DSALatentManager` changes some of
  them. This says which, once for each method, over pools of any mode.
-/
import VllmDual.Core.Modes

namespace VllmDual.Core

open Outcome Ceil Config List Except

def Entry.row (e : Entry) (i : Nat) : BlockId := e.blocks.getD i 0

def Entry.Dense (e : Entry) : Prop := ∀ b ∈ e.blocks, b ≠ 0

variable {e : Entry} {i : Nat} {m : Manager}

theorem Entry.Dense.row_ne_zero (h : e.Dense) (hi : i < e.blocks.length) : e.row i ≠ 0 := by
  rw [Entry.row, getD_eq_getElem _ _ hi]
  exact h _ (getElem_mem hi)

theorem Entry.row_eq_zero (hi : e.blocks.length ≤ i) : e.row i = 0 :=
  getD_eq_default _ _ hi

theorem Manager.isDsaLatent_iff : m.isDsaLatent = true ↔ m.kind = .dsaLatent m.scratchBlocks := by
  unfold Manager.isDsaLatent Manager.scratchBlocks
  cases m.kind <;> simp

theorem Manager.isFullAttention_of_latent (h : m.isDsaLatent = true) :
    m.kind.isFullAttention = true := by
  rw [Manager.isDsaLatent_iff.mp h]
  rfl

/-! ## 1. Hits -/

namespace HitQuery

variable {q : HitQuery} {gs : List Nat} {rows : List Row}

theorem leading_live (h : q.pools.Live) (n i : Nat) :
    ∀ row ∈ q.leading m gs n i, row.length = gs.length ∧ ∀ b ∈ row, b ≠ 0 := by
  induction n generalizing i with
  | zero => exact fun row hr => by cases hr
  | succ n ih =>
    rw [leading]
    split
    · exact fun row hr => by cases hr
    · rename_i row₀ hat
      intro row hr
      rcases mem_cons.mp hr with rfl | hr
      · obtain ⟨hash, -, hg⟩ := Option.bind_eq_some_iff.mp hat
        exact h.getCachedBlock hg
      · exact ih (i + 1) row hr

theorem fullHit_live (h : q.pools.Live) (al ml : Nat) :
    ∀ row ∈ q.fullHit m gs al ml, row.length = gs.length ∧ ∀ b ∈ row, b ≠ 0 := by
  intro row hr
  have hmem := mem_of_mem_take hr
  split at hmem
  · exact leading_live h _ _ row (mem_of_mem_dropLast hmem)
  · exact leading_live h _ _ row hmem

theorem managerHit_live (h : q.pools.Live) (hf : m.kind.isFullAttention = true)
    {al ml : Nat} (hr : q.managerHit m gs al ml = .ok rows) :
    ∀ row ∈ rows, row.length = gs.length ∧ ∀ b ∈ row, b ≠ 0 := by
  have heq : q.fullHit m gs al ml = rows := by
    unfold managerHit at hr
    split at hr
    · exact ok.inj hr
    · exact ok.inj hr
    all_goals
      rename_i hk
      simp [hk, ManagerKind.isFullAttention] at hf
  exact heq ▸ fullHit_live h _ _

theorem column_live (h : ∀ row ∈ rows, row.length = gs.length ∧ ∀ b ∈ row, b ≠ 0) {g : Nat}
    (hg : g ∈ gs) : ∀ b ∈ column rows (gs.idxOf g), b ≠ 0 := by
  intro b hb
  obtain ⟨row, hr, rfl⟩ := mem_map.mp hb
  obtain ⟨hlen, hl⟩ := h row hr
  have hi : gs.idxOf g < row.length := hlen ▸ idxOf_lt_length_of_mem hg
  rw [getD_eq_getElem _ _ hi]
  exact hl _ (getElem_mem hi)

end HitQuery

theorem Config.HitsFrom.live {c : Config} {s : State} {re : Request} {hits : HitQuery.Hits}
    (h : c.HitsFrom s re hits) (hl : s.pools.Live) (hm : m ∈ c.managers)
    (hf : m.kind.isFullAttention = true) : ∀ b ∈ hits m.group, b ≠ 0 := by
  rcases h with rfl | ⟨n, h⟩
  · exact fun b hb => by cases hb
  refine getComputedBlocks_forall (P := fun g blocks => g = m.group → ∀ b ∈ blocks, b ≠ 0)
    (fun g _ b hb => by cases hb) (fun g blocks n ha hg b hb => ha hg b (mem_of_mem_take hb)) ?_
    h m.group rfl
  rintro - a _ _ rows hs hr g hg rfl
  -- the group's entry is of its class, so its rows are those of full attention
  obtain ⟨m', hm', hgr, hsa⟩ := hs.2 m.group hg
  obtain rfl : m' = m := inj_on_of_nodup_map c.groups_nodup hm' hm hgr
  have hk : a.manager.kind = m'.kind := (of_decide_eq_true hsa).1
  exact HitQuery.column_live (HitQuery.managerHit_live hl (hk ▸ hf) hr) hg

/-! ## 2. The first rows of a request -/

section Rows

variable {po ps' : Pools} {e' : Entry} {d : Config.Demand} {ids : List BlockId}
  {pt ce : Int}

/-- The table of a compact request right after its admission: scratch rows, then null. -/
def Manager.compactTable (m : Manager) (bundle : Nat) (prefixTokens : Int) (ids : List BlockId) :
    List BlockId :=
  let scratchEnd := roundUp m.scratchBlocks bundle
  ids ++ replicate (max (cdiv prefixTokens m.blockSize) scratchEnd - scratchEnd).toNat 0

def Entry.marked (e : Entry) (prefixTokens : Int) : Entry :=
  { e with
    compactPrefixTokens := some prefixTokens
    compactReleasedBlocks := some (e.compactReleasedBlocks.getD 0) }

theorem baseAllocateNewComputedBlocks_latent (hm : m.isDsaLatent = true) {hits : List BlockId}
    {l' ex : Int} (hl : po.Live) (hh : ∀ b ∈ hits, b ≠ 0)
    (h : m.baseAllocateNewComputedBlocks po e hits l' ex = .ok (e', ps')) :
    e' = e ∨ e.blocks = [] ∧ e'.Dense ∧ e' = { e with
      blocks := e'.blocks, numCachedBlock := e'.numCachedBlock } := by
  have hk := Manager.isDsaLatent_iff.mp hm
  have hs : ∀ n, m.getNumSkippedTokens n = 0 := fun n => by simp [Manager.getNumSkippedTokens, hk]
  unfold Manager.baseAllocateNewComputedBlocks at h
  split at h
  · replace h := of_ensure h
    obtain ⟨rfl, -⟩ := pair_inj h
    exact .inl rfl
  · obtain ⟨he, h⟩ := ensure_bind_eq_ok.mp h
    obtain ⟨ps₁, ht, h⟩ := of_bind h
    simp only [Manager.unskipped, hs, Int.zero_ediv, lt_irrefl, if_false, Int.toNat_zero,
      replicate_zero, nil_append] at h ht
    refine .inr ⟨he, ?_⟩
    unfold Manager.allocateExternal at h
    split at h
    · obtain ⟨⟨ids, ps₂⟩, hg, h⟩ := of_bind h
      obtain ⟨rfl, -⟩ := pair_inj h
      have hi := ((Pools.getNewBlocks_spec hg).2 ((Manager.touchComputed_steps [] ht).later hl).1).1
      exact ⟨fun b hb => (mem_append.mp hb).elim (hh b) (hi b), rfl⟩
    · obtain ⟨rfl, -⟩ := pair_inj h
      exact ⟨hh, rfl⟩

/-- **The first rows**: a request that has rows keeps them; otherwise they are all live, or those
    of a compact request. -/
theorem takeComputed_latent (hm : m.isDsaLatent = true) (hl : po.Live)
    (hh : ∀ b ∈ d.newComputedBlocks m.group, b ≠ 0) {u : Unit}
    (h : takeComputed d m po e = .ok (u, e', ps')) :
    e' = e ∨ e.blocks = [] ∧
      (d.compact = false ∧ e'.Dense ∧ e' = { e with
          blocks := e'.blocks, numCachedBlock := e'.numCachedBlock } ∨
        d.compact = true ∧ ∃ ids, (∀ b ∈ ids, b ≠ 0) ∧
          (ids.length : Int) = roundUp m.scratchBlocks (po.blocksPerBundle m.group) ∧
          e' = { e.marked d.totalComputedTokens with
            blocks := m.compactTable (po.blocksPerBundle m.group) d.totalComputedTokens ids
            numCachedBlock := e'.numCachedBlock }) := by
  have hk := Manager.isDsaLatent_iff.mp hm
  have h := quiet_eq_ok.mp h
  rw [hm, Bool.and_true] at h
  split at h
  · rename_i hc
    unfold Manager.allocateNewComputedBlocksCompactExternal at h
    split at h
    · replace h := of_ensure h
      obtain ⟨rfl, -⟩ := pair_inj h
      exact .inl rfl
    · replace h := of_ensure (of_ensure h)
      obtain ⟨⟨ids, ps₁⟩, hg, h⟩ := of_bind h
      obtain ⟨hlen, h⟩ := ensure_bind_eq_ok.mp h
      obtain ⟨he, h⟩ := ensure_bind_eq_ok.mp h
      obtain ⟨rfl, -⟩ := pair_inj h
      exact .inr ⟨he, .inr ⟨hc, ids, ((Pools.getNewBlocks_spec hg).2 hl).1, hlen, rfl⟩⟩
  · rename_i hc
    unfold Manager.allocateNewComputedBlocks at h
    rw [hk] at h
    rcases baseAllocateNewComputedBlocks_latent hm hl hh h with heq | ⟨he, hd⟩
    · exact .inl heq
    · exact .inr ⟨he, .inl ⟨by simpa using hc, hd⟩⟩

/-! ## 3. New rows -/

theorem takeNew_dense (hm : m.isDsaLatent = true) (hco : d.compact = false)
    (hma : e.compactPrefixTokens = none) (hl : po.Live)
    (h : takeNew d m po e = .ok (ids, e', ps')) :
    (∀ b ∈ ids, b ≠ 0) ∧ e' = { e with blocks := e.blocks ++ ids } ∧
      cdiv d.numTokens m.blockSize ≤ e'.blocks.length := by
  have hk := Manager.isDsaLatent_iff.mp hm
  have hc : m.baseAllocateNewBlocks po e d.numTokens = .ok (ids, e', ps') := by
    unfold takeNew at h
    rw [hco, Bool.false_and, if_neg Bool.false_ne_true, if_neg (by simp [hk])] at h
    simpa [Manager.allocateNewBlocks, hk, Manager.latentAllocateNewBlocks, hma] using h
  unfold Manager.baseAllocateNewBlocks at hc
  dsimp only at hc
  split at hc
  · rename_i hle
    obtain ⟨rfl, rfl, -⟩ := triple_inj hc
    exact ⟨forall_mem_nil _, by simp, by omega⟩
  · rename_i hlt
    obtain ⟨⟨ids', ps₁⟩, hg, hc⟩ := of_bind hc
    obtain ⟨rfl, rfl, -⟩ := triple_inj hc
    obtain ⟨hi, hlen⟩ := (Pools.getNewBlocks_spec hg).2 hl
    refine ⟨hi, rfl, ?_⟩
    have hr := le_cdiv_mul (a := cdiv d.numTokens m.blockSize - e.blocks.length)
      (Int.natCast_pos.mpr (po.blocksPerBundle_pos m.group))
    rw [← roundUp] at hr
    rw [length_append, hlen]
    omega

variable (t : List BlockId)

theorem getD_extended (rq : List Nat) (i : Nat) :
    (Manager.extended t rq).getD i 0 = t.getD i 0 := by
  unfold Manager.extended
  split
  · rfl
  · by_cases hi : i < t.length
    · rw [getD_append _ _ _ _ hi]
    · rw [getD_append_right _ _ _ _ (by omega), getD_eq_default t _ (by omega),
        getD_eq_getElem?_getD]
      rw [getElem?_replicate]
      split <;> rfl

theorem getD_fillMissing {t : List BlockId} {mi : List Nat} (hnd : mi.Nodup)
    (hl : ids.length = mi.length) (hin : ∀ i ∈ mi, i < t.length) (hids : ∀ b ∈ ids, b ≠ 0)
    (i : Nat) : (i ∈ mi → (Manager.fillMissing t mi ids).getD i 0 ≠ 0) ∧
      (i ∉ mi → (Manager.fillMissing t mi ids).getD i 0 = t.getD i 0) ∧
      (Manager.fillMissing t mi ids).length = t.length := by
  induction mi generalizing t ids with
  | nil =>
    obtain rfl := length_eq_zero_iff.mp hl
    exact ⟨fun hi => absurd hi not_mem_nil, fun _ => rfl, rfl⟩
  | cons j mi ih =>
    obtain ⟨b, ids, rfl⟩ := exists_cons_of_length_eq_add_one hl
    obtain ⟨hj, hnd⟩ := nodup_cons.mp hnd
    have hr : ∀ i ∈ mi, i < (t.set j b).length := fun i hi => by
      simpa using hin i (mem_cons_of_mem _ hi)
    obtain ⟨hf, hk, hs⟩ := ih hnd (by simpa using hl) hr (fun c hc => hids c (mem_cons_of_mem _ hc))
    refine ⟨fun hi => ?_, fun hi => ?_, hs.trans (length_set ..)⟩
    · by_cases hmem : i ∈ mi
      · exact hf hmem
      · obtain rfl : i = j := (mem_cons.mp hi).resolve_right hmem
        have hlt := hin i mem_cons_self
        have hse : (t.set i b).getD i 0 = b := by
          rw [getD_eq_getElem?_getD, getElem?_set_self hlt, Option.getD_some]
        have hrow : (Manager.fillMissing t (i :: mi) (b :: ids)).getD i 0 = b :=
          (hk hmem).trans hse
        rw [hrow]
        exact hids b mem_cons_self
    · obtain ⟨hij, hmem⟩ := not_or.mp (mem_cons.not.mp hi)
      rw [show Manager.fillMissing t (j :: mi) (b :: ids) = Manager.fillMissing (t.set j b)
        mi ids from rfl, hk hmem,
        getD_eq_getElem?_getD, getElem?_set_ne (Ne.symm hij), ← getD_eq_getElem?_getD]

def Manager.requiredRows (m : Manager) (bundle : Nat) (e : Entry) (prefixTokens : Int)
    (d : Config.Demand) : List Nat :=
  m.compactRequiredIndices bundle prefixTokens d.numTokens d.numTokensMainModel d.compact
    (e.compactReleasedBlocks.getD 0)

theorem takeNew_marked (hm : m.isDsaLatent = true) (hma : e.compactPrefixTokens = some pt) :
    takeNew d m po e = m.allocateCompactRequestBlocks po e d.numTokens d.numTokensMainModel
      d.compact := by
  have hk := Manager.isDsaLatent_iff.mp hm
  unfold takeNew
  rw [hm, Bool.and_true]
  split
  · rename_i hc
    rw [hc]
  · rename_i hc
    rw [if_neg (by simp [hk]), Bool.eq_false_of_not_eq_true hc]
    simp [Manager.allocateNewBlocks, hk, Manager.latentAllocateNewBlocks, hma]

theorem length_missing (rq : List Nat) :
    (rq.filter (Manager.isMissing (Manager.extended t rq))).length
      = rq.countP (fun i => t.getD i 0 = 0) := by
  rw [countP_eq_length_filter]
  refine congrArg List.length (filter_congr fun i _ => ?_)
  rw [Manager.isMissing, getD_extended]

/-- **New rows of a compact request**: the required rows become live, the others stay. Blocks come
    in whole bundles, so it raises unless the missing rows do. -/
theorem takeNew_compact (hm : m.isDsaLatent = true) (hma : e.compactPrefixTokens = some pt)
    (hl : po.Live) (h : takeNew d m po e = .ok (ids, e', ps')) :
    let rq := m.requiredRows (po.blocksPerBundle m.group) e pt d
    e' = { e with blocks := e'.blocks } ∧ e'.blocks.length = (Manager.extended e.blocks rq).length ∧
      po.blocksPerBundle m.group ∣ rq.countP (fun i => e.row i = 0) ∧
      ∀ i, (i ∈ rq → e'.row i ≠ 0) ∧ (i ∉ rq ∨ e.row i ≠ 0 → e'.row i = e.row i) := by
  intro rq
  have hs : rq.Pairwise (· < ·) := Manager.compactRequiredIndices_sorted ..
  have hc := (takeNew_marked hm hma).symm.trans h
  clear h
  obtain ⟨blocks, ncb, cpt, crb, l, al⟩ := e
  subst hma
  have hr : ∀ i, (Manager.extended blocks rq).getD i 0 = blocks.getD i 0 :=
    getD_extended blocks rq
  have hms := length_missing blocks rq
  unfold Manager.allocateCompactRequestBlocks at hc
  dsimp only at hc
  rw [show m.compactRequiredIndices (po.blocksPerBundle m.group) pt d.numTokens
    d.numTokensMainModel d.compact (crb.getD 0) = rq from rfl] at hc
  split at hc
  · -- no required row is missing
    rename_i hn
    obtain ⟨-, rfl, -⟩ := triple_inj hc
    have hco := hms ▸ congrArg List.length hn
    refine ⟨rfl, rfl, hco ▸ dvd_zero _, fun i => ⟨fun hi h0 => ?_, fun _ => hr i⟩⟩
    have hmi : i ∈ rq.filter (Manager.isMissing (Manager.extended blocks rq)) :=
      mem_filter.mpr ⟨hi, decide_eq_true h0⟩
    rw [hn] at hmi
    cases hmi
  · obtain ⟨⟨ids', ps₁⟩, hg, hc⟩ := of_bind hc
    obtain ⟨hlen, hc⟩ := ensure_bind_eq_ok.mp hc
    obtain ⟨rfl, rfl, -⟩ := triple_inj hc
    have hf := getD_fillMissing ((hs.imp fun hlt => hlt.ne).filter _) hlen
      (fun i hi => Manager.lt_length_extended hs blocks (mem_of_mem_filter hi))
      ((Pools.getNewBlocks_spec hg).2 hl).1
    refine ⟨rfl, (hf 0).2.2, ?_, fun i => ?_⟩
    · have hw := ((Pools.getNewBlocks_spec hg).2 hl).2
      show po.blocksPerBundle m.group ∣ rq.countP fun i => decide (blocks.getD i 0 = 0)
      rw [← hms, ← hlen, hw, roundUp, toNat_mul_natCast]
      exact dvd_mul_left _ _
    obtain ⟨hin, ho, -⟩ := hf i
    by_cases hi : i ∈ rq.filter (Manager.isMissing (Manager.extended blocks rq))
    · obtain ⟨hreq, hmi⟩ := mem_filter.mp hi
      have hnu : blocks.getD i 0 = 0 := (hr i).symm.trans (of_decide_eq_true hmi)
      refine ⟨fun _ => hin hi, fun hor => absurd hor ?_⟩
      exact not_or.mpr ⟨not_not.mpr hreq, not_not.mpr hnu⟩
    · refine ⟨fun hreq h0 => hi (mem_filter.mpr ⟨hreq, ?_⟩), fun _ => (ho hi).trans (hr i)⟩
      exact decide_eq_true ((ho hi).symm.trans h0)

/-! ## 4. Release, and what leaves the rows alone -/

theorem cacheBlocks_latent (hm : m.isDsaLatent = true) {ks : List BlockKey} {hs : List BlockHash}
    {nt : Int} (h : m.cacheBlocks po e hs nt = .ok (ks, e', ps')) :
    e' = { e with numCachedBlock := e'.numCachedBlock } := by
  have hk := Manager.isDsaLatent_iff.mp hm
  unfold Manager.cacheBlocks at h
  rw [hk] at h
  obtain ⟨⟨e₁, ps₁⟩, hc, h⟩ := of_bind h
  obtain ⟨-, rfl, rfl⟩ := triple_inj h
  unfold Manager.baseCacheBlocks at hc
  dsimp only at hc
  split at hc
  · obtain ⟨rfl, -⟩ := pair_inj hc
    rfl
  · obtain ⟨ps₂, -, hc⟩ := of_bind hc
    obtain ⟨rfl, -⟩ := pair_inj hc
    rfl

theorem removeSkippedBlocks_latent (hm : m.isDsaLatent = true) {tt : Int}
    (h : m.removeSkippedBlocks po e tt = .ok (e', ps')) : e' = e := by
  have hk := Manager.isDsaLatent_iff.mp hm
  unfold Manager.removeSkippedBlocks at h
  rw [hk] at h
  exact (pair_inj h).1.symm

theorem needed_latent (hm : m.isDsaLatent = true) {cs : Nat → List BlockKey} {n : Int}
    (h : needed cs d m po e = .ok (n, e', ps')) :
    e' = if d.compact then e.marked d.totalComputedTokens else e := by
  have hk := Manager.isDsaLatent_iff.mp hm
  unfold needed at h
  rw [if_neg (by simp [hk]), hm, Bool.and_true] at h
  split at h
  · rename_i hc
    obtain ⟨-, hr⟩ := pair_inj h
    rw [if_pos hc]
    exact (Prod.mk.inj hr).1.symm
  · rename_i hc
    obtain ⟨x, -, h⟩ := of_bind h
    obtain ⟨-, hr⟩ := pair_inj h
    rw [if_neg hc]
    exact (Prod.mk.inj hr).1.symm

def Manager.releaseEnd (m : Manager) (e : Entry) (committedEnd : Int) : Nat :=
  min (committedEnd / m.blockSize).toNat e.blocks.length

theorem Manager.releaseEnd_eq_zero (h : ce ≤ 0 ∨ e.blocks = []) : m.releaseEnd e ce = 0 := by
  unfold Manager.releaseEnd
  rcases h with hn | he
  · have hd : ce / (m.blockSize : Int) ≤ 0 :=
      Int.ediv_nonpos_of_nonpos_of_neg hn (Int.natCast_pos.mpr m.blockSize_pos)
    omega
  · rw [he]
    exact Nat.min_zero _

theorem getD_released {st sp : Nat} (hle : st ≤ sp) (hs : sp ≤ t.length) (i : Nat) :
    (Manager.released t st sp).getD i 0 = if st ≤ i ∧ i < sp then 0 else t.getD i 0 := by
  have hf : (t.take st).length = st := by
    rw [length_take]
    omega
  have hmid : (t.take st ++ replicate (sp - st) 0).length = sp := by
    rw [length_append, hf, length_replicate]
    omega
  unfold Manager.released
  by_cases hi : i < sp
  · rw [getD_append _ _ _ _ (by omega)]
    by_cases hi' : i < st
    · rw [getD_append _ _ _ _ (by omega), if_neg (by omega), getD_eq_getElem?_getD,
        getElem?_take_of_lt hi', ← getD_eq_getElem?_getD]
    · rw [getD_append_right _ _ _ _ (by omega), if_pos (by omega), getD_eq_getElem?_getD,
        getElem?_replicate]
      split <;> rfl
  · rw [getD_append_right _ _ _ _ (by omega), if_neg (by omega), hmid,
      getD_eq_getElem?_getD, getElem?_drop, ← getD_eq_getElem?_getD]
    congr 1
    omega

theorem freeBlocks_nil {g : Nat} : po.freeBlocks g [] = .ok po := by
  have hp : ∀ p : BlockPool, p.freeBlocks [] = p := fun p => by
    simp [BlockPool.freeBlocks, FreeKVCacheBlockQueue.appendN]
  cases po with
  | one p => rw [Pools.freeBlocks, hp]
  | perGroup ps => rw [Pools.freeBlocks, hp, Function.update_eq_self]
  | shared ow order s => rfl

/-- **A release**: rows from the scratch rows on up to its end become null, and are freed. The
    frontier of a compact request moves up to the end. -/
theorem removeSaved_latent {n : Nat}
    (h : m.removeSavedDecodeWindowBlocks po e ce = .ok (n, e', ps')) :
    if ce ≤ 0 ∨ e.blocks = [] then e' = e ∧ ps' = po else
      (m.blockSize : Int) ∣ ce ∧
      e'.blocks.length = e.blocks.length ∧
      (∀ i, e'.row i = if m.scratchBlocks ≤ i ∧ i < m.releaseEnd e ce then 0 else e.row i) ∧
      e'.compactPrefixTokens = e.compactPrefixTokens ∧
      e'.numCachedBlock = e.numCachedBlock ∧
      e'.compactReleasedBlocks = (if e.compactPrefixTokens.isSome then
        some (max (e.compactReleasedBlocks.getD 0) (m.releaseEnd e ce))
        else e.compactReleasedBlocks) ∧
      po.freeBlocks m.group (((e.blocks.take (m.releaseEnd e ce)).drop
        m.scratchBlocks).reverse.filter (· ≠ 0)) = .ok ps' := by
  unfold Manager.removeSavedDecodeWindowBlocks at h
  split at h
  · rename_i hs
    obtain ⟨-, rfl, rfl⟩ := triple_inj h
    rw [if_pos hs]
    exact ⟨rfl, rfl⟩
  · rename_i hs
    rw [if_neg hs]
    obtain ⟨ha, h⟩ := ensure_bind_eq_ok.mp h
    have hst : m.releaseEnd e ce ≤ e.blocks.length := Nat.min_le_right _ _
    have hma : ((e.compactPrefixTokens.map fun _ =>
        max (e.compactReleasedBlocks.getD 0) (m.releaseEnd e ce : Int)) <|>
          e.compactReleasedBlocks) = (if e.compactPrefixTokens.isSome then
        some (max (e.compactReleasedBlocks.getD 0) (m.releaseEnd e ce))
        else e.compactReleasedBlocks) := by
      cases e.compactPrefixTokens <;> rfl
    refine ⟨Int.dvd_of_emod_eq_zero ha, ?_⟩
    dsimp only at h
    split at h
    · rename_i hle
      obtain ⟨-, rfl, rfl⟩ := triple_inj h
      refine ⟨rfl, fun i => ?_, rfl, rfl, hma, ?_⟩
      · have he : m.releaseEnd e ce ≤ m.scratchBlocks := hle
        rw [if_neg (by omega)]
        rfl
      · rw [drop_eq_nil_of_le (by rw [length_take]; exact (Nat.min_le_left _ _).trans hle)]
        exact freeBlocks_nil
    · rename_i hlt
      obtain ⟨ps₁, hf, h⟩ := of_bind h
      obtain ⟨-, rfl, rfl⟩ := triple_inj h
      have he : m.scratchBlocks < m.releaseEnd e ce := Nat.not_le.mp hlt
      refine ⟨?_, fun i => getD_released e.blocks he.le hst i, rfl, rfl, hma, hf⟩
      show (Manager.released e.blocks m.scratchBlocks (m.releaseEnd e ce)).length = _
      simp only [Manager.released, length_append, length_take, length_replicate, length_drop]
      omega

end Rows

/-! ## 5. A whole call -/

section Calls

variable {c : Config} {s s' : State} {req : Request} {a : Config.SlotArgs} {t n : Int}
  {r r' : RequestId} {d : Config.Demand} {en : Bool} {g : Nat}

def Entry.admitted (e : Entry) (d : Config.Demand) : Entry :=
  if d.compact then e.marked d.totalComputedTokens else e

variable (hm : m ∈ c.managers)
include hm

variable (hlatent : m.isDsaLatent = true)
include hlatent

theorem removeSkippedBlocks_entry (h : c.removeSkippedBlocks r t s = .ok s') :
    s'.entries (m.group, r) = s.entries (m.group, r) := by
  obtain ⟨x, hl, rfl⟩ := map_eq_ok.mp h
  obtain ⟨po, u, ps', -, hc⟩ := forManagers_at (fun _ _ _ _ _ _ hc =>
    ((Manager.removeSkippedBlocks_releases (quiet_eq_ok.mp hc)).steps []).later)
      hl c.groups_nodup hm
  exact removeSkippedBlocks_latent hlatent (quiet_eq_ok.mp hc)

theorem hasEnoughFreeBlocks_entry (h : c.hasEnoughFreeBlocks r d s = .ok (en, s')) :
    s'.entries (m.group, r) = (s.entries (m.group, r)).admitted d := by
  obtain ⟨⟨pg, s₁⟩, hl, hr⟩ := of_bind h
  obtain ⟨-, rfl⟩ := pair_inj hr
  obtain ⟨po, n, ps', -, hc⟩ := forManagers_at (fun _ _ _ _ _ _ hc =>
    (needed_frame hc).1 ▸ .refl) hl c.groups_nodup hm
  exact needed_latent hlatent hc

theorem cacheBlocks_entry (h : c.cacheBlocks req n s = .ok s') : ∃ nc,
    s'.entries (m.group, req.requestId)
      = { s.entries (m.group, req.requestId) with numCachedBlock := nc } := by
  unfold cacheBlocks at h
  split at h
  · obtain ⟨⟨keys, s₁⟩, hl, h⟩ := of_bind h
    obtain rfl := pure_eq_ok.mp h
    obtain ⟨po, keys', ps', -, hc⟩ := forManagers_at (fun _ _ _ _ _ _ hc =>
      (Manager.cacheBlocks_steps hc).later) hl c.groups_nodup hm
    exact ⟨_, cacheBlocks_latent hlatent hc⟩
  · obtain rfl := ok.inj h
    exact ⟨_, rfl⟩

/-- **What a served `allocate_slots` does to the latent entry**: the admission test, the first rows,
    the new rows, each on live pools with the bundles of the start. -/
theorem allocateSlots_latent (hl : s.pools.Live) {ids : List (List BlockId)}
    (h : c.allocateSlots req a s = .ok (some ids, s')) : let d := c.demand req a
    ∃ e ps₁ ps₂ ps₂' new, ps₁.Live ∧ ps₂.Live ∧
      ps₁.blocksPerBundle m.group = s.pools.blocksPerBundle m.group ∧
      ps₂.blocksPerBundle m.group = s.pools.blocksPerBundle m.group ∧
      (e = (s.entries (m.group, req.requestId)).admitted d ∨ ∃ u ps₁',
        takeComputed d m ps₁ ((s.entries (m.group, req.requestId)).admitted d) = .ok (u, e, ps₁')) ∧
      ∃ e', takeNew d m ps₂ e = .ok (new, e', ps₂') ∧ ∃ nc,
        s'.entries (m.group, req.requestId) = { e' with numCachedBlock := nc } := by
  intro d
  obtain ⟨s₁, s₂, s₃, s₄, hs, he, hc, hn, hls⟩ := allocateSlots_stages h
  have hentry₂ : s₂.entries (m.group, req.requestId)
      = (s.entries (m.group, req.requestId)).admitted d := by
    rw [hasEnoughFreeBlocks_entry hm hlatent he, removeSkippedBlocks_entry hm hlatent hs]
  obtain ⟨hv₂, hb₂⟩ : s₂.pools.Live ∧
    ∀ g, s₂.pools.blocksPerBundle g = s.pools.blocksPerBundle g := by
    rw [hasEnoughFreeBlocks_pools he]
    exact (removeSkippedBlocks_steps [] hs).later hl
  obtain ⟨hv₃, hb₃⟩ := (allocateComputed_steps [] hc).later hv₂
  obtain ⟨ps₂, new, ps₂', hlt, hca⟩ := forManagers_at (fun _ _ _ _ _ _ hca =>
    ((Manager.takeNew_takes hca).steps []).later) hn c.groups_nodup hm
  obtain ⟨hl', hb'⟩ := hlt hv₃
  have hcc : ∃ nc, s'.entries (m.group, req.requestId)
      = { s₄.entries (m.group, req.requestId) with numCachedBlock := nc } := by
    rcases hls with rfl | hch
    · exact ⟨_, rfl⟩
    · exact cacheBlocks_entry hm hlatent hch
  have hla := (hb' m.group).trans ((hb₃ m.group).trans (hb₂ m.group))
  unfold allocateComputed at hc
  split at hc
  · obtain ⟨x, hlo, rfl⟩ := map_eq_ok.mp hc
    obtain ⟨ps₁, u, ps₁', ht₁, ha₁⟩ := forManagers_at (fun _ _ _ _ _ _ hca =>
      (Manager.takeComputed_steps [] hca).later) hlo c.groups_nodup hm
    obtain ⟨hv₁, hb₁⟩ := ht₁ hv₂
    rw [hentry₂] at ha₁
    exact ⟨_, ps₁, ps₂, ps₂', new, hv₁, hl', (hb₁ m.group).trans (hb₂ m.group), hla,
      .inr ⟨u, ps₁', ha₁⟩, _, hca, hcc⟩
  · obtain rfl := ok.inj hc
    exact ⟨_, ps₂, ps₂, ps₂', new, hl', hl', hla, hla, .inl hentry₂, _, hca, hcc⟩

omit hlatent

omit hm

/-! ## 6. A step -/

def World.latent (w : World) (m : Manager) (r : RequestId) : Entry := w.state.entries (m.group, r)

/-- The operation can change the latent rows of the request or its marks. -/
def Op.moves (r : RequestId) : Op → Prop
  | allocateSlots r' _ => r' = r
  | removeSavedDecodeWindowBlocks r' _ => r' = r
  | free r' => r' = r
  | _ => False

inductive LatentStep (c : Config) (m : Manager) (r : RequestId) (w : World) : Op → Entry → Prop
  | other (op : Op) (numCached : Option Nat) : ¬op.moves r →
      LatentStep c m r w op { w.latent m r with numCachedBlock := numCached }
  | refused (a : Config.SlotArgs) : LatentStep c m r w (.allocateSlots r a)
      ((w.latent m r).admitted (c.demand (w.requests r) a))
  | served (a : Config.SlotArgs) (e₁ e₂ : Entry) (pools₁ pools₂
    pools₂' : Pools) (new : List BlockId)
      (numCached : Option Nat) (hlive₁ : pools₁.Live) (hlive₂ : pools₂.Live)
      (hbundle₁ : pools₁.blocksPerBundle m.group = w.state.pools.blocksPerBundle m.group)
      (hbundle₂ : pools₂.blocksPerBundle m.group = w.state.pools.blocksPerBundle m.group)
      (hfirst : e₁ = (w.latent m r).admitted (c.demand (w.requests r) a) ∨ ∃ u pools₁',
        Config.takeComputed (c.demand (w.requests r) a) m pools₁
          ((w.latent m r).admitted (c.demand (w.requests r) a)) = .ok (u, e₁, pools₁'))
      (hnew : Config.takeNew (c.demand (w.requests r) a) m pools₂ e₁ = .ok (new, e₂, pools₂')) :
      LatentStep c m r w (.allocateSlots r a) { e₂ with numCachedBlock := numCached }
  | released (committedEnd : Int) (n : Nat) (e' : Entry) (pools pools' : Pools)
      (hcall : m.removeSavedDecodeWindowBlocks pools (w.latent m r) committedEnd
        = .ok (n, e', pools')) :
      LatentStep c m r w (.removeSavedDecodeWindowBlocks r committedEnd) e'
  | freed : LatentStep c m r w (.free r) {}

theorem forManagers_other {α : Type} {ca : Call α} {ms : List Manager} {as : List α} (hne : r' ≠ r)
    (h : forManagers r' ca ms s = .ok (as, s')) : s'.entries (g, r) = s.entries (g, r) :=
  forManagers_frame h fun heq => absurd heq.symm hne

theorem removeSkippedBlocks_other (hne : r' ≠ r) (h : c.removeSkippedBlocks r' t s = .ok s') :
    s'.entries (g, r) = s.entries (g, r) := by
  obtain ⟨x, hl, rfl⟩ := map_eq_ok.mp h
  exact forManagers_other hne hl

theorem hasEnoughFreeBlocks_other (hne : r' ≠ r) (h : c.hasEnoughFreeBlocks r' d s = .ok (en, s')) :
    s'.entries (g, r) = s.entries (g, r) := by
  obtain ⟨⟨pg, s₁⟩, hl, hr⟩ := of_bind h
  obtain ⟨-, rfl⟩ := pair_inj hr
  exact forManagers_other hne hl

theorem cacheBlocks_other (hne : req.requestId ≠ r) (h : c.cacheBlocks req n s = .ok s') :
    s'.entries (g, r) = s.entries (g, r) := by
  unfold cacheBlocks at h
  split at h
  · obtain ⟨⟨keys, s₁⟩, hl, h⟩ := of_bind h
    obtain rfl := pure_eq_ok.mp h
    show s₁.entries (g, r) = s.entries (g, r)
    exact forManagers_other hne hl
  · obtain rfl := ok.inj h
    rfl

theorem allocateSlots_other {re : Option (List (List BlockId))} (hne : req.requestId ≠ r)
    (h : c.allocateSlots req a s = .ok (re, s')) : s'.entries (g, r) = s.entries (g, r) := by
  cases re with
  | none =>
    obtain ⟨-, s₁, hs, he⟩ := allocateSlots_refused.mp h
    exact (hasEnoughFreeBlocks_other hne he).trans (removeSkippedBlocks_other hne hs)
  | some ids =>
    obtain ⟨s₁, s₂, s₃, s₄, hs, he, hc, hn, hl⟩ := allocateSlots_stages h
    have h₂ : s₂.entries (g, r) = s.entries (g, r) :=
      (hasEnoughFreeBlocks_other hne he).trans (removeSkippedBlocks_other hne hs)
    have h₃ : s₃.entries (g, r) = s₂.entries (g, r) := by
      unfold allocateComputed at hc
      split at hc
      · obtain ⟨x, hlo, rfl⟩ := map_eq_ok.mp hc
        exact forManagers_other hne hlo
      · exact ok.inj hc ▸ rfl
    have h₄ : s₄.entries (g, r) = s.entries (g, r) :=
      (forManagers_other hne hn).trans (h₃.trans h₂)
    rcases hl with rfl | hca
    · exact h₄
    · exact (cacheBlocks_other hne hca).trans h₄

theorem Op.run_latent {w w' : World} {op : Op} (hm : m ∈ c.managers)
    (hlatent : m.isDsaLatent = true)
    (hi : ∀ r, (w.requests r).requestId = r) (hli : w.state.pools.Live) (h : op.run c w = .ok w') :
    LatentStep c m r w op (w'.latent m r) := by
  have hs : ∀ op : Op, ¬op.moves r → w'.latent m r = w.latent m r →
      LatentStep c m r w op (w'.latent m r) := fun op hop heq => by
    rw [heq]
    exact .other op _ hop
  cases op with
  | allocateSlots r' a =>
    obtain ⟨⟨re, s'⟩, hc, rfl⟩ := map_eq_ok.mp h
    by_cases hr : r' = r
    · subst hr
      cases re with
      | none =>
        obtain ⟨-, s₁, hsk, hen⟩ := allocateSlots_refused.mp hc
        have he := hasEnoughFreeBlocks_entry hm hlatent hen
        rw [removeSkippedBlocks_entry hm hlatent hsk, hi] at he
        show LatentStep c m r' w _ (s'.entries (m.group, r'))
        rw [he]
        exact .refused a
      | some ids =>
        obtain ⟨e₁, ps₁, ps₂, ps₂', new, hv₁, hv₂, hb₁, hb₂, hf, e₂, hn,
          nc, he⟩ := allocateSlots_latent hm hlatent hli hc
        rw [hi] at hf he
        show LatentStep c m r' w _ (s'.entries (m.group, r'))
        rw [he]
        exact .served a e₁ e₂ ps₁ ps₂ ps₂' new nc hv₁ hv₂ hb₁ hb₂ hf hn
    · exact hs _ hr (allocateSlots_other (by rwa [hi]) hc)
  | cacheBlocks r' n =>
    obtain ⟨s', hc, rfl⟩ := map_eq_ok.mp h
    by_cases hr : r' = r
    · subst hr
      obtain ⟨nc, he⟩ := cacheBlocks_entry hm hlatent hc
      rw [hi] at he
      show LatentStep c m r' w _ (s'.entries (m.group, r'))
      rw [he]
      exact .other _ _ not_false
    · exact hs _ not_false (cacheBlocks_other (by rwa [hi]) hc)
  | removeSkippedBlocks r' n =>
    obtain ⟨s', hc, rfl⟩ := map_eq_ok.mp h
    refine hs _ not_false ?_
    by_cases hr : r' = r
    · subst hr
      exact removeSkippedBlocks_entry hm hlatent hc
    · exact removeSkippedBlocks_other hr hc
  | removeSavedDecodeWindowBlocks r' n =>
    obtain ⟨⟨k, s'⟩, hc, rfl⟩ := map_eq_ok.mp h
    obtain ⟨⟨ns, s₁⟩, hl, hret⟩ := of_bind hc
    obtain ⟨-, rfl⟩ := pair_inj hret
    by_cases hr : r' = r
    · subst hr
      have hg : ((c.managers.filter (·.isDsaLatent)).map (·.group)).Nodup :=
        c.groups_nodup.sublist ((filter_sublist).map _)
      obtain ⟨po, k, ps', -, ho⟩ := forManagers_at (fun _ _ _ _ _ _ hc =>
        ((Manager.removeSavedDecodeWindowBlocks_releases hc).steps []).later)
          hl hg (mem_filter.mpr ⟨hm, hlatent⟩)
      exact .released n k _ po ps' ho
    · exact hs _ hr (forManagers_other hr hl)
  | free r' =>
    obtain ⟨s', hc, rfl⟩ := map_eq_ok.mp h
    obtain ⟨x, hl, rfl⟩ := map_eq_ok.mp hc
    by_cases hr : r' = r
    · subst hr
      obtain ⟨po, u, ps', -, ho⟩ := forManagers_at (fun _ _ _ _ _ _ hc =>
        ((Manager.free_releases (quiet_eq_ok.mp hc)).steps []).later) hl c.groups_nodup hm
      obtain ⟨ps₁, -, hret⟩ := bind_eq_ok.mp (quiet_eq_ok.mp ho)
      have he := (pair_inj hret).1
      show LatentStep c m r' w _ (x.2.entries (m.group, r'))
      rw [← he]
      exact .freed
    · exact hs _ hr (forManagers_other hr hl)
  | newStepStarts =>
    obtain rfl := ok.inj h
    exact hs _ not_false rfl
  | setRequest r' req =>
    obtain rfl := ok.inj h
    exact hs _ not_false rfl

theorem ModeReachable.ids {ok : World → Op → Prop} {w : World} (h : ModeReachable c ok w) :
    ∀ r, (w.requests r).requestId = r := by
  induction h with
  | start hi _ => exact hi
  | step op _ ha _ hrun ih =>
    cases op with
    | setRequest r req =>
      obtain rfl := Except.ok.inj hrun
      intro r'
      by_cases hr : r' = r
      · subst hr
        simpa using ha.1
      · simpa [hr] using ih r'
    | newStepStarts =>
      obtain rfl := Except.ok.inj hrun
      exact ih
    | _ =>
      obtain ⟨x, -, rfl⟩ := map_eq_ok.mp hrun
      exact ih

end Calls

end VllmDual.Core
