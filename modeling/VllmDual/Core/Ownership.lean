/-
  Subject:   EXCLUSIVE OWNERSHIP OF BLOCKS OVER WHOLE RUNS OF THE KV CACHE MANAGER.

  Several groups share one pool. `allocate_new_computed_blocks` serves them one after the other:
  a group touches its hits and at once pops blocks for external tokens, before the next group has
  touched its own. Hits that nobody holds are still queued then, and can be popped:

  * `blocks_exclusive` -- in a run whose allocations are clear, every state has exclusive
    ownership; `poppedHit_shared` -- a run that is not clear and has one block in two groups.
-/
import VllmDual.Core.Moves
import VllmDual.Core.Hits

namespace VllmDual.Core

open Outcome Ceil Manager Function List Config State Except

/-! ## 1. What a group touches and pops -/

namespace Manager

variable (m : Manager)

/-- The hits that `allocate_new_computed_blocks` touches, for a request that is running or not. -/
def touchedHits (d : Config.Demand) (running : Bool) : List BlockId :=
  if running ∨ m.kind = .crossAttention ∨ (d.compact && m.isDsaLatent) then
    []
  else
    (m.unskipped (d.newComputedBlocks m.group) d.totalComputedTokens d.numExternalComputedTokens).1

/-- How many blocks `allocate_new_computed_blocks` pops. -/
def poppedCount (d : Config.Demand) (running : Bool) : Int :=
  if running ∨ m.kind = .crossAttention then
    0
  else if d.compact && m.isDsaLatent then
    roundUp m.scratchBlocks 1
  else
    let rest := m.unskipped (d.newComputedBlocks m.group) d.totalComputedTokens
      d.numExternalComputedTokens
    let skipped := (m.getNumSkippedTokens d.totalComputedTokens / m.blockSize).toNat
    if 0 < rest.2 then
      cdiv d.totalComputedTokens m.blockSize - (replicate skipped 0 ++ rest.1).length
    else
      0

end Manager

section TakeComputed

variable {settings : Bool × Nat} {hs : TableKey → Set (List BlockHash)} {p : BlockPool}
  {tables : TableKey → List BlockId} {k : TableKey} {m : Manager} {d : Config.Demand} {e e' : Entry}
  {ps' : Pools}

variable (h : Own settings hs p tables)
include h

theorem touchComputed_spec {bs : List BlockId} {S : Set (List BlockHash)}
    (hh : HitsOf S m.group p bs) (hr : m.touchComputed (.one p) bs = .ok ps') :
    ps' = .one (p.touched bs) := by
  unfold touchComputed at hr
  split at hr
  · obtain ⟨p', ht, rfl⟩ := one_touch.mp hr
    rw [h.touch_eq hh] at ht
    rw [ok.inj ht]
  · obtain ⟨rfl, hr⟩ := ensure_bind_eq_ok.mp hr
    rw [touched_nil, pure_eq_ok.mp hr]

theorem baseAllocateNewComputedBlocks_own (hk : k.1 = m.group) (he : tables k = e.blocks)
    (hnew : e.running = false) {hits : List BlockId} {l' ex : Int}
    (hh : HitsOf (hs k) m.group p (m.unskipped hits (l' + ex) ex).1)
    (hnd : (live (m.unskipped hits (l' + ex) ex).1).Nodup)
    (hr : m.baseAllocateNewComputedBlocks (.one p) e hits l' ex = .ok (e', ps')) :
    let re := m.unskipped hits (l' + ex) ex
    let skipped := (m.getNumSkippedTokens (l' + ex) / m.blockSize).toNat
    let n := if 0 < re.2 then
        cdiv (l' + ex) m.blockSize - (replicate skipped 0 ++ re.1).length
      else 0
    ps' = .one ((p.touched re.1).gotten n).2 ∧
      Own settings hs ((p.touched re.1).gotten n).2 (update tables k e'.blocks) := by
  intro re skipped n
  simp only [baseAllocateNewComputedBlocks, hnew, Bool.false_eq_true, if_false] at hr
  obtain ⟨hem, hr⟩ := ensure_bind_eq_ok.mp hr
  obtain ⟨ps₁, hto, hr⟩ := of_bind hr
  obtain rfl := touchComputed_spec h hh hto
  -- after the touch the table has the skipped rows and the hits
  have ht : Own settings hs (p.touched re.1) (update tables k (replicate skipped 0 ++ re.1)) :=
    h.touch (by rw [he, hem, live_nil]) hnd (hk ▸ hh) (h.touch_eq hh)
    (by rw [live_append, live_replicate_zero, nil_append])
  unfold allocateExternal at hr
  split at hr
  · rename_i hext
    obtain ⟨⟨ids, ps⟩, hpop, hret⟩ := of_bind hr
    obtain ⟨rfl, rfl⟩ := pair_inj hret
    obtain ⟨p', hg, rfl⟩ := one_getNewBlocks.mp hpop
    have hn : n = cdiv (l' + ex) m.blockSize - (replicate skipped 0 ++ re.1).length := if_pos hext
    have hp' := ((getNewBlocks_spec ht.pool).mp hg).2
    have ho : Own settings hs p' (update (update tables k
        (replicate skipped 0 ++ re.1)) k (replicate skipped 0 ++ re.1 ++ ids)) :=
      ht.take hg (by rw [update_self, live_append]; exact perm_append_comm)
    rw [update_idem] at ho
    have hp : p' = ((p.touched re.1).gotten n).2 := by
      rw [hn]
      exact congrArg Prod.snd hp'
    exact ⟨by rw [hp], hp ▸ ho⟩
  · rename_i hext
    obtain ⟨rfl, rfl⟩ := pair_inj hr
    have hn : n = 0 := if_neg hext
    rw [hn, gotten_zero]
    exact ⟨rfl, ht⟩

theorem takeComputed_own (hk : k.1 = m.group) (he : tables k = e.blocks)
    (hh : HitsOf (hs k) m.group p (m.touchedHits d e.running))
    (hnd : (live (m.touchedHits d e.running)).Nodup) {u : Unit}
    (hr : takeComputed d m (.one p) e = .ok (u, e', ps')) :
    ps' = .one ((p.touched (m.touchedHits d e.running)).gotten (m.poppedCount d e.running)).2 ∧
      Own settings hs ((p.touched (m.touchedHits d e.running)).gotten (m.poppedCount d e.running)).2
        (update tables k e'.blocks) := by
  obtain ⟨⟨e₁, ps₁⟩, hc, hret⟩ := of_bind hr
  obtain ⟨-, rfl, rfl⟩ := triple_inj hret
  clear hr
  -- a request that is already running, or cross attention: nothing is touched or popped
  have hsk : m.touchedHits d e.running = [] → m.poppedCount d e.running = 0 →
      ps₁ = .one p → e₁ = e →
      ps₁ = .one ((p.touched (m.touchedHits d e.running)).gotten (m.poppedCount d e.running)).2 ∧
        Own settings hs ((p.touched (m.touchedHits d e.running)).gotten
          (m.poppedCount d e.running)).2 (update tables k e₁.blocks) := by
    rintro ht hn rfl rfl
    rw [ht, hn, touched_nil, gotten_zero, ← he, update_eq_self]
    exact ⟨rfl, h⟩
  split at hc
  · rename_i hco
    by_cases hnew : e.running = true
    · simp only [allocateNewComputedBlocksCompactExternal, hnew, if_true] at hc
      replace hc := of_ensure hc
      obtain ⟨rfl, rfl⟩ := pair_inj hc
      exact hsk (by simp [touchedHits, hnew]) (by simp [poppedCount, hnew]) rfl rfl
    · simp only [allocateNewComputedBlocksCompactExternal, hnew, Bool.false_eq_true, if_false] at hc
      replace hc := of_ensure (of_ensure hc)
      obtain ⟨⟨ids, ps⟩, hp, hc⟩ := of_bind hc
      replace hc := of_ensure hc
      obtain ⟨hem, hc⟩ := ensure_bind_eq_ok.mp hc
      obtain ⟨rfl, rfl⟩ := pair_inj hc
      obtain ⟨p', hg, rfl⟩ := one_getNewBlocks.mp hp
      have hl : m.isDsaLatent = true := (Bool.and_eq_true _ _ ▸ hco).2
      have hcr : m.kind ≠ .crossAttention := by
        intro hki
        simp [isDsaLatent, hki] at hl
      have ht : m.touchedHits d e.running = [] := by simp [touchedHits, hco]
      have hn : m.poppedCount d e.running = roundUp m.scratchBlocks 1 := by
        simp only [poppedCount, hnew, hcr, hco, Bool.false_eq_true, or_self, if_false, if_true]
      have hp' : p' = (p.gotten (roundUp m.scratchBlocks 1)).2 :=
        congrArg Prod.snd ((getNewBlocks_spec h.pool).mp hg).2
      rw [ht, hn, touched_nil, ← hp']
      exact ⟨rfl, h.take hg (by simp [he, hem])⟩
  · rename_i hco
    unfold allocateNewComputedBlocks at hc
    split at hc
    · rename_i hki
      replace hc := of_ensure hc
      obtain ⟨rfl, rfl⟩ := pair_inj hc
      exact hsk (by simp [touchedHits, hki]) (by simp [poppedCount, hki]) rfl rfl
    · rename_i hki
      by_cases hnew : e.running = true
      · simp only [baseAllocateNewComputedBlocks, hnew, if_true] at hc
        replace hc := of_ensure hc
        obtain ⟨rfl, rfl⟩ := pair_inj hc
        exact hsk (by simp [touchedHits, hnew]) (by simp [poppedCount, hnew]) rfl rfl
      · have hcr : m.kind ≠ .crossAttention := hki
        have ht : m.touchedHits d e.running = (m.unskipped (d.newComputedBlocks m.group)
            d.totalComputedTokens d.numExternalComputedTokens).1 := by
          simp only [touchedHits, hnew, hcr, hco, Bool.false_eq_true, or_self, if_false]
        have hb := baseAllocateNewComputedBlocks_own h hk he (Bool.eq_false_iff.mpr hnew)
          (by rw [ht] at hh; exact hh) (by rw [ht] at hnd; exact hnd) hc
        rw [ht]
        simp only [poppedCount, hnew, hcr, hco, Bool.false_eq_true, or_self, if_false]
        exact hb

end TakeComputed

/-! ## 2. The loops over the groups -/

theorem State.table_put (s : State) (k : TableKey) (e : Entry) (ps : Pools) :
    (s.put k e ps).table = update s.table k e.blocks := by
  funext j
  by_cases hj : j = k
  · subst hj
    simp [table, put]
  · simp [table, put, hj]

/-- No group pops, for external tokens, a hit that a later group is about to touch. -/
def Config.popsClear (d : Config.Demand) (running : Nat → Bool) : List Manager → List BlockId → Bool
  | [], _ => true
  | m :: rest, queue =>
    let queue := queue.filter (· ∉ m.touchedHits d (running m.group))
    let n := (m.poppedCount d (running m.group)).toNat
    rest.all (fun m' => (m'.touchedHits d (running m'.group)).all (· ∉ queue.take n)) &&
      popsClear d running rest (queue.drop n)

section Loops

variable {ss : Bool × Nat} {hs : TableKey → Set (List BlockHash)} {p : BlockPool}
  {r : RequestId} {ms : List Manager} {s s' : State}

theorem forManagers_invariant {α : Type} {call : Call α} {as : List α} (I : State → Prop)
    (hc : ∀ m ∈ ms, ∀ s a e ps, I s → call m s.pools (s.entries (m.group, r)) = .ok (a, e, ps) →
      I (s.put (m.group, r) e ps))
    (hrun : forManagers r call ms s = .ok (as, s')) (h : I s) : I s' := by
  induction ms generalizing s as with
  | nil =>
    obtain ⟨-, rfl⟩ := pair_inj hrun
    exact h
  | cons m re ih =>
    obtain ⟨⟨a, e, ps⟩, ho, hrun⟩ := of_bind hrun
    obtain ⟨⟨as', s₁⟩, hr, hret⟩ := of_bind hrun
    obtain ⟨-, rfl⟩ := pair_inj hret
    exact ih (fun m' hm' => hc m' (mem_cons_of_mem _ hm')) hr (hc m mem_cons_self s a e ps h ho)

theorem takeComputed_run {d : Config.Demand} {ru : Nat → Bool} {us : List Unit}
    (hg : (ms.map (·.group)).Nodup) (hru : ∀ m ∈ ms, ru m.group = (s.entries (m.group, r)).running)
    (hh : ∀ m ∈ ms, HitsOf (hs (m.group, r)) m.group p (m.touchedHits d (ru m.group)))
    (hnd : ∀ m ∈ ms, (live (m.touchedHits d (ru m.group))).Nodup)
    (hc : popsClear d ru ms p.queue.blocks = true)
    (hrun : forManagers r (takeComputed d) ms s = .ok (us, s')) (hp : s.pools = .one p)
    (h : Own ss hs p s.table) : ∃ p', s'.pools = .one p' ∧ Own ss hs p' s'.table := by
  induction ms generalizing s p us with
  | nil =>
    obtain ⟨-, rfl⟩ := pair_inj hrun
    exact ⟨p, hp, h⟩
  | cons m re ih =>
    obtain ⟨⟨u, e, ps⟩, hone, hrun⟩ := of_bind hrun
    obtain ⟨⟨us', s₁⟩, hre, hret⟩ := of_bind hrun
    obtain ⟨-, rfl⟩ := pair_inj hret
    rw [hp] at hone
    have hm : m ∈ m :: re := mem_cons_self
    have hr := hru m hm
    obtain ⟨hpo, ho⟩ := takeComputed_own (k := (m.group, r)) h rfl rfl (hr ▸ hh m hm)
      (hr ▸ hnd m hm) hone
    rw [← hr] at hpo ho
    subst hpo
    rw [← table_put s _ e (.one _)] at ho
    simp only [popsClear, Bool.and_eq_true, all_eq_true, decide_eq_true_eq] at hc
    obtain ⟨hn, hg⟩ := nodup_cons.mp hg
    refine ih hg (fun m' hm' => ?_) (fun m' hm' b hb hb0 => ?_)
      (fun m' hm' => hnd m' (mem_cons_of_mem _ hm')) hc.2 hre rfl ho
    · -- another group's entry is untouched
      have hne : (m'.group, r) ≠ (m.group, r) := by
        intro heq
        exact hn (mem_map.mpr ⟨m', hm', congrArg Prod.fst heq⟩)
      simp only [put, update_of_ne hne]
      exact hru m' (mem_cons_of_mem _ hm')
    · -- a later hit was not popped, so it keeps its hash
      obtain ⟨hash, hin, hk⟩ := hh m' (mem_cons_of_mem _ hm') b hb hb0
      exact ⟨hash, hin, (if_neg (hc.1 m' hm' b hb)).trans hk⟩

end Loops

/-! ## 3. The operations -/

def Config.hashesOf (c : Config) (requests : RequestId → Request) (k : TableKey) :
    Set (List BlockHash) :=
  { h | ∃ m ∈ c.managers, m.group = k.1 ∧
      ∃ i, blockHashAt (requests k.2).blockHashes (m.blockSize / c.hashBlockSize) i = some h }

def Config.Owned (c : Config) (requests : RequestId → Request) (s : State) : Prop :=
  ∃ p, s.pools = .one p ∧ Own (c.enableCaching, c.hashBlockSize) (c.hashesOf requests) p s.table

section Operations

variable {c : Config} {rs : RequestId → Request} {s s' : State} {r : RequestId} {ps' : Pools}
  {α : Type} {ms : List Manager} {tt : Int} {d : Config.Demand} {en : Bool} {call : Call α}
  {as : List α}

theorem Config.groups_nodup (c : Config) : (c.managers.map (·.group)).Nodup := by
  rw [c.managers_group]
  exact nodup_range

theorem quiet_eq_ok {x : Except CoreError (Entry × Pools)} {u : Unit} {e' : Entry} :
    quiet x = .ok (u, e', ps') ↔ x = .ok (e', ps') := by
  cases x <;> simp [quiet, bind, Except.bind, pure, Except.pure]

theorem Config.Owned.loop (h : c.Owned rs s) (hr : forManagers r call ms s = .ok (as, s'))
    (hc : ∀ m ∈ ms, ∀ (p : BlockPool) (e : Entry) (a : α) (e' : Entry) (ps' : Pools),
      p.settings = (c.enableCaching, c.hashBlockSize) → call m (.one p) e = .ok (a, e', ps') →
        Reaches (c.hashesOf rs (m.group, r)) m.group p e.blocks ps' e'.blocks) :
    c.Owned rs s' := by
  refine forManagers_invariant (c.Owned rs) (fun m hm s a e ps ⟨p, hp, h⟩ ho => ?_) hr h
  rw [hp] at ho
  obtain ⟨p₁, rfl, hmo⟩ := hc m hm p _ a e ps h.settings ho
  have hown := h.moves (k := (m.group, r)) rfl hmo
  rw [← table_put s _ e (.one p₁)] at hown
  exact ⟨p₁, rfl, hown⟩

theorem removeSkippedBlocks_owned (hr : c.removeSkippedBlocks r tt s = .ok s') (h : c.Owned rs s) :
    c.Owned rs s' := by
  obtain ⟨x, hl, rfl⟩ := map_eq_ok.mp hr
  exact h.loop hl fun m _ p e a e' ps' _ hc =>
    (removeSkippedBlocks_releases (quiet_eq_ok.mp hc)).frees.reaches

theorem removeSaved_owned {ce : Int} {n : Nat}
    (hr : c.removeSavedDecodeWindowBlocks r ce s = .ok (n, s'))
    (h : c.Owned rs s) : c.Owned rs s' := by
  obtain ⟨⟨ns, s₁⟩, hl, hret⟩ := of_bind hr
  obtain ⟨-, rfl⟩ := pair_inj hret
  exact h.loop hl fun m _ p e a e' ps' _ hc =>
    (removeSavedDecodeWindowBlocks_releases hc).frees.reaches

theorem free_owned (hr : c.free r s = .ok s') (h : c.Owned rs s) : c.Owned rs s' := by
  obtain ⟨x, hl, rfl⟩ := map_eq_ok.mp hr
  exact h.loop hl fun m _ p e a e' ps' _ hc =>
    (free_releases (quiet_eq_ok.mp hc)).frees.reaches

theorem cacheBlocks_owned {nct : Int} (hid : (rs r).requestId = r)
    (hr : c.cacheBlocks (rs r) nct s = .ok s') (h : c.Owned rs s) :
    c.Owned rs s' := by
  unfold Config.cacheBlocks at hr
  split at hr
  · rename_i hc
    obtain ⟨⟨keys, s₁⟩, hl, hret⟩ := of_bind hr
    obtain rfl := pure_eq_ok.mp hret
    rw [hid] at hl
    show c.Owned rs s₁
    refine h.loop hl fun m hm p e a e' ps' hset hca => ?_
    obtain ⟨hen, hsi⟩ := Prod.mk.inj hset
    refine baseCacheBlocks_moves (fun i x hx => ⟨m, hm, rfl, i, ?_⟩) (hen.trans hc)
      (cacheBlocks_base hca)
    rwa [hsi] at hx
  · exact ok.inj hr ▸ h

theorem needed_frame {cs : Nat → List BlockKey} {m : Manager} {ps : Pools} {e e' : Entry}
    {n : Int} (hc : needed cs d m ps e = .ok (n, e', ps')) :
    ps' = ps ∧ e'.blocks = e.blocks ∧ e'.running = e.running := by
  unfold needed at hc
  split at hc
  · obtain ⟨x, -, hr⟩ := of_bind hc
    obtain ⟨-, rfl, rfl⟩ := triple_inj hr
    exact ⟨rfl, rfl, rfl⟩
  · split at hc
    · obtain ⟨-, rfl, rfl⟩ := triple_inj hc
      exact ⟨rfl, rfl, rfl⟩
    · obtain ⟨x, -, hr⟩ := of_bind hc
      obtain ⟨-, rfl, rfl⟩ := triple_inj hr
      exact ⟨rfl, rfl, rfl⟩

theorem hasEnoughFreeBlocks_owned (hr : c.hasEnoughFreeBlocks r d s = .ok (en, s'))
    (h : c.Owned rs s) : c.Owned rs s' := by
  obtain ⟨⟨pg, s₁⟩, hl, hret⟩ := of_bind hr
  obtain ⟨-, rfl⟩ := pair_inj hret
  refine h.loop hl fun m _ p e a e' ps' _ hc => ?_
  obtain ⟨rfl, hb, -⟩ := needed_frame hc
  rw [hb]
  exact .refl

theorem takeNew_owned {as : List (List BlockId)}
    (hr : forManagers r (takeNew d) c.managers s = .ok (as, s')) (h : c.Owned rs s) :
    c.Owned rs s' :=
  h.loop hr fun _ _ _ _ _ _ _ _ hc => (takeNew_takes hc).reaches

theorem forManagers_pools {R : Pools → Pools → Prop} (hr : ∀ x, R x x)
    (ht : ∀ x y z, R x y → R y z → R x z)
    (hc : ∀ m ps e a e' ps', call m ps e = .ok (a, e', ps') → R ps ps')
    (hrun : forManagers r call ms s = .ok (as, s')) : R s.pools s'.pools :=
  forManagers_invariant (fun t => R s.pools t.pools) (fun _ _ _ _ _ _ h ho =>
    ht _ _ _ h (hc _ _ _ _ _ _ ho)) hrun (hr _)

theorem hasEnoughFreeBlocks_pools (hr : c.hasEnoughFreeBlocks r d s = .ok (en, s')) :
    s'.pools = s.pools := by
  obtain ⟨⟨pg, s₁⟩, hl, hret⟩ := of_bind hr
  obtain ⟨-, rfl⟩ := pair_inj hret
  exact forManagers_pools (R := fun x y => y = x) (fun _ => rfl) (fun _ _ _ h h' => h'.trans h)
    (fun _ _ _ _ _ _ hc => (needed_frame hc).1) hl

theorem removeSkippedBlocks_hash {p p' : BlockPool} (hr : c.removeSkippedBlocks r tt s = .ok s')
    (hp : s.pools = .one p) (hp' : s'.pools = .one p') : p'.blockHash = p.blockHash := by
  obtain ⟨x, hl, rfl⟩ := map_eq_ok.mp hr
  have hf := forManagers_pools (R := fun x y => ∀ p, x = .one p →
      ∃ p', y = .one p' ∧ p'.blockHash = p.blockHash) (fun _ p h => ⟨p, h, rfl⟩)
    (fun _ _ _ h h' p hp => by
      obtain ⟨p₁, hp₁, heq₁⟩ := h p hp
      obtain ⟨p₂, hp₂, heq₂⟩ := h' p₁ hp₁
      exact ⟨p₂, hp₂, heq₂.trans heq₁⟩)
    (fun m ps e a e' ps' hc p hp => by
      subst hp
      have hfr : Frees ∅ m.group p e.blocks ps' e'.blocks :=
        (removeSkippedBlocks_releases (quiet_eq_ok.mp hc)).frees
      obtain ⟨p', hp', hh, -⟩ := hfr
      exact ⟨p', hp', hh⟩) hl
  obtain ⟨p₁, hp₁, heq⟩ := hf p hp
  obtain rfl := Pools.one.inj (hp'.symm.trans hp₁)
  exact heq

theorem touchedHits_sublist (m : Manager) (d : Config.Demand) (ru : Bool) :
    (m.touchedHits d ru).Sublist (d.newComputedBlocks m.group) := by
  unfold touchedHits
  split
  · exact nil_sublist _
  · simp only [unskipped]
    split
    · exact drop_sublist _ _
    · exact Sublist.refl _

/-- The blocks given to `allocate_slots` as hits: none, or what `get_computed_blocks` has just
    returned. -/
def Config.HitsFrom (c : Config) (s : State) (request : Request) (hits : HitQuery.Hits) : Prop :=
  hits = (fun _ => []) ∨ ∃ n, c.getComputedBlocks s request = .ok (hits, n)

/-- The call pops no hit of a later group. It is read off the state that the call's own release of
    skipped blocks and its admission test leave. -/
def Config.clearCall (c : Config) (s : State) (request : Request) (a : Config.SlotArgs) : Bool :=
  match c.removeSkippedBlocks request.requestId (a.totalComputedTokens c request) s with
  | .error _ => true
  | .ok s₁ =>
    match c.hasEnoughFreeBlocks request.requestId (c.demand request a) s₁ with
    | .ok (true, s₂) =>
      match s₂.pools with
      | .one p => popsClear (c.demand request a)
          (fun g => (s₂.entries (g, request.requestId)).running) c.managers p.queue.blocks
      | _ => true
    | _ => true

theorem allocateSlots_owned {a : Config.SlotArgs} {re : Option (List (List BlockId))}
    (hid : (rs r).requestId = r) (h : c.Owned rs s)
    (hh : c.HitsFrom s (rs r) a.newComputedBlocks) (hcl : c.clearCall s (rs r) a = true)
    (hr : c.allocateSlots (rs r) a s = .ok (re, s')) : c.Owned rs s' := by
  replace hr := of_ensure hr
  simp only at hr
  obtain ⟨s₁, hsk, hr⟩ := of_bind hr
  obtain ⟨⟨en, s₂⟩, he, hr⟩ := of_bind hr
  simp only [clearCall, hsk] at hcl
  rw [hid] at hsk he hr hcl
  have h₁ := removeSkippedBlocks_owned hsk h
  have h₂ := hasEnoughFreeBlocks_owned he h₁
  simp only at hr
  split at hr
  · obtain ⟨-, rfl⟩ := pair_inj hr
    exact h₂
  · rename_i hy
    obtain rfl : en = true := by simpa using hy
    obtain ⟨⟨nb, s₄⟩, ha, hr⟩ := of_bind hr
    obtain ⟨s₃, hc, hnew⟩ := of_bind ha
    have h₃ : c.Owned rs s₃ := by
      unfold allocateComputed at hc
      split at hc
      · obtain ⟨x, hl, rfl⟩ := map_eq_ok.mp hc
        obtain ⟨p, hp, ho⟩ := h
        obtain ⟨p₁, hp₁, -⟩ := h₁
        obtain ⟨p₂, hp₂, hown₂⟩ := h₂
        simp only [he, hp₂] at hcl
        -- the hits still have the hashes they were found under
        have hha : p₂.blockHash = p.blockHash := by
          have heq : p₁ = p₂ :=
            Pools.one.inj (hp₁.symm.trans ((hasEnoughFreeBlocks_pools he).symm.trans hp₂))
          rw [← heq]
          exact removeSkippedBlocks_hash hsk hp hp₁
        have hf : ∀ g, a.newComputedBlocks g = [] ∨ c.enableCaching = true ∧
            ∃ m ∈ c.managers, m.group = g ∧ HitAt p (rs r).blockHashes
              (m.blockSize / c.hashBlockSize) g (a.newComputedBlocks g) := by
          intro g
          rcases hh with hn | ⟨n, hget⟩
          · exact .inl (congrFun hn g)
          · exact getComputedBlocks_hits hp ho.pool.toHashOk hget g
        refine takeComputed_run c.groups_nodup (fun _ _ => rfl) (fun m _ b hb hb0 => ?_)
          (fun m _ => ?_) hcl hl hp₂ hown₂
        · have hm := (touchedHits_sublist m _ _).mem hb
          rcases hf m.group with hnil | ⟨-, m', hm', hg, hhit⟩
          · rw [show (c.demand (rs r) a).newComputedBlocks m.group = [] from hnil] at hm
            cases hm
          · obtain ⟨i, hi⟩ := mem_iff_getElem?.mp hm
            obtain ⟨hash, hat, hk⟩ := hhit i b hi hb0
            exact ⟨hash, ⟨m', hm', hg, i, hat⟩, hha ▸ hk⟩
        · refine Nodup.sublist ((touchedHits_sublist m _ _).filter _) ?_
          rcases hf m.group with hnil | ⟨hca, m', hm', -, hhit⟩
          · rw [show (c.demand (rs r) a).newComputedBlocks m.group = [] from hnil]
            exact nodup_nil
          · refine hhit.nodup (rs r).blockHashes_nodup (Nat.div_pos ?_ c.hashBlockSize_pos)
            exact Nat.le_of_dvd m'.blockSize_pos (c.hash_dvd hca m' hm')
      · exact ok.inj hc ▸ h₂
    have h₄ := takeNew_owned hnew h₃
    simp only at hr
    split at hr
    · obtain ⟨-, rfl⟩ := pair_inj hr
      exact h₄
    · obtain ⟨s₅, hcc, hret⟩ := of_bind hr
      obtain ⟨-, rfl⟩ := pair_inj hret
      exact cacheBlocks_owned hid hcc h₄

end Operations

/-! ## 4. Runs -/

structure World where
  state : State
  requests : RequestId → Request

/-- A call of the KV cache manager, or a change of a request by its owner. `get_computed_blocks`
    changes nothing; its result reaches `allocate_slots` through `SlotArgs.newComputedBlocks`. -/
inductive Op where
  | allocateSlots (r : RequestId) (a : Config.SlotArgs)
  | cacheBlocks (r : RequestId) (numComputedTokens : Int)
  | removeSkippedBlocks (r : RequestId) (totalComputedTokens : Int)
  | removeSavedDecodeWindowBlocks (r : RequestId) (committedEnd : Int)
  | free (r : RequestId)
  | newStepStarts
  | setRequest (r : RequestId) (request : Request)

variable (c : Config) (w : World)

def Op.run : Op → Except CoreError World
  | allocateSlots r a =>
    (fun x => { w with state := x.2 }) <$> c.allocateSlots (w.requests r) a w.state
  | cacheBlocks r n => (fun s => { w with state := s }) <$> c.cacheBlocks (w.requests r) n w.state
  | removeSkippedBlocks r n =>
    (fun s => { w with state := s }) <$> c.removeSkippedBlocks r n w.state
  | removeSavedDecodeWindowBlocks r n =>
    (fun x => { w with state := x.2 }) <$> c.removeSavedDecodeWindowBlocks r n w.state
  | free r => (fun s => { w with state := s }) <$> c.free r w.state
  | newStepStarts => .ok { w with state := Config.newStepStarts w.state }
  | setRequest r request => .ok { w with requests := Function.update w.requests r request }

/-- What the callers keep: hits come from the lookup just before, and a request that holds blocks
    only gains tokens. -/
def Op.Allowed : Op → Prop
  | allocateSlots r a => c.HitsFrom w.state (w.requests r) a.newComputedBlocks
  | setRequest r request => request.requestId = r ∧
    ((w.requests r).blockHashes <+: request.blockHashes ∨ ∀ g, w.state.table (g, r) = [])
  | _ => True

def Op.Clear : Op → Prop
  | allocateSlots r a => c.clearCall w.state (w.requests r) a = true
  | _ => True

/-- The pool at the start: `SinkFullAttentionManager` has popped its sink blocks. -/
def BlockPool.start (numGpuBlocks numSinkBlocks : Nat) (c : Config) : BlockPool :=
  let p := BlockPool.init numGpuBlocks c.enableCaching c.hashBlockSize
  { p with queue := ⟨p.queue.blocks.drop numSinkBlocks, p.queue.numFreeBlocks - numSinkBlocks⟩ }

/-- A start: no request has blocks. -/
structure Initial (c : Config) (w : World) : Prop where
  ids : ∀ r, (w.requests r).requestId = r
  pool : ∃ n k, k < n ∧ w.state = State.init (.one (.start n k c))

/-- The worlds reached by runs whose steps all meet `ok`. -/
inductive Reachable (c : Config) (ok : World → Op → Prop) : World → Prop
  | start {w : World} : Initial c w → Reachable c ok w
  | step {w w' : World} (op : Op) : Reachable c ok w → op.Allowed c w → ok w op →
    op.run c w = .ok w' → Reachable c ok w'

section Runs

variable {c : Config} {w w' : World}

theorem PoolOk.start {n k : Nat} (hk : k < n) (c : Config) : PoolOk (BlockPool.start n k c) := by
  have h := PoolOk.init n c.enableCaching c.hashBlockSize (by omega)
  refine ⟨⟨h.hash, h.keys, h.null, h.plain⟩, h.nodup.sublist (drop_sublist _ _), ?_, h.nonneg,
    fun b hb => h.free b (mem_of_mem_drop hb), fun b hne => absurd rfl hne⟩
  simp only [BlockPool.start, BlockPool.init, length_drop, length_range']
  omega

theorem Initial.owned (h : Initial c w) : c.Owned w.requests w.state := by
  obtain ⟨-, n, k, hk, hst⟩ := h
  rw [hst]
  refine ⟨_, rfl, rfl, PoolOk.start hk c, fun b _ S => ?_, fun k => nodup_nil,
    fun b key hkey => ?_, fun b _ _ k k' hb => ?_⟩
  · simp [Holders.held, table, init, BlockPool.start, BlockPool.init]
  · simp [BlockPool.start, BlockPool.init] at hkey
  · simp [table, init] at hb

theorem Config.Owned.setRequest {re : RequestId → Request} {s : State} {r : RequestId}
    {req : Request} (h : c.Owned re s)
    (hreq : (re r).blockHashes <+: req.blockHashes ∨ ∀ g, s.table (g, r) = []) :
    c.Owned (update re r req) s := by
  obtain ⟨p, hp, h⟩ := h
  refine ⟨p, hp, h.settings, h.pool, h.covered, h.nodup, fun b key hkey k hk => ?_, h.once⟩
  obtain ⟨hg, m, hm, hmk, i, hat⟩ := h.hashed b key hkey k hk
  refine ⟨hg, m, hm, hmk, i, ?_⟩
  by_cases hr : k.2 = r
  · rcases hreq with hle | he
    · rw [hr] at hat
      rw [hr, update_self]
      exact blockHashAt_mono hle hat
    · have hk' : k = (k.1, r) := by rw [← hr]
      rw [hk', he] at hk
      cases hk
  · rw [update_of_ne hr]
    exact hat

def WorldOk (c : Config) (w : World) : Prop :=
  (∀ r, (w.requests r).requestId = r) ∧ c.Owned w.requests w.state

theorem WorldOk.step (h : WorldOk c w) {op : Op} (ha : op.Allowed c w)
    (hcl : op.Clear c w) (hrun : op.run c w = .ok w') : WorldOk c w' := by
  obtain ⟨hi, h⟩ := h
  cases op with
  | allocateSlots r a =>
    obtain ⟨x, hc, rfl⟩ := map_eq_ok.mp hrun
    exact ⟨hi, allocateSlots_owned (hi r) h ha hcl hc⟩
  | cacheBlocks r n =>
    obtain ⟨x, hc, rfl⟩ := map_eq_ok.mp hrun
    exact ⟨hi, cacheBlocks_owned (hi r) hc h⟩
  | removeSkippedBlocks r n =>
    obtain ⟨x, hc, rfl⟩ := map_eq_ok.mp hrun
    exact ⟨hi, removeSkippedBlocks_owned hc h⟩
  | removeSavedDecodeWindowBlocks r n =>
    obtain ⟨x, hc, rfl⟩ := map_eq_ok.mp hrun
    exact ⟨hi, removeSaved_owned hc h⟩
  | free r =>
    obtain ⟨x, hc, rfl⟩ := map_eq_ok.mp hrun
    exact ⟨hi, free_owned hc h⟩
  | newStepStarts =>
    obtain rfl := ok.inj hrun
    exact ⟨hi, h⟩
  | setRequest r request =>
    obtain rfl := ok.inj hrun
    refine ⟨fun r' => ?_, h.setRequest ha.2⟩
    by_cases hr : r' = r
    · subst hr
      simpa using ha.1
    · simpa [hr] using hi r'

theorem Reachable.worldOk (h : Reachable c (fun w op => op.Clear c w) w) : WorldOk c w := by
  induction h with
  | start hi => exact ⟨hi.ids, hi.owned⟩
  | step op _ ha hc hr ih => exact ih.step ha hc hr

end Runs

/-- **Exclusive block ownership.** In every run whose `allocate_slots` calls are clear, a non-null
    block stands in two places only if it is cached under one hash, all its places are in its group,
    and every request that holds it has that hash. -/
theorem blocks_exclusive (c : Config) (w : World) (h : Reachable c (fun w op => op.Clear c w) w) :
    ∃ p, w.state.pools = .one p ∧ Exclusive (c.hashesOf w.requests) p w.state.table := by
  obtain ⟨-, p, hp, ho⟩ := h.worldOk
  exact ⟨p, hp, ho.exclusive⟩

/-! ## 5. A hit that is shared, and a hit that is popped -/

def Op.next (op : Op) : World :=
  match op.run c w with
  | .ok w' => w'
  | .error _ => w

variable {c : Config} {w : World}

theorem Op.run_eq_next {op : Op} (h : (op.run c w).toBool = true) :
    op.run c w = .ok (op.next c w) := by
  unfold Op.next
  cases hr : op.run c w with
  | ok w' => rfl
  | error e => simp [hr, Except.toBool] at h

def World.hits (c : Config) (w : World) (r : RequestId) : HitQuery.Hits :=
  match c.getComputedBlocks w.state (w.requests r) with
  | .ok x => x.1
  | .error _ => fun _ => []

theorem World.hits_from {r : RequestId}
    (h : (c.getComputedBlocks w.state (w.requests r)).toBool = true) :
    c.HitsFrom w.state (w.requests r) (w.hits c r) := by
  unfold World.hits
  cases hg : c.getComputedBlocks w.state (w.requests r) with
  | ok x => exact .inr ⟨x.2, hg⟩
  | error e => simp [hg, Except.toBool] at h

/-- Full attention and a sliding window over one pool, with blocks of two tokens. -/
def testConfig : Config where
  managers := [⟨0, .full, 2, 0, 1, true, Nat.two_pos, Nat.one_pos⟩,
    ⟨1, .slidingWindow 100, 2, 0, 1, true, Nat.two_pos, Nat.one_pos⟩]
  maxModelLen := 64
  enableCaching := true
  useEagle := false
  hashBlockSize := 2
  hashBlockSize_pos := Nat.two_pos
  managers_group := rfl
  managers_caching := by simp
  hash_dvd := by simp [Manager.blockSize]
  unitary := by simp
  hybrid := fun _ _ => ⟨by simp, by decide⟩

def testRequests (r : RequestId) : Request :=
  match r with
  | 0 => ⟨0, 3, 0, [10], false, by decide, by decide⟩
  | 1 => ⟨1, 7, 0, [10, 11, 12], false, by decide, by decide⟩
  | r => ⟨r, 3, 0, [20], false, by decide, by decide⟩

def testWorld (numGpuBlocks : Nat) : World :=
  ⟨State.init (.one (.start numGpuBlocks 0 testConfig)), testRequests⟩

theorem testWorld_initial {n : Nat} (hn : 0 < n) : Initial testConfig (testWorld n) := by
  refine ⟨fun r => ?_, n, 0, hn, rfl⟩
  match r with
  | 0 => rfl
  | 1 => rfl
  | r + 2 => rfl

def computeTwo (r : RequestId) : Op := .allocateSlots r ⟨2, 0, fun _ => [], 0, 0, false, 0, false⟩

def loadTwo (w : World) (r : RequestId) : Op :=
  .allocateSlots r ⟨0, 2, w.hits testConfig r, 0, 2, true, 0, false⟩

def sharedHit : World :=
  let w := (computeTwo 0).next testConfig (testWorld 9)
  (loadTwo w 1).next testConfig w

theorem sharedHit_exclusive :
    (sharedHit.state.table (0, 0) = [1] ∧ sharedHit.state.table (0, 1) = [1, 3]) ∧
      ∃ p, sharedHit.state.pools = .one p ∧
        Exclusive (testConfig.hashesOf sharedHit.requests) p sharedHit.state.table := by
  refine ⟨⟨rfl, rfl⟩, blocks_exclusive testConfig sharedHit ?_⟩
  have hst : Reachable testConfig (fun w op => op.Clear testConfig w) (testWorld 9) :=
    .start (testWorld_initial (by decide))
  have hf := hst.step (computeTwo 0) (.inl rfl) rfl (Op.run_eq_next rfl)
  exact hf.step (loadTwo _ 1) (World.hits_from rfl) rfl (Op.run_eq_next rfl)

/-- Request 0 was freed first and its blocks are next in the queue when request 1 hits them. -/
def poppedHit : World :=
  let w := (computeTwo 2).next testConfig ((computeTwo 0).next testConfig (testWorld 5))
  let w := (Op.free 2).next testConfig ((Op.free 0).next testConfig w)
  (loadTwo w 1).next testConfig w

/-- **Group 0 pops the hit of group 1**: block 2 stands in the tables of both. -/
theorem poppedHit_shared : ∃ w p, Reachable testConfig (fun _ _ => True) w ∧
    w.state.pools = .one p ∧ ¬ Exclusive (testConfig.hashesOf w.requests) p w.state.table := by
  have hpo : ∃ p, poppedHit.state.pools = .one p := ⟨_, rfl⟩
  obtain ⟨p, hp⟩ := hpo
  refine ⟨poppedHit, p, ?_, hp, fun he => ?_⟩
  · have hst : Reachable testConfig (fun _ _ => True) (testWorld 5) :=
      .start (testWorld_initial (by decide))
    have h₁ := hst.step (computeTwo 0) (.inl rfl) trivial (Op.run_eq_next rfl)
    have h₂ := h₁.step (computeTwo 2) (.inl rfl) trivial (Op.run_eq_next rfl)
    have h₃ := h₂.step (.free 0) trivial trivial (Op.run_eq_next rfl)
    have h₄ := h₃.step (.free 2) trivial trivial (Op.run_eq_next rfl)
    exact h₄.step (loadTwo _ 1) (World.hits_from rfl) trivial (Op.run_eq_next rfl)
  · have hf : poppedHit.state.table (0, 1) = [1, 2] := rfl
    have hsl : poppedHit.state.table (1, 1) = [2, 3] := rfl
    obtain ⟨key, -, ha⟩ := he 2 (by decide) (0, 1) (1, 1) 1 0 (by rw [hf]; rfl) (by rw [hsl]; rfl)
      (by decide)
    have h0 := (ha (0, 1) (by rw [hf]; decide)).1
    have h1 := (ha (1, 1) (by rw [hsl]; decide)).1
    exact absurd (h0.trans h1.symm) (by decide)

end VllmDual.Core
