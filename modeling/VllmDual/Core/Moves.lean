/-
  Subject:   THE MANAGERS' METHODS AS MOVES.

  Whatever pools it has, a method of a manager that returns has taken blocks into the table of its
  request or released blocks of it, and nothing else. With one pool these are moves on the pool.
-/
import VllmDual.Core.Ledger
import VllmDual.Core.Coordinator

namespace VllmDual.Core

open Outcome Ceil List Pools Manager

/-! ## 1. Live blocks under changes of a table -/

variable {t bs : List BlockId} {i g : Nat} {p : BlockPool} {ps' : Pools}

theorem live_set (hi : i < t.length) (b : BlockId) :
    (live (t.set i b) ++ live [t.getD i 0]).Perm (live [b] ++ live t) := by
  have hg : t.getD i 0 = t[i] := by simp [hi]
  have hsp : t = t.take i ++ [t[i]] ++ t.drop (i + 1) := by simp
  rw [hg, set_eq_take_append_cons_drop, if_pos hi]
  conv_rhs => rw [hsp]
  rw [live_append, live_cons b (t.drop (i + 1)), live_append, live_append]
  simp only [append_assoc]
  refine (perm_append_comm_assoc _ _ _).trans ?_
  refine Perm.append_left _ (Perm.append_left _ ?_)
  exact perm_append_comm

theorem live_set_zero (t : List BlockId) (i : Nat) :
    (live t).Perm (live [t.getD i 0] ++ live (t.set i 0)) := by
  by_cases hi : i < t.length
  · exact (live_set hi 0).symm.trans perm_append_comm
  · have hl : t.length ≤ i := by omega
    rw [set_eq_of_length_le hl, getD_eq_default _ _ hl]
    rfl

theorem live_set_of_zero (hi : i < t.length) (h0 : t.getD i 0 = 0) (b : BlockId) :
    (live (t.set i b)).Perm (live [b] ++ live t) := by
  have h := live_set hi b
  have hn : live [t.getD i 0] = [] := by rw [h0]; rfl
  rwa [hn, append_nil] at h

theorem removeFrom_perm (t : List BlockId) {n : Nat} (hn : n ≤ t.length) :
    (live t).Perm (live (removeFrom t n).1 ++ live (removeFrom t n).2) := by
  set r := (t.take n).reverse.takeWhile (· ≠ 0) with hr
  have hle : r.length ≤ n := by
    have h1 :=
      (takeWhile_sublist (p := fun b : BlockId => decide (b ≠ 0))
        (l := (t.take n).reverse)).length_le
    rw [length_reverse, length_take] at h1
    exact h1.trans (min_le_left _ _)
  -- the kept front and the removed blocks make up the first `n`
  have ht : t.take n = t.take (n - r.length) ++ r.reverse := by
    have hsp := takeWhile_append_dropWhile (p := fun b : BlockId => decide (b ≠ 0))
        (l := (t.take n).reverse)
    have hf : (t.take n).take (n - r.length) = ((t.take n).reverse.dropWhile (· ≠ 0)).reverse := by
      have hrev : t.take n = ((t.take n).reverse.dropWhile (· ≠ 0)).reverse ++ r.reverse := by
        rw [← reverse_append, hr, hsp, reverse_reverse]
      have hl := congrArg List.length hrev
      rw [length_append, length_reverse, length_reverse, length_take, Nat.min_eq_left hn] at hl
      conv_lhs => rw [hrev]
      rw [take_left']
      rw [length_reverse]
      omega
    rw [take_take, Nat.min_eq_left (Nat.sub_le _ _)] at hf
    rw [hf, ← reverse_append, hr, hsp, reverse_reverse]
  have hfu : live t = live (t.take (n - r.length)) ++ (live r).reverse ++ live (t.drop n) := by
    conv_lhs => rw [← take_append_drop n t, ht]
    simp
  have hp : removeFrom t n = (r, t.take (n - r.length) ++ replicate r.length 0 ++ t.drop n) := rfl
  rw [hp, hfu]
  simp only [live_append, live_replicate_zero, append_nil]
  rw [append_assoc]
  refine (perm_append_comm_assoc _ _ _).trans ?_
  exact Perm.append_right _ (reverse_perm _)

theorem released_perm (t : List BlockId) {s st : Nat} (h : s ≤ st) :
    (live t).Perm (live (((t.take st).drop s).reverse.filter (· ≠ 0)) ++
      live (released t s st)) := by
  have hf : live t = live (t.take s) ++ live ((t.take st).drop s) ++ live (t.drop st) := by
    conv_lhs => rw [← take_append_drop st t, ← take_append_drop s (t.take st)]
    rw [take_take, Nat.min_eq_left h]
    simp
  have hr : ((t.take st).drop s).reverse.filter (· ≠ 0) = live ((t.take st).drop s).reverse := rfl
  rw [hf, hr, released]
  simp only [live_append, live_replicate_zero, append_nil, live_live, live_reverse]
  rw [append_assoc]
  refine (perm_append_comm_assoc _ _ _).trans ?_
  exact Perm.append_right _ (reverse_perm _).symm

theorem reuseSpeculative_perm (s : Int) (n i : Nat) (t : List BlockId) :
    (live t).Perm (live (reuseSpeculative s n i t)) := by
  induction n generalizing i t with
  | zero => rfl
  | succ n ih =>
    rw [reuseSpeculative]
    split
    · have hst : (live t).Perm (live (t.set i 0 ++ [t.getD i 0])) := by
        rw [live_append]
        exact (live_set_zero t i).trans perm_append_comm
      exact hst.trans (ih (i + 1) _)
    · rfl

theorem fillMissing_perm (t : List BlockId) (mi : List Nat) (nb : List BlockId)
    (hnd : mi.Nodup) (hl : nb.length = mi.length)
    (hn : ∀ i ∈ mi, i < t.length ∧ t.getD i 0 = 0) :
    (live (fillMissing t mi nb)).Perm (live nb ++ live t) := by
  induction mi generalizing t nb with
  | nil =>
    obtain rfl := length_eq_zero_iff.mp hl
    rfl
  | cons i mi ih =>
    obtain ⟨b, nb, rfl⟩ := exists_cons_of_length_eq_add_one hl
    obtain ⟨hi, hnd⟩ := nodup_cons.mp hnd
    have hr : ∀ j ∈ mi, j < (t.set i b).length ∧ (t.set i b).getD j 0 = 0 := by
      intro j hj
      have hji : i ≠ j := fun hij => hi (hij ▸ hj)
      obtain ⟨hlt, hz⟩ := hn j (mem_cons_of_mem _ hj)
      refine ⟨by simpa using hlt, ?_⟩
      rw [getD_eq_getElem?_getD, getElem?_set_ne hji, ← getD_eq_getElem?_getD, hz]
    have ho := hn i mem_cons_self
    refine (ih (t.set i b) nb hnd (by simpa using hl) hr).trans ?_
    refine (Perm.append_left _ (live_set_of_zero ho.1 ho.2 b)).trans ?_
    rw [← append_assoc, live_cons b nb]
    exact Perm.append_right _ perm_append_comm

/-! ## 2. Calls of the one pool -/

theorem one_getNewBlocks {n : Int} {ids : List BlockId} :
    (one p).getNewBlocks g n = .ok (ids, ps') ↔
      ∃ p', p.getNewBlocks n = .ok (ids, p') ∧ ps' = .one p' := by
  simp only [getNewBlocks, bind_eq_ok, pure_eq_ok, Prod.exists, Prod.mk.injEq]
  constructor
  · rintro ⟨_, p', hg, rfl, rfl⟩
    exact ⟨p', hg, rfl⟩
  · rintro ⟨p', hg, rfl⟩
    exact ⟨ids, p', hg, rfl, rfl⟩

theorem one_touch : (one p).touch g bs = .ok ps' ↔ ∃ p', p.touch bs = .ok p' ∧ ps' = .one p' := by
  simp only [touch, bind_eq_ok, pure_eq_ok, eq_comm (a := ps')]

theorem one_freeBlocks : (one p).freeBlocks g bs = .ok ps' ↔ ps' = .one (p.freeBlocks bs) := by
  simp only [freeBlocks, Except.ok.injEq, eq_comm]

def Reaches (hs : Set (List BlockHash)) (g : Nat) (p : BlockPool) (t : List BlockId)
    (pools' : Pools) (t' : List BlockId) : Prop :=
  ∃ p', pools' = .one p' ∧ Moves hs g (p, t) (p', t')

namespace Reaches

variable {hs : Set (List BlockHash)} {t' : List BlockId}

theorem refl : Reaches hs g p t (.one p) t := ⟨p, rfl, .refl⟩

theorem rearrange (h : (live t).Perm (live t')) : Reaches hs g p t (.one p) t' :=
  ⟨p, rfl, .single (.rearrange h)⟩

theorem take {n : Int} {ids : List BlockId} (h : (one p).getNewBlocks g n = .ok (ids, ps'))
    (hp : (live t').Perm (live ids ++ live t)) : Reaches hs g p t ps' t' := by
  obtain ⟨p', hg, rfl⟩ := one_getNewBlocks.mp h
  exact ⟨p', rfl, .single (.take hg hp)⟩

end Reaches

/-- The same after releases only, which leave the hashes alone. -/
def Frees (hs : Set (List BlockHash)) (g : Nat) (p : BlockPool) (t : List BlockId) (pools' : Pools)
    (t' : List BlockId) : Prop :=
  ∃ p', pools' = .one p' ∧ p'.blockHash = p.blockHash ∧ Moves hs g (p, t) (p', t')

namespace Frees

variable {hs : Set (List BlockHash)} {p₁ : BlockPool} {t₁ t' : List BlockId}

theorem refl : Frees hs g p t (.one p) t := ⟨p, rfl, rfl, .refl⟩

theorem trans (h : Frees hs g p t (.one p₁) t₁) (h' : Frees hs g p₁ t₁ ps' t') :
    Frees hs g p t ps' t' := by
  obtain ⟨_, heq, hh, hm⟩ := h
  obtain rfl := one.inj heq
  obtain ⟨p', rfl, hh', hm'⟩ := h'
  exact ⟨p', rfl, hh'.trans hh, hm.trans hm'⟩

theorem release {bs : List BlockId} (h : (one p).freeBlocks g bs = .ok ps')
    (hp : (live t).Perm (live bs ++ live t')) : Frees hs g p t ps' t' := by
  obtain rfl := one_freeBlocks.mp h
  exact ⟨_, rfl, rfl, .single (.release hp)⟩

theorem reaches (h : Frees hs g p t ps' t') : Reaches hs g p t ps' t' := by
  obtain ⟨p', hp, -, hm⟩ := h
  exact ⟨p', hp, hm⟩

end Frees

/-! ## 3. The methods -/

inductive Takes (g : Nat) : Pools × List BlockId → Pools × List BlockId → Prop
  | keep {pools : Pools} {t t' : List BlockId} :
    (live t).Perm (live t') → Takes g (pools, t) (pools, t')
  | get {pools pools' : Pools} {t t' ids : List BlockId} {n : Int} :
    pools.getNewBlocks g n = .ok (ids, pools') → (live t').Perm (live ids ++ live t) →
      Takes g (pools, t) (pools', t')

/-- Blocks of the table are released. -/
inductive Releases (g : Nat) : Pools × List BlockId → Pools × List BlockId → Prop
  | refl {x : Pools × List BlockId} : Releases g x x
  | free {pools pools₁ : Pools} {t t₁ blocks : List BlockId} {x : Pools × List BlockId} :
    pools.freeBlocks g blocks = .ok pools₁ → (live t).Perm (live blocks ++ live t₁) →
      Releases g (pools₁, t₁) x → Releases g (pools, t) x

section Pools

variable {hs : Set (List BlockHash)} {ps : Pools} {t' : List BlockId}

theorem Takes.append {ids : List BlockId} {n : Int} (h : ps.getNewBlocks g n = .ok (ids, ps'))
    (hp : (live t).Perm (live t')) : Takes g (ps, t) (ps', t' ++ ids) :=
  .get h (by rw [live_append]; exact perm_append_comm.trans (hp.symm.append_left _))

theorem Takes.reaches (h : Takes g (.one p, t) (ps', t')) : Reaches hs g p t ps' t' := by
  cases h with
  | keep hp => exact .rearrange hp
  | get hg hp => exact .take hg hp

theorem Releases.trans {x y z : Pools × List BlockId} (h : Releases g x y) (h' : Releases g y z) :
    Releases g x z := by
  induction h with
  | refl => exact h'
  | free hf hp _ ih => exact .free hf hp (ih h')

theorem Releases.frees (h : Releases g (.one p, t) (ps', t')) : Frees hs g p t ps' t' := by
  generalize hx : (one p, t) = x at h
  generalize hy : (ps', t') = y at h
  induction h generalizing p t with
  | refl =>
    obtain ⟨rfl, rfl⟩ := Prod.mk.inj (hy.trans hx.symm)
    exact .refl
  | free hf hp _ ih =>
    obtain ⟨rfl, rfl⟩ := Prod.mk.inj hx
    obtain rfl := one_freeBlocks.mp hf
    exact (Frees.release hf hp).trans (ih rfl hy)

end Pools

namespace Manager

variable {m : Manager} {e e' : Entry} {ps : Pools} {ids : List BlockId} {nt tt mt : Int}
  {al : Bool} {nsb : Nat}

theorem baseAllocateNewBlocks_takes (h : m.baseAllocateNewBlocks ps e nt = .ok (ids, e', ps')) :
    Takes m.group (ps, e.blocks) (ps', e'.blocks) := by
  simp only [baseAllocateNewBlocks] at h
  split at h
  · obtain ⟨-, rfl, rfl⟩ := triple_inj h
    exact .keep (.refl _)
  · obtain ⟨⟨ids', po₁⟩, hg, h⟩ := of_bind h
    obtain ⟨-, rfl, rfl⟩ := triple_inj h
    exact .append hg (.refl _)

theorem free_releases (h : m.free ps e = .ok (e', ps')) :
    Releases m.group (ps, e.blocks) (ps', e'.blocks) := by
  obtain ⟨po₁, hf, h⟩ := of_bind h
  obtain ⟨rfl, rfl⟩ := pair_inj h
  exact .free hf (by simp) .refl

theorem baseRemoveSkippedBlocks_releases (h : m.baseRemoveSkippedBlocks ps e tt = .ok (e', ps')) :
    Releases m.group (ps, e.blocks) (ps', e'.blocks) := by
  simp only [baseRemoveSkippedBlocks] at h
  split at h
  · obtain ⟨rfl, rfl⟩ := pair_inj h
    exact .refl
  · obtain ⟨po₁, hf, h⟩ := of_bind h
    obtain ⟨rfl, rfl⟩ := pair_inj h
    exact .free hf (removeFrom_perm _ (min_le_right _ _)) .refl

section Caching

variable {hs : Set (List BlockHash)} {bh : List BlockHash}

theorem cacheBlocksFrom_moves {fa : Nat} {t : List BlockId}
    (hm : ∀ i x, blockHashAt bh fa i = some x → x ∈ hs) {p' : BlockPool} {g i : Nat}
    {bs : List BlockId} (hca : p.enableCaching = true) (hsub : ∀ b ∈ bs, b ∈ t)
    (h : BlockPool.cacheBlocksFrom bh fa g p i bs = .ok p') :
    Moves hs g (p, t) (p', t) := by
  induction bs generalizing p i with
  | nil =>
    obtain rfl := Except.ok.inj h
    exact .refl
  | cons b bs ih =>
    obtain ⟨p₁, ho, h⟩ := of_bind h
    have hcaching₁ : p₁.enableCaching = true := by
      unfold BlockPool.cacheBlock at ho
      split at ho
      · exact Except.ok.inj ho ▸ hca
      · replace ho := of_ensure ho
        split at ho
        · cases ho
        · exact pure_eq_ok.mp ho ▸ hca
    refine .head ?_ (ih hcaching₁ (fun c hc => hsub c (mem_cons_of_mem _ hc)) h)
    exact .cache hca (hsub b mem_cons_self) (hm i) ho

theorem baseCacheBlocks_moves
    (hm : ∀ i x, blockHashAt bh (m.blockSize / p.hashBlockSize) i = some x → x ∈ hs)
    (hca : p.enableCaching = true) (h : m.baseCacheBlocks (.one p) e bh nt = .ok (e', ps')) :
    Reaches hs m.group p e.blocks ps' e'.blocks := by
  simp only [baseCacheBlocks, cacheFullBlocks] at h
  split at h
  · obtain ⟨rfl, rfl⟩ := pair_inj h
    exact .refl
  · obtain ⟨ps, hp, h⟩ := of_bind h
    obtain ⟨p', hc, ho⟩ := of_bind hp
    obtain ⟨rfl, rfl⟩ := pair_inj h
    refine ⟨p', (pure_eq_ok.mp ho).symm, ?_⟩
    unfold BlockPool.cacheFullBlocks at hc
    split at hc
    · obtain rfl := Except.ok.inj hc
      exact .refl
    · replace hc := of_ensure (of_ensure hc)
      refine cacheBlocksFrom_moves hm hca (fun b hb => ?_) hc
      exact mem_of_mem_take (mem_of_mem_drop hb)

theorem cacheBlocks_base {k : List BlockKey} (h : m.cacheBlocks ps e bh nt = .ok (k, e', ps')) :
    m.baseCacheBlocks ps e bh nt = .ok (e', ps') := by
  unfold cacheBlocks at h
  split at h
  · cases h
  · obtain ⟨⟨e₁, po₁⟩, hb, h⟩ := of_bind h
    obtain ⟨ks, -, h⟩ := of_bind h
    obtain ⟨-, rfl, rfl⟩ := triple_inj h
    exact hb
  · obtain ⟨⟨e₁, po₁⟩, hb, h⟩ := of_bind h
    obtain ⟨-, rfl, rfl⟩ := triple_inj h
    exact hb

end Caching

/-! ## 4. Mamba -/

theorem alignedTable_perm (nsb : Nat) (e : Entry) (s : Int) :
    (live e.blocks).Perm (live (alignedTable nsb e s)) := by
  have hn : (live e.blocks).Perm
      (live (e.blocks ++ replicate (s.toNat - e.blocks.length) 0)) := by simp
  simp only [alignedTable]
  split
  · exact hn.trans (reuseSpeculative_perm _ _ _ _)
  · exact hn

theorem mambaAllocateNewBlocks_takes
    (h : m.mambaAllocateNewBlocks al nsb ps e nt mt
      = .ok (ids, e', ps')) : Takes m.group (ps, e.blocks) (ps', e'.blocks) := by
  simp only [mambaAllocateNewBlocks, alignAllocateNewBlocks] at h
  split at h
  · split at h
    · obtain ⟨-, rfl, rfl⟩ := triple_inj h
      exact .keep (.refl _)
    · replace h := of_ensure (of_ensure h)
      obtain ⟨⟨nb, po₁⟩, hg, h⟩ := of_bind h
      obtain ⟨-, rfl, rfl⟩ := triple_inj h
      exact .append hg (alignedTable_perm _ e _)
  · exact baseAllocateNewBlocks_takes h

theorem mambaRemoveSkippedBlocks_releases
    (h : m.mambaRemoveSkippedBlocks al nsb ps e tt = .ok (e', ps')) :
    Releases m.group (ps, e.blocks) (ps', e'.blocks) := by
  obtain ⟨⟨e₁, po₁⟩, hb, h⟩ := of_bind h
  refine (baseRemoveSkippedBlocks_releases hb).trans ?_
  simp only at h
  split at h
  · obtain ⟨rfl, rfl⟩ := pair_inj h
    exact .refl
  · split at h
    · split at h
      · cases h
      · split at h
        · obtain ⟨rfl, rfl⟩ := pair_inj h
          exact .refl
        · obtain ⟨po₂, hf, h⟩ := of_bind h
          obtain ⟨rfl, rfl⟩ := pair_inj h
          exact .free hf (live_set_zero _ _) .refl
    · obtain ⟨rfl, rfl⟩ := pair_inj h
      exact .refl

/-! ## 5. The latent group -/

theorem compactRequiredIndices_sorted (m : Manager) (bd : Nat) (pt nt
    mt : Int) (f : Bool) (rb : Int) :
    (m.compactRequiredIndices bd pt nt mt f rb).Pairwise (· < ·) := by
  simp only [compactRequiredIndices]
  split
  · exact pairwise_lt_range
  · refine pairwise_append.mpr ⟨pairwise_lt_range, pairwise_lt_range', ?_⟩
    intro a ha b hb
    have h1 := mem_range.mp ha
    have h2 := (mem_range'_1.mp hb).1
    omega

theorem lt_length_extended {rq : List Nat} (hso : rq.Pairwise (· < ·))
    (t : List BlockId) {i : Nat} (hi : i ∈ rq) : i < (extended t rq).length := by
  have hl : ∃ l, rq.getLast? = some l ∧ i ≤ l := by
    obtain ⟨f, l, rfl⟩ :=
      (eq_nil_or_concat' rq).resolve_left (ne_nil_of_mem hi)
    refine ⟨l, by simp, ?_⟩
    rcases mem_append.mp hi with hf | hsa
    · exact (pairwise_append.mp hso).2.2 i hf l (mem_singleton_self _) |>.le
    · exact (mem_singleton.mp hsa).le
  obtain ⟨l, hl, hle⟩ := hl
  simp only [extended, hl, length_append, length_replicate]
  omega

theorem live_extended (t : List BlockId) (rq : List Nat) : live (extended t rq) = live t := by
  unfold extended
  split <;> simp

theorem allocateCompactRequestBlocks_takes {f : Bool}
    (h : m.allocateCompactRequestBlocks ps e nt mt f = .ok (ids, e', ps')) :
    Takes m.group (ps, e.blocks) (ps', e'.blocks) := by
  simp only [allocateCompactRequestBlocks] at h
  split at h
  · cases h
  · rename_i pt _
    have hso := compactRequiredIndices_sorted m (ps.blocksPerBundle m.group)
        pt nt mt f (e.compactReleasedBlocks.getD 0)
    set rq := m.compactRequiredIndices (ps.blocksPerBundle m.group)
      pt nt mt f (e.compactReleasedBlocks.getD 0)
    split at h
    · obtain ⟨-, rfl, rfl⟩ := triple_inj h
      exact .keep (by rw [live_extended])
    · obtain ⟨⟨nb, po₁⟩, hg, h⟩ := of_bind h
      obtain ⟨hl, h⟩ := ensure_bind_eq_ok.mp h
      obtain ⟨-, rfl, rfl⟩ := triple_inj h
      have hf := fillMissing_perm (extended e.blocks rq) _ nb
        ((hso.imp fun hlt => hlt.ne).filter _) hl fun i hi => by
          obtain ⟨hm, hn⟩ := mem_filter.mp hi
          exact ⟨lt_length_extended hso _ hm, of_decide_eq_true hn⟩
      rw [live_extended] at hf
      exact .get hg hf

theorem removeSavedDecodeWindowBlocks_releases {c : Nat} {ce : Int}
    (h : m.removeSavedDecodeWindowBlocks ps e ce = .ok (c, e', ps')) :
    Releases m.group (ps, e.blocks) (ps', e'.blocks) := by
  simp only [removeSavedDecodeWindowBlocks] at h
  split at h
  · obtain ⟨-, rfl, rfl⟩ := triple_inj h
    exact .refl
  · replace h := of_ensure h
    split at h
    · obtain ⟨-, rfl, rfl⟩ := triple_inj h
      exact .refl
    · rename_i hlt
      obtain ⟨po₁, hf, h⟩ := of_bind h
      obtain ⟨-, rfl, rfl⟩ := triple_inj h
      exact .free hf (released_perm _ (by omega)) .refl

/-! ## 6. The methods as the coordinator calls them -/

theorem takeNew_takes {d : Config.Demand} (h : Config.takeNew d m ps e = .ok (ids, e', ps')) :
    Takes m.group (ps, e.blocks) (ps', e'.blocks) := by
  unfold Config.takeNew at h
  split at h
  · exact allocateCompactRequestBlocks_takes h
  · unfold allocateNewBlocks at h
    split at h
    · unfold latentAllocateNewBlocks at h
      split at h
      · exact allocateCompactRequestBlocks_takes h
      · exact baseAllocateNewBlocks_takes h
    · exact mambaAllocateNewBlocks_takes h
    · exact baseAllocateNewBlocks_takes h

theorem removeSkippedBlocks_releases (h : m.removeSkippedBlocks ps e tt = .ok (e', ps')) :
    Releases m.group (ps, e.blocks) (ps', e'.blocks) := by
  unfold removeSkippedBlocks at h
  split at h
  · obtain ⟨rfl, rfl⟩ := pair_inj h
    exact .refl
  · exact mambaRemoveSkippedBlocks_releases h
  · exact baseRemoveSkippedBlocks_releases h

end Manager

end VllmDual.Core
