/-
  Subject:   WHO OWNS A BLOCK: THE POOL AGAINST THE BLOCK TABLES.

  With one pool for all groups, a table changes only by a few kinds of moves, and the pool with it.
-/
import VllmDual.Lib.Holders
import VllmDual.Core.BlockPool

namespace VllmDual.Core

open Outcome Holders Function BlockPool List

/-! ## 1. The live part of a table -/

def live (t : List BlockId) : List BlockId := t.filter (· ≠ 0)

variable {t : List BlockId} {b : BlockId}

@[simp] theorem mem_live : b ∈ live t ↔ b ∈ t ∧ b ≠ 0 := by
  simp [live]

@[simp] theorem live_nil : live [] = [] := rfl

@[simp] theorem live_append (t t' : List BlockId) : live (t ++ t') = live t ++ live t' :=
  filter_append t t'

theorem live_cons (b : BlockId) (t : List BlockId) : live (b :: t) = live [b] ++ live t :=
  live_append [b] t

@[simp] theorem live_replicate_zero (n : Nat) : live (replicate n 0) = [] := by
  simp [live]

@[simp] theorem live_reverse (t : List BlockId) : live t.reverse = (live t).reverse := by
  simp [live, filter_reverse]

@[simp] theorem live_live (t : List BlockId) : live (live t) = live t := by
  simp [live, filter_filter]

theorem count_live (hb : b ≠ 0) (t : List BlockId) : (live t).count b = t.count b :=
  count_filter (by simpa using hb)

/-! ## 2. The invariant -/

abbrev TableKey := Nat × Nat

def BlockPool.settings (p : BlockPool) : Bool × Nat := (p.enableCaching, p.hashBlockSize)

/-- The ownership invariant; `hs` are the block hashes of each request, at the group's size. -/
structure Own (settings : Bool × Nat) (hs : TableKey → Set (List BlockHash)) (p : BlockPool)
    (tables : TableKey → List BlockId) : Prop where
  settings : p.settings = settings
  pool : PoolOk p
  covered : ∀ b, b ≠ 0 → Covered tables (p.refCnt b) b
  nodup : ∀ k, (live (tables k)).Nodup
  hashed : ∀ b key, p.blockHash b = some key → ∀ k, b ∈ tables k → key.group = k.1 ∧ key.hash ∈ hs k
  once : ∀ b, b ≠ 0 → p.blockHash b = none → ∀ k k', b ∈ tables k → b ∈ tables k' → k = k'

/-- The blocks are cached under hashes of the request, in the group. -/
def HitsOf (hs : Set (List BlockHash)) (g : Nat) (p : BlockPool) (blocks : List BlockId) : Prop :=
  ∀ b ∈ blocks, b ≠ 0 → ∃ h ∈ hs, p.blockHash b = some ⟨h, g⟩

inductive Move (hs : Set (List BlockHash)) (g : Nat) :
    BlockPool × List BlockId → BlockPool × List BlockId → Prop
  | take {p p' : BlockPool} {t t' ids : List BlockId} {n : Int} :
    p.getNewBlocks n = .ok (ids, p') → (live t').Perm (live ids ++ live t) →
      Move hs g (p, t) (p', t')
  | touch {p p' : BlockPool} {t t' blocks : List BlockId} :
    live t = [] → (live blocks).Nodup → HitsOf hs g p blocks → p.touch blocks = .ok p' →
      (live t').Perm (live blocks) → Move hs g (p, t) (p', t')
  | release {p : BlockPool} {t t' blocks : List BlockId} :
    (live t).Perm (live blocks ++ live t') → Move hs g (p, t) (p.freeBlocks blocks, t')
  | cache {p p' : BlockPool} {t : List BlockId} {hashes : List BlockHash} {factor i : Nat}
    {b : BlockId} :
    p.enableCaching = true → b ∈ t → (∀ h, blockHashAt hashes factor i = some h → h ∈ hs) →
      p.cacheBlock hashes factor g i b = .ok p' → Move hs g (p, t) (p', t)
  | rearrange {p : BlockPool} {t t' : List BlockId} :
    (live t).Perm (live t') → Move hs g (p, t) (p, t')

abbrev Moves (hs : Set (List BlockHash)) (g : Nat) :
    BlockPool × List BlockId → BlockPool × List BlockId → Prop :=
  Relation.ReflTransGen (Move hs g)

/-! ## 3. Every move keeps the invariant -/

section Preservation

variable {settings : Bool × Nat} {hs : TableKey → Set (List BlockHash)} {p p' : BlockPool}
  {tables : TableKey → List BlockId} {k : TableKey} {t' bs : List BlockId}

theorem mem_update_cases {j : TableKey} (hb : b ∈ update tables k t' j) :
    j = k ∧ b ∈ t' ∨ j ≠ k ∧ b ∈ tables j := by
  by_cases hj : j = k
  · subst hj
    exact .inl ⟨rfl, by simpa using hb⟩
  · exact .inr ⟨hj, by simpa [hj] using hb⟩

theorem nodup_update (h : ∀ j, (live (tables j)).Nodup) (ht : (live t').Nodup) (j : TableKey) :
    (live (update tables k t' j)).Nodup := by
  by_cases hj : j = k
  · subst hj
    simpa using ht
  · simpa [hj] using h j

variable (h : Own settings hs p tables)
include h

/-- **One table changes**: what is new in it is cached for the request, or has no hash and stood in
    no table. -/
theorem Own.retable (hset : p'.settings = p.settings) (hp : PoolOk p')
    (hc : ∀ b, b ≠ 0 → p.refCnt b + t'.count b ≤ p'.refCnt b + (tables k).count b)
    (hnd : (live t').Nodup)
    (hh : ∀ b, p'.blockHash b = p.blockHash b ∨ p'.blockHash b = none ∧ ∀ j, b ∉ tables j)
    (hnew : ∀ b ∈ live t', b ∈ tables k ∨ (∃ hash ∈ hs k, p'.blockHash b = some ⟨hash, k.1⟩) ∨
      p'.blockHash b = none ∧ ∀ j, b ∉ tables j) : Own settings hs p' (update tables k t') := by
  refine ⟨hset.trans h.settings, hp, fun b hb => (h.covered b hb).update (hc b hb),
    nodup_update h.nodup hnd, fun b key hkey j hj => ?_, fun b hb hn j j' hj hj' => ?_⟩
  · have hb : b ≠ 0 := fun hb => by rw [hb, hp.null] at hkey; cases hkey
    have hold : ∀ j, b ∈ tables j → key.group = j.1 ∧ key.hash ∈ hs j := by
      intro j hj
      rcases hh b with heq | ⟨-, ho⟩
      · exact h.hashed b key (heq ▸ hkey) j hj
      · exact absurd hj (ho j)
    rcases mem_update_cases hj with ⟨rfl, ht⟩ | ⟨-, ht⟩
    · rcases hnew b (mem_live.mpr ⟨ht, hb⟩) with hin | ⟨hash, hin, hhit⟩ | ⟨hn, -⟩
      · exact hold _ hin
      · obtain rfl := Option.some.inj (hkey.symm.trans hhit)
        exact ⟨rfl, hin⟩
      · cases hkey.symm.trans hn
    · exact hold j ht
  · by_cases ho : ∀ j, b ∉ tables j
    · have hk : ∀ j, b ∈ update tables k t' j → j = k := fun j hj =>
        (mem_update_cases hj).elim And.left fun ht => absurd ht.2 (ho j)
      rw [hk j hj, hk j' hj']
    · have hold : ∀ j, b ∈ update tables k t' j → b ∈ tables j := by
        intro j hj
        rcases mem_update_cases hj with ⟨rfl, ht⟩ | ⟨-, ht⟩
        · rcases hnew b (mem_live.mpr ⟨ht, hb⟩) with hin | ⟨hash, -, hhit⟩ | ⟨-, ho'⟩
          · exact hin
          · cases hn.symm.trans hhit
          · exact absurd ho' ho
        · exact ht
      have heq := (hh b).resolve_right fun hg => ho hg.2
      exact h.once b hb (heq ▸ hn) j j' (hold j hj) (hold j' hj')

theorem Own.shrink (hset : p'.settings = p.settings) (hp : PoolOk p')
    (hh : p'.blockHash = p.blockHash)
    (hc : ∀ b, b ≠ 0 → p.refCnt b + t'.count b ≤ p'.refCnt b + (tables k).count b)
    (hnd : (live t').Nodup)
    (hsub : ∀ b ∈ live t', b ∈ tables k) : Own settings hs p' (update tables k t') :=
  h.retable hset hp hc hnd (fun b => .inl (congrFun hh b)) fun b hb => .inl (hsub b hb)

theorem Own.take {n : Int} {ids : List BlockId} (hget : p.getNewBlocks n = .ok (ids, p'))
    (hp : (live t').Perm (live ids ++ live (tables k))) :
    Own settings hs p' (update tables k t') := by
  obtain ⟨hn, hr⟩ := (getNewBlocks_spec h.pool).mp hget
  obtain ⟨rfl, rfl⟩ := Prod.mk.inj hr
  set ids := p.queue.blocks.take n.toNat with hi
  -- what is taken was free, so no table had it
  have hf : ∀ b ∈ ids, b ≠ 0 ∧ p.refCnt b = 0 := fun b hb =>
    h.pool.free b (mem_of_mem_take hb)
  have hnot : ∀ b ∈ ids, ∀ j, b ∉ tables j := fun b hb =>
    (h.covered b (hf b hb).1).notMem (hf b hb).2.le
  have hg : ∀ b ∈ ids, (p.gotten n).2.blockHash b = none := fun b hb => by
    simp [gotten, taken, ← hi, hb]
  refine h.retable rfl (h.pool.gotten hn) (fun b hb => ?_) ?_ (fun b => ?_) fun b hb => ?_
  · have hc := hp.count_eq b
    rw [count_append, count_live hb, count_live hb, count_live hb] at hc
    simp only [taken]
    omega
  · rw [hp.nodup_iff]
    refine nodup_append.mpr ⟨?_, h.nodup k, fun a ha b hb hab => ?_⟩
    · exact (h.pool.nodup.sublist (take_sublist _ _)).filter _
    · exact hnot a (mem_live.mp ha).1 k (hab ▸ (mem_live.mp hb).1)
  · by_cases hb : b ∈ ids
    · exact .inr ⟨hg b hb, hnot b hb⟩
    · exact .inl (by simp [taken, hb])
  · rcases mem_append.mp (hp.mem_iff.mp hb) with hb | hb
    · have hin := (mem_live.mp hb).1
      exact .inr (.inr ⟨hg b hin, hnot b hin⟩)
    · exact .inl (mem_live.mp hb).1

theorem Own.touch_eq {S : Set (List BlockHash)} {g : Nat} (hh : HitsOf S g p bs) :
    p.touch bs = .ok (p.touched bs) := by
  refine touch_spec h.pool fun b hb hb0 hr => ?_
  obtain ⟨hash, -, hk⟩ := hh b hb hb0
  exact h.pool.evictable b (by simp [hk]) hr

theorem Own.touch (he : live (tables k) = []) (hnd : (live bs).Nodup)
    (hh : HitsOf (hs k) k.1 p bs) (ht : p.touch bs = .ok p')
    (hp : (live t').Perm (live bs)) : Own settings hs p' (update tables k t') := by
  rw [h.touch_eq hh] at ht
  obtain rfl := Except.ok.inj ht
  refine h.retable rfl (h.pool.touched bs) (fun b hb => ?_) (hp.nodup_iff.mpr hnd)
    (fun _ => .inl rfl) fun b hb => ?_
  · have hc := hp.count_eq b
    have hz : (tables k).count b = 0 := by rw [← count_live hb, he, count_nil]
    rw [count_live hb, count_live hb] at hc
    simp only [touched]
    omega
  · obtain ⟨hin, hb⟩ := mem_live.mp (hp.mem_iff.mp hb)
    exact .inr (.inl (hh b hin hb))

theorem Own.release (hp : (live (tables k)).Perm (live bs ++ live t')) :
    Own settings hs (p.freeBlocks bs) (update tables k t') := by
  have hnd := hp.nodup_iff.mp (h.nodup k)
  rw [nodup_append] at hnd
  have hsub : ∀ b ∈ live bs ++ live t', b ∈ tables k := fun b hb =>
    (mem_live.mp (hp.mem_iff.mpr hb)).1
  refine h.shrink rfl (h.pool.freed hnd.1 fun b hb hb0 => ?_) rfl (fun b hb => ?_) hnd.2.1
    fun b hb => hsub b (mem_append_right _ hb)
  · exact (h.covered b hb0).pos (hsub b (mem_append_left _ (mem_live.mpr ⟨hb, hb0⟩)))
  · have hc := hp.count_eq b
    rw [count_append, count_live hb, count_live hb, count_live hb] at hc
    simp only [freeBlocks]
    omega

theorem Own.cache {ha : List BlockHash} {fa i : Nat} (hca : p.enableCaching = true)
    (hb : b ∈ tables k) (hm : ∀ x, blockHashAt ha fa i = some x → x ∈ hs k)
    (hcc : p.cacheBlock ha fa k.1 i b = .ok p') : Own settings hs p' tables := by
  rcases cacheBlock_spec h.pool.toHashOk hcc with ⟨-, rfl⟩ | ⟨hb0, hn, hash, hat, rfl⟩
  · exact h
  · have hp := (h.covered b hb0).pos hb
    refine ⟨h.settings, h.pool.hashed hb0 hn hp hca _, h.covered, h.nodup,
      fun c key hk j hj => ?_, fun c hc hcn j j' hj hj' => ?_⟩
    · by_cases hcb : c = b
      · -- the block had no hash, so it stands only here
        subst hcb
        rw [h.once c hb0 hn j k hj hb]
        simp only [BlockPool.hashed, update_self, Option.some.injEq] at hk
        subst hk
        exact ⟨rfl, hm hash hat⟩
      · simp only [BlockPool.hashed, update_of_ne hcb] at hk
        exact h.hashed c key hk j hj
    · by_cases hcb : c = b
      · subst hcb
        simp [BlockPool.hashed] at hcn
      · simp only [BlockPool.hashed, update_of_ne hcb] at hcn
        exact h.once c hc hcn j j' hj hj'

theorem Own.move (ht : tables k = t) (hm : Move (hs k) k.1 (p, t) (p', t')) :
    Own settings hs p' (update tables k t') := by
  subst ht
  cases hm with
  | take hg hp => exact h.take hg hp
  | touch he hnd hh hto hp => exact h.touch he hnd hh hto hp
  | release hp => exact h.release hp
  | cache hc hb hmem hca =>
    rw [update_eq_self]
    exact h.cache hc hb hmem hca
  | rearrange hp =>
    refine h.shrink rfl h.pool rfl (fun b hb => ?_) (hp.nodup_iff.mp (h.nodup k))
      fun b hb => (mem_live.mp (hp.mem_iff.mpr hb)).1
    have hco := hp.count_eq b
    rw [count_live hb, count_live hb] at hco
    omega

theorem Own.moves (ht : tables k = t) (hm : Moves (hs k) k.1 (p, t) (p', t')) :
    Own settings hs p' (update tables k t') := by
  generalize hx : (p, t) = x at hm
  generalize hy : (p', t') = y at hm
  induction hm generalizing p' t' with
  | refl =>
    obtain ⟨rfl, rfl⟩ := Prod.mk.inj (hx.trans hy.symm)
    rw [← ht, update_eq_self]
    exact h
  | @tail z y _ hst ih =>
    subst hy
    have hmid : Own settings hs z.1 (update tables k z.2) := ih rfl
    have hl := hmid.move (k := k) (t := z.2) (by simp) hst
    rwa [update_idem] at hl

end Preservation

/-! ## 4. Two places -/

/-- A non-null block stands in two places only as a cached block of one group, whose hash all its
    holders have. -/
def Exclusive (hs : TableKey → Set (List BlockHash)) (p : BlockPool)
    (tables : TableKey → List BlockId) : Prop :=
  ∀ b, b ≠ 0 → ∀ (k k' : TableKey) (i i' : Nat), (tables k)[i]? = some b →
    (tables k')[i']? = some b →
    (k, i) ≠ (k', i') → ∃ key, p.blockHash b = some key ∧ ∀ j, b ∈ tables j → j.1 = key.group ∧
      key.hash ∈ hs j

theorem place_unique (hnd : (live t).Nodup) (hb : b ≠ 0) {i i' : Nat} (hi : t[i]? = some b)
    (hi' : t[i']? = some b) : i = i' := by
  by_contra hne
  have hd : List.Duplicate b t := by
    rw [duplicate_iff_exists_distinct_get]
    obtain ⟨hlt, heq⟩ := List.getElem?_eq_some_iff.mp hi
    obtain ⟨hlt', heq'⟩ := List.getElem?_eq_some_iff.mp hi'
    rcases Nat.lt_or_gt_of_ne hne with ho | ho
    · exact ⟨⟨i, hlt⟩, ⟨i', hlt'⟩, ho, heq.symm, heq'.symm⟩
    · exact ⟨⟨i', hlt'⟩, ⟨i, hlt⟩, ho, heq'.symm, heq.symm⟩
  have hc := duplicate_iff_two_le_count.mp hd
  have hone := nodup_iff_count_le_one.mp hnd b
  rw [count_live hb] at hone
  omega

theorem Own.exclusive {settings : Bool × Nat} {hs : TableKey → Set (List BlockHash)} {p : BlockPool}
    {tables : TableKey → List BlockId} (h : Own settings hs p tables) : Exclusive hs p tables := by
  intro b hb k k' i i' hi hi' hne
  have hk : k ≠ k' := by
    rintro rfl
    exact hne (by rw [place_unique (h.nodup k) hb hi hi'])
  cases hkey : p.blockHash b with
  | none =>
    exact absurd (h.once b hb hkey k k' (mem_of_getElem? hi) (mem_of_getElem? hi')) hk
  | some key =>
    refine ⟨key, rfl, fun j hj => ?_⟩
    obtain ⟨hg, hh⟩ := h.hashed b key hkey j hj
    exact ⟨hg.symm, hh⟩

end VllmDual.Core
