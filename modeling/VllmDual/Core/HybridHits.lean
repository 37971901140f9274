/-
  Subject:   THE HITS OF A HYBRID MODEL AGREE ACROSS ITS GROUPS
             (`HybridKVCacheCoordinator.find_longest_cache_hit`).

  The lookup asks every spec in turn for a hit within the length of the one before, and starts again
  until no spec shortens it. A full-attention spec is asked once; its blocks are cut at the end, if
  it is the first one:

  * `hybrid_hits_consistent` -- the lookup, for every configuration and every content of the pools;
  * `unsupported_raises_tooLong` -- an unsupported setting, and blocks that are not cut.
-/
import VllmDual.Core.Ownership

namespace VllmDual.Core

open Outcome Ceil List Nat Config Option

def Pools.getOneBlock : Pools → BlockKey → Option BlockId
  | one p, key => p.getOneBlock key
  | perGroup ps, key => (ps 0).getOneBlock key
  | shared .., _ => none

theorem Pools.getCachedBlock_spec {po : Pools} {hash : List BlockHash} {gs : List Nat} {row : Row}
    (h : po.getCachedBlock hash gs = some row) {j g : Nat} (hj : gs[j]? = some g) :
    po.getOneBlock ⟨hash, g⟩ = some (row.getD j 0) := by
  cases po with
  | one p => exact HitQuery.getCachedBlock_spec h hj
  | perGroup ps => exact HitQuery.getCachedBlock_spec h hj
  | shared ow order s => cases h

namespace HitQuery

/-! ## 1. The length of one lookup -/

theorem alignedLength_spec (bz ag n : Nat) :
    alignedLength bz ag n ≤ n ∧ ag ∣ alignedLength bz ag n * bz := by
  induction n with
  | zero => simp [alignedLength]
  | succ n ih =>
    unfold alignedLength
    split
    · exact ⟨by omega, ih.2⟩
    · rename_i hs
      refine ⟨le_rfl, ?_⟩
      by_cases heq : bz = ag
      · exact heq ▸ dvd_mul_left _ _
      · exact dvd_of_mod_eq_zero (by_contra fun hm => hs ⟨heq, hm⟩)

section Length

variable {q : HitQuery} {m : Manager} {gr : List Nat} {rs cp : List Row}
  {ag ml i nc wi n ch : Nat} {cs : Int}

theorem length_leading_le (n i : Nat) : (q.leading m gr n i).length ≤ n ∧
    ∀ j < (q.leading m gr n i).length, q.cachedAt m gr (i + j) ≠ none := by
  induction n generalizing i with
  | zero => exact ⟨le_rfl, fun j hj => absurd hj (Nat.not_lt_zero j)⟩
  | succ n ih =>
    rw [leading]
    split
    · exact ⟨Nat.zero_le _, fun j hj => absurd hj (Nat.not_lt_zero j)⟩
    · rename_i row hat
      obtain ⟨hle, ha⟩ := ih (i + 1)
      refine ⟨succ_le_succ hle, fun j hj => ?_⟩
      cases j with
      | zero => exact fun hn => by rw [Nat.add_zero, hat] at hn; cases hn
      | succ j =>
        have hj' := ha j (lt_of_succ_lt_succ hj)
        rwa [show i + 1 + j = i + (j + 1) by omega] at hj'

theorem blockSize_eq (hworld : m.worldSize = 1) : m.blockSize = m.specBlockSize := by
  rw [Manager.blockSize, hworld, Nat.mul_one]

theorem length_fullHit (hworld : m.worldSize = 1) :
    ag ∣ (q.fullHit m gr ag ml).length * m.specBlockSize ∧
      (q.fullHit m gr ag ml).length ≤ ml / m.specBlockSize := by
  have hl : (q.leading m gr (ml / m.blockSize) 0).length ≤ ml / m.blockSize :=
    (length_leading_le _ _).1
  unfold fullHit
  dsimp only
  generalize hr : (if q.useEagle = true then (q.leading m gr (ml / m.blockSize) 0).dropLast
    else q.leading m gr (ml / m.blockSize) 0) = rs
  have hlen : rs.length ≤ ml / m.blockSize := by
    rw [← hr]
    split
    · rw [length_dropLast]
      omega
    · exact hl
  obtain ⟨hle, hdvd⟩ := alignedLength_spec m.blockSize ag rs.length
  rw [length_take, Nat.min_eq_left hle]
  rw [blockSize_eq hworld] at hdvd hlen hle ⊢
  exact ⟨hdvd, hle.trans hlen⟩

theorem length_slidingHit (h : q.slidingHit m gr wi ag ml = .ok rs) :
    ag ∣ rs.length * m.specBlockSize ∧ rs.length ≤ ml / m.specBlockSize := by
  obtain ⟨f, hf, rfl, he⟩ := slidingHit_longest h
  split
  · cases hr : f with
    | nil => simp
    | cons row r =>
      have hb := hf.bound
      rw [hr] at hb
      rw [← he ‹_› (hr ▸ cons_ne_nil row r), length_dropLast]
      exact ⟨dvd_mul_left _ _, by omega⟩
  · exact ⟨hf.aligned, hf.bound⟩

theorem length_chunkedRows (h : q.chunkedRows m gr n i = .ok rs) : rs.length ≤ n := by
  induction n generalizing i rs with
  | zero =>
    obtain rfl := Except.ok.inj h
    exact le_rfl
  | succ n ih =>
    unfold chunkedRows at h
    obtain ⟨found, -, h⟩ := of_bind h
    split at h
    · obtain rfl := pure_eq_ok.mp h
      exact Nat.zero_le _
    · obtain ⟨r, hr, rfl⟩ := bind_pure_eq_ok.mp h
      exact succ_le_succ (ih hr)

theorem length_chunkedHit (h : q.chunkedHit m gr ch ag ml = .ok rs) :
    ag ∣ rs.length * m.specBlockSize ∧ rs.length ≤ ml / m.specBlockSize := by
  replace h := of_ensure (of_ensure h)
  obtain ⟨heq, h⟩ := ensure_bind_eq_ok.mp h
  obtain ⟨found, hr, rfl⟩ := bind_pure_eq_ok.mp h
  have hl := length_chunkedRows hr
  have hs : ml / ch * ch / m.specBlockSize ≤ ml / m.specBlockSize :=
    Nat.div_le_div_right (div_mul_le_self _ _)
  rw [length_append, length_replicate]
  exact ⟨heq ▸ dvd_mul_left _ _, by omega⟩

theorem length_mambaSearch (h : q.mambaSearch m gr ag i = .ok rs) :
    ag ∣ rs.length * m.specBlockSize ∧ rs.length ≤ i := by
  induction i with
  | zero =>
    obtain rfl := Except.ok.inj h
    exact ⟨by simp, le_rfl⟩
  | succ i ih =>
    unfold mambaSearch at h
    obtain ⟨found, -, h⟩ := of_bind h
    split at h
    · obtain ⟨hdvd, hle⟩ := ih h
      exact ⟨hdvd, by omega⟩
    · split at h
      · obtain ⟨hdvd, hle⟩ := ih h
        exact ⟨hdvd, by omega⟩
      · rename_i row hs
        obtain rfl := Except.ok.inj h
        rw [length_append, length_replicate, length_singleton]
        refine ⟨?_, le_rfl⟩
        by_cases heq : m.specBlockSize = ag
        · exact heq ▸ dvd_mul_left _ _
        · exact dvd_of_mod_eq_zero (by_contra fun hm => hs ⟨heq, hm⟩)

theorem managerHit_length (hworld : m.worldSize = 1) (h : q.managerHit m gr ag ml = .ok rs) :
    ag ∣ rs.length * m.specBlockSize ∧ rs.length * m.specBlockSize ≤ ml := by
  have hs : ag ∣ rs.length * m.specBlockSize ∧ rs.length ≤ ml / m.specBlockSize := by
    unfold managerHit at h
    split at h
    · exact Except.ok.inj h ▸ length_fullHit hworld
    · exact Except.ok.inj h ▸ length_fullHit hworld
    · exact length_slidingHit h
    · exact length_chunkedHit h
    · exact length_mambaSearch (ensure_bind_eq_ok.mp h).2
    · cases h
  refine ⟨hs.1, ?_⟩
  exact (Nat.mul_le_mul_right _ hs.2).trans (div_mul_le_self _ _)

/-! ## 2. When a lookup returns -/

/-- The class supports the setting: what the assertions of its lookup ask for. -/
def Supports (useEagle : Bool) (alignmentTokens : Nat) (m : Manager) : Prop :=
  match m.kind with
  | .full | .dsaLatent _ | .mamba .. => True
  | .slidingWindow _ => useEagle = true → m.specBlockSize = alignmentTokens
  | .chunkedLocal _ => useEagle = false ∧ m.specBlockSize = alignmentTokens
  | .crossAttention => False

def Covers (q : HitQuery) (n : Nat) : Prop := n ≤ q.hashes.length * q.hashBlockSize

theorem blockHashAt_ne_none_iff (hdvd : q.hashBlockSize ∣ m.blockSize) :
    blockHashAt q.hashes (m.blockSize / q.hashBlockSize) i ≠ none ↔
      q.Covers ((i + 1) * m.blockSize) := by
  obtain ⟨fa, hf⟩ := hdvd
  have hp : 0 < q.hashBlockSize := by
    by_contra hzero
    have hb := m.blockSize_pos
    rw [hf, Nat.eq_zero_of_not_pos hzero, Nat.zero_mul] at hb
    exact Nat.lt_irrefl 0 hb
  have hu : (i + 1) * (q.hashBlockSize * fa) = (i + 1) * fa * q.hashBlockSize := by ring
  rw [Covers, hf, Nat.mul_div_cancel_left _ hp, hu, Nat.mul_le_mul_right_iff hp, blockHashAt]
  split <;> simp [*]

def Readable (q : HitQuery) (m : Manager) (groups : List Nat) (n : Nat) : Prop :=
  ∀ j < n, ∃ found, q.subscriptAt m groups j = .ok found

theorem Readable.mono (h : q.Readable m gr n) (hle : i ≤ n) : q.Readable m gr i :=
  fun j hj => h j (hj.trans_le hle)

theorem Covers.readable (h : q.Covers ml) (hdvd : q.hashBlockSize ∣ m.blockSize) :
    q.Readable m gr (ml / m.blockSize) := by
  intro j hj
  have hc : q.Covers ((j + 1) * m.blockSize) :=
    ((Nat.mul_le_mul_right _ hj).trans (div_mul_le_self _ _)).trans h
  obtain ⟨hash, hh⟩ := ne_none_iff_exists'.mp ((blockHashAt_ne_none_iff hdvd).mpr hc)
  exact ⟨_, by rw [HitQuery.subscriptAt, hh]⟩

theorem slidingScan_returns (ha : q.Readable m gr i) :
    ∃ sc, q.slidingScan m gr cs ag i cp nc = .ok sc := by
  induction i generalizing cp nc with
  | zero => exact ⟨_, rfl⟩
  | succ i ih =>
    have hr := ha.mono (le_succ i)
    obtain ⟨found, hf⟩ := ha i (lt_succ_self i)
    unfold slidingScan
    rw [hf, ok_bind]
    cases found with
    | none => exact ih hr
    | some row =>
      dsimp only
      split
      · exact ih hr
      · split
        · exact ⟨_, rfl⟩
        · exact ih hr

theorem chunkedRows_returns (ha : q.Readable m gr (i + n)) :
    ∃ rs, q.chunkedRows m gr n i = .ok rs := by
  induction n generalizing i with
  | zero => exact ⟨_, rfl⟩
  | succ n ih =>
    obtain ⟨found, hf⟩ := ha i (by omega)
    unfold chunkedRows
    rw [hf, ok_bind]
    cases found with
    | none => exact ⟨_, rfl⟩
    | some row =>
      obtain ⟨rs, hr⟩ := ih (i := i + 1) (ha.mono (by omega))
      exact ⟨row :: rs, by rw [hr]; rfl⟩

theorem mambaSearch_returns (ha : q.Readable m gr i) : ∃ rs, q.mambaSearch m gr ag i = .ok rs := by
  induction i with
  | zero => exact ⟨_, rfl⟩
  | succ i ih =>
    have hr := ha.mono (le_succ i)
    obtain ⟨found, hf⟩ := ha i (lt_succ_self i)
    unfold mambaSearch
    rw [hf, ok_bind]
    cases found with
    | none => exact ih hr
    | some row =>
      dsimp only
      split
      · exact ih hr
      · exact ⟨_, rfl⟩

theorem slidingHit_returns (hworld : m.worldSize = 1)
    (hs : q.useEagle = true → m.specBlockSize = ag) (ha : q.Readable m gr (ml / m.specBlockSize)) :
    ∃ rs, q.slidingHit m gr wi ag ml = .ok rs := by
  obtain ⟨sc, hsc⟩ : ∃ sc, q.slidingScan m gr (cdiv ((wi : Int) - 1) m.specBlockSize
      + if q.useEagle then 1 else 0) ag (ml / m.specBlockSize)
      (replicate (ml / m.specBlockSize) (replicate gr.length 0)) 0 = .ok sc :=
    slidingScan_returns ha
  unfold slidingHit
  rw [ensure_pos hworld, ok_bind]
  dsimp only
  rw [hsc, ok_bind]
  split
  · rename_i he
    rw [ensure_pos (hs he.1)]
    exact ⟨_, rfl⟩
  · exact ⟨_, rfl⟩

theorem chunkedHit_returns (hworld : m.worldSize = 1)
    (hs : q.useEagle = false ∧ m.specBlockSize = ag) (ha : q.Readable m gr (ml / m.specBlockSize)) :
    ∃ rs, q.chunkedHit m gr ch ag ml = .ok rs := by
  have hst : ml / ch * ch / m.specBlockSize ≤ ml / m.specBlockSize :=
    Nat.div_le_div_right (div_mul_le_self _ _)
  obtain ⟨rs, hr⟩ : ∃ rs, q.chunkedRows m gr (ml / m.specBlockSize - ml / ch * ch / m.specBlockSize)
      (ml / ch * ch / m.specBlockSize) = .ok rs :=
    chunkedRows_returns (ha.mono (by omega))
  unfold chunkedHit
  rw [ensure_pos hs.1, ok_bind, ensure_pos hworld, ok_bind, ensure_pos hs.2, ok_bind]
  dsimp only
  rw [hr]
  exact ⟨_, rfl⟩

/-- A class whose lookup returns: one rank, blocks of whole hashes, and a setting it supports. -/
structure Ready (q : HitQuery) (alignmentTokens : Nat) (m : Manager) : Prop where
  world : m.worldSize = 1
  hash : q.hashBlockSize ∣ m.blockSize
  supports : Supports q.useEagle alignmentTokens m

/-- **A class that supports the setting returns a hit**, within a length that is covered; full
    attention stops at the end of the hashes anyway. -/
theorem managerHit_returns (h : Ready q ag m) (hc : m.kind.isFullAttention = true ∨ q.Covers ml) :
    ∃ rs, q.managerHit m gr ag ml = .ok rs := by
  obtain ⟨hworld, hdvd, hs⟩ := h
  have ha : m.kind.isFullAttention = false → q.Readable m gr (ml / m.specBlockSize) := by
    intro hf
    rw [← blockSize_eq hworld]
    exact (hc.resolve_left (by simp [hf])).readable hdvd
  unfold Supports at hs
  unfold managerHit
  cases hk : m.kind with
  | full => exact ⟨_, rfl⟩
  | dsaLatent k => exact ⟨_, rfl⟩
  | slidingWindow w =>
    rw [hk] at hs ha
    exact slidingHit_returns hworld hs (ha rfl)
  | chunkedLocal c =>
    rw [hk] at hs ha
    exact chunkedHit_returns hworld hs (ha rfl)
  | mamba al k =>
    rw [hk] at ha
    obtain ⟨rs, hr⟩ : ∃ rs, q.mambaSearch m gr ag (ml / m.specBlockSize) = .ok rs :=
      mambaSearch_returns (ha rfl)
    refine ⟨rs, ?_⟩
    show q.mambaHit m gr ag ml = .ok rs
    rw [mambaHit, ensure_pos hworld, ok_bind, hr]
  | crossAttention =>
    rw [hk] at hs
    exact hs.elim

theorem fullHit_covers (hworld : m.worldSize = 1) (hdvd : q.hashBlockSize ∣ m.blockSize) :
    q.Covers ((q.fullHit m gr ag ml).length * m.specBlockSize) := by
  have hle : (q.fullHit m gr ag ml).length ≤ (q.leading m gr (ml / m.blockSize) 0).length := by
    unfold fullHit
    dsimp only
    split
    · rw [length_take, length_dropLast]
      omega
    · rw [length_take]
      omega
  have ha : ∀ j < (q.leading m gr (ml / m.blockSize) 0).length,
      q.cachedAt m gr (0 + j) ≠ none := (length_leading_le _ _).2
  generalize (q.fullHit m gr ag ml).length = n at hle ⊢
  cases n with
  | zero => simp [Covers]
  | succ n =>
    -- the last block has a hash, so all of them have
    have hc : q.cachedAt m gr n ≠ none := by simpa using ha n hle
    rw [← blockSize_eq hworld]
    exact (blockHashAt_ne_none_iff hdvd).mp fun hn => hc (by rw [cachedAt, hn]; rfl)

end Length

/-! ## 3. The entries of `attention_groups` -/

theorem addGroup_perm (attention : List AttentionGroup) (m : Manager) :
    ((addGroup attention m).flatMap (·.groups)).Perm (attention.flatMap (·.groups) ++
      [m.group]) := by
  induction attention with
  | nil => exact .refl _
  | cons a r ih =>
    unfold addGroup
    split
    · simp only [flatMap_cons, append_assoc]
      exact Perm.append_left _ perm_append_comm
    · simp only [flatMap_cons, append_assoc]
      exact Perm.append_left _ ih

theorem attentionGroups_perm (ma : List Manager) :
    ((attentionGroups ma).flatMap (·.groups)).Perm (ma.map (·.group)) := by
  have hf : ∀ (ms : List Manager) (attention : List AttentionGroup),
      ((ms.foldl addGroup attention).flatMap (·.groups)).Perm (attention.flatMap (·.groups) ++
        ms.map (·.group)) := by
    intro ms
    induction ms with
    | nil => exact fun attention => by simp
    | cons m ms ih =>
      intro attention
      refine (ih _).trans ?_
      rw [map_cons, append_cons]
      exact (addGroup_perm attention m).append_right _
  have hs : ((attentionGroups ma).flatMap (·.groups)).Perm
      ((ma.foldl addGroup []).flatMap (·.groups)) :=
    Perm.flatMap_right _ (filter_append_perm _ _)
  exact hs.trans (hf ma [])

theorem dvd_lcmBlockSize {attention : List AttentionGroup} {a : AttentionGroup}
    (ha : a ∈ attention) : a.manager.specBlockSize ∣ lcmBlockSize attention := by
  induction attention with
  | nil => cases ha
  | cons b r ih =>
    show a.manager.specBlockSize ∣ Nat.lcm b.manager.specBlockSize (lcmBlockSize r)
    rcases mem_cons.mp ha with rfl | ha
    · exact Nat.dvd_lcm_left _ _
    · exact (ih ha).trans (Nat.dvd_lcm_right _ _)

/-! ## 4. One pass -/

/-- The blocks of a group are null, or cached under the request's hashes at their indices. -/
def CachedBlocks (q : HitQuery) (m : Manager) (g : Nat) (blocks : List BlockId) : Prop :=
  ∀ i b, blocks[i]? = some b → b ≠ 0 →
    ∃ hash, blockHashAt q.hashes (m.blockSize / q.hashBlockSize) i = some hash ∧
      q.pools.getOneBlock ⟨hash, g⟩ = some b

section Pass

variable {q : HitQuery} {lcm : Nat} {attention : List AttentionGroup}
  {hits hits' : Nat → Option (List BlockId)} {cu c' : Nat}

theorem RowsOk.cachedBlocks {m : Manager} {gr : List Nat} {rs : List Row}
    (h : RowsOk q m gr rs) {g : Nat} (hg : g ∈ gr) :
    CachedBlocks q m g (HitQuery.column rs (gr.idxOf g)) := by
  intro i b hb hb0
  simp only [HitQuery.column, getElem?_map, map_eq_some_iff] at hb
  obtain ⟨row, hr, rfl⟩ := hb
  rcases h i row hr with rfl | hat
  · exact absurd (by simp) hb0
  · obtain ⟨hash, hh, hc⟩ := bind_eq_some_iff.mp hat
    exact ⟨hash, hh, Pools.getCachedBlock_spec hc (getElem?_idxOf hg)⟩

/-- What a pass finds for a group of an entry: its blocks reach the length after the pass and are
    within the one before it; those of the last entry are just the length after it. -/
def FoundIn (q : HitQuery) (attention : List AttentionGroup) (a : AttentionGroup)
    (g curr curr' : Nat) (found : Option (List BlockId)) : Prop :=
  ∃ blocks, found = some blocks ∧ CachedBlocks q a.manager g blocks ∧
    curr' ≤ blocks.length * a.manager.specBlockSize ∧
    blocks.length * a.manager.specBlockSize ≤ curr ∧
    (attention.getLast? = some a → blocks.length * a.manager.specBlockSize = curr')

theorem hybridPass_found (hworld : ∀ a ∈ attention, a.manager.worldSize = 1)
    (hdvd : ∀ a ∈ attention, a.manager.specBlockSize ∣ lcm)
    (hnodup : (attention.flatMap (·.groups)).Nodup)
    (hp : q.hybridPass lcm attention hits cu = .ok (hits', c')) :
    c' ≤ cu ∧
      ((lcm ∣ cu ∨ attention ≠ [] ∧ ∀ a ∈ attention, hits (a.groups.headD 0) = none) → lcm ∣ c') ∧
      (∀ g ∉ attention.flatMap (·.groups), hits' g = hits g) ∧
      ∀ a ∈ attention, ∀ g ∈ a.groups,
        (a.manager.kind.isFullAttention = true ∧ (hits (a.groups.headD 0)).isSome = true ∧
          hits' g = hits g) ∨ FoundIn q attention a g cu c' (hits' g) := by
  induction attention generalizing hits cu with
  | nil =>
    obtain ⟨rfl, rfl⟩ := pair_inj hp
    exact ⟨le_rfl, fun h => h.elim id fun h => absurd rfl h.1, fun _ _ => rfl, forall_mem_nil _⟩
  | cons a r ih =>
    obtain ⟨ha, hworld'⟩ := forall_mem_cons.mp hworld
    obtain ⟨hlcm, hdvd'⟩ := forall_mem_cons.mp hdvd
    rw [flatMap_cons] at hnodup
    obtain ⟨-, hnodup', hap⟩ := nodup_append.mp hnodup
    have ho : ∀ x ∈ r, ∀ g ∈ x.groups, g ∉ a.groups := fun x hx g hg hmem =>
      hap g hmem g (mem_flatMap.mpr ⟨x, hx, hg⟩) rfl
    have hin : ∀ g ∈ a.groups, g ∉ r.flatMap (·.groups) := fun g hg hmem => hap g hg g hmem rfl
    -- what is found in the rest is found in the whole list
    have hli : ∀ x ∈ r, ∀ g curr₁ found, curr₁ ≤ cu → FoundIn q r x g curr₁ c' found →
        FoundIn q (a :: r) x g cu c' found := by
      rintro x hx g curr₁ found hle ⟨blocks, hbl, hc, hlow, hh, hl⟩
      refine ⟨blocks, hbl, hc, hlow, hh.trans hle, fun hx' => hl ?_⟩
      rw [getLast?_cons] at hx'
      cases hre : r.getLast? with
      | none => rw [getLast?_eq_none_iff.mp hre] at hx; cases hx
      | some y => rwa [hre, getD_some] at hx'
    unfold hybridPass at hp
    split at hp
    · -- full attention that was looked up before
      rename_i hs
      obtain ⟨hle, hmul, hk, hf⟩ := ih hworld' hdvd' hnodup' hp
      have hr := div_mul_le_self cu a.manager.specBlockSize
      refine ⟨hle.trans hr, fun h => hmul (.inl ?_), fun g hg => ?_, fun x hx g hg => ?_⟩
      · rcases h with h | ⟨-, hn⟩
        · rwa [Nat.div_mul_cancel (hlcm.trans h)]
        · rw [hn a mem_cons_self] at hs
          exact absurd hs.2 Bool.false_ne_true
      · rw [flatMap_cons, mem_append] at hg
        exact hk g fun hmem => hg (.inr hmem)
      · rcases mem_cons.mp hx with rfl | hx
        · exact .inl ⟨hs.1, hs.2, hk g (hin g hg)⟩
        · exact (hf x hx g hg).imp_right (hli x hx g _ _ hr)
    · obtain ⟨rs, hro, hp⟩ := of_bind hp
      obtain ⟨hm, hb⟩ := managerHit_length ha hro
      obtain ⟨hle, hmul, hk, hf⟩ := ih hworld' hdvd' hnodup' hp
      have hold : ∀ g ∉ a.groups, setHits hits a.groups rs g = hits g := fun g hg => if_neg hg
      refine ⟨hle.trans hb, fun _ => hmul (.inl hm), fun g hg => ?_, fun x hx g hg => ?_⟩
      · rw [flatMap_cons, mem_append, not_or] at hg
        exact (hk g hg.2).trans (hold g hg.1)
      · rcases mem_cons.mp hx with rfl | hx
        · have hset : hits' g = some (column rs (x.groups.idxOf g)) :=
            (hk g (hin g hg)).trans (if_pos hg)
          have hlen : (column rs (x.groups.idxOf g)).length = rs.length := length_map ..
          refine .inr ⟨_, hset, (managerHit_ok hro).cachedBlocks hg, ?_, ?_, fun hl => ?_⟩
          · rwa [hlen]
          · rwa [hlen]
          · -- an entry is the last one only once
            cases r with
            | nil =>
              rw [hlen]
              exact (pair_inj hp).2
            | cons y r =>
              rw [getLast?_cons_cons] at hl
              exact absurd hg (ho x (mem_of_getLast? hl) g hg)
        · rcases hf x hx g hg with ⟨hfu, hso, hsa⟩ | hnew
          · have hhe : x.groups.headD 0 ∈ x.groups := by
              cases hgr : x.groups with
              | nil => rw [hgr] at hg; cases hg
              | cons g' gs => exact mem_cons_self
            rw [hold _ (ho x hx _ hhe)] at hso
            exact .inl ⟨hfu, hso, hsa.trans (hold g (ho x hx g hg))⟩
          · exact .inr (hli x hx g _ _ hb hnew)

/-! ## 5. The loop -/

/-- What holds between the passes: the length is a multiple of the lcm, and every group has blocks
    that reach it. -/
structure Settled (q : HitQuery) (lcm : Nat) (attention : List AttentionGroup)
    (hits : Nat → Option (List BlockId)) (n : Nat) : Prop where
  multiple : lcm ∣ n
  found : ∀ a ∈ attention, ∀ g ∈ a.groups, ∃ blocks, hits g = some blocks ∧
    CachedBlocks q a.manager g blocks ∧ n ≤ blocks.length * a.manager.specBlockSize

/-- A pass starts with nothing looked up, or with what an earlier pass has left. -/
def Startable (q : HitQuery) (lcm : Nat) (attention : List AttentionGroup)
    (hits : Nat → Option (List BlockId)) (n : Nat) : Prop :=
  (attention ≠ [] ∧ ∀ a ∈ attention, hits (a.groups.headD 0) = none) ∨
    Settled q lcm attention hits n

section Loop

variable (hworld : ∀ a ∈ attention, a.manager.worldSize = 1)
  (hdvd : ∀ a ∈ attention, a.manager.specBlockSize ∣ lcm)
  (hnodup : (attention.flatMap (·.groups)).Nodup)
  {s : Bool} {fuel n : Nat}

include hworld hdvd hnodup

theorem hybridPass_settled (hs : Startable q lcm attention hits cu)
    (hp : q.hybridPass lcm attention hits cu = .ok (hits', c')) :
    c' ≤ cu ∧ Settled q lcm attention hits' c' ∧
      ∀ a ∈ attention, a.manager.kind.isFullAttention = false → ∀ g ∈ a.groups,
        FoundIn q attention a g cu c' (hits' g) := by
  obtain ⟨hle, hm, -, hf⟩ := hybridPass_found hworld hdvd hnodup hp
  refine ⟨hle, ⟨?_, fun a ha g hg => ?_⟩, fun a ha hfu g hg => ?_⟩
  · exact hm (hs.symm.imp_left (·.multiple))
  · rcases hf a ha g hg with ⟨-, hso, hsa⟩ | ⟨blocks, hb, hc, hl, -⟩
    · rcases hs with ⟨-, hn⟩ | hse
      · rw [hn a ha] at hso
        cases hso
      · obtain ⟨blocks, hb, hc, hl⟩ := hse.found a ha g hg
        exact ⟨blocks, hsa.trans hb, hc, hle.trans hl⟩
    · exact ⟨blocks, hb, hc, hl⟩
  · refine (hf a ha g hg).resolve_left fun h => ?_
    rw [hfu] at h
    exact Bool.false_ne_true h.1

/-- **The loop ends with every group settled**, and with just the final length for the groups that
    are looked up in every pass. -/
theorem hybridLoop_settled {n' : Nat} (hlcm : lcm = lcmBlockSize attention)
    (hsi : s = true → ∃ a₀ a₁, attention = [a₀, a₁] ∧ a₀.manager.kind.isFullAttention = true)
    (hfu : n < fuel) (hst : Startable q lcm attention hits n)
    (hl : q.hybridLoop attention s fuel hits n = .ok (hits', n')) :
    n' ≤ n ∧ Settled q lcm attention hits' n' ∧
      ∀ a ∈ attention, a.manager.kind.isFullAttention = false → ∀ g ∈ a.groups,
        ∃ blocks, hits' g = some blocks ∧ blocks.length * a.manager.specBlockSize = n' := by
  induction fuel generalizing hits n with
  | zero => exact absurd hfu (Nat.not_lt_zero n)
  | succ fuel ih =>
    unfold hybridLoop at hl
    rw [← hlcm] at hl
    obtain ⟨⟨hits₁, cu⟩, hp, hl⟩ := of_bind hl
    obtain ⟨hle, hs, he⟩ := hybridPass_settled hworld hdvd hnodup hst hp
    dsimp only at hl
    split at hl
    · -- no entry has shortened the length
      rename_i hsy
      obtain ⟨rfl, rfl⟩ := pair_inj hl
      obtain rfl : cu = n := le_antisymm hle hsy
      refine ⟨le_rfl, hs, fun a ha hf g hg => ?_⟩
      obtain ⟨blocks, hb, -, hlow, hh, -⟩ := he a ha hf g hg
      exact ⟨blocks, hb, le_antisymm hh hlow⟩
    · split at hl
      · -- of two entries, the second is the last one asked
        rename_i hy
        obtain ⟨rfl, rfl⟩ := pair_inj hl
        refine ⟨hle, hs, fun a ha hf g hg => ?_⟩
        obtain ⟨blocks, hb, -, -, -, hla⟩ := he a ha hf g hg
        refine ⟨blocks, hb, hla ?_⟩
        obtain ⟨a₀, a₁, rfl, hfi⟩ := hsi hy
        rcases mem_cons.mp ha with rfl | ha
        · rw [hfi] at hf
          cases hf
        · rw [mem_singleton.mp ha]
          rfl
      · rename_i hfa _
        obtain ⟨hle', hs', he'⟩ := ih (by omega) (.inr hs) hl
        exact ⟨hle'.trans hle, hs', he'⟩

end Loop

section Returns

variable (h : ∀ a ∈ attention, Ready q lcm a.manager)

include h

theorem hybridPass_returns (hc : q.Covers cu) :
    ∃ hits' c', q.hybridPass lcm attention hits cu = .ok (hits', c') ∧ q.Covers c' := by
  induction attention generalizing hits cu with
  | nil => exact ⟨hits, cu, rfl, hc⟩
  | cons a r ih =>
    obtain ⟨ha, hr⟩ := forall_mem_cons.mp h
    unfold hybridPass
    split
    · exact ih hr ((div_mul_le_self _ _).trans hc)
    · obtain ⟨rs, hro⟩ : ∃ rs, q.managerHit a.manager a.groups lcm cu = .ok rs :=
        managerHit_returns ha (.inr hc)
      rw [hro, ok_bind]
      exact ih hr ((managerHit_length ha.world hro).2.trans hc)

theorem hybridPass_returns_full {a : AttentionGroup} (hfi : attention.head? = some a)
    (hf : a.manager.kind.isFullAttention = true) (hn : hits (a.groups.headD 0) = none) :
    ∃ hits' c', q.hybridPass lcm attention hits cu = .ok (hits', c') ∧ q.Covers c' := by
  obtain ⟨r, rfl⟩ := head?_eq_some_iff.mp hfi
  obtain ⟨ha, hr⟩ := forall_mem_cons.mp h
  have hh : q.managerHit a.manager a.groups lcm cu = .ok (q.fullHit a.manager a.groups lcm cu) := by
    unfold managerHit
    cases hk : a.manager.kind with
    | full => rfl
    | dsaLatent k => rfl
    | _ => rw [hk] at hf; cases hf
  unfold hybridPass
  rw [if_neg fun h => by rw [hn] at h; exact Bool.false_ne_true h.2, hh, ok_bind]
  exact hybridPass_returns hr (fullHit_covers ha.world ha.hash)

theorem hybridLoop_returns {si : Bool} {fuel n : Nat} (hl : lcm = lcmBlockSize attention)
    (hc : q.Covers n ∨ ∃ a, attention.head? = some a ∧ a.manager.kind.isFullAttention = true ∧
      hits (a.groups.headD 0) = none) : ∃ r, q.hybridLoop attention si fuel hits n = .ok r := by
  induction fuel generalizing hits n with
  | zero => exact ⟨_, rfl⟩
  | succ fuel ih =>
    obtain ⟨hits', c', hp, hn⟩ : ∃ hits' c', q.hybridPass lcm attention hits n = .ok (hits', c') ∧
      q.Covers c' := by
      rcases hc with hc | ⟨a, hf, hfu, hno⟩
      · exact hybridPass_returns h hc
      · exact hybridPass_returns_full h hf hfu hno
    unfold hybridLoop
    rw [← hl, hp, ok_bind]
    dsimp only
    split
    · exact ⟨_, rfl⟩
    · split
      · exact ⟨_, rfl⟩
      · exact ih (.inl hn)

end Returns

end Pass

/-! ## 6. The lookup -/

/-- The groups of the first entry: the first full-attention spec, if there is one. -/
def FirstSpec (managers : List Manager) (m : Manager) : Prop :=
  ∃ a, (attentionGroups managers).head? = some a ∧ m.group ∈ a.groups

structure HybridConsistent (q : HitQuery) (managers : List Manager) (maxLength : Nat) (hits : Hits)
    (hitLength : Nat) : Prop where
  bound : hitLength ≤ maxLength
  multiple : ∀ m ∈ managers, m.blockSize ∣ hitLength
  /-- each block is null or cached under the hash of its position for the group -/
  cached : ∀ m ∈ managers, CachedBlocks q m m.group (hits m.group)
  /-- of the full-attention specs only the first is cut to the length -/
  length : ∀ m ∈ managers, m.kind.isFullAttention = false ∨ FirstSpec managers m →
    (hits m.group).length = hitLength / m.blockSize

variable {g : Nat} {bs : List BlockId}

theorem CachedBlocks.take {q : HitQuery} {m : Manager} (h : CachedBlocks q m g bs) (n : Nat) :
    CachedBlocks q m g (bs.take n) := by
  intro i b hb
  rw [getElem?_take] at hb
  split at hb
  · exact h i b hb
  · cases hb

theorem truncateFirst_cases (attention : List AttentionGroup) (n : Nat)
    {hits : Nat → Option (List BlockId)} (h : hits g = some bs) :
    (∃ a, attention.head? = some a ∧ a.manager.kind.isFullAttention = true ∧ g ∈ a.groups ∧
      truncateFirst attention hits n g = bs.take (n / a.manager.specBlockSize)) ∨
    ((∀ a, attention.head? = some a → g ∈ a.groups → a.manager.kind.isFullAttention = false) ∧
      truncateFirst attention hits n g = bs) := by
  unfold truncateFirst
  cases attention with
  | nil => exact .inr ⟨fun a ha => (by cases ha), congrArg (getD · []) h⟩
  | cons a r =>
    dsimp only
    rw [h, getD_some]
    by_cases hc : a.manager.kind.isFullAttention = true ∧ g ∈ a.groups
    · exact .inl ⟨a, rfl, hc.1, hc.2, if_pos hc⟩
    · refine .inr ⟨fun a' ha hg => ?_, if_neg hc⟩
      obtain rfl := some.inj ha
      exact Bool.eq_false_iff.mpr fun hf => hc ⟨hf, hg⟩

end HitQuery

section Lookup

open HitQuery

variable {c : Config} {m : Manager}

theorem Config.attention_nodup (c : Config) :
    ((attentionGroups c.managers).flatMap (·.groups)).Nodup := by
  rw [(attentionGroups_perm c.managers).nodup_iff]
  exact c.groups_nodup

theorem Config.attention_mem (hm : m ∈ c.managers) :
    ∃ a ∈ attentionGroups c.managers, m.group ∈ a.groups := by
  have hmem : m.group ∈ (attentionGroups c.managers).flatMap (·.groups) :=
    (attentionGroups_perm c.managers).mem_iff.mpr (mem_map_of_mem hm)
  exact mem_flatMap.mp hmem

theorem Config.attention_spec (hm : m ∈ c.managers) {a : AttentionGroup}
    (ha : a ∈ attentionGroups c.managers)
    (hg : m.group ∈ a.groups) :
    a.manager.kind = m.kind ∧ a.manager.specBlockSize = m.specBlockSize := by
  obtain ⟨m', hm', hgr, hsa⟩ := (attentionGroups_oneSpec c.managers a ha).2 m.group hg
  obtain rfl : m' = m := inj_on_of_nodup_map c.groups_nodup hm' hm hgr
  have hs := of_decide_eq_true hsa
  exact ⟨hs.1, hs.2.1⟩

theorem Config.attention_head (h : ∃ m ∈ c.managers, m.kind.isFullAttention = true) :
    ∃ a, (attentionGroups c.managers).head? = some a ∧ a.manager.kind.isFullAttention = true := by
  obtain ⟨m, hm, hf⟩ := h
  obtain ⟨a, ha, hg⟩ := attention_mem hm
  have hk := (attention_spec hm ha hg).1
  have hmem : a ∈ (c.managers.foldl addGroup []).filter (·.manager.kind.isFullAttention) := by
    rcases mem_append.mp ha with ha | ha
    · exact ha
    · have hno := (mem_filter.mp ha).2
      rw [hk, hf] at hno
      cases hno
  obtain ⟨a₀, r, hc⟩ := exists_cons_of_ne_nil (ne_nil_of_mem hmem)
  refine ⟨a₀, ?_, ?_⟩
  · rw [attentionGroups, hc]
    rfl
  · have hmem₀ : a₀ ∈ (c.managers.foldl addGroup []).filter (·.manager.kind.isFullAttention) :=
      hc ▸ mem_cons_self
    exact (mem_filter.mp hmem₀).2

/-- **Hybrid prefix hits are consistent across the groups**: whatever the configuration and the
    pools, a lookup that returns is consistent, and it returns if the classes support the setting
    and the hashes cover the length or there is full attention. -/
theorem hybrid_hits_consistent (c : Config) (hcaching : c.enableCaching = true)
    (hgroups : c.managers.length ≠ 1) (pools : Pools) (hashes : List BlockHash) (maxLength : Nat) :
    let q : HitQuery := ⟨pools, hashes, c.hashBlockSize, c.useEagle⟩
    (∀ hits hi, q.hybridHit c.managers maxLength = .ok (hits, hi) →
      HybridConsistent q c.managers maxLength hits hi) ∧
    ((∀ m ∈ c.managers, Supports c.useEagle (lcmBlockSize (attentionGroups c.managers)) m) →
      (q.Covers maxLength ∨ ∃ m ∈ c.managers, m.kind.isFullAttention = true) →
      ∃ hits hi, q.hybridHit c.managers maxLength = .ok (hits, hi)) := by
  intro q
  obtain ⟨hone, hmn⟩ := c.hybrid hcaching hgroups
  have hma : ∀ a ∈ attentionGroups c.managers, a.manager ∈ c.managers :=
    fun a ha => (attentionGroups_oneSpec c.managers a ha).1
  have hworld : ∀ a ∈ attentionGroups c.managers, a.manager.worldSize = 1 :=
    fun a ha => hone _ (hma a ha)
  have hdvd : ∀ a ∈ attentionGroups c.managers,
      a.manager.specBlockSize ∣ lcmBlockSize (attentionGroups c.managers) :=
    fun a ha => dvd_lcmBlockSize ha
  have hne : attentionGroups c.managers ≠ [] := fun h => by
    rw [h] at hmn
    exact absurd hmn (by decide)
  constructor
  · intro hits hi hh
    obtain ⟨⟨found, n⟩, hl, hret⟩ := of_bind hh
    obtain ⟨rfl, rfl⟩ := pair_inj hret
    have hsi : decide ((attentionGroups c.managers).length = 2 ∧
        ((attentionGroups c.managers).head?.any (·.manager.kind.isFullAttention)) = true) = true →
        ∃ a₀ a₁, attentionGroups c.managers = [a₀, a₁] ∧
          a₀.manager.kind.isFullAttention = true := by
      intro hy
      obtain ⟨hlen, hfu⟩ := of_decide_eq_true hy
      obtain ⟨a₀, a₁, hco⟩ := length_eq_two.mp hlen
      rw [hco] at hfu
      exact ⟨a₀, a₁, hco, hfu⟩
    obtain ⟨hle, hse, he⟩ := hybridLoop_settled hworld hdvd c.attention_nodup rfl hsi
      (lt_succ_self maxLength) (.inl ⟨hne, fun _ _ => rfl⟩) hl
    have hs : ∀ m ∈ c.managers, ∀ a ∈ attentionGroups c.managers, m.group ∈ a.groups →
        a.manager.kind = m.kind ∧ a.manager.specBlockSize = m.blockSize := by
      intro m hm a ha hg
      obtain ⟨hk, hsp⟩ := attention_spec hm ha hg
      exact ⟨hk, hsp.trans (blockSize_eq (hone m hm)).symm⟩
    refine ⟨hle, fun m hm => ?_, fun m hm => ?_, fun m hm hcut => ?_⟩
    · obtain ⟨a, ha, hg⟩ := attention_mem hm
      rw [← (hs m hm a ha hg).2]
      exact (hdvd a ha).trans hse.multiple
    · obtain ⟨a, ha, hg⟩ := attention_mem hm
      obtain ⟨blocks, hb, hc, -⟩ := hse.found a ha m.group hg
      have hc : CachedBlocks q m m.group blocks := by
        have heq : a.manager.blockSize = m.blockSize :=
          (blockSize_eq (hworld a ha)).trans (hs m hm a ha hg).2
        unfold CachedBlocks at hc ⊢
        rwa [heq] at hc
      rcases truncateFirst_cases (attentionGroups c.managers) n hb with
        ⟨a₀, -, -, -, hcut⟩ | ⟨-, hke⟩
      · exact hcut ▸ hc.take _
      · exact hke ▸ hc
    · obtain ⟨a, ha, hg⟩ := attention_mem hm
      obtain ⟨blocks, hb, -, hr⟩ := hse.found a ha m.group hg
      rw [(hs m hm a ha hg).2] at hr
      have hd : n / m.blockSize ≤ blocks.length :=
        (div_le_iff_le_mul_add_pred m.blockSize_pos).mpr (by rw [mul_comm]; omega)
      rcases truncateFirst_cases (attentionGroups c.managers) n hb with
        ⟨a₀, hf, -, hg₀, hcut'⟩ | ⟨ho, hke⟩
      · rw [hcut', (hs m hm a₀ (mem_of_head? hf) hg₀).2, length_take]
        exact Nat.min_eq_left hd
      · -- neither cut nor full attention: the last pass has found just the length
        have hfu : a.manager.kind.isFullAttention = false := by
          rcases hcut with hfu | ⟨a₀, hf, hg₀⟩
          · rwa [(hs m hm a ha hg).1]
          · rw [(hs m hm a ha hg).1, ← (hs m hm a₀ (mem_of_head? hf) hg₀).1]
            exact ho a₀ hf hg₀
        obtain ⟨blocks', hb', hlen⟩ := he a ha hfu m.group hg
        obtain rfl := some.inj (hb.symm.trans hb')
        rw [(hs m hm a ha hg).2] at hlen
        rw [hke, ← hlen, Nat.mul_div_cancel _ m.blockSize_pos]
  · intro hsu hcv
    obtain ⟨⟨found, n⟩, hl⟩ : ∃ r, q.hybridLoop (attentionGroups c.managers)
        (decide ((attentionGroups c.managers).length = 2 ∧
          ((attentionGroups c.managers).head?.any (·.manager.kind.isFullAttention)) = true))
        (maxLength + 1) (fun _ => none) maxLength = .ok r := by
      refine hybridLoop_returns (fun a ha => ⟨hworld a ha, c.hash_dvd hcaching _ (hma a ha),
        hsu _ (hma a ha)⟩) rfl (hcv.imp_right fun hfu => ?_)
      obtain ⟨a, hf, hk⟩ := attention_head hfu
      exact ⟨a, hf, hk, rfl⟩
    refine ⟨truncateFirst (attentionGroups c.managers) found n, n, ?_⟩
    unfold hybridHit
    dsimp only
    rw [hl]
    rfl

def sharedQuery : HitQuery := ⟨sharedHit.state.pools, [10, 11, 12], 2, false⟩

theorem sharedQuery_consistent :
    ∃ hits, sharedQuery.hybridHit testConfig.managers 6 = .ok (hits, 2) ∧
    hits 0 = [1] ∧ hits 1 = [2] ∧ HybridConsistent sharedQuery testConfig.managers 6 hits 2 := by
  obtain ⟨hc, hr⟩ :=
    hybrid_hits_consistent testConfig rfl (by decide) sharedHit.state.pools [10, 11, 12] 6
  have hs : ∀ m ∈ testConfig.managers,
      Supports testConfig.useEagle (lcmBlockSize (attentionGroups testConfig.managers)) m := by
    simp [testConfig, Supports]
  obtain ⟨hits, n, hh⟩ := hr hs (.inr ⟨_, mem_cons_self, rfl⟩)
  have hre : (sharedQuery.hybridHit testConfig.managers 6).map (fun x => (x.1 0, x.1 1, x.2))
      = .ok ([1], [2], 2) := rfl
  rw [show sharedQuery.hybridHit testConfig.managers 6 = .ok (hits, n) from hh] at hre
  obtain ⟨h0, h1, rfl⟩ := triple_inj hre
  exact ⟨hits, hh, h0, h1, hc hits 2 hh⟩

def chunkedConfig : Config where
  managers := [⟨0, .full, 2, 0, 1, true, Nat.two_pos, Nat.one_pos⟩,
    ⟨1, .chunkedLocal 8, 2, 0, 1, true, Nat.two_pos, Nat.one_pos⟩]
  maxModelLen := 64
  enableCaching := true
  useEagle := true
  hashBlockSize := 2
  hashBlockSize_pos := Nat.two_pos
  managers_group := rfl
  managers_caching := by simp
  hash_dvd := by simp [Manager.blockSize]
  unitary := by simp
  hybrid := fun _ _ => ⟨by simp, by decide⟩

/-- Two full-attention specs with blocks of two and of four tokens, and Mamba. -/
def twoFullConfig : Config where
  managers := [⟨0, .full, 2, 0, 1, true, Nat.two_pos, Nat.one_pos⟩,
    ⟨1, .full, 4, 0, 1, true, by decide, Nat.one_pos⟩,
    ⟨2, .mamba false 0, 4, 0, 1, true, by decide, Nat.one_pos⟩]
  maxModelLen := 64
  enableCaching := true
  useEagle := false
  hashBlockSize := 2
  hashBlockSize_pos := Nat.two_pos
  managers_group := rfl
  managers_caching := by simp
  hash_dvd := by simp [Manager.blockSize]
  unitary := by simp
  hybrid := fun _ _ => ⟨by simp, by decide⟩

/-- Four tokens are cached for both full-attention specs; Mamba's state has been evicted. -/
def evictedMamba : BlockPool :=
  { BlockPool.init 9 true 2 with
    blockHash := fun b => match b with
      | 1 => some ⟨[10], 0⟩
      | 2 => some ⟨[11], 0⟩
      | 3 => some ⟨[10, 11], 1⟩
      | _ => none
    cached := fun key =>
      if key = ⟨[10], 0⟩ then [1] else if key = ⟨[11], 0⟩ then [2]
      else if key = ⟨[10, 11], 1⟩ then [3] else [] }

/-- **A setting without a lookup, and a list that is too long**: chunked local attention with EAGLE
    raises; and with no hit at all, the second full-attention spec keeps its block. -/
theorem unsupported_raises_tooLong :
    ((HitQuery.mk (.one evictedMamba) [10, 11] 2 true).hybridHit chunkedConfig.managers 4).map (·.2)
      =
      .error (.assertion "Hybrid KV cache is not supported for eagle + chunked local attention.") ∧
    ((HitQuery.mk (.one evictedMamba) [10, 11] 2 false).hybridHit twoFullConfig.managers 4).map
      (fun x => (x.1 0, x.1 1, x.1 2, x.2)) = .ok ([], [3], [], 0) :=
  ⟨rfl, rfl⟩

end Lookup

end VllmDual.Core
