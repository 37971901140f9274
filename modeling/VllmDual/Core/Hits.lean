/-
  Subject:   THE PREFIX-CACHE LOOKUP RETURNS CACHED BLOCKS OF THE REQUEST.

  Whatever the class of the groups, a block that `get_computed_blocks` returns at index `i` of a
  group is null, or is cached in that group under the request's own hash at index `i`.
-/
import VllmDual.Core.Ledger
import VllmDual.Core.Coordinator

namespace VllmDual.Core

open Outcome List Option Ceil HitQuery Nat Except

/-! ## 1. Hits of one group -/

variable {bh h : List BlockHash} {fa i : Nat}

theorem blockHashAt_inj (hnd : bh.Nodup) (hf : 0 < fa) {j : Nat}
    (hi : blockHashAt bh fa i = some h) (hj : blockHashAt bh fa j = some h) : i = j := by
  -- the first digest of a block tells its index
  have hfi : ∀ n, blockHashAt bh fa n = some h → n * fa < bh.length ∧ h.head? = bh[n * fa]? := by
    intro n hn
    unfold blockHashAt at hn
    split at hn
    · rename_i hle
      obtain rfl := Option.some.inj hn
      rw [succ_mul] at hle
      refine ⟨by omega, ?_⟩
      rw [head?_take, if_neg (by omega), head?_drop]
    · cases hn
  obtain ⟨hlt, hh⟩ := hfi i hi
  obtain ⟨hlt', hh'⟩ := hfi j hj
  have heq : bh[i * fa]? = bh[j * fa]? := hh.symm.trans hh'
  rw [getElem?_eq_getElem hlt, getElem?_eq_getElem hlt'] at heq
  exact eq_of_mul_eq_mul_right hf ((hnd.getElem_inj_iff).mp (Option.some.inj heq))

theorem blockHashAt_mono {hs' : List BlockHash} (hle : bh <+: hs')
    (hi : blockHashAt bh fa i = some h) : blockHashAt hs' fa i = some h := by
  obtain ⟨r, rfl⟩ := hle
  unfold blockHashAt at hi ⊢
  split at hi
  · rename_i hl
    obtain rfl := Option.some.inj hi
    have hl' : i * fa + fa ≤ bh.length := by rwa [← succ_mul]
    rw [if_pos (hl.trans (by simp)), drop_append_of_le_length (by omega),
      take_append_of_le_length (by rw [length_drop]; omega)]
  · cases hi

/-- The blocks of a group are cached under the request's hashes at their indices. -/
def HitAt (p : BlockPool) (hashes : List BlockHash) (factor g : Nat) (blocks : List BlockId) :
    Prop :=
  ∀ i b, blocks[i]? = some b → b ≠ 0 → ∃ h, blockHashAt hashes factor i = some h ∧
    p.blockHash b = some ⟨h, g⟩

section HitAt

variable {p : BlockPool} {g : Nat} {bs : List BlockId}

theorem HitAt.take (h : HitAt p bh fa g bs) (n : Nat) : HitAt p bh fa g (bs.take n) := by
  intro i b hb
  rw [getElem?_take] at hb
  split at hb
  · exact h i b hb
  · cases hb

theorem HitAt.nodup (h : HitAt p bh fa g bs) (hnd : bh.Nodup) (hf : 0 < fa) : (live bs).Nodup := by
  rw [live, List.Nodup, pairwise_filter, pairwise_iff_getElem]
  intro i j hi hj hij hne _ heq
  have hb : bs[i] ≠ 0 := of_decide_eq_true hne
  obtain ⟨hash, hat, hk⟩ := h i _ (getElem?_eq_getElem hi) hb
  obtain ⟨hash', hat', hk'⟩ := h j _ (getElem?_eq_getElem hj) (heq ▸ hb)
  rw [← heq, hk] at hk'
  obtain rfl : hash = hash' := by simpa using hk'
  exact absurd (blockHashAt_inj hnd hf hat hat') (by omega)

end HitAt

/-! ## 2. The rows of a lookup -/

namespace HitQuery

variable (q : HitQuery) (m : Manager) (groups : List Nat)

def RowsOk (rows : List Row) : Prop :=
  ∀ i row, rows[i]? = some row → row = List.replicate groups.length 0 ∨
    q.cachedAt m groups i = some row

variable {q m groups} {rs : List Row} {n al ml g : Nat} {row : Row} {p : BlockPool}
  {P : Nat → List BlockId → Prop} {att : List AttentionGroup}
  {hits hits' : Nat → Option (List BlockId)}

theorem RowsOk.nil : RowsOk q m groups [] := fun i row h => by simp at h

theorem RowsOk.take (h : RowsOk q m groups rs) (n : Nat) : RowsOk q m groups (rs.take n) := by
  intro i row hr
  rw [getElem?_take] at hr
  split at hr
  · exact h i row hr
  · cases hr

theorem RowsOk.dropLast (h : RowsOk q m groups rs) : RowsOk q m groups rs.dropLast := by
  rw [dropLast_eq_take]
  exact h.take _

theorem RowsOk.replicate (n : Nat) :
    RowsOk q m groups (List.replicate n (List.replicate groups.length 0)) := by
  intro i row hr
  rw [getElem?_replicate] at hr
  split at hr
  · exact .inl (Option.some.inj hr).symm
  · cases hr

theorem RowsOk.append (h : ∀ j row, rs[j]? = some row → q.cachedAt m groups (n + j) = some row) :
    RowsOk q m groups (List.replicate n (List.replicate groups.length 0) ++ rs) := by
  intro i row hr
  by_cases hi : i < n
  · rw [getElem?_append_left (by simpa using hi)] at hr
    exact RowsOk.replicate n i row hr
  · rw [getElem?_append_right (by simpa using hi), length_replicate] at hr
    have := h (i - n) row hr
    rw [Nat.add_sub_cancel' (by omega)] at this
    exact .inr this

theorem cachedAt_of_subscriptAt {f : Option Row} (h : q.subscriptAt m groups i = .ok f) :
    q.cachedAt m groups i = f := by
  unfold subscriptAt at h
  unfold cachedAt
  split at h
  · cases h
  · rename_i hash hh
    rw [hh]
    exact ok.inj h

theorem leading_spec (n i : Nat) :
    ∀ j row, (q.leading m groups n i)[j]? = some row → q.cachedAt m groups (i + j) = some row := by
  induction n generalizing i with
  | zero =>
    intro j row h
    simp [leading] at h
  | succ n ih =>
    intro j row h
    unfold leading at h
    split at h
    · simp at h
    · rename_i row' hr
      cases j with
      | zero =>
        obtain rfl : row' = row := by simpa using h
        exact hr
      | succ j =>
        have := ih (i + 1) j row (by simpa using h)
        rwa [show i + 1 + j = i + (j + 1) by omega] at this

theorem fullHit_ok (al ml : Nat) : RowsOk q m groups (q.fullHit m groups al ml) := by
  have hl : RowsOk q m groups (q.leading m groups (ml / m.blockSize) 0) := by
    intro i row h
    have := leading_spec _ 0 i row h
    rw [zero_add] at this
    exact .inr this
  simp only [fullHit]
  split
  · exact hl.dropLast.take _
  · exact hl.take _

theorem alignedLength_of_dvd {bz n : Nat} (h : al ∣ n * bz) : alignedLength bz al n = n := by
  cases n with
  | zero => rfl
  | succ n => exact if_neg fun hp => hp.2 (mod_eq_zero_of_dvd h)

/-- The last `need` of the first `n` blocks are cached, or all of them if there are fewer. -/
def LastCached (q : HitQuery) (m : Manager) (groups : List Nat) (need n : Nat) : Prop :=
  ∀ j < n, n ≤ j + need → q.cachedAt m groups j ≠ none

/-- Null rows up to index `k`, cached ones from there on. -/
def CachedFrom (q : HitQuery) (m : Manager) (groups : List Nat) (k : Nat)
    (rows : List Row) : Prop :=
  ∀ j row, rows[j]? = some row → (k ≤ j → q.cachedAt m groups j = some row) ∧
    (j < k → row = List.replicate groups.length 0)

theorem CachedFrom.rowsOk {k : Nat} (h : CachedFrom q m groups k rs) : RowsOk q m groups rs := by
  intro i row hr
  rcases lt_or_ge i k with hlt | hge
  · exact .inl ((h i row hr).2 hlt)
  · exact .inr ((h i row hr).1 hge)

theorem CachedFrom.null {k : Nat} (h : CachedFrom q m groups (i + 1) (rs.take k)) (hk : i ≤ k) :
    CachedFrom q m groups i (rs.take (i + 0)) := by
  intro j row hr
  rw [getElem?_take] at hr
  split at hr
  · rename_i hj
    refine ⟨fun hge => absurd hge (by omega), fun _ => (h j row ?_).2 (by omega)⟩
    rwa [getElem?_take, if_pos (by omega)]
  · cases hr

theorem CachedFrom.set {k : Nat} (h : CachedFrom q m groups (i + 1) (rs.take k))
    (hat : q.cachedAt m groups i = some row) : CachedFrom q m groups i ((rs.set i row).take k) := by
  intro j row' hr
  rw [take_set, getElem?_set] at hr
  split at hr
  · rename_i hij
    subst hij
    split at hr
    · exact ⟨fun _ => hat.trans hr, fun hlt => absurd hlt (lt_irrefl i)⟩
    · cases hr
  · exact ⟨fun hle => (h j row' hr).1 (by omega), fun hlt => (h j row' hr).2 (by omega)⟩

/-- Rows for the longest aligned length whose last blocks are cached: these, after null rows. -/
structure Longest (q : HitQuery) (m : Manager) (groups : List Nat)
    (need alignmentTokens maxNumBlocks : Nat) (rows : List Row) : Prop where
  bound : rows.length ≤ maxNumBlocks
  aligned : alignmentTokens ∣ rows.length * m.specBlockSize
  entries : CachedFrom q m groups (rows.length - need) rows
  longest : ∀ n ≤ maxNumBlocks, alignmentTokens ∣ n * m.specBlockSize →
    LastCached q m groups need n → n ≤ rows.length

/-- **The scan of the sliding window.** Before index `i` is examined, the rows from there on are a
    run of `c` cached blocks that is too short and ends at a multiple of the alignment; no length
    beyond its end is a hit. -/
theorem slidingScan_longest {cs : Int} {ne mnb c : Nat} {cp : List Row}
    {sc : Scan} (hnd : (ne : Int) = max 1 cs) (hlen : cp.length = mnb)
    (hin : i + c ≤ mnb) (hsh : c < ne)
    (hrun : CachedFrom q m groups i (cp.take (i + c)))
    (ha : c = 0 ∨ al ∣ (i + c) * m.specBlockSize)
    (hl : ∀ n ≤ mnb, al ∣ n * m.specBlockSize → LastCached q m groups ne n → n ≤ i + c)
    (h : q.slidingScan m groups cs al i cp c = .ok sc) :
    Longest q m groups ne al mnb (sc.rows m.specBlockSize al) := by
  induction i generalizing cp c with
  | zero =>
    obtain rfl := ok.inj h
    rw [zero_add] at hin hl ha hrun
    have hd : al ∣ c * m.specBlockSize := by
      rcases ha with rfl | hd
      · simp
      · exact hd
    have ht : (cp.take c).length = c := by rw [length_take, hlen, min_eq_left hin]
    have hr : Scan.rows ⟨cp, c, false⟩ m.specBlockSize al = cp.take c := by
      simp only [Scan.rows, ht, alignedLength_of_dvd hd, Bool.false_eq_true, if_false]
      rw [take_of_length_le ht.le]
    rw [hr]
    exact ⟨by rwa [ht], by rwa [ht], by rwa [ht, Nat.sub_eq_zero_of_le hsh.le], by rwa [ht]⟩
  | succ i ih =>
    unfold slidingScan at h
    obtain ⟨found, hf, h⟩ := of_bind h
    have hat := cachedAt_of_subscriptAt hf
    have hnu := hrun.null (by omega)
    split at h
    · -- a miss: what ends behind it needs it
      refine ih hlen (by omega) (by omega) hnu (.inl rfl) (fun n hn hd hla => ?_) h
      have hle := hl n hn hd hla
      by_contra hgt
      exact hla i (by omega) (by omega) hat
    · split at h
      · rename_i hs
        refine ih hlen (by omega) (by omega) (hs.1 ▸ hnu) (.inl hs.1) (fun n hn hd hla => ?_) h
        have hle := hl n hn hd hla
        by_contra hgt
        obtain rfl : n = i + 1 := by omega
        exact hs.2.2 (mod_eq_zero_of_dvd hd)
      · rename_i row hs
        have hne : al ∣ (i + (c + 1)) * m.specBlockSize := by
          rcases ha with rfl | hd
          · by_cases heq : m.specBlockSize = al
            · exact heq ▸ dvd_mul_left _ _
            · exact dvd_of_mod_eq_zero (by_contra fun hm => hs ⟨rfl, heq, hm⟩)
          · rwa [show i + (c + 1) = i + 1 + c by omega]
        rw [show i + 1 + c = i + (c + 1) by omega] at hrun hl
        dsimp only at h
        split at h
        · obtain rfl := ok.inj h
          have ht : ((cp.set i row).take (i + (c + 1))).length = i + (c + 1) := by
            rw [length_take, length_set]
            omega
          show Longest q m groups ne al mnb ((cp.set i row).take (i + (c + 1)))
          refine ⟨by omega, by rwa [ht], ?_, by rwa [ht]⟩
          rw [ht, show i + (c + 1) - ne = i by omega]
          exact hrun.set hat
        · exact ih (by rwa [length_set]) (by omega) (by omega) (hrun.set hat) (.inr hne) hl h

/-- How many blocks a hit of the sliding window ends with: those of the window, one more with EAGLE,
    and at least one. -/
def blocksNeeded (q : HitQuery) (m : Manager) (window : Nat) : Nat :=
  (max 1 (cdiv ((window : Int) - 1) m.specBlockSize + if q.useEagle then 1 else 0)).toNat

/-- **The lookup of the sliding window** is of the longest length; EAGLE drops its last block. -/
theorem slidingHit_longest {w : Nat} (h : q.slidingHit m groups w al ml = .ok rs) :
    ∃ f, Longest q m groups (blocksNeeded q m w) al (ml / m.specBlockSize) f ∧
      rs = (if q.useEagle then f.dropLast else f) ∧
      (q.useEagle = true → f ≠ [] → m.specBlockSize = al) := by
  replace h := of_ensure h
  obtain ⟨sc, hs, h⟩ := of_bind h
  refine ⟨_, slidingScan_longest (Int.toNat_of_nonneg (zero_le_one.trans (le_max_left _ _)))
    length_replicate le_rfl ?_ (fun j row hr => ?_) (.inl rfl) (fun n hn _ _ => hn) hs, ?_⟩
  · rw [blocksNeeded, Int.lt_toNat]
    exact zero_lt_one.trans_le (le_max_left _ _)
  · have hj := (List.getElem?_eq_some_iff.mp hr).1
    rw [length_take, length_replicate] at hj
    exact ⟨fun hle => absurd hle (by omega), fun _ =>
      eq_of_mem_replicate (mem_of_mem_take (mem_of_getElem? hr))⟩
  · simp only at h
    split at h
    · rename_i hea
      obtain ⟨heq, rfl⟩ := ensure_bind_pure_eq_ok.mp h
      exact ⟨(if_pos hea.1).symm, fun _ _ => heq⟩
    · rename_i hk
      obtain rfl := pure_eq_ok.mp h
      by_cases hea : q.useEagle = true
      · have hnil := not_not.mp fun hne => hk ⟨hea, hne⟩
        rw [if_pos hea, hnil]
        exact ⟨rfl, fun _ hne => absurd rfl hne⟩
      · exact ⟨(if_neg hea).symm, fun he => absurd he hea⟩

theorem slidingHit_ok {w : Nat} (h : q.slidingHit m groups w al ml = .ok rs) :
    RowsOk q m groups rs := by
  obtain ⟨f, hf, rfl, -⟩ := slidingHit_longest h
  split
  · exact hf.entries.rowsOk.dropLast
  · exact hf.entries.rowsOk

theorem chunkedRows_spec (h : q.chunkedRows m groups n i = .ok rs) :
    ∀ j row, rs[j]? = some row → q.cachedAt m groups (i + j) = some row := by
  induction n generalizing i rs with
  | zero =>
    obtain rfl := ok.inj h
    intro j row hj
    simp at hj
  | succ n ih =>
    unfold chunkedRows at h
    obtain ⟨found, hf, h⟩ := of_bind h
    have hat := cachedAt_of_subscriptAt hf
    split at h
    · obtain rfl := pure_eq_ok.mp h
      intro j row hj
      simp at hj
    · obtain ⟨r, hr, rfl⟩ := bind_pure_eq_ok.mp h
      intro j row hj
      cases j with
      | zero => simpa using hat.trans (by simpa using hj)
      | succ j =>
        have := ih hr j row (by simpa using hj)
        rwa [show i + 1 + j = i + (j + 1) by omega] at this

theorem chunkedHit_ok {ch : Nat} (h : q.chunkedHit m groups ch al ml = .ok rs) :
    RowsOk q m groups rs := by
  replace h := of_ensure (of_ensure (of_ensure h))
  obtain ⟨found, hf, rfl⟩ := bind_pure_eq_ok.mp h
  exact RowsOk.append (chunkedRows_spec hf)

theorem mambaSearch_ok (h : q.mambaSearch m groups al i = .ok rs) : RowsOk q m groups rs := by
  induction i with
  | zero =>
    obtain rfl := ok.inj h
    exact .nil
  | succ i ih =>
    unfold mambaSearch at h
    obtain ⟨found, hf, h⟩ := of_bind h
    have hat := cachedAt_of_subscriptAt hf
    split at h
    · exact ih h
    · split at h
      · exact ih h
      · obtain rfl := ok.inj h
        refine RowsOk.append fun j row hj => ?_
        cases j with
        | zero => simpa using hat.trans (by simpa using hj)
        | succ j => simp at hj

theorem managerHit_ok (h : q.managerHit m groups al ml = .ok rs) : RowsOk q m groups rs := by
  unfold managerHit at h
  split at h
  · exact ok.inj h ▸ fullHit_ok _ _
  · exact ok.inj h ▸ fullHit_ok _ _
  · exact slidingHit_ok h
  · exact chunkedHit_ok h
  · exact mambaSearch_ok (ensure_bind_eq_ok.mp h).2
  · cases h

/-! ## 3. From rows to groups -/

theorem getCachedBlock_spec {hash : List BlockHash} {gs : List Nat}
    (h : p.getCachedBlock hash gs = some row)
    {j : Nat} (hj : gs[j]? = some g) : p.getOneBlock ⟨hash, g⟩ = some (row.getD j 0) := by
  unfold BlockPool.getCachedBlock at h
  induction gs generalizing row j with
  | nil => simp at hj
  | cons g' gs ih =>
    rw [mapM_cons] at h
    obtain ⟨b, hb, h⟩ := bind_eq_some_iff.mp h
    obtain ⟨row', hr, h⟩ := bind_eq_some_iff.mp h
    obtain rfl := Option.some.inj h
    cases j with
    | zero =>
      obtain rfl : g' = g := by simpa using hj
      simpa using hb
    | succ j => simpa using ih hr (by simpa using hj)

theorem RowsOk.column (h : RowsOk q m groups rs) (hp : q.pools = .one p) (hok : HashOk p)
    (hg : g ∈ groups) :
    HitAt p q.hashes (m.blockSize / q.hashBlockSize) g (column rs (groups.idxOf g)) := by
  intro i b hb hb0
  simp only [HitQuery.column, getElem?_map, map_eq_some_iff] at hb
  obtain ⟨row, hr, rfl⟩ := hb
  rcases h i row hr with rfl | hat
  · exact absurd (by simp) hb0
  · obtain ⟨hash, hh, hc⟩ := bind_eq_some_iff.mp hat
    rw [hp] at hc
    have ho := getCachedBlock_spec hc (getElem?_idxOf hg)
    exact ⟨hash, hh, (hok.hash _ _).mp (mem_of_mem_head? ho)⟩

/-! ## 4. The coordinators -/

section Coordinator

variable {ma : List Manager}

/-- The manager of an entry is one of the managers, and its groups have the entry's spec. -/
def OneSpec (managers : List Manager) (a : AttentionGroup) : Prop :=
  a.manager ∈ managers ∧ ∀ g ∈ a.groups, ∃ m ∈ managers, m.group = g ∧ sameSpec a.manager m = true

theorem addGroup_oneSpec {ms : List Manager} {att : List AttentionGroup} {m : Manager}
    (h : ∀ a ∈ att, OneSpec ms a) (hm : m ∈ ms) : ∀ a ∈ addGroup att m, OneSpec ms a := by
  induction att with
  | nil =>
    intro a ha
    obtain rfl := mem_singleton.mp ha
    exact ⟨hm, fun g hg => ⟨m, hm, (mem_singleton.mp hg).symm, by simp [sameSpec]⟩⟩
  | cons a r ih =>
    unfold addGroup
    split
    · rename_i hs
      intro a' ha'
      rcases mem_cons.mp ha' with rfl | hr
      · refine ⟨(h a mem_cons_self).1, fun g hg => ?_⟩
        rcases mem_append.mp hg with hg | hg
        · exact (h a mem_cons_self).2 g hg
        · exact ⟨m, hm, (mem_singleton.mp hg).symm, hs⟩
      · exact h a' (mem_cons_of_mem _ hr)
    · intro a' ha'
      rcases mem_cons.mp ha' with rfl | hr
      · exact h a' mem_cons_self
      · exact ih (fun x hx => h x (mem_cons_of_mem _ hx)) a' hr

theorem attentionGroups_oneSpec (ma : List Manager) : ∀ a ∈ attentionGroups ma, OneSpec ma a := by
  have hf : ∀ (ms : List Manager) (att : List AttentionGroup), (∀ m ∈ ms, m ∈ ma) →
      (∀ a ∈ att, OneSpec ma a) → ∀ a ∈ ms.foldl addGroup att, OneSpec ma a := by
    intro ms
    induction ms with
    | nil => exact fun _ _ h => h
    | cons m ms ih =>
      intro att hs h
      exact ih _ (fun x hx => hs x (mem_cons_of_mem _ hx)) (addGroup_oneSpec h (hs m mem_cons_self))
  have hall := hf ma [] (fun _ hm => hm) (fun _ ha => by cases ha)
  intro a ha
  rcases mem_append.mp ha with ha | ha
  · exact hall a (mem_of_mem_filter ha)
  · exact hall a (mem_of_mem_filter ha)

end Coordinator

theorem hybridPass_forall {lcm : Nat} {cu cu' : Nat}
    (hr : ∀ a ∈ att, ∀ n rs, q.managerHit a.manager a.groups lcm n = .ok rs →
      ∀ g ∈ a.groups, P g (column rs (a.groups.idxOf g)))
    (h : ∀ g blocks, hits g = some blocks → P g blocks)
    (hp : q.hybridPass lcm att hits cu = .ok (hits', cu')) :
    ∀ g blocks, hits' g = some blocks → P g blocks := by
  induction att generalizing hits cu with
  | nil =>
    obtain ⟨rfl, -⟩ := pair_inj hp
    exact h
  | cons a r ih =>
    have hre := fun x hx => hr x (mem_cons_of_mem a hx)
    unfold hybridPass at hp
    split at hp
    · exact ih hre h hp
    · obtain ⟨rs, ho, hp⟩ := of_bind hp
      refine ih hre (fun g blocks hg => ?_) hp
      unfold setHits at hg
      split at hg
      · rename_i hm
        exact Option.some.inj hg ▸ hr a mem_cons_self cu rs ho g hm
      · exact h g blocks hg

theorem hybridLoop_forall {si : Bool} {f hi : Nat}
    (hr : ∀ a ∈ att, ∀ n rs, q.managerHit a.manager a.groups (lcmBlockSize att) n = .ok rs →
      ∀ g ∈ a.groups, P g (column rs (a.groups.idxOf g)))
    (h : ∀ g blocks, hits g = some blocks → P g blocks)
    (hl : q.hybridLoop att si f hits hi = .ok (hits', n)) :
    ∀ g blocks, hits' g = some blocks → P g blocks := by
  induction f generalizing hits hi with
  | zero =>
    obtain ⟨rfl, -⟩ := pair_inj hl
    exact h
  | succ f ih =>
    unfold hybridLoop at hl
    obtain ⟨⟨hits₁, cu⟩, hp, hl⟩ := of_bind hl
    have hn := hybridPass_forall hr h hp
    dsimp only at hl
    split at hl
    · obtain ⟨rfl, -⟩ := pair_inj hl
      exact hn
    · split at hl
      · obtain ⟨rfl, -⟩ := pair_inj hl
        exact hn
      · exact ih hn hl

theorem truncateFirst_eq (att : List AttentionGroup) (hits : Nat → Option (List BlockId))
    (n g : Nat) :
    truncateFirst att hits n g = (hits g).getD [] ∨
      ∃ k, truncateFirst att hits n g = ((hits g).getD []).take k := by
  cases att with
  | nil => exact .inl rfl
  | cons a r =>
    by_cases hc : a.manager.kind.isFullAttention = true ∧ g ∈ a.groups
    · exact .inr ⟨_, if_pos hc⟩
    · exact .inl (if_neg hc)

end HitQuery

section Computed

variable {c : Config} {s : State} {req : Request} {hits : HitQuery.Hits} {n : Nat}

def Config.query (c : Config) (s : State) (request : Request) : HitQuery :=
  ⟨s.pools, request.blockHashes, c.hashBlockSize, c.useEagle⟩

/-- **A rule for `get_computed_blocks`**: what holds of no blocks and of the columns of every
    lookup, and of the first blocks with all of them, holds of the hits of every group. -/
theorem Config.getComputedBlocks_forall {P : Nat → List BlockId → Prop} (hnil : ∀ g, P g [])
    (ht : ∀ g blocks n, P g blocks → P g (blocks.take n))
    (hr : c.enableCaching = true → ∀ a al n rs, HitQuery.OneSpec c.managers a →
      (c.query s req).managerHit a.manager a.groups al n = .ok rs →
      ∀ g ∈ a.groups, P g (HitQuery.column rs (a.groups.idxOf g)))
    (h : c.getComputedBlocks s req = .ok (hits, n)) (g : Nat) : P g (hits g) := by
  unfold getComputedBlocks at h
  split at h
  · obtain ⟨rfl, -⟩ := pair_inj h
    exact hnil g
  · rename_i hre
    have hca : c.enableCaching = true := by
      cases hc : c.enableCaching with
      | true => rfl
      | false => rw [hc] at hre; exact absurd rfl hre
    dsimp only at h
    split at h
    · -- one group
      rename_i m hm
      obtain ⟨rs, ho, h⟩ := of_bind h
      obtain ⟨rfl, -⟩ := pair_inj h
      have hs : HitQuery.OneSpec c.managers ⟨m, [m.group]⟩ := by
        have hmem : m ∈ c.managers := hm ▸ mem_singleton_self m
        exact ⟨hmem, fun g hg => ⟨m, hmem, (mem_singleton.mp hg).symm, by simp [sameSpec]⟩⟩
      have hcol := hr hca _ _ _ rs hs ho m.group (mem_singleton_self m.group)
      rw [idxOf_cons_self] at hcol
      dsimp only
      split
      · rename_i hg
        exact hg ▸ hcol
      · exact hnil g
    · obtain ⟨⟨found, len⟩, hl, h⟩ := of_bind h
      obtain ⟨rfl, -⟩ := pair_inj h
      have hf :=
        hybridLoop_forall (fun a ha n rs => hr hca a _ n rs
          (attentionGroups_oneSpec c.managers a ha))
        (fun _ _ hn => by cases hn) hl g
      have hget : P g ((found g).getD []) := by
        cases hg : found g with
        | none => exact hnil g
        | some blocks => exact hf blocks hg
      rcases truncateFirst_eq (attentionGroups c.managers) found len g with heq | ⟨k, heq⟩
      · exact heq ▸ hget
      · exact heq ▸ ht g _ k hget

theorem Config.blockSize_eq (hc : c.enableCaching = true) {a m : Manager} (ha : a ∈ c.managers)
    (hm : m ∈ c.managers) (hs : sameSpec a m = true) : a.blockSize = m.blockSize := by
  by_cases hl : c.managers.length = 1
  · obtain ⟨x, hx⟩ := length_eq_one_iff.mp hl
    rw [hx, mem_singleton] at ha hm
    rw [ha, hm]
  · have hw := (c.hybrid hc hl).1
    rw [Manager.blockSize, Manager.blockSize, hw a ha, hw m hm, (of_decide_eq_true hs).2.1]

theorem Config.getComputedBlocks_hits {p : BlockPool} (hp : s.pools = .one p) (hok : HashOk p)
    (h : c.getComputedBlocks s req = .ok (hits, n)) (g : Nat) :
    hits g = [] ∨ c.enableCaching = true ∧ ∃ m ∈ c.managers, m.group = g ∧
      HitAt p req.blockHashes (m.blockSize / c.hashBlockSize) g (hits g) := by
  refine Config.getComputedBlocks_forall (P := fun g blocks => blocks = [] ∨
    c.enableCaching = true ∧
    ∃ m ∈ c.managers, m.group = g ∧
      HitAt p req.blockHashes (m.blockSize / c.hashBlockSize) g blocks)
    (fun _ => .inl rfl) ?_ ?_ h g
  · rintro g blocks n (rfl | ⟨hc, m, hm, hgr, hh⟩)
    · exact .inl (take_nil)
    · exact .inr ⟨hc, m, hm, hgr, hh.take n⟩
  · intro hc a _ _ rs hs hr g hg
    obtain ⟨m, hm, hgr, hsa⟩ := hs.2 g hg
    refine .inr ⟨hc, m, hm, hgr, ?_⟩
    rw [← Config.blockSize_eq hc hs.1 hm hsa]
    exact (managerHit_ok hr).column hp hok hg

end Computed

end VllmDual.Core
