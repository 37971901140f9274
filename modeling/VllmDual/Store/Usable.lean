/-
  Subject:   WHEN A STORE HIT IS USABLE BY EVERY WORKER.

  The lookup asks for the keys of prefill and decode context rank zero, and a layer's key does not
  show the pipeline rank. So a hit is usable by all workers exactly in the configurations in which
  the lookup asks for everybody's keys, and in those in which it never hits:

  * `hitsUsable_iff` -- the characterisation.
-/
import VllmDual.Store.Lookup

namespace VllmDual.Store

open Text Config List Nat

/-! ## 1. Puts and hits -/

/-- A put: a worker's rank, the chunk's hash, and the layer if puts are by layer. -/
structure Put where
  rank : Nat
  hash : BlockHash
  layer : Option Nat

def Put.key (c : Config) (p : Put) : List Char :=
  match p.layer with
  | none => (PoolKey.mk (c.metadata p.rank) (hex p.hash)).toString
  | some l => (LayerPoolKey.mk ⟨c.metadata p.rank, hex p.hash⟩ l).toString

variable {c : Config} {p : Put}

theorem Put.key_of_none (h : p.layer = none) :
    p.key c = (PoolKey.mk (c.metadata p.rank) (hex p.hash)).toString := by
  rw [Put.key, h]

theorem Put.key_of_some {l : Nat} (h : p.layer = some l) :
    p.key c = (LayerPoolKey.mk ⟨c.metadata p.rank, hex p.hash⟩ l).toString := by
  rw [Put.key, h]

def Put.Own (c : Config) (p : Put) : Prop :=
  p.rank < c.worldSize ∧
    if c.useLayerwise then ∃ l < c.numLayers (c.ppRank p.rank), p.layer = some l else p.layer = none

def storedBy (c : Config) (puts : List Put) (k : List Char) : Bool := k ∈ puts.map (Put.key c)

/-- What a worker requests for a chunk, with the layer each request is for. -/
def requests (c : Config) (rank : Nat) (k : PoolKey) : List (Option Nat × List Char) :=
  if c.useLayerwise then
    (k.splitLayers (c.numLayers (c.ppRank rank))).map fun k => (some k.layerId, k.toString)
  else
    [(none, k.toString)]

/-- Where a worker is: head, prefill context, decode context and pipeline stage. -/
def coordinates (c : Config) (rank : Nat) : Nat × Nat × Nat × Nat :=
  (c.headOrTpRank rank, c.pcpRank rank, c.dcpRank rank, c.stage rank)

/-- Every request of the worker is there, and from a worker with the same coordinates, for the same
    layer. -/
def Usable (c : Config) (puts : List Put) (rank : Nat) (k : PoolKey) : Prop :=
  ∀ e ∈ requests c rank k, (∃ p ∈ puts, p.key c = e.2) ∧
    ∀ p ∈ puts, p.key c = e.2 → coordinates c p.rank = coordinates c rank ∧ p.layer = e.1

/-- What the lookup answers is usable by every worker, whatever the store holds. -/
def HitsUsable (c : Config) : Prop :=
  ∀ puts : List Put, (∀ p ∈ puts, p.Own c) → ∀ (reachable : Bool) (tokenLen : Nat)
    (hashes : List BlockHash), ∀ rank < c.worldSize,
    ∀ e ∈ processTokens c.blockSize (c.metadata rank)
      (lookupScheduler c (answers reachable (storedBy c puts)) tokenLen hashes) hashes 0,
      Usable c puts rank e.2.2

def AllRanksAsked (c : Config) : Prop :=
  c.pcpSize = 1 ∧ c.dcpSize = 1 ∧ (c.useLayerwise = true → c.ppSize = 1) ∧
    (c.numKvHead < c.tpSize → c.numKvHead ∣ c.tpSize)

def NeverHits (c : Config) : Prop := c.useLayerwise = false ∧ ¬ Nat.Coprime c.ppSize c.pcpSize

instance (c : Config) : Decidable (AllRanksAsked c) := inferInstanceAs (Decidable (_ ∧ _ ∧ _ ∧ _))

instance (c : Config) : Decidable (NeverHits c) := inferInstanceAs (Decidable (_ ∧ _))

/-! ## 2. Hits where everybody is asked -/

section Asked

variable {puts : List Put} {r : Nat} {hash : BlockHash}

theorem mem_storedBy {k : List Char} : storedBy c puts k = true ↔ ∃ p ∈ puts, p.key c = k := by
  rw [storedBy, decide_eq_true_eq, mem_map]

theorem Config.putStep_pos (hc : c.Valid) : 0 < c.putStep := by
  have hle := hc.dcp_le
  have hp := hc.dcp_pos
  omega

theorem headOrTpRank_lt (hc : c.Valid) (hd : c.numKvHead < c.tpSize → c.numKvHead ∣ c.tpSize) :
    c.headOrTpRank r < min c.tpSize c.numKvHead := by
  have hlt : c.tpRank r < c.tpSize := mod_lt _ hc.tp_pos
  unfold headOrTpRank
  split_ifs with hh
  · obtain ⟨q, hq⟩ := hd hh
    have hs : c.putStep = q := by
      rw [putStep, if_pos hh, hq, Nat.mul_div_cancel_left q hc.head_pos]
    rw [min_eq_right hh.le, hs]
    exact Nat.div_lt_of_lt_mul (by rwa [Nat.mul_comm, ← hq])
  · rw [min_eq_left (Nat.le_of_not_lt hh)]
    exact hlt

theorem pcpRank_eq_zero (h : c.pcpSize = 1) : c.pcpRank r = 0 := if_neg (by omega)

theorem dcpRank_eq_zero (h : c.dcpSize = 1) : c.dcpRank r = 0 := if_neg (by omega)

theorem ppRank_eq_stage (hc : c.Valid) (h : c.pcpSize = 1) (hr : r < c.worldSize) :
    c.ppRank r = c.stage r := by
  unfold ppRank stage
  unfold worldSize at hr
  rw [h, mul_one] at hr
  rw [h, Nat.div_one, mod_eq_of_lt]
  exact (div_lt_iff_lt_mul hc.tp_pos).mpr hr

theorem mem_processTokens {e : Nat × Nat × PoolKey} {md : KeyMetadata} {bz n : Nat}
    {hs : List BlockHash} (he : e ∈ processTokens bz md n hs 0) :
    ∃ i hash, i * bz < n ∧ hs[i]? = some hash ∧ e.2.2 = ⟨md, hex hash⟩ := by
  obtain ⟨i, hi⟩ := mem_iff_getElem?.mp he
  rw [getElem?_processTokens] at hi
  split_ifs at hi with hlt
  obtain ⟨hash, hg, rfl⟩ := Option.map_eq_some_iff.mp hi
  exact ⟨i, hash, hlt, hg, rfl⟩

theorem stage_eq_zero (hp : c.pcpSize = 1) (hpp : c.ppSize = 1) (hr : r < c.worldSize) :
    c.stage r = 0 := by
  rw [worldSize, hp, hpp, mul_one, one_mul] at hr
  rw [stage, div_eq_of_lt hr, Nat.zero_div]

theorem coordinates_of_key (hc : c.Valid) (hpcp : c.pcpSize = 1) (hl : c.useLayerwise = false)
    (hr : r < c.worldSize) (hp : p.Own c)
    (hk : p.key c = (PoolKey.mk (c.metadata r) (hex hash)).toString) :
    coordinates c p.rank = coordinates c r ∧ p.layer = none := by
  obtain ⟨hpr, ho⟩ := hp
  rw [hl] at ho
  have hn : p.layer = none := ho
  rw [Put.key_of_none hn] at hk
  obtain ⟨hh, hpcp', hd, hpp, -⟩ := PoolKey.toString_inj (by rfl) hk
  refine ⟨?_, hn⟩
  have hs : c.stage p.rank = c.stage r := by
    rw [← ppRank_eq_stage hc hpcp hpr, ← ppRank_eq_stage hc hpcp hr]
    exact hpp
  exact Prod.ext hh (Prod.ext hpcp' (Prod.ext hd hs))

theorem coordinates_of_layerKey (hpcp : c.pcpSize = 1) (hpp : c.ppSize = 1)
    (hla : c.useLayerwise = true) (hr : r < c.worldSize) (hp : p.Own c) {l : Nat}
    (hk : p.key c = (LayerPoolKey.mk ⟨c.metadata r, hex hash⟩ l).toString) :
    coordinates c p.rank = coordinates c r ∧ p.layer = some l := by
  obtain ⟨hpr, ho⟩ := hp
  rw [hla] at ho
  obtain ⟨l', -, hs⟩ := ho
  rw [Put.key_of_some hs] at hk
  obtain ⟨hh, hpcp', hd, -, hl⟩ := LayerPoolKey.toString_inj (by rfl) (notMem_hex (by decide))
    (notMem_hex (by decide)) hk
  refine ⟨Prod.ext hh (Prod.ext hpcp' (Prod.ext hd ?_)), hl ▸ hs⟩
  exact (stage_eq_zero hpcp hpp hpr).trans (stage_eq_zero hpcp hpp hr).symm

theorem hitsUsable_of_asked (hc : c.Valid) (h : AllRanksAsked c) : HitsUsable c := by
  obtain ⟨hpcp, hd, hpp, hdvd⟩ := h
  intro puts hpu reachable tl hashes r hr e he
  obtain ⟨i, hash, hlt, hg, hkey⟩ := mem_processTokens he
  rw [hkey]
  have hv : (c.headOrTpRank r, c.ppRank r) ∈ views c :=
    mem_views.mpr ⟨headOrTpRank_lt hc hdvd, mod_lt _ hc.pp_pos⟩
  have hh := lookup_hits hc hlt hg hv
  have hsa : viewKey c (c.headOrTpRank r, c.ppRank r) (hex hash) = ⟨c.metadata r, hex hash⟩ := by
    simp [viewKey, metadata, pcpRank_eq_zero hpcp, dcpRank_eq_zero hd]
  unfold viewKeys at hh
  rw [hsa] at hh
  intro e he
  unfold requests at he
  unfold storeKeys at hh
  cases hm : c.useLayerwise with
  | false =>
    simp only [hm, Bool.false_eq_true, if_false, mem_singleton] at he hh
    rw [he]
    exact ⟨mem_storedBy.mp (hh _ rfl), fun p hp hkey =>
      coordinates_of_key hc hpcp hm hr (hpu p hp) hkey⟩
  | true =>
    have hs : c.ppRank r = 0 := by rw [ppRank, hpp hm, mod_one]
    simp only [hm, if_true, hs] at he hh
    obtain ⟨k, hk, rfl⟩ := mem_map.mp he
    obtain ⟨l, -, rfl⟩ := mem_map.mp hk
    exact ⟨mem_storedBy.mp (hh _ (mem_map_of_mem hk)), fun p hp hkey =>
      coordinates_of_layerKey hpcp (hpp hm) hm hr (hpu p hp) hkey⟩

theorem hitsUsable_of_never (hc : c.Valid) (h : NeverHits c) : HitsUsable c := by
  obtain ⟨hm, hco⟩ := h
  intro puts hpu reachable tl hashes r hr e he
  obtain ⟨i, hash, hlt, hg, -⟩ := mem_processTokens he
  have hpp : 1 < c.ppSize := by
    by_contra hle
    have ho : c.ppSize = 1 := by have := hc.pp_pos; omega
    exact hco (ho ▸ coprime_one_left _)
  have hpcp : 1 < c.pcpSize := by
    by_contra hle
    have ho : c.pcpSize = 1 := by have := hc.pcp_pos; omega
    exact hco (ho ▸ coprime_one_right _)
  have hv : (0, 1) ∈ views c := mem_views.mpr ⟨lt_min hc.tp_pos hc.head_pos, hpp⟩
  have hh := lookup_hits hc hlt hg hv
  simp only [viewKeys, storeKeys, hm, Bool.false_eq_true, if_false, mem_singleton, forall_eq] at hh
  obtain ⟨p, hp, hk⟩ := mem_storedBy.mp hh
  have hown := (hpu p hp).2
  rw [hm] at hown
  have hn : p.layer = none := hown
  rw [Put.key_of_none hn] at hk
  obtain ⟨-, hpcp', -, hpp', -⟩ := PoolKey.toString_inj (by rfl) hk
  -- a common factor of the sizes divides the position in the engine, and leaves one
  have hz : p.rank / c.tpSize % c.pcpSize = 0 := by
    have hpcp'' : c.pcpRank p.rank = c.pcpRank 0 := hpcp'
    simpa [pcpRank, hpcp] using hpcp''
  have ho : p.rank / c.tpSize % c.ppSize = 1 := hpp'
  have hd : Nat.gcd c.ppSize c.pcpSize ∣ p.rank / c.tpSize :=
    (gcd_dvd_right _ _).trans (dvd_of_mod_eq_zero hz)
  have hd' : Nat.gcd c.ppSize c.pcpSize ∣ p.rank / c.tpSize % c.ppSize :=
    (Nat.dvd_mod_iff (Nat.gcd_dvd_left _ _)).mpr hd
  rw [ho, dvd_one] at hd'
  exact absurd hd' hco

end Asked

/-! ## 3. Hits where somebody is not asked -/

section Unasked

variable {r h p : Nat} {hash : BlockHash}

def AskedAt (c : Config) (at' : Nat × Nat × Nat × Nat) : Prop :=
  at'.1 < min c.tpSize c.numKvHead ∧ at'.2.1 = 0 ∧ at'.2.2.1 = 0 ∧
    (c.useLayerwise = true → at'.2.2.2 = 0)

instance (at' : Nat × Nat × Nat × Nat) : Decidable (AskedAt c at') :=
  inferInstanceAs (Decidable (_ ∧ _ ∧ _ ∧ _))

variable (hc : c.Valid)
include hc

theorem exists_tpRank (hh : h < min c.tpSize c.numKvHead) : ∃ t < c.tpSize, c.dcpSize ∣ t ∧
      (if c.numKvHead < c.tpSize then t / c.putStep else t) = h := by
  obtain ⟨htp, hhe⟩ := lt_min_iff.mp hh
  have hd := hc.dcp_pos
  have hle := hc.dcp_le
  split_ifs with hlt
  · refine ⟨(h * c.putStep + (c.dcpSize - 1)) / c.dcpSize * c.dcpSize, ?_, dvd_mul_left _ _, ?_⟩
    all_goals
      have hu := div_mul_le_self (h * c.putStep + (c.dcpSize - 1)) c.dcpSize
      have hl := lt_div_mul_add hd (a := h * c.putStep + (c.dcpSize - 1))
    · have hs : c.putStep = c.tpSize / c.numKvHead := if_pos hlt
      have hf : (h + 1) * c.putStep ≤ c.tpSize := by
        rw [hs]
        calc (h + 1) * (c.tpSize / c.numKvHead) ≤ c.numKvHead * (c.tpSize / c.numKvHead) :=
              mul_le_mul_right _ hhe
          _ ≤ c.tpSize := mul_div_le _ _
      rw [add_mul, one_mul] at hf
      omega
    · refine Nat.div_eq_of_lt_le ?_ ?_
      · omega
      · rw [add_mul, one_mul]
        omega
  · have hs : c.putStep = 1 := if_neg hlt
    have ho : c.dcpSize = 1 := by omega
    exact ⟨h, htp, by rw [ho]; exact one_dvd h, rfl⟩

theorem exists_position (hp : p < c.ppSize)
    (hm : c.useLayerwise = true ∨ Nat.Coprime c.ppSize c.pcpSize) :
    ∃ q < c.ppSize * c.pcpSize, q % c.pcpSize = 0 ∧
      if c.useLayerwise then q / c.pcpSize = 0 else q % c.ppSize = p := by
  cases hl : c.useLayerwise with
  | true => exact ⟨0, Nat.mul_pos hc.pp_pos hc.pcp_pos, zero_mod _, Nat.zero_div _⟩
  | false =>
    have hco : Nat.Coprime c.ppSize c.pcpSize := hm.resolve_left (by simp [hl])
    have hlt := chineseRemainder_lt_mul hco p 0 hc.pp_pos.ne' hc.pcp_pos.ne'
    obtain ⟨hpp, hpcp⟩ := (chineseRemainder hco p 0).2
    refine ⟨chineseRemainder hco p 0, hlt, ?_, ?_⟩
    · rw [hpcp, zero_mod]
    · exact Eq.trans hpp (mod_eq_of_lt hp)

theorem exists_rank (hh : h < min c.tpSize c.numKvHead) (hp : p < c.ppSize)
    (hm : c.useLayerwise = true ∨ Nat.Coprime c.ppSize c.pcpSize) :
    ∃ r < c.worldSize, AskedAt c (coordinates c r) ∧ c.headOrTpRank r = h ∧
      (c.useLayerwise = false → c.ppRank r = p) := by
  obtain ⟨t, ht, hdvd, hhe⟩ := exists_tpRank hc hh
  obtain ⟨q, hq, hpcp, hs⟩ := exists_position hc hp hm
  have hd : (q * c.tpSize + t) / c.tpSize = q := by
    rw [mul_comm, mul_add_div hc.tp_pos, div_eq_of_lt ht, add_zero]
  have hmod : (q * c.tpSize + t) % c.tpSize = t := by
    rw [mul_comm, mul_add_mod, mod_eq_of_lt ht]
  have hhr : c.headOrTpRank (q * c.tpSize + t) = h := by
    rw [headOrTpRank, tpRank, hmod, hhe]
  refine ⟨q * c.tpSize + t, ?_, ⟨?_, ?_, ?_, ?_⟩, hhr, ?_⟩
  · calc q * c.tpSize + t < (q + 1) * c.tpSize := by rw [add_mul, one_mul]; omega
      _ ≤ c.worldSize := mul_le_mul_right _ hq
  · exact hhr.trans_lt hh
  · change c.pcpRank _ = 0
    unfold pcpRank
    rw [hd, hpcp, ite_self]
  · change c.dcpRank _ = 0
    unfold dcpRank
    rw [mod_eq_zero_of_dvd (dvd_add (hc.dcp_dvd.mul_left q) hdvd), ite_self]
  · intro hl
    rw [if_pos hl] at hs
    change c.stage _ = 0
    rw [stage, hd, hs]
  · intro hl
    rw [hl] at hs
    rw [ppRank, hd]
    exact hs

theorem exists_unasked (h : ¬ AllRanksAsked c) :
    ∃ r < c.worldSize, ¬ AskedAt c (coordinates c r) := by
  have hpp := hc.pp_pos
  have hpcp := hc.pcp_pos
  have htp := hc.tp_pos
  have hw : ∀ q < c.ppSize * c.pcpSize, ∀ t < c.tpSize, q * c.tpSize + t < c.worldSize := by
    intro q hq t ht
    calc q * c.tpSize + t < (q + 1) * c.tpSize := by rw [add_mul, one_mul]; omega
      _ ≤ c.worldSize := mul_le_mul_right _ hq
  have hp : 0 < c.ppSize * c.pcpSize := mul_pos hpp hpcp
  by_cases hpc : c.pcpSize = 1
  · by_cases hd : c.dcpSize = 1
    · by_cases hpp1 : c.useLayerwise = true ∧ c.ppSize ≠ 1
      · -- a worker of the second stage
        obtain ⟨hl, hne⟩ := hpp1
        refine ⟨1 * c.tpSize + 0, hw 1 (by rw [hpc]; omega) 0 htp, fun ha => ?_⟩
        have hs : c.stage (1 * c.tpSize + 0) = 0 := ha.2.2.2 hl
        rw [stage, hpc, Nat.div_one, Nat.one_mul, Nat.add_zero, Nat.div_self htp] at hs
        exact absurd hs one_ne_zero
      · -- the last rank has a head beyond those asked for
        have hdvd : c.numKvHead < c.tpSize ∧ ¬ c.numKvHead ∣ c.tpSize := by
          by_contra hnot
          refine h ⟨hpc, hd, fun hl => ?_, fun hlt => ?_⟩
          · by_contra hne
            exact hpp1 ⟨hl, hne⟩
          · by_contra hn
            exact hnot ⟨hlt, hn⟩
        obtain ⟨hlt, hn⟩ := hdvd
        refine ⟨0 * c.tpSize + (c.tpSize - 1), hw 0 hp _ (by omega), fun ha => ?_⟩
        have hh : c.headOrTpRank (0 * c.tpSize + (c.tpSize - 1)) < min c.tpSize c.numKvHead :=
          ha.1
        rw [zero_mul, zero_add, headOrTpRank, if_pos hlt, tpRank, mod_eq_of_lt (by omega),
          min_eq_right hlt.le, div_lt_iff_lt_mul (putStep_pos hc), putStep, if_pos hlt] at hh
        exact hn ⟨c.tpSize / c.numKvHead, le_antisymm (by omega) (mul_div_le _ _)⟩
    · -- the second rank of a decode context group
      have hdcp : 1 < c.dcpSize := by
        have := hc.dcp_pos
        omega
      have hle := le_of_dvd htp hc.dcp_dvd
      refine ⟨0 * c.tpSize + 1, hw 0 hp 1 (by omega), fun ha => ?_⟩
      have hr : c.dcpRank (0 * c.tpSize + 1) = 0 := ha.2.2.1
      rw [zero_mul, zero_add, dcpRank, if_pos hdcp, mod_eq_of_lt hdcp] at hr
      exact absurd hr one_ne_zero
  · -- a worker of the second prefill context rank
    have hlt : 1 < c.pcpSize := by omega
    refine ⟨1 * c.tpSize + 0, hw 1 (Nat.lt_of_lt_of_le hlt (Nat.le_mul_of_pos_left _ hpp)) 0 htp,
      fun ha => ?_⟩
    have hr : c.pcpRank (1 * c.tpSize + 0) = 0 := ha.2.1
    rw [pcpRank, if_pos hlt, Nat.one_mul, Nat.add_zero, Nat.div_self htp, mod_eq_of_lt hlt] at hr
    exact absurd hr one_ne_zero

def ownPuts (c : Config) (hash : BlockHash) (rank : Nat) : List Put :=
  if c.useLayerwise then (range (c.numLayers (c.ppRank rank))).map fun l => ⟨rank, hash, some l⟩
  else [⟨rank, hash, none⟩]

def askedPuts (c : Config) (hash : BlockHash) : List Put :=
  ((range c.worldSize).filter fun r => AskedAt c (coordinates c r)).flatMap (ownPuts c hash)

omit hc in
theorem own_of_mem_askedPuts {e : Put} (he : e ∈ askedPuts c hash) :
    e.Own c ∧ AskedAt c (coordinates c e.rank) := by
  obtain ⟨r, hm, he⟩ := mem_flatMap.mp he
  obtain ⟨hra, ha⟩ := mem_filter.mp hm
  have hr := mem_range.mp hra
  have ha' := of_decide_eq_true ha
  unfold ownPuts at he
  unfold Put.Own
  split_ifs at he ⊢ with hla
  · obtain ⟨l, hl, rfl⟩ := mem_map.mp he
    exact ⟨⟨hr, l, mem_range.mp hl, rfl⟩, ha'⟩
  · rw [mem_singleton.mp he]
    exact ⟨⟨hr, rfl⟩, ha'⟩

theorem ppRank_eq_zero (hp : c.pcpRank r = 0) (hs : c.stage r = 0) : c.ppRank r = 0 := by
  have hpos := hc.pcp_pos
  have hlt : r / c.tpSize < c.pcpSize := (Nat.div_eq_zero_iff_lt hpos).1 hs
  have hz : r / c.tpSize = 0 := by
    by_cases h1 : 1 < c.pcpSize
    · rwa [pcpRank, if_pos h1, mod_eq_of_lt hlt] at hp
    · exact Nat.lt_one_iff.1 (hlt.trans_le (not_lt.1 h1))
  rw [ppRank, hz, zero_mod]

theorem storeKeys_of_rank (ha : AskedAt c (coordinates c r)) (hh : c.headOrTpRank r = h)
    (hpp : c.useLayerwise = false → c.ppRank r = p) :
    viewKeys c (h, p) (hex hash) = (ownPuts c hash r).map (Put.key c) := by
  obtain ⟨-, hp, hd, hs⟩ := ha
  have hp' : c.pcpRank 0 = c.pcpRank r := by
    rw [show c.pcpRank r = 0 from hp]
    simp [pcpRank]
  have hd' : c.dcpRank 0 = c.dcpRank r := by
    rw [show c.dcpRank r = 0 from hd]
    simp [dcpRank]
  unfold viewKeys storeKeys ownPuts
  cases hl : c.useLayerwise with
  | false =>
    simp [Put.key, viewKey, metadata, hh, hpp hl, hp', hd']
  | true =>
    rw [ppRank_eq_zero hc hp (hs hl)]
    simp only [if_true, PoolKey.splitLayers, map_map]
    refine map_congr_left fun l _ => ?_
    -- the pipeline rank is not in the text
    simp [Put.key, viewKey, metadata, LayerPoolKey.toString, hh, hp', hd']

theorem storedBy_askedPuts (hm : c.useLayerwise = true ∨ Nat.Coprime c.ppSize c.pcpSize)
    {view : Nat × Nat} (hv : view ∈ views c) {k : List Char} (hk : k ∈ viewKeys c view (hex hash)) :
    storedBy c (askedPuts c hash) k = true := by
  obtain ⟨hh, hp⟩ := mem_views.mp hv
  obtain ⟨r, hr, ha, hhe, hpp⟩ := exists_rank hc hh hp hm
  rw [storeKeys_of_rank hc ha hhe hpp] at hk
  obtain ⟨e, he, rfl⟩ := mem_map.mp hk
  refine mem_storedBy.mpr ⟨e, mem_flatMap.mpr ⟨r, ?_, he⟩, rfl⟩
  exact mem_filter.mpr ⟨mem_range.mpr hr, decide_eq_true ha⟩

theorem Config.blockSize_pos : 0 < c.blockSize := by
  have hp := hc.pcp_pos
  have hd := hc.dcp_pos
  have hb := hc.block_pos
  unfold blockSize
  split_ifs <;> positivity

theorem exists_request (r : Nat) (k : PoolKey) : ∃ e, e ∈ requests c r k := by
  have hl := hc.layers_pos (c.ppRank r) (mod_lt _ hc.pp_pos)
  unfold requests
  split_ifs
  · refine ⟨_, mem_map_of_mem (a := ⟨k, 0⟩) ?_⟩
    exact mem_map.mpr ⟨0, mem_range.mpr hl, rfl⟩
  · exact ⟨_, mem_singleton_self _⟩

omit hc

theorem processTokens_one {md : KeyMetadata} {bz : Nat} (hp : 0 < bz) :
    processTokens bz md bz [hash] 0 = [(0, bz, ⟨md, hex hash⟩)] := by
  simp [processTokens, processTokensFrom, hp.ne']

/-- **Where somebody is not asked and there are hits, a hit is not usable by all.** -/
theorem not_hitsUsable (hc : c.Valid) (ha : ¬ AllRanksAsked c) (hn : ¬ NeverHits c) :
    ¬ HitsUsable c := by
  intro hall
  obtain ⟨r, hr, hnot⟩ := exists_unasked hc ha
  have hm : c.useLayerwise = true ∨ Nat.Coprime c.ppSize c.pcpSize := by
    by_contra hm
    obtain ⟨hla, hco⟩ := not_or.mp hm
    exact hn ⟨Bool.eq_false_iff.mpr hla, hco⟩
  have hp := blockSize_pos hc
  -- the chunk of hash `[0]`, put by everybody who is asked
  have hl : lookupScheduler c (answers true (storedBy c (askedPuts c [0]))) c.blockSize [[0]]
      = c.blockSize := by
    rw [lookup_all hc]
    · rw [processTokens_one hp]
      rfl
    · intro view hv hash hh k hk
      rw [mem_singleton.mp hh] at hk
      exact storedBy_askedPuts hc hm hv hk
  have hu := hall (askedPuts c [0]) (fun e he => (own_of_mem_askedPuts he).1)
      true c.blockSize [[0]] r hr
  rw [hl, processTokens_one hp] at hu
  have hu' : Usable c (askedPuts c [0]) r ⟨c.metadata r, hex [0]⟩ :=
    hu (0, c.blockSize, ⟨c.metadata r, hex [0]⟩) (mem_singleton_self _)
  obtain ⟨e, he⟩ := exists_request hc r ⟨c.metadata r, hex [0]⟩
  obtain ⟨⟨put, hput, hkey⟩, hs⟩ := hu' e he
  exact hnot ((hs put hput hkey).1 ▸ (own_of_mem_askedPuts hput).2)

/-- **A hit is usable by every worker exactly where the lookup asks for everybody's keys**, or for a
    key that nobody has. -/
theorem hitsUsable_iff (hc : c.Valid) : HitsUsable c ↔ AllRanksAsked c ∨ NeverHits c := by
  constructor
  · intro h
    by_contra hnot
    obtain ⟨ha, hn⟩ := not_or.mp hnot
    exact not_hitsUsable hc ha hn h
  · rintro (h | h)
    · exact hitsUsable_of_asked hc h
    · exact hitsUsable_of_never hc h

end Unasked

def evenConfig : Config where
  modelName := "m".toList
  tpSize := 2
  ppSize := 2
  pcpSize := 1
  dcpSize := 1
  numKvHead := 2
  cacheBlockSize := 4
  numLayers := fun _ => 1
  useLayerwise := false

theorem evenConfig_hitsUsable : evenConfig.Valid ∧ HitsUsable evenConfig := by
  have hv : evenConfig.Valid := by
    constructor
    case layers_pos => exact fun _ _ => one_pos
    all_goals decide
  exact ⟨hv, (hitsUsable_iff hv).mpr (.inl (by decide))⟩

def contextConfig : Config :=
  { evenConfig with tpSize := 1, ppSize := 1, pcpSize := 2, numKvHead := 1 }

def stagedConfig : Config := { evenConfig with tpSize := 1, numKvHead := 1, useLayerwise := true }

/-- The lookup hits a chunk that only the first worker has put: the second one's key is not there,
    or it is that of the first worker's layer. -/
theorem hits_of_first_worker : ¬ HitsUsable contextConfig ∧ ¬ HitsUsable stagedConfig ∧
    lookupScheduler contextConfig (answers true (storedBy contextConfig [⟨0, [7], none⟩]))
      8 [[7]] = 8 ∧
    requests contextConfig 1 ⟨contextConfig.metadata 1, hex [7]⟩
      = [(none, "m@pcp1@dcp0@head_or_tp_rank:0@pp_rank:0@07".toList)] ∧
    storedBy contextConfig [⟨0, [7], none⟩] "m@pcp1@dcp0@head_or_tp_rank:0@pp_rank:0@07".toList
      = false ∧
    lookupScheduler stagedConfig (answers true (storedBy stagedConfig [⟨0, [7], some 0⟩]))
      4 [[7]] = 4 ∧
    requests stagedConfig 1 ⟨stagedConfig.metadata 1, hex [7]⟩
      = [(some 0, (Put.mk 0 [7] (some 0)).key stagedConfig)] ∧
    coordinates stagedConfig 0 ≠ coordinates stagedConfig 1 := by
  have hco : contextConfig.Valid := by
    constructor
    case layers_pos => exact fun _ _ => one_pos
    all_goals decide
  have hs : stagedConfig.Valid := by
    constructor
    case layers_pos => exact fun _ _ => one_pos
    all_goals decide
  exact ⟨not_hitsUsable hco (by decide) (by decide),
    not_hitsUsable hs (by decide) (by decide), by decide +kernel⟩

end VllmDual.Store
