/-
  Subject:   RANKS, KV HEADS AND CONTEXT-PARALLEL GROUPS (`ascend/kv_p2p/mooncake_connector.py`).

  A side of a transfer has `pcp_size * tp_size` ranks. Each holds one group of KV heads and one
  part of the blocks.
-/
import VllmDual.Lib.Align
import VllmDual.Lib.Outcome
import VllmDual.Lib.RoundRobin

namespace VllmDual.Pull

open RoundRobin List Nat

/-! ## 1. The two sides -/

structure Layout where
  tpSize : Nat
  pcpSize : Nat
  dcpSize : Nat

def Layout.cpSize (l : Layout) : Nat := l.pcpSize * l.dcpSize

/-- The KV heads of the model: `latent` is `use_mla or use_sparse`. -/
structure KvHeads where
  latent : Bool
  numKeyValueHeads : Nat

variable (m : KvHeads)

/-- The heads that are split over ranks; a latent cache counts as one. -/
def KvHeads.count : Nat := if m.latent then 1 else m.numKeyValueHeads

/-- What the connector raises here. -/
inductive PullError where
  | assertion (condition : String)
  | typeError
  | indexError
  | keyError
deriving DecidableEq

/-- `get_kv_head_groups`; `none` where the source falls off its end. -/
def getKvHeadGroups (tpSize : Nat) : Option (List (List Nat)) :=
  if m.latent then
    some [[0]]
  else if 1 ≤ m.numKeyValueHeads / tpSize then
    some ((range tpSize).map fun tpRank =>
      (range (m.numKeyValueHeads / tpSize)).map fun headIdx =>
        headIdx + tpRank * (m.numKeyValueHeads / tpSize))
  else if 1 < tpSize / m.numKeyValueHeads then
    some ((range m.numKeyValueHeads).map fun kvHeadId => [kvHeadId])
  else
    none

/-- An entry of `cp_group_meta`: a head group, its groups of ranks, and the one to use next. -/
structure CpGroupMeta where
  headGroup : List Nat
  cpGroups : List (List Nat)
  selectCpGroupsId : Nat

/-- One `cp_group`: the ports of the ranks that hold the blocks of a head group together. -/
def cpGroup (l : Layout) (portBase offset : Nat) : List Nat :=
  (range l.pcpSize).flatMap fun pcpRank =>
    (range l.dcpSize).map fun dcpRank => dcpRank + portBase + l.tpSize * pcpRank + offset

/-- `get_cp_group_meta`. The head groups are distinct, so every one is a new key. -/
def getCpGroupMeta (l : Layout) (portBase : Nat) : Except PullError (List CpGroupMeta) :=
  match getKvHeadGroups m l.tpSize with
  | none => .error .typeError
  | some kvHeadGroups =>
    let dcpRepeatNum := l.tpSize / kvHeadGroups.length / l.dcpSize
    .ok (kvHeadGroups.zipIdx.map fun e =>
      { headGroup := e.1
        cpGroups := (range dcpRepeatNum).map fun dcpRepeatIdx =>
          cpGroup l portBase (l.dcpSize * dcpRepeatIdx + l.tpSize / kvHeadGroups.length * e.2)
        selectCpGroupsId := 0 })

/-! ## 2. Even layouts -/

def numGroups (tpSize : Nat) : Nat := min tpSize m.count

/-- The ranks divide evenly over the head groups, the heads over the groups, and the ranks of a
    head group over the context-parallel ranks. -/
structure Layout.Even (l : Layout) (m : KvHeads) : Prop where
  tp_pos : 0 < l.tpSize
  pcp_pos : 0 < l.pcpSize
  heads_pos : 0 < m.numKeyValueHeads
  dvd : m.count ∣ l.tpSize ∨ l.tpSize ∣ m.count
  dcp_dvd : l.dcpSize ∣ l.tpSize / numGroups m l.tpSize

/-- Head group `g` of groups of `h` heads. -/
def headGroup (h g : Nat) : List Nat := (range h).map (· + g * h)

section

variable {m : KvHeads} {l : Layout}

theorem KvHeads.count_pos (h : 0 < m.numKeyValueHeads) : 0 < m.count := by
  unfold KvHeads.count
  split <;> omega

def Layout.groupRanks (l : Layout) (m : KvHeads) : Nat := l.tpSize / numGroups m l.tpSize

/-- How many groups of ranks hold the same heads: `dcp_repeat_num`. -/
def Layout.repeats (l : Layout) (m : KvHeads) : Nat := l.groupRanks m / l.dcpSize

def headsPerGroup (m : KvHeads) (tpSize : Nat) : Nat := m.count / numGroups m tpSize

namespace Layout.Even

variable (h : l.Even m)

include h

theorem count_pos : 0 < m.count := KvHeads.count_pos h.heads_pos

theorem groups_pos : 0 < numGroups m l.tpSize := lt_min h.tp_pos h.count_pos

theorem groups_dvd : numGroups m l.tpSize ∣ l.tpSize ∧ numGroups m l.tpSize ∣ m.count := by
  rcases h.dvd with hd | hd
  · have hm : numGroups m l.tpSize = m.count := min_eq_right (le_of_dvd h.tp_pos hd)
    rw [hm]
    exact ⟨hd, dvd_refl _⟩
  · have hm : numGroups m l.tpSize = l.tpSize := min_eq_left (le_of_dvd h.count_pos hd)
    rw [hm]
    exact ⟨dvd_refl _, hd⟩

theorem groups_mul_ranks : numGroups m l.tpSize * l.groupRanks m = l.tpSize :=
  Nat.mul_div_cancel' h.groups_dvd.1

theorem groups_mul_heads : numGroups m l.tpSize * headsPerGroup m l.tpSize = m.count :=
  Nat.mul_div_cancel' h.groups_dvd.2

theorem groupRanks_pos : 0 < l.groupRanks m :=
  Nat.div_pos (le_of_dvd h.tp_pos h.groups_dvd.1) h.groups_pos

theorem headsPerGroup_pos : 0 < headsPerGroup m l.tpSize :=
  Nat.div_pos (le_of_dvd h.count_pos h.groups_dvd.2) h.groups_pos

theorem dcp_pos : 0 < l.dcpSize := pos_of_dvd_of_pos h.dcp_dvd h.groupRanks_pos

theorem cpSize_pos : 0 < l.cpSize := Nat.mul_pos h.pcp_pos h.dcp_pos

theorem repeats_mul_dcp : l.repeats m * l.dcpSize = l.groupRanks m := Nat.div_mul_cancel h.dcp_dvd

theorem repeats_pos : 0 < l.repeats m :=
  Nat.div_pos (le_of_dvd h.groupRanks_pos h.dcp_dvd) h.dcp_pos

theorem getKvHeadGroups_eq : getKvHeadGroups m l.tpSize
    = some ((range (numGroups m l.tpSize)).map (headGroup (headsPerGroup m l.tpSize))) := by
  have hm := h.groups_mul_heads
  unfold getKvHeadGroups
  cases hl : m.latent with
  | true =>
    have hc : m.count = 1 := by rw [KvHeads.count, hl]; rfl
    have hg : numGroups m l.tpSize = 1 := by rw [numGroups, hc]; exact min_eq_right h.tp_pos
    rw [hg, hc, one_mul] at hm
    rw [hg, hm]
    rfl
  | false =>
    have hc : m.count = m.numKeyValueHeads := by rw [KvHeads.count, hl]; rfl
    rw [if_neg (by simp)]
    rcases h.dvd with hd | hd
    · -- whole groups of ranks share one head, unless there are as many ranks as heads
      rw [hc] at hd
      have hle := le_of_dvd h.tp_pos hd
      have hg : numGroups m l.tpSize = m.numKeyValueHeads := by
        rw [numGroups, hc]
        exact min_eq_right hle
      have hh : headsPerGroup m l.tpSize = 1 := by
        rw [headsPerGroup, hg, hc, Nat.div_self h.heads_pos]
      rw [hg, hh]
      rcases Nat.eq_or_lt_of_le hle with heq | hlt
      · rw [← heq, Nat.div_self h.heads_pos, if_pos le_rfl]
        rfl
      · have ht : 1 < l.tpSize / m.numKeyValueHeads := by
          obtain ⟨x, hx⟩ := hd
          rw [hx, Nat.mul_div_cancel_left _ h.heads_pos]
          by_contra hx1
          have : m.numKeyValueHeads * x ≤ m.numKeyValueHeads * 1 :=
            Nat.mul_le_mul_left _ (not_lt.mp hx1)
          omega
        rw [if_neg (by rw [div_eq_of_lt hlt]; omega), if_pos ht]
        simp [headGroup]
    · rw [hc] at hd
      have hle := le_of_dvd h.heads_pos hd
      have hg : numGroups m l.tpSize = l.tpSize := by
        rw [numGroups, hc]
        exact min_eq_left hle
      have hh : headsPerGroup m l.tpSize = m.numKeyValueHeads / l.tpSize := by
        rw [headsPerGroup, hg, hc]
      rw [hg, hh, if_pos (show 1 ≤ _ from Nat.div_pos hle h.tp_pos)]
      rfl

end Layout.Even

end

/-! ## 3. Ranks -/

structure Rank where
  pcpRank : Nat
  tpRank : Nat
deriving DecidableEq

namespace Rank

variable (r : Rank) (l : Layout) (m : KvHeads)

def In : Prop := r.pcpRank < l.pcpSize ∧ r.tpRank < l.tpSize

def port (base : Nat) : Nat := base + r.pcpRank * l.tpSize + r.tpRank

/-- `dcp_rank`: consecutive ranks form a group. -/
def dcpRank : Nat := r.tpRank % l.dcpSize

def cpRank : Nat := r.dcpRank l + r.pcpRank * l.dcpSize

def group : Nat := r.tpRank / l.groupRanks m

def replica : Nat := r.tpRank % l.groupRanks m / l.dcpSize

end Rank

/-- The rank that holds part `x` of head group `g` in copy `t`. -/
def Layout.rankAt (l : Layout) (m : KvHeads) (g t x : Nat) : Rank where
  pcpRank := x / l.dcpSize
  tpRank := x % l.dcpSize + l.dcpSize * t + l.groupRanks m * g

section

variable {m : KvHeads} {l : Layout} {g t x : Nat}

theorem port_rankAt (b : Nat) : (l.rankAt m g t x).port l b
    = x % l.dcpSize + b + l.tpSize * (x / l.dcpSize) + (l.dcpSize * t + l.groupRanks m * g) := by
  simp only [Rank.port, Layout.rankAt, mul_comm l.tpSize]
  omega

theorem cpGroup_eq (b g t : Nat) :
    cpGroup l b (l.dcpSize * t + l.groupRanks m * g) = (range l.cpSize).map fun x =>
      (l.rankAt m g t x).port l b := by
  rw [Layout.cpSize, Align.range_mul_map, cpGroup]
  refine flatMap_congr fun pcpRank _ => map_congr_left fun dcpRank hd => ?_
  have hd := mem_range.mp hd
  rw [port_rankAt, add_comm (pcpRank * _), add_mul_mod hd, add_mul_div hd]

namespace Layout.Even

variable (h : l.Even m)

include h

theorem rankAt_offset (ht : t < l.repeats m) : x % l.dcpSize + l.dcpSize * t < l.groupRanks m := by
  have hm : l.dcpSize * (t + 1) ≤ l.dcpSize * l.repeats m := Nat.mul_le_mul_left _ ht
  rw [mul_comm l.dcpSize (l.repeats m), h.repeats_mul_dcp, mul_add] at hm
  have := mod_lt x h.dcp_pos
  omega

theorem group_rankAt (ht : t < l.repeats m) : (l.rankAt m g t x).group l m = g := by
  rw [Rank.group, Layout.rankAt, mul_comm _ g, add_mul_div (h.rankAt_offset ht)]

theorem replica_rankAt (ht : t < l.repeats m) : (l.rankAt m g t x).replica l m = t := by
  rw [Rank.replica, Layout.rankAt, mul_comm (l.groupRanks m), add_mul_mod (h.rankAt_offset ht),
    mul_comm l.dcpSize, add_mul_div (mod_lt _ h.dcp_pos)]

theorem cpRank_rankAt : (l.rankAt m g t x).cpRank l = x := by
  have hd : l.groupRanks m * g = l.repeats m * g * l.dcpSize := by
    rw [← h.repeats_mul_dcp]
    ring
  rw [Rank.cpRank, Rank.dcpRank, Layout.rankAt, hd, mul_comm l.dcpSize t, add_assoc, ← add_mul,
    add_mul_mod (mod_lt _ h.dcp_pos), mod_add_div']

theorem in_rankAt (hg : g < numGroups m l.tpSize) (ht : t < l.repeats m) (hx : x < l.cpSize) :
    (l.rankAt m g t x).In l := by
  refine ⟨Nat.div_lt_of_lt_mul (mul_comm l.pcpSize l.dcpSize ▸ hx), ?_⟩
  have ho := h.rankAt_offset ht (x := x)
  have hm : l.groupRanks m * (g + 1) ≤ l.groupRanks m * numGroups m l.tpSize :=
    Nat.mul_le_mul_left _ hg
  rw [mul_comm _ (numGroups m l.tpSize), h.groups_mul_ranks, mul_add] at hm
  simp only [Layout.rankAt]
  omega

theorem eq_rankAt {r : Rank} (hr : r.In l) : r.group l m < numGroups m l.tpSize ∧
    r.replica l m < l.repeats m ∧ r.cpRank l < l.cpSize ∧
    l.rankAt m (r.group l m) (r.replica l m) (r.cpRank l) = r := by
  have hd : r.dcpRank l < l.dcpSize := mod_lt _ h.dcp_pos
  refine ⟨Nat.div_lt_of_lt_mul ?_, Nat.div_lt_of_lt_mul ?_, ?_, ?_⟩
  · rw [mul_comm, h.groups_mul_ranks]
    exact hr.2
  · rw [mul_comm, h.repeats_mul_dcp]
    exact mod_lt _ h.groupRanks_pos
  · have hm : (r.pcpRank + 1) * l.dcpSize ≤ l.pcpSize * l.dcpSize := Nat.mul_le_mul_right _ hr.1
    rw [add_mul] at hm
    simp only [Rank.cpRank, Layout.cpSize]
    omega
  · have hmod : r.tpRank % l.groupRanks m % l.dcpSize = r.dcpRank l :=
      mod_mod_of_dvd _ h.dcp_dvd
    have htp : r.dcpRank l + l.dcpSize * (r.tpRank % l.groupRanks m / l.dcpSize)
        + l.groupRanks m * (r.tpRank / l.groupRanks m) = r.tpRank := by
      rw [← hmod, mod_add_div, mod_add_div]
    cases r
    simp only [Layout.rankAt, Rank.cpRank, add_mul_mod hd, add_mul_div hd]
    exact congrArg _ htp

end Layout.Even

/-- The entry of head group `g`, in an even layout. -/
def Layout.groupMeta (l : Layout) (m : KvHeads) (base g : Nat) : CpGroupMeta where
  headGroup := headGroup (headsPerGroup m l.tpSize) g
  cpGroups := (range (l.repeats m)).map fun t =>
    (range l.cpSize).map fun x => (l.rankAt m g t x).port l base
  selectCpGroupsId := 0

theorem Layout.Even.getCpGroupMeta_eq (h : l.Even m) (b : Nat) : getCpGroupMeta m l b
    = .ok ((range (numGroups m l.tpSize)).map (l.groupMeta m b)) := by
  simp only [getCpGroupMeta, h.getKvHeadGroups_eq, length_map, length_range]
  refine congrArg Except.ok (ext_getElem (by simp) fun i _ _ => ?_)
  simp only [getElem_map, getElem_zipIdx, getElem_range, zero_add, Layout.groupMeta, ← cpGroup_eq]
  rfl

theorem Rank.port_inj {r r' : Rank} (hr : r.In l) (hr' : r'.In l) {b : Nat}
    (h : r.port l b = r'.port l b) : r = r' := by
  have hp : r.tpRank + r.pcpRank * l.tpSize = r'.tpRank + r'.pcpRank * l.tpSize := by
    simp only [Rank.port] at h
    omega
  have htp := congrArg (· % l.tpSize) hp
  have hpcp := congrArg (· / l.tpSize) hp
  simp only [add_mul_mod hr.2, add_mul_mod hr'.2] at htp
  simp only [add_mul_div hr.2, add_mul_div hr'.2] at hpcp
  cases r
  cases r'
  simp only at htp hpcp
  rw [htp, hpcp]

end

/-! ## 4. Head groups inside head groups -/

section

variable {h w p d : Nat}

theorem mem_headGroup {h g head : Nat} (hh : 0 < h) : head ∈ headGroup h g ↔ head / h = g := by
  simp only [headGroup, mem_map, mem_range]
  constructor
  · rintro ⟨i, hi, rfl⟩
    exact add_mul_div hi g
  · rintro rfl
    exact ⟨head % h, mod_lt head hh, mod_add_div' head h⟩

theorem headGroup_subset_iff (hh : 0 < h) (hw : 0 < w) :
    (∀ x ∈ headGroup h p, x ∈ headGroup (w * h) d) ↔ p / w = d := by
  rw [mul_comm w h]
  simp only [mem_headGroup hh, mem_headGroup (Nat.mul_pos hh hw), ← Nat.div_div_eq_div_mul]
  constructor
  · intro hs
    have hf := hs (p * h) (Nat.mul_div_cancel p hh)
    rwa [Nat.mul_div_cancel p hh] at hf
  · rintro hp x rfl
    exact hp

theorem filter_div_eq {n : Nat} (hw : 0 < w) (hd : d < n) :
    (range (n * w)).filter (· / w = d) = (range w).map (d * w + ·) := by
  have hs : ((range w).map (d * w + ·)).Pairwise (· < ·) :=
    pairwise_map.mpr (pairwise_lt_range.imp fun {x y} hxy => by omega)
  refine eq_of_increasing (Pairwise.filter _ pairwise_lt_range) hs fun x => ?_
  rw [mem_filter, mem_range, decide_eq_true_eq, mem_map]
  constructor
  · intro ⟨_, hx⟩
    refine ⟨x % w, mem_range.mpr (mod_lt x hw), ?_⟩
    rw [← hx, div_add_mod']
  · intro ⟨y, hy, hx⟩
    have hy := mem_range.mp hy
    have hm : (d + 1) * w ≤ n * w := Nat.mul_le_mul_right w hd
    rw [add_mul] at hm
    subst hx
    refine ⟨by omega, ?_⟩
    rw [add_comm, add_mul_div hy]

end

end VllmDual.Pull
