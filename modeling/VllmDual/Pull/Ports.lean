/-
  Subject:   WHICH PREFILL RANKS A DECODE RANK PULLS FROM.

  `get_local_remote_block_port_mappings` walks the head groups of both sides and gives every decode
  rank, for every prefill head group inside its own, a part of one group of prefill ranks. Equal
  groups of prefill ranks are used in turn.
-/
import VllmDual.Lib.OrderedDict
import VllmDual.Pull.Layout

namespace VllmDual.Pull

open Outcome List Nat

/-! ## 1. The loops -/

/-- `local_remote_block_port_mappings`: for every decode port a list of port lists. -/
abbrev PortMappings := OrderedDict Nat (List (List Nat))

def rows (d : PortMappings) (port : Nat) : List (List Nat) := (d.get port).getD []

def appendRow (d : PortMappings) (port : Nat) (ports : List Nat) : PortMappings :=
  d.set port (rows d port ++ [ports])

/-- `p_port_remote_list`. -/
def remotePorts (pCpGroup : List Nat) (size dIdx : Nat) : List Nat :=
  (pCpGroup.zipIdx.filter fun e => e.2 % size = dIdx).map Prod.fst

def assignGroup (pCpGroup dCpGroup : List Nat) (d : PortMappings) : PortMappings :=
  dCpGroup.zipIdx.foldl (fun d e => appendRow d e.1 (remotePorts pCpGroup dCpGroup.length e.2)) d

/-- The loop over the decode groups of one head group; the prefill groups are used in turn. -/
def assignGroups : List (List Nat) → CpGroupMeta → PortMappings →
    Except PullError (CpGroupMeta × PortMappings)
  | [], p, d => .ok (p, d)
  | dCpGroup :: rest, p, d =>
    match p.cpGroups[p.selectCpGroupsId]? with
    | none => .error .indexError
    | some pCpGroup =>
      let next :=
        if p.selectCpGroupsId + 1 < p.cpGroups.length then p.selectCpGroupsId + 1 else 0
      assignGroups rest { p with selectCpGroupsId := next } (assignGroup pCpGroup dCpGroup d)

variable (p : CpGroupMeta)

/-- `set(p_node_head_key).issubset(set(d_node_head_key))`. -/
def CpGroupMeta.Within (d : CpGroupMeta) : Prop := ∀ head ∈ p.headGroup, head ∈ d.headGroup

instance (p d : CpGroupMeta) : Decidable (p.Within d) :=
  inferInstanceAs (Decidable (∀ head ∈ p.headGroup, head ∈ d.headGroup))

def assignHead (dMeta : CpGroupMeta) : List CpGroupMeta → PortMappings →
    Except PullError (List CpGroupMeta × PortMappings)
  | [], d => .ok ([], d)
  | p :: ps, d =>
    if p.Within dMeta then do
      let (p, d) ← assignGroups dMeta.cpGroups p d
      let (ps, d) ← assignHead dMeta ps d
      return (p :: ps, d)
    else do
      let (ps, d) ← assignHead dMeta ps d
      return (p :: ps, d)

def assignAll : List CpGroupMeta → List CpGroupMeta → PortMappings → Except PullError PortMappings
  | [], _, d => .ok d
  | dMeta :: dMetas, ps, d => do
    let (ps, d) ← assignHead dMeta ps d
    assignAll dMetas ps d

def contextParallelParametersCheck (m : KvHeads) (prefill decode : Layout) : Prop :=
  prefill.cpSize % decode.cpSize = 0 ∧
    (m.latent = false → (m.numKeyValueHeads ⌈/⌉ decode.tpSize)
      % (m.numKeyValueHeads ⌈/⌉ prefill.tpSize) = 0)

instance (m : KvHeads) (prefill decode : Layout) :
    Decidable (contextParallelParametersCheck m prefill decode) :=
  inferInstanceAs (Decidable (_ ∧ _))

def getLocalRemoteBlockPortMappings (m : KvHeads) (prefill decode : Layout)
    (remotePort sideChannelPort : Nat) : Except PullError PortMappings := do
  ensure (contextParallelParametersCheck m prefill decode)
    (.assertion "context_parallel_parameters_check")
  let pMeta ← getCpGroupMeta m prefill remotePort
  let dMeta ← getCpGroupMeta m decode sideChannelPort
  assignAll dMeta pMeta .empty

/-! ## 2. What the loops write for one port -/

theorem rows_appendRow (d : PortMappings) (pr port' : Nat) (po : List Nat) :
    rows (appendRow d pr po) port'
      = if port' = pr then rows d pr ++ [po] else rows d port' := by
  simp only [rows, appendRow, OrderedDict.get_set]
  split <;> rfl

def groupRow (pCpGroup dCpGroup : List Nat) (port : Nat) : List (List Nat) :=
  if port ∈ dCpGroup then [remotePorts pCpGroup dCpGroup.length (dCpGroup.idxOf port)] else []

/-- What a prefill head group writes for a port: decode group `t` meets the prefill group `t` steps
    on. -/
def headRows (dCpGroups : List (List Nat)) (port : Nat) : List (List Nat) :=
  dCpGroups.zipIdx.flatMap fun e =>
    groupRow (p.cpGroups.getD ((p.selectCpGroupsId + e.2) % p.cpGroups.length) []) e.1 port

/-- The prefill head group after `n` decode groups. -/
def CpGroupMeta.advance (n : Nat) : CpGroupMeta :=
  { p with selectCpGroupsId := (p.selectCpGroupsId + n) % p.cpGroups.length }

def CpGroupMeta.Selects : Prop := p.selectCpGroupsId < p.cpGroups.length

theorem CpGroupMeta.Selects.advance {p : CpGroupMeta} (h : p.Selects) (n : Nat) :
    (p.advance n).Selects :=
  mod_lt _ (zero_lt_of_lt h)

section

variable {pcg dcg : List Nat} {d : PortMappings} {pr : Nat} {p : CpGroupMeta}

theorem rows_assignGroup (hn : dcg.Nodup) :
    rows (assignGroup pcg dcg d) pr = rows d pr ++ groupRow pcg dcg pr := by
  -- the number of the next rank is general
  have hlo : ∀ (l : List Nat) (n : Nat) (d : PortMappings), l.Nodup →
      rows ((l.zipIdx n).foldl (fun d e => appendRow d e.1 (remotePorts pcg dcg.length e.2)) d) pr
        = rows d pr ++
          if pr ∈ l then [remotePorts pcg dcg.length (n + l.idxOf pr)] else [] := by
    intro l
    induction l with
    | nil => intro n d _; simp
    | cons y l ih =>
      intro n d hl
      rw [nodup_cons] at hl
      rw [zipIdx_cons, foldl_cons, ih _ _ hl.2, rows_appendRow]
      by_cases hy : pr = y
      · subst hy
        simp [hl.1]
      · have hi : (y :: l).idxOf pr = l.idxOf pr + 1 := idxOf_cons_ne l (Ne.symm hy)
        rw [if_neg hy, hi, add_assoc, add_comm 1]
        simp only [mem_cons, hy, false_or]
  have h := hlo dcg 0 d hn
  rwa [zero_add] at h

variable {dcg : List (List Nat)} {dM : CpGroupMeta} {ps : List CpGroupMeta}

theorem assignGroups_eq (hs : p.Selects) (hn : ∀ g ∈ dcg, g.Nodup) :
    ∃ d', assignGroups dcg p d = .ok (p.advance dcg.length, d') ∧
      ∀ pr, rows d' pr = rows d pr ++ headRows p dcg pr := by
  induction dcg generalizing p d with
  | nil =>
    refine ⟨d, ?_, fun pr => by simp [headRows]⟩
    rw [CpGroupMeta.advance, length_nil, add_zero, mod_eq_of_lt hs]
    rfl
  | cons g gs ih =>
    have hg : p.cpGroups[p.selectCpGroupsId]? = some (p.cpGroups.getD p.selectCpGroupsId []) := by
      rw [getD_eq_getElem?_getD, getElem?_eq_getElem hs, Option.getD_some]
    have hne : (if p.selectCpGroupsId + 1 < p.cpGroups.length then p.selectCpGroupsId + 1 else 0)
        = (p.selectCpGroupsId + 1) % p.cpGroups.length := by
      split
      · rename_i hlt
        rw [mod_eq_of_lt hlt]
      · have heq : p.selectCpGroupsId + 1 = p.cpGroups.length := by
          have : p.selectCpGroupsId < p.cpGroups.length := hs
          omega
        rw [heq, mod_self]
    obtain ⟨d', hrun, hr⟩ := ih (p := p.advance 1)
      (d := assignGroup (p.cpGroups.getD p.selectCpGroupsId []) g d) (hs.advance 1)
      (fun g' hg' => hn g' (mem_cons_of_mem _ hg'))
    refine ⟨d', ?_, fun pr => ?_⟩
    · unfold assignGroups
      simp only [hg, hne]
      have ha : (p.advance 1).advance gs.length = p.advance (g :: gs).length := by
        simp only [CpGroupMeta.advance, length_cons, mod_add_mod, add_assoc, add_comm 1]
      rw [← ha]
      exact hrun
    · have hz : gs.zipIdx 1 = gs.zipIdx.map (fun e => (e.1, e.2 + 1)) := by
        rw [zipIdx_succ]
      rw [hr, rows_assignGroup (hn g (by simp)), append_assoc]
      simp only [headRows, zipIdx_cons, zero_add, hz, flatMap_cons, flatMap_map, add_zero,
        mod_eq_of_lt hs, CpGroupMeta.advance, mod_add_mod, add_assoc, add_comm 1]

/-- The prefill head groups after one decode head group: those inside it advance. -/
def advanceWithin (dMeta : CpGroupMeta) (ps : List CpGroupMeta) : List CpGroupMeta :=
  ps.map fun p => if p.Within dMeta then p.advance dMeta.cpGroups.length else p

theorem assignHead_eq (hs : ∀ p ∈ ps, p.Selects) (hn : ∀ g ∈ dM.cpGroups, g.Nodup) :
    ∃ d', assignHead dM ps d = .ok (advanceWithin dM ps, d') ∧ ∀ pr, rows d' pr
      = rows d pr ++ (ps.filter (·.Within dM)).flatMap (headRows · dM.cpGroups pr) := by
  induction ps generalizing d with
  | nil => exact ⟨d, rfl, fun pr => by simp⟩
  | cons p ps ih =>
    have hps : ∀ p ∈ ps, p.Selects := fun p' hp' => hs p' (mem_cons_of_mem _ hp')
    unfold assignHead
    by_cases hin : p.Within dM
    · obtain ⟨d₁, hg, h₁⟩ := assignGroups_eq (d := d) (hs p (by simp)) hn
      obtain ⟨d₂, hr, h₂⟩ := ih (d := d₁) hps
      refine ⟨d₂, ?_, fun pr => ?_⟩
      · simp only [if_pos hin, hg, ok_bind, hr, advanceWithin, map_cons]
        rfl
      · rw [h₂, h₁, filter_cons_of_pos (by simpa using hin), flatMap_cons, append_assoc]
    · obtain ⟨d₁, hr, hro⟩ := ih (d := d) hps
      refine ⟨d₁, ?_, fun pr => ?_⟩
      · simp only [if_neg hin, hr, ok_bind, advanceWithin, map_cons]
        rfl
      · rw [hro, filter_cons_of_neg (by simpa using hin)]

theorem selects_advanceWithin (dM : CpGroupMeta) (hs : ∀ p ∈ ps, p.Selects) :
    ∀ p ∈ advanceWithin dM ps, p.Selects := by
  intro p hp
  obtain ⟨p', hp', rfl⟩ := mem_map.mp hp
  split
  · exact (hs p' hp').advance _
  · exact hs p' hp'

theorem filter_advanceWithin {d₀ : CpGroupMeta} (h : ∀ p ∈ ps, p.Within d₀ → ¬p.Within dM) :
    (advanceWithin dM ps).filter (·.Within d₀) = ps.filter (·.Within d₀) := by
  induction ps with
  | nil => rfl
  | cons p ps ih =>
    have ih := ih fun p' hp' => h p' (mem_cons_of_mem _ hp')
    have hin : (p.advance dM.cpGroups.length).Within d₀ ↔ p.Within d₀ := Iff.rfl
    simp only [advanceWithin, map_cons, filter_cons] at ih ⊢
    by_cases h₀ : p.Within d₀
    · simp [if_neg (h p (by simp) h₀), h₀, ih]
    · split <;> simp [hin, h₀, ih]

theorem headRows_eq_nil (h : ∀ g ∈ dcg, pr ∉ g) : headRows p dcg pr = [] := by
  refine flatMap_eq_nil_iff.mpr fun e he => if_neg (h e.1 ?_)
  exact fst_mem_of_mem_zipIdx he

theorem assignAll_other {ds : List CpGroupMeta} (hs : ∀ p ∈ ps, p.Selects)
    (hn : ∀ dM ∈ ds, ∀ g ∈ dM.cpGroups, g.Nodup) (hp : ∀ dM ∈ ds, ∀ g ∈ dM.cpGroups, pr ∉ g) :
    ∃ d', assignAll ds ps d = .ok d' ∧ rows d' pr = rows d pr := by
  induction ds generalizing ps d with
  | nil => exact ⟨d, rfl, rfl⟩
  | cons dM ds ih =>
    obtain ⟨d₁, hh, h₁⟩ := assignHead_eq (d := d) hs (hn dM (by simp))
    obtain ⟨d₂, hr, h₂⟩ := ih (d := d₁) (selects_advanceWithin dM hs)
      (fun dm hdm => hn dm (mem_cons_of_mem _ hdm)) (fun dm hdm => hp dm (mem_cons_of_mem _ hdm))
    refine ⟨d₂, by simp only [assignAll, hh, ok_bind, hr], ?_⟩
    rw [h₂, h₁, flatMap_eq_nil_iff.mpr, append_nil]
    exact fun p _ => headRows_eq_nil (hp dM (by simp))

theorem assignAll_rows (d : PortMappings) (pr : Nat) (bf a ps : List CpGroupMeta)
    (d₀ : CpGroupMeta) (hsel : ∀ p ∈ ps, p.Selects)
    (hn : ∀ dM ∈ bf ++ d₀ :: a, ∀ g ∈ dM.cpGroups, g.Nodup)
    (hpo : ∀ dM ∈ bf ++ a, ∀ g ∈ dM.cpGroups, pr ∉ g)
    (ho : ∀ p ∈ ps, p.Within d₀ → ∀ dM ∈ bf, ¬p.Within dM) :
    ∃ d', assignAll (bf ++ d₀ :: a) ps d = .ok d' ∧ rows d' pr
      = rows d pr ++ (ps.filter (·.Within d₀)).flatMap (headRows · d₀.cpGroups pr) := by
  induction bf generalizing ps d with
  | nil =>
    obtain ⟨d₁, hh, h₁⟩ := assignHead_eq (d := d) hsel (hn d₀ (by simp))
    obtain ⟨d₂, hr, h₂⟩ := assignAll_other (d := d₁) (selects_advanceWithin d₀ hsel)
      (fun dm hdm => hn dm (mem_cons_of_mem _ hdm)) hpo
    refine ⟨d₂, by simp only [nil_append, assignAll, hh, ok_bind, hr], ?_⟩
    rw [h₂, h₁]
  | cons dM bf ih =>
    obtain ⟨d₁, hh, h₁⟩ := assignHead_eq (d := d) hsel (hn dM (by simp))
    have hs : (advanceWithin dM ps).filter (·.Within d₀) = ps.filter (·.Within d₀) :=
      filter_advanceWithin fun p hp h₀ => ho p hp h₀ dM (by simp)
    have ho' : ∀ p ∈ advanceWithin dM ps, p.Within d₀ → ∀ dm ∈ bf, ¬p.Within dm := by
      intro p hp h₀ dm hdm
      have hm : p ∈ ps.filter (·.Within d₀) := by
        rw [← hs]
        exact mem_filter.mpr ⟨hp, by simpa using h₀⟩
      exact ho p (mem_filter.mp hm).1 h₀ dm (mem_cons_of_mem _ hdm)
    obtain ⟨d₂, hr, h₂⟩ := ih d₁ _ (selects_advanceWithin dM hsel)
      (fun dm hdm => hn dm (mem_cons_of_mem _ hdm))
      (fun dm hdm => hpo dm (mem_cons_of_mem _ hdm)) ho'
    refine ⟨d₂, by simp only [cons_append, assignAll, hh, ok_bind, hr], ?_⟩
    rw [h₂, h₁, hs, flatMap_eq_nil_iff.mpr, append_nil]
    exact fun p _ => headRows_eq_nil (hpo dM (by simp))

end

/-! ## 3. Even layouts -/

def headRatio (m : KvHeads) (prefill decode : Layout) : Nat :=
  headsPerGroup m decode.tpSize / headsPerGroup m prefill.tpSize

section

variable {m : KvHeads} {pre dec l : Layout}

theorem Layout.Even.ceilDiv_eq (h : l.Even m) (hl : m.latent = false) :
    m.numKeyValueHeads ⌈/⌉ l.tpSize = headsPerGroup m l.tpSize := by
  have hc : m.count = m.numKeyValueHeads := by rw [KvHeads.count, hl]; rfl
  rw [headsPerGroup, numGroups, hc, ceilDiv_eq_add_pred_div]
  rcases hc ▸ h.dvd with hd | hd
  · have hle := le_of_dvd h.tp_pos hd
    rw [min_eq_right hle, Nat.div_self h.heads_pos]
    have := h.heads_pos
    exact Nat.div_eq_of_lt_le (by omega) (by omega)
  · rw [min_eq_left (le_of_dvd h.heads_pos hd)]
    obtain ⟨x, hx⟩ := hd
    rw [hx, Nat.mul_div_cancel_left _ h.tp_pos, Nat.add_sub_assoc h.tp_pos, mul_add_div h.tp_pos,
      div_eq_of_lt (by have := h.tp_pos; omega), add_zero]

variable (hP : pre.Even m) (hD : dec.Even m) (hcheck : contextParallelParametersCheck m pre dec)
include hP hD hcheck

theorem headRatio_mul :
    headsPerGroup m dec.tpSize = headRatio m pre dec * headsPerGroup m pre.tpSize := by
  refine (Nat.div_mul_cancel ?_).symm
  cases hl : m.latent with
  | true =>
    have ho : headsPerGroup m pre.tpSize ∣ 1 := by
      have hc : m.count = 1 := by rw [KvHeads.count, hl]; rfl
      exact hc ▸ Dvd.intro_left _ hP.groups_mul_heads
    exact ho.trans (one_dvd _)
  | false =>
    have := hcheck.2 hl
    rw [hD.ceilDiv_eq hl, hP.ceilDiv_eq hl] at this
    exact dvd_of_mod_eq_zero this

theorem headRatio_pos : 0 < headRatio m pre dec := by
  by_contra hzero
  have hm := headRatio_mul hP hD hcheck
  rw [Nat.eq_zero_of_not_pos hzero, zero_mul] at hm
  exact hD.headsPerGroup_pos.ne' hm

theorem numGroups_eq : numGroups m pre.tpSize = numGroups m dec.tpSize * headRatio m pre dec := by
  have hm := hP.groups_mul_heads.trans hD.groups_mul_heads.symm
  rw [headRatio_mul hP hD hcheck, ← mul_assoc] at hm
  exact eq_of_mul_eq_mul_right hP.headsPerGroup_pos hm

omit hP hD hcheck

/-- The prefill ranks that a decode rank pulls head group `i` of its own from, in the order of their
    parts. -/
def sourceRank (m : KvHeads) (prefill decode : Layout) (r : Rank) (i s : Nat) : Rank :=
  prefill.rankAt m (r.group decode m * headRatio m prefill decode + i)
    (r.replica decode m % prefill.repeats m) (r.cpRank decode + s * decode.cpSize)

theorem zipIdx_map_range {α : Type} (n : Nat) (f : Nat → α) :
    ((range n).map f).zipIdx = (range n).map fun j => (f j, j) :=
  ext_getElem (by simp) fun j _ _ => by simp

variable {n t g : Nat} {r : Rank}

theorem range_split (ht : t < n) : range n = range t ++ t :: range' (t + 1) (n - t - 1) := by
  rw [range_eq_range', range_eq_range', ← range'_succ,
    show n = t + (n - t - 1 + 1) by omega, ← @range'_append_1 0]
  simp

theorem remotePorts_map {si x : Nat} (hx : x < si) (f : Nat → Nat) :
    remotePorts ((range n).map f) si x = (range (RoundRobin.share si n x)).map fun s =>
      f (x + s * si) := by
  rw [remotePorts, zipIdx_map_range, filter_map, map_map]
  have hf := RoundRobin.filter_range (n := n) hx
  rw [show ((fun e : Nat × Nat => decide (e.2 % si = x)) ∘ fun j => (f j, j))
    = fun j => decide (j % si = x) from rfl, hf, map_map]
  rfl

theorem headRows_map {p : CpGroupMeta} {pr : Nat} {G : Nat → List Nat} (ht : t < n) (hin : pr ∈ G t)
    (ho : ∀ t' < n, pr ∈ G t' → t' = t) : headRows p ((range n).map G) pr
      = [remotePorts (p.cpGroups.getD ((p.selectCpGroupsId + t) % p.cpGroups.length) [])
          (G t).length ((G t).idxOf pr)] := by
  rw [headRows, zipIdx_map_range, flatMap_map]
  have hn : ∀ t', t' < n → t' ≠ t → groupRow (p.cpGroups.getD
      ((p.selectCpGroupsId + t') % p.cpGroups.length) []) (G t') pr = [] :=
    fun t' hlt hne => if_neg fun hm => hne (ho t' hlt hm)
  rw [range_split ht, flatMap_append, flatMap_cons, flatMap_eq_nil_iff.mpr,
    flatMap_eq_nil_iff.mpr, nil_append, append_nil]
  · exact if_pos hin
  · intro t' ht'
    have := mem_range'_1.mp ht'
    exact hn t' (by omega) (by omega)
  · intro t' ht'
    have := mem_range.mp ht'
    exact hn t' (by omega) (by omega)

theorem mem_group (h : l.Even m) (hr : r.In l) (hg : g < numGroups m l.tpSize)
    (ht : t < l.repeats m)
    (b : Nat) : r.port l b ∈ (range l.cpSize).map (fun x => (l.rankAt m g t x).port l b)
      ↔ g = r.group l m ∧ t = r.replica l m := by
  rw [mem_map]
  constructor
  · intro ⟨x, hx, hp⟩
    have heq := Rank.port_inj (h.in_rankAt hg ht (mem_range.mp hx)) hr hp
    rw [← heq, h.group_rankAt ht, h.replica_rankAt ht]
    exact ⟨rfl, rfl⟩
  · intro ⟨hg, ht⟩
    obtain ⟨-, -, hx, hra⟩ := h.eq_rankAt hr
    exact ⟨r.cpRank l, mem_range.mpr hx, by rw [hg, ht, hra]⟩

theorem nodup_group (h : l.Even m) (hg : g < numGroups m l.tpSize) (ht : t < l.repeats m)
    (b : Nat) : ((range l.cpSize).map fun x => (l.rankAt m g t x).port l b).Nodup := by
  refine nodup_range.map_on fun x hx y hy hxy => ?_
  have heq := Rank.port_inj (h.in_rankAt hg ht (mem_range.mp hx))
      (h.in_rankAt hg ht (mem_range.mp hy)) hxy
  rw [← h.cpRank_rankAt (m := m) (g := g) (t := t) (x := x), heq, h.cpRank_rankAt]

theorem headRows_groupMeta (hP : pre.Even m) (hD : dec.Even m)
    (hcheck : contextParallelParametersCheck m pre dec) (rp sp : Nat)
    (hr : r.In dec) (i : Nat) :
    headRows (pre.groupMeta m rp (r.group dec m * headRatio m pre dec + i))
      (dec.groupMeta m sp (r.group dec m)).cpGroups (r.port dec sp)
      = [(range (pre.cpSize / dec.cpSize)).map fun s =>
        (sourceRank m pre dec r i s).port pre rp] := by
  obtain ⟨hg, ht, hx, hra⟩ := hD.eq_rankAt hr
  have hin := (mem_group hD hr hg ht sp).mpr ⟨rfl, rfl⟩
  rw [Layout.groupMeta, Layout.groupMeta, headRows_map ht hin
    fun t ht' hm => ((mem_group hD hr hg ht' _).mp hm).2]
  have hi : ((range dec.cpSize).map fun x =>
      (dec.rankAt m (r.group dec m) (r.replica dec m) x).port dec sp).idxOf (r.port dec sp)
        = r.cpRank dec := by
    have hget := (nodup_group hD hg ht sp).idxOf_getElem (r.cpRank dec) (by simpa using hx)
    rwa [getElem_map, getElem_range, hra] at hget
  have hmod := mod_lt (0 + r.replica dec m) hP.repeats_pos
  have hd := dvd_of_mod_eq_zero hcheck.1
  have hs : RoundRobin.share dec.cpSize pre.cpSize (r.cpRank dec) = pre.cpSize / dec.cpSize := by
    conv_lhs => rw [← Nat.div_mul_cancel hd]
    exact RoundRobin.share_mul hD.cpSize_pos _ _
  simp only [length_map, length_range, hi]
  rw [getD_eq_getElem _ _ (by simpa using hmod), getElem_map, getElem_range, remotePorts_map hx, hs,
    zero_add]
  rfl

include hP hD hcheck in
theorem mappings_rows (rp sp : Nat) (hr : r.In dec) :
    ∃ d, getLocalRemoteBlockPortMappings m pre dec rp sp = .ok d ∧
      d.get (r.port dec sp) = some ((range (headRatio m pre dec)).map fun i =>
        (range (pre.cpSize / dec.cpSize)).map fun s =>
          (sourceRank m pre dec r i s).port pre rp) := by
  obtain ⟨hg, ht, hx, hra⟩ := hD.eq_rankAt hr
  have hw := headRatio_pos hP hD hcheck
  -- inside which decode head group a prefill head group lies
  have hwi : ∀ p g', (pre.groupMeta m rp p).Within (dec.groupMeta m sp g')
      ↔ p / headRatio m pre dec = g' := fun p g' => by
    rw [CpGroupMeta.Within]
    simp only [Layout.groupMeta, headRatio_mul hP hD hcheck]
    exact headGroup_subset_iff hP.headsPerGroup_pos hw
  have hpo : ∀ g' < numGroups m dec.tpSize, g' ≠ r.group dec m →
      ∀ cps ∈ (dec.groupMeta m sp g').cpGroups, r.port dec sp ∉ cps := by
    intro g' hg' hne cps hc hin
    obtain ⟨t, ht', rfl⟩ := mem_map.mp hc
    exact hne ((mem_group hD hr hg' (mem_range.mp ht') _).mp hin).1
  have hs : ∀ p ∈ (range (numGroups m pre.tpSize)).map (pre.groupMeta m rp), p.Selects := by
    intro p hp
    obtain ⟨g, -, rfl⟩ := mem_map.mp hp
    simpa [CpGroupMeta.Selects, Layout.groupMeta] using hP.repeats_pos
  obtain ⟨d, hrun, hro⟩ := assignAll_rows .empty (r.port dec sp)
    ((range (r.group dec m)).map (dec.groupMeta m sp))
    ((range' (r.group dec m + 1) (numGroups m dec.tpSize - r.group dec m - 1)).map
      (dec.groupMeta m sp)) _ (dec.groupMeta m sp (r.group dec m)) hs
    (by
      intro dM hd
      rw [← map_cons, ← map_append, ← range_split hg] at hd
      obtain ⟨g, hg', rfl⟩ := mem_map.mp hd
      intro cps hc
      obtain ⟨t, ht, rfl⟩ := mem_map.mp hc
      exact nodup_group hD (mem_range.mp hg') (mem_range.mp ht) sp)
    (by
      intro dM hd
      rw [← map_append] at hd
      obtain ⟨g, hg', rfl⟩ := mem_map.mp hd
      rw [mem_append, mem_range, mem_range'_1] at hg'
      exact hpo g (by omega) (by omega))
    (by
      intro p hp hin dM hd hin'
      obtain ⟨g, -, rfl⟩ := mem_map.mp hp
      obtain ⟨g', hg', rfl⟩ := mem_map.mp hd
      rw [hwi] at hin hin'
      have := mem_range.mp hg'
      omega)
  refine ⟨d, ?_, ?_⟩
  · rw [getLocalRemoteBlockPortMappings, ensure_pos hcheck, hP.getCpGroupMeta_eq,
      hD.getCpGroupMeta_eq, range_split hg, map_append, map_cons]
    exact hrun
  · have hf : ((range (numGroups m pre.tpSize)).map (pre.groupMeta m rp)).filter
        (·.Within (dec.groupMeta m sp (r.group dec m)))
        = (range (headRatio m pre dec)).map fun i =>
          pre.groupMeta m rp (r.group dec m * headRatio m pre dec + i) := by
      rw [filter_map, numGroups_eq hP hD hcheck,
        show ((fun p : CpGroupMeta => decide (p.Within (dec.groupMeta m sp (r.group dec m))))
          ∘ pre.groupMeta m rp) = fun p => decide (p / headRatio m pre dec = r.group dec m)
          from funext fun p => decide_eq_decide.mpr (hwi p _), filter_div_eq hw hg, map_map]
      rfl
    rw [hf, flatMap_map] at hro
    simp only [headRows_groupMeta hP hD hcheck rp sp hr, ← map_eq_flatMap] at hro
    rw [rows, rows, OrderedDict.get_empty, Option.getD_none, nil_append] at hro
    cases hget : d.get (r.port dec sp) with
    | none =>
      rw [hget, Option.getD_none, eq_comm, map_eq_nil_iff, range_eq_nil] at hro
      exact absurd hro hw.ne'
    | some found =>
      rw [hget, Option.getD_some] at hro
      rw [hro]

end

end VllmDual.Pull
