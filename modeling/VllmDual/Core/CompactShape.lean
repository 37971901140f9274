/-
  Subject:   THE SHAPE OF A LATENT TABLE: WHERE ITS NULL ROWS ARE.

  A null row of a latent table was released, or belongs to the loaded prompt of a compact request
  between the scratch rows and its last bundle. Both ends of that gap and of the table are at
  bundles. Every call keeps this.
-/
import VllmDual.Core.LatentRows

namespace VllmDual.Core

open Outcome Ceil Manager List Int Nat

/-! ## 1. Required rows -/

namespace Manager

variable (m : Manager) (bd : Nat)

def scratchEnd : Int := roundUp m.scratchBlocks bd

def requiredEnd (numTokens : Int) : Int := roundUp (cdiv numTokens m.blockSize) bd

def promptEnd (prefixTokens : Int) : Int := roundDown (prefixTokens / m.blockSize) bd

def promptLast (prefixTokens : Int) : Int :=
  roundDown (max (cdiv prefixTokens m.blockSize - 1) 0) bd

variable {m bd} {e : Entry} {pt : Int} {d : Config.Demand}

theorem scratchEnd_nonneg (hbundle : 0 < bd) : 0 ≤ m.scratchEnd bd :=
  Int.mul_nonneg (cdiv_nonneg (natCast_pos.mpr hbundle) (natCast_nonneg _)) (natCast_nonneg _)

theorem scratchBlocks_le (hbundle : 0 < bd) : (m.scratchBlocks : Int) ≤ m.scratchEnd bd :=
  le_cdiv_mul (natCast_pos.mpr hbundle)

def tailStart (m : Manager) (bundle : Nat) (e : Entry) (prefixTokens : Int) (d : Config.Demand) :
    Int :=
  let tail := max (m.promptEnd bundle prefixTokens) (e.compactReleasedBlocks.getD 0)
  max (m.scratchEnd bundle)
    (if d.compact then min tail (m.promptLast bundle prefixTokens) else tail)

theorem requiredRows_eq : m.requiredRows bd e pt d =
    if (!d.compact && decide (d.numTokensMainModel ≤ pt)) = true then
      List.range (m.requiredEnd bd d.numTokens).toNat
    else
      List.range (m.scratchEnd bd).toNat ++
        List.range' (m.tailStart bd e pt d).toNat
          (m.requiredEnd bd d.numTokens - m.tailStart bd e pt d).toNat := rfl

theorem requiredRows_sorted (m : Manager) (bd : Nat) (e : Entry) (pt : Int)
    (d : Config.Demand) : (m.requiredRows bd e pt d).Pairwise (· < ·) :=
  compactRequiredIndices_sorted ..

def fallsBack (prefixTokens : Int) (d : Config.Demand) : Prop :=
  d.compact = false ∧ d.numTokensMainModel ≤ prefixTokens

instance : Decidable (fallsBack pt d) := inferInstanceAs (Decidable (_ ∧ _))

theorem mem_requiredRows (hbundle : 0 < bd) {i : Nat} :
    i ∈ m.requiredRows bd e pt d ↔
      if fallsBack pt d then
        (i : Int) < m.requiredEnd bd d.numTokens
      else
        (i : Int) < m.scratchEnd bd ∨ m.tailStart bd e pt d ≤ i ∧
          (i : Int) < m.requiredEnd bd d.numTokens := by
  have hs : 0 ≤ m.scratchEnd bd := scratchEnd_nonneg hbundle
  have ht : m.scratchEnd bd ≤ m.tailStart bd e pt d := le_max_left _ _
  have hc : ((!d.compact && decide (d.numTokensMainModel ≤ pt)) = true) ↔
      fallsBack pt d := by simp [fallsBack]
  rw [requiredRows_eq]
  by_cases hf : fallsBack pt d
  · rw [if_pos (hc.mpr hf), if_pos hf, mem_range]
    omega
  · rw [if_neg (mt hc.mp hf), if_neg hf, mem_append, mem_range, mem_range'_1]
    omega

theorem length_extended {rq : List Nat} (hs : rq.Pairwise (· < ·)) {s : Nat}
    (hlt : ∀ i ∈ rq, i < s) (hl : s = 0 ∨ s - 1 ∈ rq) (t : List BlockId) :
    (extended t rq).length = max t.length s := by
  have hr : s - 1 ∈ rq → s ≤ (extended [] rq).length := fun hmem => by
    have hlt := lt_length_extended hs [] hmem
    omega
  unfold extended at hr ⊢
  cases hg : rq.getLast? with
  | none =>
    obtain rfl := getLast?_eq_none_iff.mp hg
    rcases hl with rfl | hmem
    · simp
    · cases hmem
  | some l =>
    have hmem := hlt l (mem_of_getLast? hg)
    rw [hg] at hr
    simp only [length_append, length_replicate, length_nil, zero_add] at hr ⊢
    rcases hl with rfl | hst
    · omega
    · have := hr hst
      omega

def requiredStop (m : Manager) (bundle : Nat) (e : Entry) (prefixTokens : Int) (d : Config.Demand) :
    Int :=
  if fallsBack prefixTokens d ∨
      m.tailStart bundle e prefixTokens d < m.requiredEnd bundle d.numTokens then
    m.requiredEnd bundle d.numTokens
  else
    m.scratchEnd bundle

theorem length_extended_requiredRows (hbundle : 0 < bd) (t : List BlockId) :
    ((extended t (m.requiredRows bd e pt d)).length : Int) = max (t.length : Int)
      (m.requiredStop bd e pt d) := by
  have hs : 0 ≤ m.scratchEnd bd := scratchEnd_nonneg hbundle
  have ht : m.scratchEnd bd ≤ m.tailStart bd e pt d := le_max_left _ _
  have hmem : ∀ i, i ∈ m.requiredRows bd e pt d ↔ _ := fun i => mem_requiredRows hbundle
  have hl : (extended t (m.requiredRows bd e pt d)).length
      = max t.length (m.requiredStop bd e pt d).toNat := by
    refine length_extended (requiredRows_sorted ..) (fun i hi => ?_) ?_ t
    · rw [hmem] at hi
      unfold requiredStop
      split at hi
      · rename_i hf
        rw [if_pos (.inl hf)]
        omega
      · rename_i hf
        rw [if_congr (or_iff_right hf) rfl rfl]
        split <;> omega
    · rw [hmem]
      unfold requiredStop
      by_cases hf : fallsBack pt d
      · rw [if_pos (.inl hf), if_pos hf]
        omega
      · rw [if_neg hf, if_congr (or_iff_right hf) rfl rfl]
        split <;> omega
  omega

end Manager

/-! ## 2. The shape -/

/-- A null row was released, or belongs to the loaded prompt. -/
def Manager.Gap (m : Manager) (bundle : Nat) (compactPrefixTokens : Option Int) (frontier i : Nat) :
    Prop :=
  m.scratchBlocks ≤ i ∧ i < frontier ∨ ∃ prefixTokens, compactPrefixTokens = some prefixTokens ∧
    m.scratchEnd bundle ≤ i ∧ (i : Int) < m.promptEnd bundle prefixTokens

/-- The shape of a latent table that was released up to `frontier`. -/
structure Shape (m : Manager) (bundle : Nat) (e : Entry) (frontier : Nat) : Prop where
  frontier_le : frontier ≤ e.blocks.length
  marks : e.compactReleasedBlocks = e.compactPrefixTokens.map fun _ => (frontier : Int)
  rows : ∀ i < e.blocks.length, e.row i = 0 → m.Gap bundle e.compactPrefixTokens frontier i
  aligned : e.compactPrefixTokens.isSome = true → bundle ∣ e.blocks.length

theorem Shape.empty (m : Manager) (bd : Nat) : Shape m bd {} 0 where
  frontier_le := zero_le _
  marks := rfl
  rows i hi := absurd hi (not_lt_zero i)
  aligned h := by cases h

section Shape

variable {m : Manager} {bd : Nat} {e e' e₁ : Entry} {fr : Nat} {d : Config.Demand}
  {po ps' pools₁ : Pools} {pt : Int} {ids : List BlockId} {u : Unit}

theorem Shape.cached (h : Shape m bd e fr) (nc : Option Nat) :
    Shape m bd { e with numCachedBlock := nc } fr :=
  ⟨h.frontier_le, h.marks, h.rows, h.aligned⟩

theorem Manager.requiredStop_dvd (m : Manager) (bd : Nat) (e : Entry) (pt : Int)
    (d : Config.Demand) : (bd : Int) ∣ m.requiredStop bd e pt d := by
  unfold requiredStop
  split
  · exact dvd_mul_left _ _
  · exact dvd_mul_left _ _

theorem gap_of_not_required (hbundle : 0 < bd) (hr : e.compactReleasedBlocks = some (fr : Int))
    {i : Nat} (hi : i ∉ m.requiredRows bd e pt d)
    (he : (i : Int) < m.requiredEnd bd d.numTokens) :
    m.Gap bd (some pt) fr i := by
  have hs : (m.scratchBlocks : Int) ≤ m.scratchEnd bd := scratchBlocks_le hbundle
  rw [mem_requiredRows hbundle] at hi
  split at hi
  · exact absurd he hi
  · have ht : (i : Int) < m.tailStart bd e pt d := by omega
    have hle : m.tailStart bd e pt d ≤ max (m.scratchEnd bd) (max (m.promptEnd bd pt) fr) := by
      unfold tailStart
      rw [hr]
      refine max_le_max le_rfl ?_
      split
      · exact min_le_left _ _
      · exact le_rfl
    by_cases hf : i < fr
    · exact .inl ⟨by omega, hf⟩
    · exact .inr ⟨pt, rfl, by omega, by omega⟩

/-- **An allocation for a marked entry leaves the shape**, also when the table was just made and has
    null rows up to its end. -/
theorem takeNew_shape (hm : m.isDsaLatent = true) (hma : e.compactPrefixTokens = some pt)
    (hlive : po.Live) (hbundle : po.blocksPerBundle m.group = bd)
    (hfr : fr ≤ e.blocks.length) (hrel : e.compactReleasedBlocks = some (fr : Int))
    (hr : ∀ i < e.blocks.length, e.row i = 0 → m.Gap bd (some pt) fr i ∨
      m.scratchEnd bd ≤ i ∧ (i : Int) < m.requiredEnd bd d.numTokens)
    (ha : bd ∣ e.blocks.length ∨ (e.blocks.length : Int) ≤ m.requiredStop bd e pt d)
    (h : Config.takeNew d m po e = .ok (ids, e', ps')) : Shape m bd e' fr := by
  have hp : 0 < bd := hbundle ▸ po.blocksPerBundle_pos m.group
  obtain ⟨heq, hl, -, hrow⟩ := takeNew_compact hm hma hlive h
  rw [hbundle] at hl hrow
  have hs : (e'.blocks.length : Int) = max (e.blocks.length : Int) (m.requiredStop bd e pt d) := by
    rw [hl]
    exact length_extended_requiredRows hp _
  have hpre : e'.compactPrefixTokens = some pt := by rw [heq, ← hma]
  refine ⟨by omega, ?_, fun i hi h0 => ?_, fun _ => ?_⟩
  · rw [hpre, heq]
    exact hrel
  · rw [hpre]
    have hn : i ∉ m.requiredRows bd e pt d := fun hreq => (hrow i).1 hreq h0
    have h0' : e.row i = 0 := ((hrow i).2 (.inl hn)).symm.trans h0
    by_cases he : (i : Int) < m.requiredEnd bd d.numTokens
    · exact gap_of_not_required hp hrel hn he
    · by_cases hlt : i < e.blocks.length
      · exact (hr i hlt h0').resolve_right fun hor => he hor.2
      · -- past the old table only required rows are added
        have hst : (i : Int) < m.requiredStop bd e pt d := by omega
        refine absurd ?_ hn
        unfold requiredStop at hst
        split at hst
        · exact absurd hst he
        · rename_i hno
          rw [mem_requiredRows hp, if_neg fun hf => hno (.inl hf)]
          exact .inl hst
  · have hd := m.requiredStop_dvd bd e pt d
    rcases le_total (m.requiredStop bd e pt d) (e.blocks.length : Int) with hle | hle
    · rw [max_eq_left hle] at hs
      rcases ha with hal | hal
      · rwa [natCast_inj.mp hs]
      · have heq' := le_antisymm hal hle
        rw [← natCast_dvd_natCast, hs, heq']
        exact hd
    · rw [max_eq_right hle] at hs
      rw [← natCast_dvd_natCast, hs]
      exact hd

/-! ## 3. Growth takes nothing below the frontier -/

theorem countP_range'_from (s n a : Nat) :
    (List.range' s n).countP (fun i => a ≤ i) = s + n - max s a := by
  induction n generalizing s with
  | zero => simp
  | succ n ih =>
    rw [range'_succ, countP_cons, ih]
    simp only [decide_eq_true_eq]
    split <;> omega

theorem Shape.scratch_missing (h : Shape m bd e fr) (hbundle : 0 < bd)
    (hl : m.scratchEnd bd ≤ e.blocks.length) :
    (List.range (m.scratchEnd bd).toNat).countP (fun i => e.row i = 0) < bd := by
  have hs : (m.scratchBlocks : Int) ≤ m.scratchEnd bd := scratchBlocks_le hbundle
  have hmo : (List.range (m.scratchEnd bd).toNat).countP (fun i => e.row i = 0)
      ≤ (List.range (m.scratchEnd bd).toNat).countP (fun i => m.scratchBlocks ≤ i) := by
    refine countP_mono_left fun i hi h0 => ?_
    have hi' := mem_range.mp hi
    rcases h.rows i (by omega) (of_decide_eq_true h0) with hg | ⟨P, -, hg, -⟩
    · exact decide_eq_true hg.1
    · omega
  rw [range_eq_range', countP_range'_from, ← range_eq_range'] at hmo
  -- rounding up adds less than a bundle
  have hr : m.scratchEnd bd < m.scratchBlocks + bd := by
    have hp : (0 : Int) < bd := natCast_pos.mpr hbundle
    have hlt := (lt_cdiv_iff (a := m.scratchBlocks) (n := cdiv m.scratchBlocks bd - 1) hp).mp
        (by omega)
    have hmul : (cdiv m.scratchBlocks bd - 1) * (bd : Int) = m.scratchEnd bd - bd := by
      rw [scratchEnd, roundUp]
      ring
    omega
  omega

theorem Shape.tail_missing (h : Shape m bd e fr) (hbundle : 0 < bd)
    (hma : e.compactPrefixTokens = some pt) (hco : d.compact = false) :
    bd ∣ (List.range' (m.tailStart bd e pt d).toNat
      (m.requiredEnd bd d.numTokens - m.tailStart bd e pt d).toNat).countP
        (fun i => e.row i = 0) := by
  have hf := h.frontier_le
  have hr : e.compactReleasedBlocks.getD 0 = (fr : Int) := by
    rw [h.marks, hma]
    rfl
  have hsc : 0 ≤ m.scratchEnd bd := scratchEnd_nonneg hbundle
  have hs : m.tailStart bd e pt d = max (m.scratchEnd bd) (max (m.promptEnd bd pt) fr) := by
    simp [tailStart, hr, hco]
  -- from the start of the tail on, a row is null exactly past the end of the table
  have hn : ∀ i ∈ List.range' (m.tailStart bd e pt d).toNat
      (m.requiredEnd bd d.numTokens - m.tailStart bd e pt d).toNat,
      (decide (e.row i = 0) = true ↔ decide (e.blocks.length ≤ i) = true) := by
    intro i hi
    have hi' := (mem_range'_1.mp hi).1
    rw [decide_eq_true_iff, decide_eq_true_iff]
    refine ⟨fun h0 => ?_, Entry.row_eq_zero⟩
    by_contra hlt
    rcases h.rows i (by omega) h0 with hgap | ⟨P, hP, -, hgap⟩
    · omega
    · obtain rfl := Option.some.inj (hma.symm.trans hP)
      omega
  rw [countP_congr hn, countP_range'_from, ← natCast_dvd_natCast]
  have hl : (bd : Int) ∣ e.blocks.length :=
    natCast_dvd_natCast.mpr (h.aligned (hma ▸ rfl))
  have he : (bd : Int) ∣ m.requiredEnd bd d.numTokens := dvd_mul_left _ _
  by_cases hg : max (m.tailStart bd e pt d) (e.blocks.length : Int) < m.requiredEnd bd d.numTokens
  · have hc : (((m.tailStart bd e pt d).toNat
      + (m.requiredEnd bd d.numTokens - m.tailStart bd e pt d).toNat
        - max (m.tailStart bd e pt d).toNat e.blocks.length : Nat) : Int)
        = m.requiredEnd bd d.numTokens - max (m.tailStart bd e pt d)
          (e.blocks.length : Int) := by omega
    rw [hc]
    refine dvd_sub he ?_
    rcases le_total (m.tailStart bd e pt d) (e.blocks.length : Int) with hin | ho
    · rw [max_eq_right hin]
      exact hl
    · -- the frontier is inside the table, so the tail starts at a bundle
      rw [max_eq_left ho]
      have hs' : m.tailStart bd e pt d = e.blocks.length ∨ m.tailStart bd e pt d = m.scratchEnd bd ∨
          m.tailStart bd e pt d = m.promptEnd bd pt := by
        rcases max_choice (m.scratchEnd bd) (max (m.promptEnd bd pt) (fr : Int)) with hmax | hmax
        · exact .inr (.inl (hs.trans hmax))
        · rcases max_choice (m.promptEnd bd pt) (fr : Int) with hmax' | hmax'
          · exact .inr (.inr (hs.trans (hmax.trans hmax')))
          · exact .inl (by omega)
      rcases hs' with heq | heq | heq <;> rw [heq]
      · exact hl
      · exact dvd_mul_left _ _
      · exact dvd_mul_left _ _
  · have hc : (m.tailStart bd e pt d).toNat
      + (m.requiredEnd bd d.numTokens - m.tailStart bd e pt d).toNat
        - max (m.tailStart bd e pt d).toNat e.blocks.length = 0 := by
      have ht : 0 ≤ m.tailStart bd e pt d := hsc.trans (le_max_left _ _)
      omega
    rw [hc]
    exact dvd_zero _

/-! ## 4. Whole calls -/

theorem takeComputed_whole (hm : m.isDsaLatent = true) (hc : d.compact = false) (hlive : po.Live)
    (he : e.blocks = []) (h : Config.takeComputed d m po e = .ok (u, e', ps')) :
    po.blocksPerBundle m.group ∣ e'.blocks.length := by
  cases po with
  | one p => exact one_dvd _
  | perGroup ps => exact one_dvd _
  | shared ow order s =>
    have hk := isDsaLatent_iff.mp hm
    have hs : ∀ n, m.getNumSkippedTokens n = 0 := fun n => by
      simp [getNumSkippedTokens, hk]
    have h := quiet_eq_ok.mp h
    rw [hc, Bool.false_and, if_neg Bool.false_ne_true, allocateNewComputedBlocks, hk] at h
    dsimp only at h
    unfold baseAllocateNewComputedBlocks at h
    split at h
    · replace h := of_ensure h
      obtain ⟨rfl, -⟩ := pair_inj h
      rw [he]
      exact dvd_zero _
    · replace h := of_ensure h
      obtain ⟨pools₁, ht, h⟩ := of_bind h
      simp only [unskipped, hs, zero_ediv, lt_irrefl, if_false, toNat_zero, replicate_zero,
        nil_append] at h ht
      unfold touchComputed at ht
      split at ht
      · cases ht
      · obtain ⟨hh, rfl⟩ := ensure_bind_pure_eq_ok.mp ht
        rw [hh] at h
        unfold allocateExternal at h
        split at h
        · obtain ⟨⟨ids, pools₂⟩, hg, h⟩ := of_bind h
          obtain ⟨rfl, -⟩ := pair_inj h
          have hl := ((Pools.getNewBlocks_spec hg).2 hlive).2
          rw [nil_append, hl, roundUp, toNat_mul_natCast]
          exact dvd_mul_left _ _
        · obtain ⟨rfl, -⟩ := pair_inj h
          exact dvd_zero _

/-- What the scheduler keeps: a compact call is for a request without rows, or for one that was
    loaded with just these tokens; and they are within the model length. -/
def Entry.CompactCall (e : Entry) (d : Config.Demand) : Prop :=
  d.compact = true → d.totalComputedTokens ≤ d.numTokens ∧
    (e.blocks = [] ∨ e.compactPrefixTokens = some d.totalComputedTokens)

theorem Shape.admitted (h : Shape m bd e fr) (hca : e.CompactCall d) :
    Shape m bd (e.admitted d) fr := by
  unfold Entry.admitted
  split
  · rename_i hc
    have hg : e.compactReleasedBlocks.getD 0 = (fr : Int) := by
      have hf := h.frontier_le
      rw [h.marks]
      cases hp : e.compactPrefixTokens with
      | some P => rfl
      | none =>
        rcases (hca hc).2 with he | hs
        · rw [he, length_nil] at hf
          simp [le_zero.mp hf]
        · rw [hp] at hs
          cases hs
    refine ⟨h.frontier_le, congrArg some hg, fun i hi h0 => ?_, fun _ => ?_⟩
    · rcases (hca hc).2 with he | hs
      · exact absurd hi (by simp [Entry.marked, he])
      · have hgap := h.rows i hi h0
        rwa [hs] at hgap
    · rcases (hca hc).2 with he | hs
      · show bd ∣ e.blocks.length
        rw [he]
        exact dvd_zero _
      · exact h.aligned (hs ▸ rfl)
  · exact h

theorem compactTable_rows (hbundle : 0 < bd) (hids : ∀ b ∈ ids, b ≠ 0)
    (hl : (ids.length : Int) = m.scratchEnd bd) :
    ((m.compactTable bd pt ids).length : Int) = max (cdiv pt m.blockSize) (m.scratchEnd bd) ∧
      ∀ i, (m.compactTable bd pt ids).getD i 0 = 0 → m.scratchEnd bd ≤ i := by
  have hs : 0 ≤ m.scratchEnd bd := scratchEnd_nonneg hbundle
  have ht : m.compactTable bd pt ids = ids ++ List.replicate
      (max (cdiv pt m.blockSize) (m.scratchEnd bd) - m.scratchEnd bd).toNat 0 := rfl
  rw [ht]
  refine ⟨?_, fun i h0 => ?_⟩
  · rw [length_append, length_replicate]
    omega
  · by_contra hlt
    have hi : i < ids.length := by omega
    rw [getD_append _ _ _ _ hi, getD_eq_getElem _ _ hi] at h0
    exact hids _ (getElem_mem hi) h0

theorem tailStart_lt (hbundle : 0 < bd) (hc : d.compact = true)
    (hp : m.scratchEnd bd < cdiv pt m.blockSize) : m.tailStart bd e pt d < cdiv pt m.blockSize := by
  have hs : 0 ≤ m.scratchEnd bd := scratchEnd_nonneg hbundle
  have hl : m.promptLast bd pt ≤ max (cdiv pt m.blockSize - 1) 0 :=
    Int.ediv_mul_le _ (by omega)
  unfold tailStart
  dsimp only
  rw [if_pos hc]
  omega

section

variable (h : Shape m bd e fr) (hm : m.isDsaLatent = true) (hlive : po.Live)
  (hbundle : po.blocksPerBundle m.group = bd)
include h hm hlive hbundle

/-- **Growth takes nothing below the frontier**: an allocation that is not compact and does not fall
    back leaves every null row there. Where the scratch rows end inside a released bundle, the
    missing rows are not whole bundles, and the call raises. -/
theorem Shape.takeNew_frontier (hma : e.compactPrefixTokens = some pt) (hc : d.compact = false)
    (hf : ¬fallsBack pt d) (ht : Config.takeNew d m po e = .ok (ids, e', ps')) :
    ∀ i < fr, e.row i = 0 → e'.row i = 0 := by
  intro i hi h0
  have hp : 0 < bd := hbundle ▸ po.blocksPerBundle_pos m.group
  obtain ⟨-, -, hd, hr⟩ := takeNew_compact hm hma hlive ht
  rw [hbundle] at hd hr
  refine ((hr i).2 (.inl fun hreq => ?_)).trans h0
  have hs : 0 ≤ m.scratchEnd bd := scratchEnd_nonneg hp
  have hfr := h.frontier_le
  have hrel : e.compactReleasedBlocks.getD 0 = (fr : Int) := by
    rw [h.marks, hma]
    rfl
  have hst : (fr : Int) ≤ m.tailStart bd e pt d := by
    simp [tailStart, hrel, hc]
  rw [mem_requiredRows hp, if_neg hf] at hreq
  have hlow : (i : Int) < m.scratchEnd bd := by omega
  -- the table is longer than the scratch rows, and whole bundles
  have hl : m.scratchEnd bd ≤ e.blocks.length := by
    obtain ⟨k, hk⟩ := h.aligned (hma ▸ rfl)
    rcases h.rows i (by omega) h0 with ⟨hge, -⟩ | ⟨P, -, hge, -⟩
    · have hle : cdiv m.scratchBlocks bd ≤ k := by
        rw [cdiv_le_iff (natCast_pos.mpr hp)]
        have hk' : (e.blocks.length : Int) = k * bd := by rw [hk, mul_comm]; push_cast; rfl
        omega
      have hmul := Int.mul_le_mul_of_nonneg_right hle (natCast_nonneg bd)
      rw [hk, mul_comm, natCast_mul]
      exact hmul
    · omega
  have hfew := h.scratch_missing hp hl
  have hta := h.tail_missing hp hma hc
  have hco : ¬(!d.compact && decide (d.numTokensMainModel ≤ pt)) = true := by
    simpa [fallsBack, hc] using hf
  rw [requiredRows_eq, if_neg hco, countP_append] at hd
  have hmn := (Nat.dvd_add_left hta).mp hd
  have hz := eq_zero_of_dvd_of_lt hmn hfew
  have ha := countP_eq_zero.mp hz i (mem_range.mpr (by omega))
  exact ha (decide_eq_true h0)

theorem Shape.takeNew (hma : e.compactPrefixTokens = some pt)
    (ht : Config.takeNew d m po e = .ok (ids, e', ps')) : Shape m bd e' fr := by
  have hr : e.compactReleasedBlocks = some (fr : Int) := by
    rw [h.marks, hma]
    rfl
  refine takeNew_shape hm hma hlive hbundle h.frontier_le hr (fun i hi h0 => .inl ?_)
    (.inl (h.aligned (hma ▸ rfl))) ht
  exact hma ▸ h.rows i hi h0

omit hbundle in
theorem Shape.takeNew_dense (hma : e.compactPrefixTokens = none) (hc : d.compact = false)
    (ht : Config.takeNew d m po e = .ok (ids, e', ps')) :
    Shape m bd e' fr ∧ ∀ i < fr, e'.row i = e.row i := by
  have hf := h.frontier_le
  obtain ⟨hids, rfl, -⟩ := Core.takeNew_dense hm hc hma hlive ht
  have hold : ∀ i < e.blocks.length, ({ e with blocks := e.blocks ++ ids } : Entry).row i
      = e.row i :=
    fun i hi => getD_append _ _ _ _ hi
  refine ⟨⟨?_, h.marks, fun i hi h0 => ?_, fun hs => ?_⟩, fun i hi => hold i (by omega)⟩
  · show fr ≤ (e.blocks ++ ids).length
    rw [length_append]
    omega
  · by_cases hlt : i < e.blocks.length
    · exact h.rows i hlt ((hold i hlt).symm.trans h0)
    · refine absurd h0 ?_
      have hi' : i < (e.blocks ++ ids).length := hi
      show (e.blocks ++ ids).getD i 0 ≠ 0
      rw [getD_eq_getElem _ _ hi', getElem_append_right (by omega)]
      exact hids _ (getElem_mem _)
  · rw [hma] at hs
    cases hs

theorem Shape.takeComputed (hc : d.compact = false) (hh : ∀ b ∈ d.newComputedBlocks m.group, b ≠ 0)
    (ht : Config.takeComputed d m po e = .ok (u, e', ps')) :
    Shape m bd e' fr ∧ e'.compactPrefixTokens = e.compactPrefixTokens ∧
      ∀ i < fr, e'.row i = e.row i := by
  rcases takeComputed_latent hm hlive hh ht with rfl | ⟨he, hn⟩
  · exact ⟨h, rfl, fun i _ => rfl⟩
  · have hz : fr = 0 := by
      have hf := h.frontier_le
      rw [he] at hf
      exact le_zero.mp hf
    have hw := takeComputed_whole hm hc hlive he ht
    rw [hbundle] at hw
    subst hz
    rcases hn with ⟨-, hd, heq⟩ | ⟨hco, -⟩
    · have hp : e'.compactPrefixTokens = e.compactPrefixTokens := by rw [heq]
      refine ⟨⟨zero_le _, ?_, fun i hi h0 => absurd h0 (hd.row_ne_zero hi), fun _ => hw⟩,
        hp, fun i hi => absurd hi (not_lt_zero i)⟩
      rw [hp, ← h.marks, heq]
    · rw [hc] at hco
      cases hco

theorem Shape.takeNew_admission (hc : d.compact = true) (hca : e.CompactCall d)
    (hh : ∀ b ∈ d.newComputedBlocks m.group, b ≠ 0) {pools₁' : Pools} (hlive₁ : pools₁.Live)
    (hbundle₁ : pools₁.blocksPerBundle m.group = bd)
    (hfi : Config.takeComputed d m pools₁ (e.admitted d) = .ok (u, e₁, pools₁'))
    (ht : Config.takeNew d m po e₁ = .ok (ids, e', ps')) : Shape m bd e' fr := by
  have ha := h.admitted hca
  have hma : (e.admitted d).compactPrefixTokens = some d.totalComputedTokens := by
    rw [Entry.admitted, if_pos hc]
    rfl
  rcases takeComputed_latent hm hlive₁ hh hfi with rfl | ⟨he, hnew⟩
  · exact ha.takeNew hm hlive hbundle hma ht
  rcases hnew with ⟨hco, -⟩ | ⟨-, s, hs, hl, heq⟩
  · rw [hc] at hco
    cases hco
  have hp : 0 < bd := hbundle ▸ po.blocksPerBundle_pos m.group
  have hz : fr = 0 := by
    have hf := ha.frontier_le
    rw [he] at hf
    exact le_zero.mp hf
  rw [hbundle₁] at hl heq
  have hta : e₁.blocks = m.compactTable bd d.totalComputedTokens s := by rw [heq]
  have hrel : e₁.compactReleasedBlocks = some (fr : Int) := by
    rw [heq, Entry.marked, ha.marks, hma]
    rfl
  have hr : (e₁.blocks.length : Int) = max (cdiv d.totalComputedTokens m.blockSize)
      (m.scratchEnd bd) ∧ ∀ i, e₁.blocks.getD i 0 = 0 → m.scratchEnd bd ≤ i := by
    rw [hta]
    exact compactTable_rows hp hs hl
  obtain ⟨hsi, hn⟩ := hr
  have hb : (0 : Int) < m.blockSize := natCast_pos.mpr m.blockSize_pos
  have hend : cdiv d.totalComputedTokens m.blockSize ≤ m.requiredEnd bd d.numTokens :=
    (cdiv_mono hb (hca hc).1).trans (le_cdiv_mul (natCast_pos.mpr hp))
  refine takeNew_shape hm (by rw [heq]; rfl) hlive hbundle (hz ▸ zero_le _)
    hrel (fun i hi h0 => ?_) ?_ ht
  · have hlow := hn i h0
    exact .inr ⟨hlow, by omega⟩
  · rcases le_or_gt (cdiv d.totalComputedTokens m.blockSize) (m.scratchEnd bd) with hle | hlt
    · refine .inl (natCast_dvd_natCast.mp ?_)
      rw [hsi, max_eq_right hle]
      exact dvd_mul_left _ _
    · have hst := tailStart_lt hp hc hlt (e := e₁)
      rw [requiredStop, if_pos (.inr (hst.trans_le hend)), hsi, max_eq_left hlt.le]
      exact .inr hend

/-- **A served call keeps the shape**, and if it is not compact and does not fall back, it leaves
    every null row below the frontier. -/
theorem Shape.served (hca : e.CompactCall d) (hh : ∀ b ∈ d.newComputedBlocks m.group, b ≠ 0)
    (hlive₁ : pools₁.Live) (hbundle₁ : pools₁.blocksPerBundle m.group = bd)
    (hf : e₁ = e.admitted d ∨
      ∃ u pools₁', Config.takeComputed d m pools₁ (e.admitted d) = .ok (u, e₁, pools₁'))
    (ht : Config.takeNew d m po e₁ = .ok (ids, e', ps')) :
    Shape m bd e' fr ∧ (d.compact = false →
      (∀ pt, e.compactPrefixTokens = some pt → ¬fallsBack pt d) → ∀ i < fr, e.row i = 0 →
        e'.row i = 0) := by
  cases hc : d.compact with
  | true =>
    refine ⟨?_, fun h => by cases h⟩
    rcases hf with rfl | ⟨u, pools₁', hf⟩
    · have hma : (e.admitted d).compactPrefixTokens = some d.totalComputedTokens := by
        rw [Entry.admitted, if_pos hc]
        rfl
      exact (h.admitted hca).takeNew hm hlive hbundle hma ht
    · exact h.takeNew_admission hm hlive hbundle hc hca hh hlive₁ hbundle₁ hf ht
  | false =>
    have ha : e.admitted d = e := by rw [Entry.admitted, hc, if_neg Bool.false_ne_true]
    rw [ha] at hf
    obtain ⟨h₁, hp, hr⟩ : Shape m bd e₁ fr ∧
        e₁.compactPrefixTokens = e.compactPrefixTokens ∧ ∀ i < fr, e₁.row i = e.row i := by
      rcases hf with rfl | ⟨u, pools₁', hf⟩
      · exact ⟨h, rfl, fun i _ => rfl⟩
      · exact h.takeComputed hm hlive₁ hbundle₁ hc hh hf
    cases hma : e.compactPrefixTokens with
    | none =>
      obtain ⟨h', hk⟩ := h₁.takeNew_dense hm hlive (hp.trans hma) hc ht
      exact ⟨h', fun _ _ i hi h0 => (hk i hi).trans ((hr i hi).trans h0)⟩
    | some P =>
      refine ⟨h₁.takeNew hm hlive hbundle (hp.trans hma) ht, fun _ hfa i hi h0 => ?_⟩
      exact h₁.takeNew_frontier hm hlive hbundle (hp.trans hma) hc (hfa P rfl)
        ht i hi ((hr i hi).trans h0)

end

theorem Shape.release (h : Shape m bd e fr) {ce : Int} {n : Nat}
    (hc : m.removeSavedDecodeWindowBlocks po e ce = .ok (n, e', ps')) :
    Shape m bd e' (max fr (m.releaseEnd e ce)) := by
  have hs := removeSaved_latent hc
  split at hs
  · rename_i hsk
    rw [releaseEnd_eq_zero hsk, max_zero, hs.1]
    exact h
  · obtain ⟨-, hl, hr, hp, -, hrel, -⟩ := hs
    have he : m.releaseEnd e ce ≤ e.blocks.length := min_le_right _ _
    have hf := h.frontier_le
    refine ⟨by omega, ?_, fun i hi h0 => ?_, fun hso => ?_⟩
    · rw [hrel, hp, h.marks]
      cases e.compactPrefixTokens with
      | none => rfl
      | some P => simp
    · rw [hr] at h0
      rw [hp]
      split at h0
      · exact .inl ⟨by omega, by omega⟩
      · rcases h.rows i (by omega) h0 with hg | hg
        · exact .inl ⟨hg.1, by omega⟩
        · exact .inr hg
    · rw [hl]
      exact h.aligned (hp ▸ hso)

end Shape

end VllmDual.Core
