/-
  Subject:   COMPACT TABLES AND WHOLE BUNDLES.

  `_allocate_compact_request_blocks` takes blocks in whole bundles and asserts that it got as many
  as were missing. So the missing rows must be whole bundles. The required rows are rounded to
  bundles; a release is not, neither at its start (the scratch rows) nor at its end:

  * `missing_whole` -- where releases keep to bundles, the missing rows of every call are whole
    bundles;
  * `halfReleased_raises` -- a release that starts inside a bundle, and the growth that raises.
-/
import VllmDual.Core.Release

namespace VllmDual.Core

open Outcome Ceil Manager List Int Entry Nat Option

/-! ## 1. Bundles of rows -/

variable {p : Nat → Bool} {bd i j : Nat}

theorem dvd_countP_range' (hp : ∀ i j, i / bd = j / bd → p i = p j) (a k : Nat) :
    bd ∣ (List.range' (a * bd) (k * bd)).countP p := by
  induction k with
  | zero => simp
  | succ k ih =>
    have ho : ∀ i ∈ List.range' (a * bd + k * bd) bd, p i = p ((a + k) * bd) := by
      intro i hi
      obtain ⟨hge, hlt⟩ := mem_range'_1.mp hi
      have hpos : 0 < bd := by omega
      refine hp _ _ ?_
      rw [Nat.mul_div_cancel _ hpos]
      refine Nat.div_eq_of_lt_le ?_ ?_
      · rw [Nat.add_mul]
        exact hge
      · rw [succ_mul, add_mul]
        exact hlt
    rw [succ_mul, ← range'_append_1, countP_append]
    refine dvd_add ih ?_
    cases hv : p ((a + k) * bd) with
    | true =>
      rw [countP_eq_length.mpr fun i hi => (ho i hi).trans hv, length_range']
    | false =>
      rw [countP_eq_zero.mpr fun i hi => by simp [ho i hi, hv]]
      exact dvd_zero _

theorem dvd_countP_of_dvd (hp : ∀ i j, i / bd = j / bd → p i = p j) {s n : Int}
    (hs : (bd : Int) ∣ s) (hn : (bd : Int) ∣ n) :
    bd ∣ (List.range' s.toNat n.toNat).countP p := by
  obtain ⟨a, rfl⟩ := hs
  obtain ⟨k, rfl⟩ := hn
  rw [Int.mul_comm, toNat_mul_natCast, Int.mul_comm (bd : Int) k, toNat_mul_natCast]
  exact dvd_countP_range' hp _ _

theorem lt_iff_of_bundle (hb : 0 < bd) (hij : i / bd = j / bd) {x : Int}
    (hx : (bd : Int) ∣ x) : (i : Int) < x ↔ (j : Int) < x := by
  have hp : (0 : Int) < bd := natCast_pos.mpr hb
  obtain ⟨q, rfl⟩ := hx
  rw [Int.mul_comm, ← Int.ediv_lt_iff_lt_mul hp, ← Int.ediv_lt_iff_lt_mul hp]
  rw [← natCast_ediv, ← natCast_ediv, hij]

/-- Inside a bundle, the rows on one side of the frontier are all null or all live. -/
def Entry.WholeFrom (e : Entry) (bundle frontier : Nat) : Prop :=
  ∀ i j, i / bundle = j / bundle → (i < frontier ↔ j < frontier) → (e.row i = 0 ↔ e.row j = 0)

/-- The rows of the bundle at the frontier are all null or all live. -/
def Entry.WholeAt (e : Entry) (bundle frontier : Nat) : Prop :=
  ∀ i j, i / bundle = frontier / bundle → j / bundle = frontier / bundle →
    (e.row i = 0 ↔ e.row j = 0)

theorem Entry.WholeFrom.whole {e : Entry} {fr : Nat} (h : e.WholeFrom bd fr)
    (hat : e.WholeAt bd fr) (hij : i / bd = j / bd) : e.row i = 0 ↔ e.row j = 0 := by
  rcases lt_trichotomy (i / bd) (fr / bd) with hlt | heq | hgt
  · refine h i j hij ?_
    have hi := lt_of_div_lt_div hlt
    have hj := lt_of_div_lt_div (hij ▸ hlt)
    omega
  · exact hat i j heq (hij ▸ heq)
  · refine h i j hij ?_
    have hi := lt_of_div_lt_div hgt
    have hj := lt_of_div_lt_div (hij ▸ hgt)
    omega

section Whole

variable {m : Manager} {n : Nat} {e e' e₁ : Entry} {fr : Nat} {d : Config.Demand}
  {ps pools' : Pools} {pt ce : Int}

/-! ## 2. What is missing -/

theorem promptLast_le (hbu : 0 < bd) (hp : 0 ≤ pt) : m.promptLast bd pt ≤ m.promptEnd bd pt := by
  have hb : (0 : Int) < m.blockSize := natCast_pos.mpr m.blockSize_pos
  have hf : max (cdiv pt m.blockSize - 1) 0 ≤ pt / m.blockSize := by
    refine max_le ?_ (ediv_nonneg hp hb.le)
    have hlt : (cdiv pt m.blockSize - 1) * (m.blockSize : Int) < pt := by
      rw [← lt_cdiv_iff hb]
      omega
    exact (Int.le_ediv_iff_mul_le hb).mpr hlt.le
  refine Int.mul_le_mul_of_nonneg_right ?_ (natCast_nonneg _)
  exact Int.ediv_le_ediv (natCast_pos.mpr hbu) hf

theorem missing_of_whole (hb : 0 < bd) (hpr : d.compact = true → 0 ≤ pt)
    (hba : d.compact = true ∨ fallsBack pt d)
    (hw : ∀ i j, i / bd = j / bd → (e.row i = 0 ↔ e.row j = 0)) :
    bd ∣ (m.requiredRows bd e pt d).countP (fun i => e.row i = 0) := by
  have hp : ∀ i j, i / bd = j / bd → decide (e.row i = 0) = decide (e.row j = 0) :=
    fun i j hij => decide_eq_decide.mpr (hw i j hij)
  have he : (bd : Int) ∣ m.requiredEnd bd d.numTokens := dvd_mul_left _ _
  have hs : (bd : Int) ∣ m.scratchEnd bd := dvd_mul_left _ _
  rw [requiredRows_eq]
  split
  · have ha := dvd_countP_of_dvd hp (dvd_zero (bd : Int)) he
    rw [range_eq_range']
    exact ha
  · rename_i hno
    have hc : d.compact = true := by
      refine hba.resolve_right fun hfa => hno ?_
      simpa [fallsBack] using hfa
    have ht : (bd : Int) ∣ m.tailStart bd e pt d := by
      have hl := promptLast_le (m := m) hb (hpr hc)
      have hmin : min (max (m.promptEnd bd pt) (e.compactReleasedBlocks.getD 0))
          (m.promptLast bd pt) = m.promptLast bd pt :=
        min_eq_right (hl.trans (le_max_left _ _))
      unfold tailStart
      dsimp only
      rw [if_pos hc, hmin]
      rcases max_choice (m.scratchEnd bd) (m.promptLast bd pt) with hm | hm
      · rw [hm]
        exact hs
      · rw [hm]
        exact dvd_mul_left _ _
    have hf := dvd_countP_of_dvd hp (dvd_zero (bd : Int)) hs
    rw [countP_append, range_eq_range']
    exact dvd_add hf (dvd_countP_of_dvd hp ht (dvd_sub he ht))

theorem Shape.missing (h : Shape m bd e fr) (hb : 0 < bd)
    (hm : e.compactPrefixTokens = some pt) (hc : d.compact = false)
    (hf : ¬fallsBack pt d)
    (hs : fr ≤ m.scratchBlocks ∨ bd ∣ m.scratchBlocks) :
    bd ∣ (m.requiredRows bd e pt d).countP (fun i => e.row i = 0) := by
  have hco : ¬(!d.compact && decide (d.numTokensMainModel ≤ pt)) = true := by
    simpa [fallsBack, hc] using hf
  rw [requiredRows_eq, if_neg hco, countP_append]
  refine dvd_add ?_ (h.tail_missing hb hm hc)
  -- below the end of the scratch rows, the null rows are those past the table
  have hn : ∀ i ∈ List.range (m.scratchEnd bd).toNat,
      (decide (e.row i = 0) = true ↔ decide (e.blocks.length ≤ i) = true) := by
    intro i hi
    have hi' := mem_range.mp hi
    rw [decide_eq_true_iff, decide_eq_true_iff]
    refine ⟨fun h0 => ?_, row_eq_zero⟩
    by_contra hlt
    rcases h.rows i (by omega) h0 with ⟨hge, hlt'⟩ | ⟨P, -, hge, -⟩
    · rcases hs with hle | ⟨k, hk⟩
      · omega
      · have he : m.scratchEnd bd = m.scratchBlocks := by
          rw [scratchEnd, roundUp, hk, Nat.mul_comm, natCast_mul,
            cdiv_mul_self (natCast_pos.mpr hb)]
        omega
    · omega
  rw [countP_congr hn, range_eq_range', countP_range'_from, Nat.zero_add, Nat.zero_max]
  refine Nat.dvd_sub ?_ (h.aligned (hm ▸ rfl))
  rw [scratchEnd, roundUp, toNat_mul_natCast]
  exact dvd_mul_left _ _

/-- What a call of `_allocate_compact_request_blocks` for the entry `e` needs and does. -/
structure WholeCall (m : Manager) (bundle : Nat) (d : Config.Demand) (e : Entry)
    (prefixTokens : Int) : Prop where
  /-- the missing rows are whole bundles -/
  missing : bundle ∣ (m.requiredRows bundle e prefixTokens d).countP (fun i => e.row i = 0)
  /-- so it raises only what the pool raises, and not in its assertion -/
  raises : ∀ pools err, pools.Live → pools.blocksPerBundle m.group = bundle →
    Config.takeNew d m pools e = .error err → pools.getNewBlocks m.group
      ((m.requiredRows bundle e prefixTokens d).countP (fun i => e.row i = 0) : Nat) = .error err
  /-- and every required row is live after it -/
  live : ∀ pools ids e' pools', pools.Live → pools.blocksPerBundle m.group = bundle →
    Config.takeNew d m pools e = .ok (ids, e', pools') →
    ∀ i ∈ m.requiredRows bundle e prefixTokens d, e'.row i ≠ 0

theorem wholeCall_of_dvd (hm : m.isDsaLatent = true) (hma : e.compactPrefixTokens = some pt)
    (hd : bd ∣ (m.requiredRows bd e pt d).countP (fun i => e.row i = 0)) :
    WholeCall m bd d e pt := by
  refine ⟨hd, fun ps err hl hb ht => ?_, fun ps ids e' pools' hl hb ht => ?_⟩
  · rw [takeNew_marked hm hma] at ht
    subst hb
    have hmi : _ = (m.requiredRows (ps.blocksPerBundle m.group) e pt d).countP
      (fun i => e.row i = 0) := length_missing e.blocks _
    rw [← hmi] at hd ⊢
    unfold allocateCompactRequestBlocks at ht
    split at ht
    · rename_i hn
      rw [hma] at hn
      cases hn
    · rename_i pr' hs
      obtain rfl := some.inj (hma.symm.trans hs)
      dsimp only at ht
      split at ht
      · cases ht
      · rcases bind_eq_error.mp ht with he | ⟨⟨ids, pools₁⟩, hg, ht⟩
        · exact he
        · -- a whole number of bundles is what the pool gives
          have hlen := ((Pools.getNewBlocks_spec hg).2 hl).2
          have hw := roundUp_of_dvd (natCast_pos.mpr (ps.blocksPerBundle_pos m.group))
              (natCast_dvd_natCast.mpr hd)
          have ha := hlen.trans (congrArg Int.toNat hw)
          rcases bind_eq_error.mp ht with he | ⟨u, -, hr⟩
          · rw [ensure_pos (by exact ha)] at he
            cases he
          · cases hr
  · subst hb
    exact fun i hi => ((takeNew_compact hm hma hl ht).2.2.2 i).1 hi

/-! ## 3. What keeps bundles whole -/

theorem mem_requiredRows_congr (hb : 0 < bd) (hr : e.compactReleasedBlocks = some (fr : Int))
    {i j : Nat} (hij : i / bd = j / bd) (hsi : i < fr ↔ j < fr) :
    i ∈ m.requiredRows bd e pt d ↔ j ∈ m.requiredRows bd e pt d := by
  have he :=
    lt_iff_of_bundle hb hij (dvd_mul_left (bd : Int) (cdiv (cdiv d.numTokens m.blockSize) bd))
  have hs := lt_iff_of_bundle hb hij (dvd_mul_left (bd : Int) (cdiv m.scratchBlocks bd))
  have hp := lt_iff_of_bundle hb hij (dvd_mul_left (bd : Int) (pt / m.blockSize / bd))
  have hl :=
    lt_iff_of_bundle hb hij (dvd_mul_left (bd : Int) (max (cdiv pt m.blockSize - 1) 0 / bd))
  change (i : Int) < m.requiredEnd bd d.numTokens ↔ (j : Int) < m.requiredEnd bd d.numTokens at he
  change (i : Int) < m.scratchEnd bd ↔ (j : Int) < m.scratchEnd bd at hs
  change (i : Int) < m.promptEnd bd pt ↔ (j : Int) < m.promptEnd bd pt at hp
  change (i : Int) < m.promptLast bd pt ↔ (j : Int) < m.promptLast bd pt at hl
  have ht : m.tailStart bd e pt d ≤ i ↔ m.tailStart bd e pt d ≤ j := by
    unfold tailStart
    rw [hr, getD_some]
    dsimp only
    split <;> omega
  rw [mem_requiredRows hb, mem_requiredRows hb, he, hs, ht]

theorem Entry.WholeFrom.takeNew (h : e.WholeFrom bd fr) (hm : m.isDsaLatent = true)
    (hma : e.compactPrefixTokens = some pt)
    (hrel : e.compactReleasedBlocks = some (fr : Int)) (hl : ps.Live)
    (hb : ps.blocksPerBundle m.group = bd) {ids : List BlockId}
    (ht : Config.takeNew d m ps e = .ok (ids, e', pools')) : e'.WholeFrom bd fr := by
  have hp : 0 < bd := hb ▸ ps.blocksPerBundle_pos m.group
  obtain ⟨-, -, -, hr⟩ := takeNew_compact hm hma hl ht
  rw [hb] at hr
  intro i j hij hs
  have hreq : i ∈ m.requiredRows bd e pt d ↔ j ∈ m.requiredRows bd e pt d :=
    mem_requiredRows_congr hp hrel hij hs
  by_cases hi : i ∈ m.requiredRows bd e pt d
  · exact iff_of_false ((hr i).1 hi) ((hr j).1 (hreq.mp hi))
  · rw [(hr i).2 (.inl hi), (hr j).2 (.inl (mt hreq.mpr hi))]
    exact h i j hij hs

theorem removeSaved_marked (h : m.removeSavedDecodeWindowBlocks ps e ce = .ok (n, e', pools')) :
    e'.compactPrefixTokens = e.compactPrefixTokens := by
  have hs := removeSaved_latent h
  split at hs
  · rw [hs.1]
  · exact hs.2.2.2.1

theorem Entry.WholeFrom.release (h : e.WholeFrom bd fr) (hs : Shape m bd e fr)
    (hb : 0 < bd) (hup : fr ≤ m.releaseEnd e ce)
    (hst : m.releaseEnd e ce ≤ m.scratchBlocks ∨ bd ∣ m.scratchBlocks)
    (hc : m.removeSavedDecodeWindowBlocks ps e ce = .ok (n, e', pools')) :
    e'.WholeFrom bd (m.releaseEnd e ce) := by
  obtain ⟨-, -, hr⟩ := removeSaved_rows hc
  have he : m.releaseEnd e ce ≤ e.blocks.length := min_le_right _ _
  have hse : (m.scratchBlocks : Int) ≤ m.scratchEnd bd := scratchBlocks_le hb
  have hl : ∀ i < m.scratchBlocks, i < e.blocks.length → e.row i ≠ 0 := fun i hi hlen h0 => by
    rcases hs.rows i hlen h0 with ⟨hge, -⟩ | ⟨P, -, hge, -⟩ <;> omega
  have hn : ∀ i, e'.row i = 0 ↔ (m.scratchBlocks ≤ i ∧ i < m.releaseEnd e ce) ∨ e.row i = 0 :=
    fun i => by
    rw [hr]
    by_cases h0 : e.row i = 0
    · rw [h0, ite_self]
      simp
    · simp [mem_releasedRows, h0]
  intro i j hij hsi
  rw [hn, hn]
  by_cases hi : i < m.releaseEnd e ce
  · have hj := hsi.mp hi
    rcases hst with hle | hd
    · have h1 := hl i (by omega) (by omega)
      have h2 := hl j (by omega) (by omega)
      rw [or_iff_left h1, or_iff_left h2]
      omega
    · have hcut := lt_iff_of_bundle hb hij (natCast_dvd_natCast.mpr hd)
      by_cases hlow : i < m.scratchBlocks
      · have h1 := hl i hlow (by omega)
        have h2 := hl j (by omega) (by omega)
        rw [or_iff_left h1, or_iff_left h2]
        omega
      · exact iff_of_true (.inl (by omega)) (.inl (by omega))
  · have hold := h i j hij (by omega)
    rw [or_iff_right (by omega), or_iff_right (by omega)]
    exact hold

/-! ## 4. The entry that a call finds -/

/-- The entry on which a call makes its new rows: after the admission test, and after the first rows
    if there are any. -/
def FirstRows (d : Config.Demand) (m : Manager) (bundle : Nat) (e e₁ : Entry) : Prop :=
  e₁ = e.admitted d ∨ ∃ u pools₁ pools₁', pools₁.Live ∧ pools₁.blocksPerBundle m.group = bundle ∧
    Config.takeComputed d m pools₁ (e.admitted d) = .ok (u, e₁, pools₁')

theorem FirstRows.rows (hf : FirstRows d m bd e e₁) (hb : 0 < bd) (hm : m.isDsaLatent = true)
    (hh : ∀ b ∈ d.newComputedBlocks m.group, b ≠ 0) :
    e₁.compactPrefixTokens = (e.admitted d).compactPrefixTokens ∧
      e₁.compactReleasedBlocks = (e.admitted d).compactReleasedBlocks ∧
      (e₁.blocks = e.blocks ∨ e.blocks = [] ∧
        ∃ n : Int, (bd : Int) ∣ n ∧ ∀ i : Nat, e₁.row i = 0 ↔ n ≤ i) := by
  have hs : (e.admitted d).blocks = e.blocks := by
    unfold admitted
    split <;> rfl
  rcases hf with rfl | ⟨u, ps₁, ps₁', hl, rfl, hta⟩
  · exact ⟨rfl, rfl, .inl hs⟩
  rcases takeComputed_latent hm hl hh hta with rfl | ⟨he, hn⟩
  · exact ⟨rfl, rfl, .inl hs⟩
  rcases hn with ⟨hc, hd, heq⟩ | ⟨hc, s, hsc, hlen, heq⟩
  · have hw := takeComputed_whole hm hc hl he hta
    refine ⟨by rw [heq], by rw [heq], .inr ⟨hs ▸ he, e₁.blocks.length,
      natCast_dvd_natCast.mpr hw, fun i => ⟨fun h0 => ?_, fun hle => ?_⟩⟩⟩
    · by_contra hlt
      exact hd.row_ne_zero (by omega) h0
    · exact row_eq_zero (by omega)
  · have hma : (e.admitted d).compactPrefixTokens = some d.totalComputedTokens := by
      rw [admitted, if_pos hc]
      rfl
    have hr : e₁.compactReleasedBlocks = (e.admitted d).compactReleasedBlocks := by
      rw [heq, admitted, if_pos hc]
      rfl
    refine ⟨by rw [heq, hma]; rfl, hr, .inr ⟨hs ▸ he,
      m.scratchEnd (ps₁.blocksPerBundle m.group), dvd_mul_left _ _, fun i => ?_⟩⟩
    have ht : e₁.blocks = m.compactTable (ps₁.blocksPerBundle m.group) d.totalComputedTokens
        s := by rw [heq]
    refine ⟨fun h0 => ?_, fun hle => ?_⟩
    · rw [row, ht] at h0
      exact (compactTable_rows hb hsc hlen).2 i h0
    have ho : s.length ≤ i := by
      have hlen' : (s.length : Int) = m.scratchEnd (ps₁.blocksPerBundle m.group) := hlen
      omega
    show e₁.blocks.getD i 0 = 0
    rw [ht, compactTable, getD_append_right _ _ _ _ ho, getD_eq_getElem?_getD, getElem?_replicate]
    split <;> rfl

/-- The bundles of a compact table are whole, on each side of the frontier. -/
def BundlesOk (m : Manager) (bundle : Nat) (e : Entry) (frontier : Nat) : Prop :=
  e.compactPrefixTokens.isSome = true →
    (frontier ≤ m.scratchBlocks ∨ bundle ∣ m.scratchBlocks) ∧ e.WholeFrom bundle frontier

theorem BundlesOk.first (h : BundlesOk m bd e fr) (hsh : Shape m bd e fr)
    (hca : e.CompactCall d) (hf : FirstRows d m bd e e₁) (hb : 0 < bd)
    (hm : m.isDsaLatent = true) (hh : ∀ b ∈ d.newComputedBlocks m.group, b ≠ 0) :
    BundlesOk m bd e₁ fr := by
  intro hs
  obtain ⟨hp, -, hr⟩ := hf.rows hb hm hh
  rw [hp] at hs
  have hz : e.blocks = [] → fr = 0 := fun he => by
    have hle := hsh.frontier_le
    rw [he] at hle
    exact le_zero.mp hle
  rcases hr with hbl | ⟨he, n, hn, hnu⟩
  · have hrow : ∀ i, e₁.row i = e.row i := fun i => by rw [row, hbl, row]
    by_cases hma : e.compactPrefixTokens.isSome = true
    · refine ⟨(h hma).1, fun i j hij hsi => ?_⟩
      rw [hrow, hrow]
      exact (h hma).2 i j hij hsi
    · -- the call marks it, so the request has no rows
      have he : e.blocks = [] := by
        unfold admitted at hs
        split at hs
        · rename_i hc
          refine ((hca hc).2).resolve_right fun hp => hma ?_
          rw [hp]
          rfl
        · exact absurd hs hma
      have hnu : ∀ i, e₁.row i = 0 := fun i => by
        rw [hrow]
        exact row_eq_zero (by simp [he])
      exact ⟨.inl (hz he ▸ zero_le _), fun i j _ _ => iff_of_true (hnu i) (hnu j)⟩
  · refine ⟨.inl (hz he ▸ zero_le _), fun i j hij _ => ?_⟩
    have hcut := lt_iff_of_bundle hb hij hn
    rw [hnu, hnu]
    omega

end Whole

/-! ## 5. Runs -/

def Op.Ordered (r : RequestId) (log : ReleaseLog) : Op → Prop
  | removeSavedDecodeWindowBlocks r' committedEnd =>
    r' = r → ∀ reported ∈ log.reported, reported ≤ committedEnd
  | _ => True

/-- A release of a compact table ends before the scratch rows do, or these are whole bundles; and a
    compact call, or one that falls back, finds the bundle at the frontier null or live as a whole.
    -/
def Op.WholeBundles (c : Config) (m : Manager) (r : RequestId) (w : World) : Op → Prop
  | removeSavedDecodeWindowBlocks r' committedEnd =>
    r' = r → (w.latent m r).compactPrefixTokens.isSome = true →
    m.releaseEnd (w.latent m r) committedEnd ≤ m.scratchBlocks ∨
      w.state.pools.blocksPerBundle m.group ∣ m.scratchBlocks
  | allocateSlots r' a => r' = r →
    (a.compact = true ∨ ∃ prefixTokens, (w.latent m r).compactPrefixTokens = some prefixTokens ∧
      Manager.fallsBack prefixTokens (c.demand (w.requests r) a)) →
    (w.latent m r).WholeAt (w.state.pools.blocksPerBundle m.group)
      ((w.latent m r).compactReleasedBlocks.getD 0).toNat
  | _ => True

abbrev BundleRun (c : Config) (m : Manager) (r : RequestId) : World → ReleaseLog → Prop :=
  ReleaseRun c m r fun w log op => op.Ordered r log ∧ op.WholeBundles c m r w

def ReleaseLog.Reported (log : ReleaseLog) (m : Manager) : Prop :=
  log.frontier = 0 ∨ ∃ reported ∈ log.reported,
    log.frontier ≤ (reported / (m.blockSize : Int)).toNat

section Runs

variable {c : Config} {m : Manager} {r : RequestId} {w w' : World} {log : ReleaseLog} {e e' : Entry}
  {op : Op}

theorem ReleaseLog.Reported.step (h : log.Reported m) : (log.next m r e e' op).Reported m := by
  cases op with
  | removeSavedDecodeWindowBlocks r' co =>
    rw [ReleaseLog.next]
    split
    · rcases le_total (m.releaseEnd e co) log.frontier with hle | hle
      · rcases h with hz | ⟨reported, hm, hb⟩
        · exact .inl (show max log.frontier (m.releaseEnd e co) = 0 by omega)
        · refine .inr ⟨reported, mem_cons_of_mem _ hm, ?_⟩
          show max log.frontier (m.releaseEnd e co) ≤ _
          omega
      · refine .inr ⟨co, mem_cons_self, ?_⟩
        show max log.frontier (m.releaseEnd e co) ≤ _
        rw [max_eq_right hle]
        exact min_le_left _ _
    · exact h
  | allocateSlots r' a =>
    rw [ReleaseLog.next]
    split
    · exact h
    · exact h
  | free r' =>
    rw [ReleaseLog.next]
    split
    · exact .inl rfl
    · exact h
  | _ => exact h

theorem ReleaseLog.Reported.le_releaseEnd (h : log.Reported m) (hl : log.frontier ≤ e.blocks.length)
    {co : Int} (hup : ∀ reported ∈ log.reported, reported ≤ co) :
    log.frontier ≤ m.releaseEnd e co := by
  refine Nat.le_min.mpr ⟨?_, hl⟩
  rcases h with hz | ⟨reported, hm, hb⟩
  · omega
  · have hd := Int.ediv_le_ediv (natCast_pos.mpr m.blockSize_pos) (hup reported hm)
    omega

theorem BundlesOk.step (hm : m ∈ c.managers) (hl : m.isDsaLatent = true) (hli : w.state.pools.Live)
    (hb : w.state.pools.blocksPerBundle m.group = bd) (ha : op.Allowed c w)
    (hco : op.CompactAllowed c w) (ho : op.Ordered r log) (hw : op.WholeBundles c m r w)
    (hsh : Shape m bd (w.latent m r) log.frontier) (hr : log.Reported m)
    (h : BundlesOk m bd (w.latent m r) log.frontier) (hsp : LatentStep c m r w op e') :
    BundlesOk m bd e' (log.next m r (w.latent m r) e' op).frontier := by
  have hp : 0 < bd := hb ▸ w.state.pools.blocksPerBundle_pos m.group
  cases hsp with
  | other op nc hop =>
    rw [ReleaseLog.next_of_not_moves hop]
    exact h
  | refused a =>
    rw [ReleaseLog.next, if_pos rfl]
    have hh := Config.HitsFrom.live ha hli hm  (isFullAttention_of_latent hl)
    exact h.first hsh (hco.compactCall hm hl) (.inl rfl) hp hl hh
  | served a e₁ e₂ pools₁ pools₂ pools₂' new nc hv₁ hv₂ hbu₁ hbu₂ hfi hn =>
    rw [ReleaseLog.next, if_pos rfl]
    have hh := Config.HitsFrom.live ha hli hm  (isFullAttention_of_latent hl)
    have hc : (w.latent m r).CompactCall (c.demand (w.requests r) a) :=
      hco.compactCall hm hl
    have hro : FirstRows (c.demand (w.requests r) a) m bd (w.latent m r) e₁ := by
      rcases hfi with hfi | ⟨u, pools₁', ht⟩
      · exact .inl hfi
      · exact .inr ⟨u, pools₁, pools₁', hv₁, hbu₁.trans hb, ht⟩
    have hok := h.first hsh hc hro hp hl hh
    obtain ⟨hpre, hrel, -⟩ := hro.rows hp hl hh
    have hmr := (hsh.admitted hc).marks
    intro hs
    cases hma : e₁.compactPrefixTokens with
    | none =>
      -- then the call is not compact, and the request stays dense
      have hde : (c.demand (w.requests r) a).compact = false := by
        cases hd : (c.demand (w.requests r) a).compact with
        | false => rfl
        | true =>
          rw [hpre, admitted, if_pos hd] at hma
          cases hma
      obtain ⟨-, rfl, -⟩ := takeNew_dense hl hde hma hv₂ hn
      rw [show ({ e₁ with
        blocks := e₁.blocks ++ new, numCachedBlock := nc } : Entry).compactPrefixTokens = none
        from hma] at hs
      cases hs
    | some pt =>
      obtain ⟨hsc, hf⟩ := hok (hma ▸ rfl)
      have hrel' : e₁.compactReleasedBlocks = some (log.frontier : Int) := by
        rw [hrel, hmr, ← hpre, hma]
        rfl
      have hf' : e₂.WholeFrom bd log.frontier :=
        hf.takeNew hl hma hrel' hv₂ (hbu₂.trans hb) hn
      exact ⟨hsc, hf'⟩
  | released co n e' ps pools' hc =>
    rw [ReleaseLog.next, if_pos rfl]
    have hup : log.frontier ≤ m.releaseEnd (w.latent m r) co :=
      hr.le_releaseEnd hsh.frontier_le (ho rfl)
    intro hs
    rw [removeSaved_marked hc] at hs
    have hst := hw rfl hs
    rw [hb] at hst
    rw [max_eq_right hup]
    exact ⟨hst, (h hs).2.release hsh hp hup hst hc⟩
  | freed =>
    intro hs
    cases hs

theorem BundleRun.whole (hm : m ∈ c.managers) (hl : m.isDsaLatent = true)
    (h : BundleRun c m r w log) : log.Reported m ∧
      BundlesOk m (w.state.pools.blocksPerBundle m.group) (w.latent m r) log.frontier := by
  induction h with
  | start hi hs =>
    obtain ⟨ps, -, hst⟩ := hs
    rw [World.latent, hst]
    exact ⟨.inl rfl, fun hso => by cases hso⟩
  | @step w w' log op hr ha hc hok hrun ih =>
    have hli := hr.reachable.live
    have hsp : LatentStep c m r w op (w'.latent m r) :=
      Op.run_latent hm hl hr.reachable.ids hli hrun
    rw [(op.run_later hrun hli).2 m.group]
    exact ⟨ih.1.step, ih.2.step hm hl hli rfl ha hc hok.1 hok.2 (hr.invariant hm hl).1 ih.1 hsp⟩

theorem BundlesOk.whole {a : Config.SlotArgs} {e₁ : Entry} {pt : Int}
    (hb : w.state.pools.blocksPerBundle m.group = bd)
    (h : BundlesOk m bd (w.latent m r) log.frontier) (hsh : Shape m bd (w.latent m r) log.frontier)
    (hm : m.isDsaLatent = true) (hca : (w.latent m r).CompactCall (c.demand (w.requests r) a))
    (hh : ∀ b ∈ a.newComputedBlocks m.group, b ≠ 0)
    (hw : (Op.allocateSlots r a).WholeBundles c m r w)
    (hfi : FirstRows (c.demand (w.requests r) a) m bd (w.latent m r) e₁)
    (hma : e₁.compactPrefixTokens = some pt)
    (hba : a.compact = true ∨ fallsBack pt (c.demand (w.requests r) a)) {i j : Nat}
    (hij : i / bd = j / bd) : e₁.row i = 0 ↔ e₁.row j = 0 := by
  have hp : 0 < bd := hb ▸ w.state.pools.blocksPerBundle_pos m.group
  obtain ⟨hpre, -, hr⟩ := hfi.rows hp hm hh
  rcases hr with hbl | ⟨-, n, hn, hnu⟩
  · have hrow : ∀ i, e₁.row i = (w.latent m r).row i := fun i => by rw [row, hbl, row]
    have hk : a.compact = false → (w.latent m r).compactPrefixTokens = some pt := fun hno => by
      have hadm : (w.latent m r).admitted (c.demand (w.requests r) a) = w.latent m r :=
        if_neg (show ¬a.compact = true by rw [hno]; exact Bool.false_ne_true)
      rw [← hma, hpre, hadm]
    rw [hrow, hrow]
    by_cases hs : (w.latent m r).compactPrefixTokens.isSome = true
    · have hat := hw rfl (hba.imp_right fun hf => ⟨pt, hk hf.1, hf⟩)
      rw [hb, hsh.marks] at hat
      obtain ⟨P, hP⟩ := isSome_iff_exists.mp hs
      rw [hP, map_some, getD_some, toNat_natCast] at hat
      exact (h hs).2.whole hat hij
    · -- the call is compact and marks a request without rows
      have he : (w.latent m r).blocks = [] := by
        have hc : a.compact = true := by
          cases ha : a.compact with
          | true => rfl
          | false => exact absurd (hk ha ▸ rfl) hs
        refine ((hca hc).2).resolve_right fun hP => hs ?_
        rw [hP]
        rfl
      have hnu : ∀ i, (w.latent m r).row i = 0 := fun i => row_eq_zero (by simp [he])
      exact iff_of_true (hnu i) (hnu j)
  · have hcut := lt_iff_of_bundle hp hij hn
    rw [hnu, hnu]
    omega

/-- **In every run with ordered reports and whole bundles**, each call for a compact request finds
    whole bundles missing; so its assertion holds, and every required row is live after it. -/
theorem missing_whole (hm : m ∈ c.managers) (hlatent : m.isDsaLatent = true)
    (h : BundleRun c m r w log)
    {a : Config.SlotArgs} (hallowed : (Op.allocateSlots r a).Allowed c w)
    (hcompact : (Op.allocateSlots r a).CompactAllowed c w)
    (hwhole : (Op.allocateSlots r a).WholeBundles c m r w) {e₁ : Entry}
    (hfirst : FirstRows (c.demand (w.requests r) a) m (w.state.pools.blocksPerBundle m.group)
      (w.latent m r) e₁) {prefixTokens : Int} (hmark : e₁.compactPrefixTokens = some prefixTokens) :
    WholeCall m (w.state.pools.blocksPerBundle m.group) (c.demand (w.requests r) a)
      e₁ prefixTokens := by
  have hp := w.state.pools.blocksPerBundle_pos m.group
  obtain ⟨hs, -⟩ := ReleaseRun.invariant hm hlatent h
  obtain ⟨-, hok⟩ := BundleRun.whole hm hlatent h
  have hh := Config.HitsFrom.live hallowed h.reachable.live hm (isFullAttention_of_latent hlatent)
  have hc : (w.latent m r).CompactCall (c.demand (w.requests r) a) :=
    hcompact.compactCall hm hlatent
  refine wholeCall_of_dvd hlatent hmark ?_
  by_cases hb : a.compact = true ∨ fallsBack prefixTokens (c.demand (w.requests r) a)
  · refine missing_of_whole hp (fun hy => ?_) hb fun i j hij =>
      hok.whole rfl hs hlatent hc hh hwhole hfirst hmark hb hij
    -- a compact call marks the request with its computed tokens
    rw [(hfirst.rows hp hlatent hh).1, admitted, if_pos hy] at hmark
    obtain rfl := some.inj hmark
    simp only [Config.demand, Config.Demand.totalComputedTokens]
    omega
  · obtain ⟨hno, hf⟩ := not_or.mp hb
    have hd : (c.demand (w.requests r) a).compact = false := Bool.eq_false_of_not_eq_true hno
    have ha : (w.latent m r).admitted (c.demand (w.requests r) a) = w.latent m r :=
      if_neg (by rw [hd]; exact Bool.false_ne_true)
    have hsc := (hok.first hs hc hfirst hp hlatent hh (hmark ▸ rfl)).1
    have hshape₁ : Shape m (w.state.pools.blocksPerBundle m.group) e₁ log.frontier := by
      rcases hfirst with rfl | ⟨u, ps₁, ps₁', hl₁, hn₁, ht⟩
      · rw [ha]
        exact hs
      · rw [ha] at ht
        exact (hs.takeComputed hlatent hl₁ hn₁ hd hh ht).1
    exact hshape₁.missing hp hmark hd hf hsc

end Runs

/-! ## 6. Bundles of two blocks -/

variable (scratchBlocks : Nat)

def scratchManager : Manager :=
  ⟨0, .dsaLatent scratchBlocks, 2, 0, 1, false, Nat.two_pos, Nat.one_pos⟩

def scratchConfig : Config where
  managers := [scratchManager scratchBlocks]
  maxModelLen := 64
  enableCaching := false
  useEagle := false
  hashBlockSize := 2
  hashBlockSize_pos := Nat.two_pos
  managers_group := rfl
  managers_caching := by simp [scratchManager]
  hash_dvd := by simp
  unitary := by simp
  hybrid := by simp

def ascending : Dsa.SetOrder where
  list s := (List.range (s.sup id + 1)).filter (· ∈ s)
  nodup s := List.nodup_range.filter _
  mem_iff s b := by
    have hle : b ∈ s → b ≤ s.sup id := fun hb => Finset.le_sup (f := id) hb
    simp only [List.mem_filter, List.mem_range, decide_eq_true_eq]
    exact ⟨fun h => h.2, fun hb => ⟨by have := hle hb; omega, hb⟩⟩

def bundleWorld : World :=
  ⟨State.init (.shared (fun _ => .latent) ascending (.init Dsa.testLayout)), latentRequests⟩

def loadFour : Op := .allocateSlots 0 compactLoad

def fourLoaded : Op := computed 4

/-- Request 0 after the load, after a fifth token, and after the save of the first four. -/
def loaded : World :=
  fourLoaded.next (scratchConfig scratchBlocks)
    (loadFour.next (scratchConfig scratchBlocks) bundleWorld)

def grown : World :=
  (prefill 0 1).next (scratchConfig scratchBlocks) (loaded scratchBlocks)

def saved : World :=
  (Op.removeSavedDecodeWindowBlocks 0 4).next (scratchConfig scratchBlocks) (grown scratchBlocks)

/-- With two scratch rows the save frees nothing, and the next growth finds whole bundles. -/
theorem saved_missing_whole : (saved 2).state.table (0, 0) = [2, 3, 4, 5] ∧
    WholeCall (scratchManager 2) 2 ((scratchConfig 2).demand ((saved 2).requests 0)
      ⟨2, 0, fun _ => [], 0, 0, false, 0, false⟩) ((saved 2).latent (scratchManager 2) 0) 4 := by
  have hs : BundleRun (scratchConfig 2) (scratchManager 2) 0 bundleWorld {} :=
    .start (fun _ => rfl) ⟨_, .shared _ ascending Dsa.testLayout, rfl⟩
  have hl := hs.step loadFour (.inl rfl) (fun _ => ⟨by decide, fun m hm _ => .inl rfl⟩)
    ⟨trivial, fun _ _ i j _ _ => Iff.rfl⟩ (Op.run_eq_next rfl)
  have hd := hl.step fourLoaded ⟨rfl, .inl ⟨[], rfl⟩⟩ trivial ⟨trivial, trivial⟩
      (Op.run_eq_next rfl)
  -- neither growth reaches back: it computes tokens past the loaded ones
  have ha : ∀ (w : World) (a : Config.SlotArgs), a.compact = false →
      (w.latent (scratchManager 2) 0).compactPrefixTokens = some 4 →
      4 < ((scratchConfig 2).demand (w.requests 0) a).numTokensMainModel →
      (Op.allocateSlots 0 a).WholeBundles (scratchConfig 2) (scratchManager 2) 0 w := by
    intro w a hno hp hlt _ hb
    refine hb.elim (fun hy => by rw [hno] at hy; cases hy) fun ⟨P, hP, hf⟩ => ?_
    obtain rfl := some.inj (hp.symm.trans hP)
    exact absurd hf.2 (not_le.mpr hlt)
  have hg := hd.step (prefill 0 1) (.inl rfl) (fun h => by cases h)
    ⟨trivial, ha (loaded 2) _ rfl rfl (by decide)⟩ (Op.run_eq_next rfl)
  have hsa := hg.step (.removeSavedDecodeWindowBlocks 0 4) trivial trivial
    ⟨fun _ => forall_mem_nil _, fun _ _ => .inr (by decide)⟩ (Op.run_eq_next rfl)
  exact ⟨rfl, missing_whole mem_cons_self rfl hsa (.inl rfl) (fun h => by cases h)
    (ha (saved 2) _ rfl rfl (by decide)) (.inl rfl) rfl⟩

/-- **A release that starts inside a bundle**: with one scratch row, the second row of a bundle is
    freed, and the next growth finds one row missing where blocks come in twos. -/
theorem halfReleased_raises : ∃ log,
    ReleaseRun (scratchConfig 1) (scratchManager 1) 0 (fun _ log op => op.Ordered 0 log)
      (saved 1) log ∧
    (saved 1).state.table (0, 0) = [2, 0, 4, 5] ∧
    (prefill 0 2).Allowed (scratchConfig 1) (saved 1) ∧
    (prefill 0 2).CompactAllowed (scratchConfig 1) (saved 1) ∧
    (prefill 0 2).run (scratchConfig 1) (saved 1)
      = .error (.assertion "len(new_blocks) == len(missing_indices)") := by
  have hs : ReleaseRun (scratchConfig 1) (scratchManager 1) 0 (fun _ log op => op.Ordered 0 log)
      bundleWorld {} := .start (fun _ => rfl) ⟨_, .shared _ ascending Dsa.testLayout, rfl⟩
  have hl := hs.step loadFour (.inl rfl) (fun _ => ⟨by decide, fun m hm _ => .inl rfl⟩)
      trivial (Op.run_eq_next rfl)
  have hd := hl.step fourLoaded ⟨rfl, .inl ⟨[], rfl⟩⟩ trivial trivial (Op.run_eq_next rfl)
  have hg := hd.step (prefill 0 1) (.inl rfl) (fun h => by cases h) trivial (Op.run_eq_next rfl)
  have hsa := hg.step (.removeSavedDecodeWindowBlocks 0 4) trivial trivial
    (fun _ => forall_mem_nil _) (Op.run_eq_next rfl)
  exact ⟨_, hsa, rfl, .inl rfl, (fun h => by cases h), rfl⟩

end VllmDual.Core
