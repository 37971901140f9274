/-
  Subject:   THE RELEASE OF SAVED DECODE WINDOWS IS SOUND.

  A connector reports how far the decoded tokens of a request are saved, and
  `remove_saved_decode_window_blocks` frees the latent rows below that. Over whole runs, with the
  reports in any order, this follows what was reported and freed beside the state:

  * `release_sound` -- every release of every run is sound;
  * `bootstrap_retakes` -- a compact call for a loaded request takes the last bundle again.
-/
import VllmDual.Core.CompactShape
import VllmDual.Core.Refusal

namespace VllmDual.Core

open Outcome Ceil List Manager

/-! ## 1. What is released -/

/-- The live rows that a release covers, in the order in which they are freed. -/
def Manager.releasedRows (m : Manager) (e : Entry) (committedEnd : Int) : List Nat :=
  (range' m.scratchBlocks (m.releaseEnd e committedEnd - m.scratchBlocks)).reverse.filter
    (fun i => e.row i ≠ 0)

structure ReleaseLog where
  /-- every `committed_end` so far -/
  reported : List Int := []
  /-- the largest end of a release -/
  frontier : Nat := 0
  /-- the rows that were freed and hold no new block since -/
  freed : List Nat := []

/-- The log after a step that takes the entry of the request from `e` to `e'`. -/
def ReleaseLog.next (log : ReleaseLog) (m : Manager) (r : RequestId) (e e' : Entry) :
    Op → ReleaseLog
  | .removeSavedDecodeWindowBlocks r' committedEnd =>
    if r' = r then
      { reported := committedEnd :: log.reported
        frontier := max log.frontier (m.releaseEnd e committedEnd)
        freed := m.releasedRows e committedEnd ++ log.freed }
    else log
  | .allocateSlots r' _ =>
    if r' = r then { log with freed := log.freed.filter fun i => e'.row i = 0 } else log
  | .free r' => if r' = r then {} else log
  | _ => log

/-- What the scheduler keeps: a compact call is for a request without rows, or for one that was
    loaded with just these tokens, and they are within the model length. -/
def Op.CompactAllowed (c : Config) (w : World) : Op → Prop
  | allocateSlots r a => a.compact = true →
    (c.demand (w.requests r) a).totalComputedTokens ≤ c.maxModelLen ∧
      ∀ m ∈ c.managers, m.isDsaLatent = true → (w.latent m r).blocks = [] ∨
        (w.latent m r).compactPrefixTokens = some (c.demand (w.requests r) a).totalComputedTokens
  | _ => True

/-- The runs in any pool mode whose steps all meet `ok`, with the log of one request. -/
inductive ReleaseRun (c : Config) (m : Manager) (r : RequestId)
    (ok : World → ReleaseLog → Op → Prop) : World → ReleaseLog → Prop
  | start {w : World} : (∀ r, (w.requests r).requestId = r) → (∃ pools, Pools.Start c pools ∧
      w.state = State.init pools) → ReleaseRun c m r ok w {}
  | step {w w' : World} {log : ReleaseLog} (op : Op) : ReleaseRun c m r ok w log → op.Allowed c w →
      op.CompactAllowed c w → ok w log op → op.run c w = .ok w' →
      ReleaseRun c m r ok w' (log.next m r (w.latent m r) (w'.latent m r) op)

/-- What a release of the entry `e` may do. -/
structure ReleaseSound (m : Manager) (log : ReleaseLog) (committedEnd : Int) (e e' : Entry)
    (pools pools' : Pools) : Prop where
  /-- the table is never shortened -/
  length : e'.blocks.length = e.blocks.length
  /-- the freed blocks are those of live rows, no row twice and none that was freed before; each is
      past the scratch rows and below a report; the other rows stay -/
  freed : ∃ rows : List Nat, rows.Nodup ∧ pools.freeBlocks m.group (rows.map e.row) = .ok pools' ∧
    (∀ i ∈ rows, e.row i ≠ 0 ∧ i ∉ log.freed ∧ m.scratchBlocks ≤ i ∧
      ∃ reported ∈ committedEnd :: log.reported, ((i + 1 : Nat) : Int) * m.blockSize ≤ reported) ∧
    ∀ i, e'.row i = if i ∈ rows then 0 else e.row i
  /-- the scratch rows and those from the largest frontier on are kept -/
  kept : ∀ i, i < m.scratchBlocks ∨ max log.frontier (m.releaseEnd e committedEnd) ≤ i →
    e'.row i = e.row i

structure ReleaseState (c : Config) (m : Manager) (r : RequestId) (w : World) (log : ReleaseLog) :
    Prop where
  /-- no row is freed a second time while it holds no new block -/
  nodup : log.freed.Nodup
  covered : ∀ i ∈ log.freed, m.scratchBlocks ≤ i ∧
    ∃ reported ∈ log.reported, ((i + 1 : Nat) : Int) * m.blockSize ≤ reported
  /-- the scratch rows are live, and for a dense request those from the frontier on -/
  live : ∀ i < (w.latent m r).blocks.length, (w.latent m r).row i = 0 →
    m.scratchBlocks ≤ i ∧ (i < log.frontier ∨ (w.latent m r).compactPrefixTokens.isSome = true)
  release : ∀ committedEnd n e' pools pools',
    m.removeSavedDecodeWindowBlocks pools (w.latent m r) committedEnd = .ok (n, e', pools') →
    ReleaseSound m log committedEnd (w.latent m r) e' pools pools'
  /-- an allocation that is not compact and does not fall back takes no row below the frontier -/
  grow : ∀ a w', (Op.allocateSlots r a).Allowed c w → (Op.allocateSlots r a).run c w = .ok w' →
    a.compact = false → (∀ prefixTokens, (w.latent m r).compactPrefixTokens = some prefixTokens →
      ¬Manager.fallsBack prefixTokens (c.demand (w.requests r) a)) →
    ∀ i < log.frontier, (w.latent m r).row i = 0 → (w'.latent m r).row i = 0

section Release

variable {c : Config} {m : Manager} {r : RequestId} {w w' : World} {log : ReleaseLog} {e e' : Entry}
  {ps ps' : Pools} {ce : Int} {n i : Nat} {ok : World → ReleaseLog → Op → Prop} {op : Op}

theorem mem_releasedRows :
    i ∈ m.releasedRows e ce ↔ (m.scratchBlocks ≤ i ∧ i < m.releaseEnd e ce) ∧ e.row i ≠ 0 := by
  unfold releasedRows
  rw [mem_filter, mem_reverse, mem_range'_1, decide_eq_true_iff]
  refine and_congr_left fun _ => ?_
  omega

theorem releasedRows_nodup : (m.releasedRows e ce).Nodup :=
  (nodup_reverse.mpr nodup_range').filter _

theorem releasedRows_map : (m.releasedRows e ce).map e.row
    = ((e.blocks.take (m.releaseEnd e ce)).drop m.scratchBlocks).reverse.filter (· ≠ 0) := by
  have he : m.releaseEnd e ce ≤ e.blocks.length := Nat.min_le_right _ _
  have hr : (range' m.scratchBlocks (m.releaseEnd e ce - m.scratchBlocks)).map e.row
      = (e.blocks.take (m.releaseEnd e ce)).drop m.scratchBlocks := by
    refine ext_getElem ?_ fun i hi hi' => ?_
    · rw [length_map, length_range', length_drop, length_take]
      omega
    · rw [length_map, length_range'] at hi
      rw [getElem_map, getElem_range', getElem_drop, getElem_take, Entry.row,
        getD_eq_getElem _ _ (by omega)]
      simp
  rw [← hr, ← map_reverse, filter_map]
  rfl

theorem releaseEnd_mul_le (hi : i < m.releaseEnd e ce) :
    ((i + 1 : Nat) : Int) * m.blockSize ≤ ce := by
  have hb : (0 : Int) < m.blockSize := Int.natCast_pos.mpr m.blockSize_pos
  have hlt : i < (ce / (m.blockSize : Int)).toNat := hi.trans_le (Nat.min_le_left _ _)
  have hle : ((i + 1 : Nat) : Int) ≤ ce / (m.blockSize : Int) := by omega
  exact (Int.mul_le_mul_of_nonneg_right hle hb.le).trans (Int.ediv_mul_le _ hb.ne')

theorem removeSaved_rows (h : m.removeSavedDecodeWindowBlocks ps e ce = .ok (n, e', ps')) :
    e'.blocks.length = e.blocks.length ∧ ps.freeBlocks m.group ((m.releasedRows e ce).map e.row)
      = .ok ps' ∧ ∀ i, e'.row i = if i ∈ m.releasedRows e ce then 0 else e.row i := by
  have hs := removeSaved_latent h
  have hn : ∀ i, (if m.scratchBlocks ≤ i ∧ i < m.releaseEnd e ce then 0 else e.row i)
      = if i ∈ m.releasedRows e ce then 0 else e.row i := by
    intro i
    by_cases h0 : e.row i = 0
    · rw [h0, ite_self, ite_self]
    · rw [if_congr (mem_releasedRows.trans (and_iff_left h0)) rfl rfl]
  split at hs
  · rename_i hsk
    obtain ⟨rfl, rfl⟩ := hs
    have hno : m.releasedRows e' ce = [] := by
      rw [releasedRows, releaseEnd_eq_zero hsk]
      simp
    rw [hno]
    exact ⟨rfl, freeBlocks_nil, fun i => by simp⟩
  · obtain ⟨-, hl, hr, -, -, -, hf⟩ := hs
    rw [releasedRows_map]
    exact ⟨hl, hf, fun i => (hr i).trans (hn i)⟩

/-! ## 2. One step -/

/-- What the log says about the table. -/
structure LogOk (m : Manager) (log : ReleaseLog) (e : Entry) : Prop where
  nodup : log.freed.Nodup
  null : ∀ i ∈ log.freed, e.row i = 0
  covered : ∀ i ∈ log.freed, m.scratchBlocks ≤ i ∧
    ∃ reported ∈ log.reported, ((i + 1 : Nat) : Int) * m.blockSize ≤ reported

theorem Op.CompactAllowed.compactCall {a : Config.SlotArgs} (hm : m ∈ c.managers)
    (hl : m.isDsaLatent = true) (h : (Op.allocateSlots r a).CompactAllowed c w) :
    (w.latent m r).CompactCall (c.demand (w.requests r) a) := by
  intro hc
  obtain ⟨hlen, hr⟩ := h hc
  refine ⟨?_, hr m hm hl⟩
  simp only [Config.demand, Config.Demand.totalComputedTokens,
    Config.SlotArgs.totalComputedTokens] at hlen ⊢
  omega

theorem ReleaseLog.next_of_not_moves (h : ¬op.moves r) : log.next m r e e' op = log := by
  cases op with
  | allocateSlots r' a => exact if_neg h
  | removeSavedDecodeWindowBlocks r' n => exact if_neg h
  | free r' => exact if_neg h
  | _ => rfl

theorem Shape.step {bd : Nat} (hm : m ∈ c.managers) (hl : m.isDsaLatent = true)
    (hli : w.state.pools.Live) (hb : w.state.pools.blocksPerBundle m.group = bd)
    (ha : op.Allowed c w) (hc : op.CompactAllowed c w)
    (h : Shape m bd (w.latent m r) log.frontier) (hs : LatentStep c m r w op e') :
    Shape m bd e' (log.next m r (w.latent m r) e' op).frontier := by
  cases hs with
  | other op nc hop =>
    rw [ReleaseLog.next_of_not_moves hop]
    exact h.cached nc
  | refused a =>
    rw [ReleaseLog.next, if_pos rfl]
    exact h.admitted (hc.compactCall hm hl)
  | served a e₁ e₂ p₁ p₂ p₂' new nc hv₁ hv₂ hd₁ hd₂ hf hn =>
    rw [ReleaseLog.next, if_pos rfl]
    have hfu := isFullAttention_of_latent hl
    exact (h.served hl hv₂ (hd₂.trans hb) (hc.compactCall hm hl)
      (ha.live hli hm hfu) hv₁ (hd₁.trans hb) hf hn).1.cached nc
  | released ce n e' ps ps' hca =>
    rw [ReleaseLog.next, if_pos rfl]
    exact h.release hca
  | freed =>
    rw [ReleaseLog.next, if_pos rfl]
    exact Shape.empty m bd

theorem LogOk.step (h : LogOk m log (w.latent m r)) (hs : LatentStep c m r w op e') :
    LogOk m (log.next m r (w.latent m r) e' op) e' := by
  -- an allocation keeps what is still null
  have ht : ∀ e' : Entry, LogOk m { log with freed := log.freed.filter fun i => e'.row i = 0 } e' :=
    fun e' => ⟨h.nodup.filter _, fun i hi => of_decide_eq_true (mem_filter.mp hi).2,
      fun i hi => h.covered i (mem_of_mem_filter hi)⟩
  cases hs with
  | other op nc hop =>
    rw [ReleaseLog.next_of_not_moves hop]
    exact ⟨h.nodup, h.null, h.covered⟩
  | refused a =>
    rw [ReleaseLog.next, if_pos rfl]
    exact ht _
  | served a e₁ e₂ p₁ p₂ p₂' new nc =>
    rw [ReleaseLog.next, if_pos rfl]
    exact ht _
  | released ce n e' ps ps' hc =>
    rw [ReleaseLog.next, if_pos rfl]
    obtain ⟨-, -, hr⟩ := removeSaved_rows hc
    refine ⟨releasedRows_nodup.append h.nodup fun i hi hi' => ?_, fun i hi => ?_, fun i hi => ?_⟩
    · exact (mem_releasedRows.mp hi).2 (h.null i hi')
    · rw [hr]
      split
      · rfl
      · rename_i hn
        exact h.null i ((mem_append.mp hi).resolve_left hn)
    · rcases mem_append.mp hi with hi | hi
      · obtain ⟨⟨hge, hlt⟩, -⟩ := mem_releasedRows.mp hi
        exact ⟨hge, ce, mem_cons_self, releaseEnd_mul_le hlt⟩
      · obtain ⟨hge, reported, hm, hle⟩ := h.covered i hi
        exact ⟨hge, reported, mem_cons_of_mem _ hm, hle⟩
  | freed =>
    rw [ReleaseLog.next, if_pos rfl]
    exact ⟨nodup_nil, forall_mem_nil _, forall_mem_nil _⟩

/-! ## 3. Runs -/

theorem ReleaseRun.reachable (h : ReleaseRun c m r ok w log) :
    ModeReachable c (fun w op => op.CompactAllowed c w) w := by
  induction h with
  | start hi hs => exact .start hi hs
  | step op _ ha hc _ hr ih => exact ih.step op ha hc hr

theorem ReleaseRun.invariant (hm : m ∈ c.managers) (hl : m.isDsaLatent = true)
    (h : ReleaseRun c m r ok w log) :
    Shape m (w.state.pools.blocksPerBundle m.group) (w.latent m r) log.frontier ∧
      LogOk m log (w.latent m r) := by
  induction h with
  | start hi hst =>
    obtain ⟨ps, -, hsa⟩ := hst
    rw [World.latent, hsa]
    exact ⟨Shape.empty m _, nodup_nil, forall_mem_nil _, forall_mem_nil _⟩
  | @step w w' log op hr ha hc _ hrun ih =>
    have hli := hr.reachable.live
    have hs : LatentStep c m r w op (w'.latent m r) :=
      Op.run_latent hm hl hr.reachable.ids hli hrun
    rw [(op.run_later hrun hli).2 m.group]
    exact ⟨ih.1.step hm hl hli rfl ha hc hs, ih.2.step hs⟩

/-- **The release is sound** in every state of every run: no row is freed twice, only rows past the
    scratch rows and below a report are, and growth takes no row below the frontier again. -/
theorem release_sound (hm : m ∈ c.managers) (hlatent : m.isDsaLatent = true)
    (h : ReleaseRun c m r ok w log) : ReleaseState c m r w log := by
  obtain ⟨hs, hlog⟩ := h.invariant hm hlatent
  have hl := h.reachable.live
  refine ⟨hlog.nodup, hlog.covered, fun i hi h0 => ?_, fun ce n e' ps ps' hca => ?_,
    fun a w' ha hrun hc hfa i hi h0 => ?_⟩
  · have hsc : (m.scratchBlocks : Int) ≤ m.scratchEnd (w.state.pools.blocksPerBundle m.group) :=
      scratchBlocks_le (w.state.pools.blocksPerBundle_pos m.group)
    rcases hs.rows i hi h0 with ⟨hge, hlt⟩ | ⟨P, hP, hge, -⟩
    · exact ⟨hge, .inl hlt⟩
    · exact ⟨by omega, .inr (hP ▸ rfl)⟩
  · obtain ⟨hlen, hfr, hr⟩ := removeSaved_rows hca
    refine ⟨hlen, ⟨_, releasedRows_nodup, hfr, fun i hi => ?_, hr⟩, fun i hi => ?_⟩
    · obtain ⟨⟨hge, hlt⟩, hne⟩ := mem_releasedRows.mp hi
      exact ⟨hne, fun hmem => hne (hlog.null i hmem), hge, ce, mem_cons_self, releaseEnd_mul_le hlt⟩
    · rw [hr, if_neg fun hmem => ?_]
      obtain ⟨⟨hge, hlt⟩, -⟩ := mem_releasedRows.mp hmem
      omega
  · have hca : (w.latent m r).CompactCall (c.demand (w.requests r) a) := fun hco => by
      have hf : (c.demand (w.requests r) a).compact = false := hc
      rw [hf] at hco
      cases hco
    have hfu := isFullAttention_of_latent hlatent
    have hst : LatentStep c m r w (.allocateSlots r a) (w'.latent m r) :=
      Op.run_latent hm hlatent h.reachable.ids hl hrun
    generalize w'.latent m r = e' at hst ⊢
    cases hst with
    | other op nc hop => exact h0
    | refused a =>
      rw [Entry.admitted, if_neg (by simpa [Config.demand] using hc)]
      exact h0
    | served a e₁ e₂ p₁ p₂ p₂' new nc hv₁ hv₂ hb₁ hb₂ hfi hn =>
      exact (hs.served hlatent hv₂ hb₂ hca (ha.live hl hm hfu) hv₁ hb₁ hfi hn).2 hc hfa i hi h0

end Release

/-! ## 4. A release, and a compact call that takes a row again -/

/-- The latent group of `latentConfig`. -/
def latentManager : Manager := ⟨0, .dsaLatent 1, 2, 0, 1, false, Nat.two_pos, Nat.one_pos⟩

def savedFour : World :=
  (Op.removeSavedDecodeWindowBlocks 0 4).next latentConfig
    ((prefill 0 6).next latentConfig (latentWorld 8))

/-- Of the two rows below the report, the one after the scratch row is freed. -/
theorem savedFour_release_sound : savedFour.state.table (0, 0) = [1, 0, 3] ∧
    ReleaseState latentConfig latentManager 0 savedFour ⟨[4], 2, [1]⟩ := by
  have hs : ReleaseRun latentConfig latentManager 0 (fun _ _ _ => True) (latentWorld 8) {} :=
    .start (fun _ => rfl) ⟨_, .one 8 0, rfl⟩
  have hp := hs.step (prefill 0 6) (.inl rfl) (fun h => by cases h) trivial (Op.run_eq_next rfl)
  have hsa := hp.step (.removeSavedDecodeWindowBlocks 0 4)
      trivial trivial trivial (Op.run_eq_next rfl)
  exact ⟨rfl, release_sound mem_cons_self rfl hsa⟩

def loadPrompt : Op := .allocateSlots 0 ⟨0, 0, fun _ => [], 0, 6, true, 0, true⟩

def loadDone : Op := computed 6

def bootstrapSample : Op := .allocateSlots 0 ⟨1, 0, fun _ => [], 0, 0, false, 0, true⟩

def loadedSaved : World :=
  (Op.removeSavedDecodeWindowBlocks 0 6).next latentConfig
    (loadDone.next latentConfig (loadPrompt.next latentConfig (latentWorld 8)))

/-- **A compact call takes a released row again**: the bootstrap sample of a loaded request takes
    the last row of the prompt, which is below the frontier, and it is no fall back to prefill. -/
theorem bootstrap_retakes :
    ∃ log, ReleaseRun latentConfig latentManager 0 (fun _ _ _ => True) loadedSaved log ∧
    bootstrapSample.CompactAllowed latentConfig loadedSaved ∧
    2 < log.frontier ∧ (loadedSaved.latent latentManager 0).row 2 = 0 ∧
    ((bootstrapSample.next latentConfig loadedSaved).latent latentManager 0).row 2 ≠ 0 := by
  have hs : ReleaseRun latentConfig latentManager 0 (fun _ _ _ => True) (latentWorld 8) {} :=
    .start (fun _ => rfl) ⟨_, .one 8 0, rfl⟩
  have hl := hs.step loadPrompt (.inl rfl) (fun _ => ⟨by decide, fun m hm _ => .inl rfl⟩)
      trivial (Op.run_eq_next rfl)
  have hd := hl.step loadDone ⟨rfl, .inl ⟨[], rfl⟩⟩ trivial trivial (Op.run_eq_next rfl)
  have hsa := hd.step (.removeSavedDecodeWindowBlocks 0 6)
      trivial trivial trivial (Op.run_eq_next rfl)
  refine ⟨_, hsa, fun _ => ⟨by decide, fun m hm _ => .inr ?_⟩, by decide, by decide, by decide⟩
  obtain rfl := mem_singleton.mp hm
  decide

end VllmDual.Core
