/-
  Subject:   SLIDING-WINDOW HITS ARE VALID AND LONGEST (`SlidingWindowManager`,
             `vllm/v1/core/single_type_kv_cache_manager.py`).

  A query attends to the last tokens up to its own, so of a hit only the blocks that a query right
  behind it attends to have to be cached. The scan counts blocks; here that is said of positions:

  * `sliding_window_hits` -- the lookup finds the longest such hit.
-/
import VllmDual.Core.HybridHits

namespace VllmDual.Core

open HitQuery List Ceil Manager

/-- A query at a position attends to position `p`. -/
def Attends (window query p : Nat) : Prop := p ≤ query ∧ query < p + window

namespace HitQuery

/-- A hit of `n` blocks needs block `j`: its last one, and those with a token that a query at its
    end attends to; with EAGLE, a query at the start of the last block. -/
def Needs (q : HitQuery) (m : Manager) (window n j : Nat) : Prop :=
  j + 1 = n ∨ ∃ p, p / m.specBlockSize = j ∧ p < n * m.specBlockSize ∧
    n * m.specBlockSize < p + window + if q.useEagle then m.specBlockSize else 0

/-- Rows for an aligned length within the bound: what it needs is cached, what it does not need is
    null, and every longer such length misses a block that it needs. -/
structure WindowHit (q : HitQuery) (m : Manager) (groups : List Nat)
    (window alignmentTokens maxLength : Nat) (rows : List Row) : Prop where
  bound : rows.length * m.specBlockSize ≤ maxLength
  aligned : alignmentTokens ∣ rows.length * m.specBlockSize
  present : ∀ j row, rows[j]? = some row → Needs q m window rows.length j →
    q.cachedAt m groups j = some row
  null : ∀ j row, rows[j]? = some row → ¬ Needs q m window rows.length j →
    row = replicate groups.length 0
  longest : ∀ n, n * m.specBlockSize ≤ maxLength → alignmentTokens ∣ n * m.specBlockSize →
    (∀ j < n, Needs q m window n j → q.cachedAt m groups j ≠ none) → n ≤ rows.length

variable {q : HitQuery} {m : Manager} {gs : List Nat} {w al ml n j : Nat}

theorem needs_iff (hj : j < n) : Needs q m w n j ↔ n ≤ j + blocksNeeded q m w := by
  obtain ⟨d, rfl⟩ := Nat.exists_eq_add_of_lt hj
  have hpos := m.specBlockSize_pos
  -- the last token of a block is the one nearest to the end
  have hpo : (∃ p, p / m.specBlockSize = j ∧ p < (j + d + 1) * m.specBlockSize ∧
      (j + d + 1) * m.specBlockSize < p + w + if q.useEagle then m.specBlockSize else 0) ↔
      d * m.specBlockSize + 1 < w + if q.useEagle then m.specBlockSize else 0 := by
    have hend : (j + d + 1) * m.specBlockSize = j * m.specBlockSize + m.specBlockSize
        + d * m.specBlockSize := by ring
    rw [hend]
    constructor
    · rintro ⟨p, hp, -, hlt⟩
      have := Nat.lt_div_mul_add hpos (a := p)
      rw [hp] at this
      omega
    · intro h
      refine ⟨j * m.specBlockSize + (m.specBlockSize - 1), ?_, by omega, by omega⟩
      rw [mul_comm, Nat.mul_add_div hpos, Nat.div_eq_of_lt (by omega), add_zero]
  have hc : ∀ k : Int, k < cdiv ((w : Int) - 1) m.specBlockSize ↔
      k * m.specBlockSize < (w : Int) - 1 := fun k => lt_cdiv_iff (by omega)
  rw [Needs, hpo, blocksNeeded]
  have hz : d = 0 ∨ m.specBlockSize ≤ d * m.specBlockSize := by
    rcases Nat.eq_zero_or_pos d with rfl | hd
    · exact .inl rfl
    · exact .inr (Nat.le_mul_of_pos_left _ hd)
  by_cases he : q.useEagle = true
  · have := hc (d - 1)
    rw [sub_mul, one_mul] at this
    simp only [he, if_true]
    omega
  · have := hc d
    simp only [he, if_false, Bool.false_eq_true]
    omega

theorem Longest.windowHit {rs : List Row}
    (h : Longest q m gs (blocksNeeded q m w) al (ml / m.specBlockSize) rs) :
    WindowHit q m gs w al ml rs := by
  have hlt : ∀ {j row}, rs[j]? = some row → j < rs.length := fun hr =>
    (List.getElem?_eq_some_iff.mp hr).1
  refine ⟨(Nat.le_div_iff_mul_le m.specBlockSize_pos).mp h.bound, h.aligned, fun j row hr hne => ?_,
    fun j row hr hne => ?_, fun n hn hd ha => ?_⟩
  · rw [needs_iff (hlt hr)] at hne
    exact (h.entries j row hr).1 (by omega)
  · rw [needs_iff (hlt hr)] at hne
    exact (h.entries j row hr).2 (by omega)
  · exact h.longest n ((Nat.le_div_iff_mul_le m.specBlockSize_pos).mpr hn) hd fun j hj hl =>
      ha j hj ((needs_iff hj).mpr hl)

end HitQuery

theorem getElem?_removeFrom {t : List BlockId} {n j : Nat} (hn : n ≤ t.length) (hj : n ≤ j) :
    (removeFrom t n).2[j]? = t[j]? := by
  have hle := (takeWhile_sublist (l := (t.take n).reverse) (fun b : BlockId => b ≠ 0)).length_le
  rw [length_reverse, length_take, Nat.min_eq_left hn] at hle
  simp only [removeFrom]
  generalize ((t.take n).reverse.takeWhile fun b : BlockId => b ≠ 0).length = removed at hle ⊢
  have hl : (t.take (n - removed) ++ replicate removed 0).length = n := by
    rw [length_append, length_take, length_replicate]
    omega
  rw [getElem?_append_right (by omega), hl, getElem?_drop, Nat.add_sub_cancel' hj]

/-- **Sliding-window hits are valid and longest**: a lookup that returns has found the longest hit,
    less its last block with EAGLE; it returns when the hashes cover the length and, with EAGLE, the
    alignment is the block size. `remove_skipped_blocks` leaves what a later query attends to. -/
theorem sliding_window_hits (q : HitQuery) (m : Manager) (groups : List Nat)
    (window alignmentTokens maxLength : Nat) :
    (∀ rows, q.slidingHit m groups window alignmentTokens maxLength = .ok rows →
      ∃ full, WindowHit q m groups window alignmentTokens maxLength full ∧
        rows = if q.useEagle then full.dropLast else full) ∧
    (m.worldSize = 1 → q.hashBlockSize ∣ m.blockSize → q.Covers maxLength →
      (q.useEagle = true → m.specBlockSize = alignmentTokens) →
      ∃ rows, q.slidingHit m groups window alignmentTokens maxLength = .ok rows) ∧
    (m.kind = .slidingWindow window → ∀ pools e total e' pools',
      m.removeSkippedBlocks pools e total = .ok (e', pools') →
      ∀ j, e'.blocks[j]? ≠ e.blocks[j]? → ∀ p query : Nat, p / m.blockSize = j → total ≤ query →
        ¬ Attends window query p) := by
  refine ⟨fun rows h => ?_, fun hw hd hc hs => ?_,
    fun hk pools e total e' pools' h j hne p query hp hq ha => ?_⟩
  · obtain ⟨full, hf, hr, -⟩ := slidingHit_longest h
    exact ⟨full, hf.windowHit, hr⟩
  · refine slidingHit_returns hw hs ?_
    rw [← blockSize_eq hw]
    exact HitQuery.Covers.readable hc hd
  · unfold removeSkippedBlocks baseRemoveSkippedBlocks at h
    simp only [hk, getNumSkippedTokens] at h
    split at h
    · obtain ⟨rfl, rfl⟩ := Outcome.pair_inj h
      exact hne rfl
    · obtain ⟨freed, -, h⟩ := Outcome.of_bind h
      obtain ⟨rfl, rfl⟩ := Outcome.pair_inj h
      have hlt : j < ((max 0 (total - window + 1)) / m.blockSize).toNat := by
        by_contra hge
        exact hne (getElem?_removeFrom (min_le_right _ _) (by omega))
      -- the block lies before the first position that is attended to
      have hsk : ((j + 1 : Nat) : Int) * m.blockSize ≤ max 0 (total - window + 1) :=
        (Int.le_ediv_iff_mul_le (Int.natCast_pos.mpr m.blockSize_pos)).mp (by omega)
      have hb := Nat.lt_div_mul_add m.blockSize_pos (a := p)
      rw [hp, ← Nat.succ_mul] at hb
      have hlt' : ((p : Nat) : Int) < ((j + 1 : Nat) : Int) * m.blockSize := by exact_mod_cast hb
      have := ha.2
      omega

def windowManager : Manager := ⟨0, .slidingWindow 3, 2, 0, 1, true, Nat.two_pos, Nat.one_pos⟩

theorem windowManager_hits : ∃ rows,
    (HitQuery.mk (.one evictedMamba) [10, 11] 2 false).slidingHit windowManager [0] 3 2 4
      = .ok rows ∧
      WindowHit ⟨.one evictedMamba, [10, 11], 2, false⟩ windowManager [0] 3 2 4 rows := by
  obtain ⟨hh, hr, -⟩ :=
    sliding_window_hits ⟨.one evictedMamba, [10, 11], 2, false⟩ windowManager [0] 3 2 4
  obtain ⟨rows, hro⟩ := hr rfl ⟨1, rfl⟩ (show 4 ≤ 2 * 2 by decide) (fun h => by cases h)
  obtain ⟨f, hf, hl⟩ := hh rows hro
  have hl : rows = f := hl
  exact ⟨rows, hro, hl ▸ hf⟩

/-- **Where a lookup raises or finds less**: with EAGLE it raises for an alignment other than the
    block size, and one block that is all a query behind it attends to is no hit; too few hashes
    raise; and with a window of one token nothing cached is no hit. -/
theorem sliding_window_limits :
    (HitQuery.mk (.one evictedMamba) [10, 11] 2 true).slidingHit windowManager [0] 3 4 4
      = .error (.assertion "aligned_length is not compatible with eagle now") ∧
    (HitQuery.mk (.one evictedMamba) [12, 11] 2 true).slidingHit windowManager [0] 3 2 4 = .ok [] ∧
    (HitQuery.mk (.one evictedMamba) [10] 2 false).slidingHit windowManager [0] 3 2 4
      = .error .index ∧
    (HitQuery.mk (.one evictedMamba) [12, 13] 2 false).slidingHit windowManager [0] 1 2 4
      = .ok [] :=
  ⟨rfl, rfl, rfl, rfl⟩

end VllmDual.Core
