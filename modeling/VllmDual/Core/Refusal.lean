/-
  Subject:   WHAT A REFUSED ALLOCATION LEAVES BEHIND.

  `allocate_slots` frees the skipped blocks, asks every manager what it needs, and returns without
  allocating if the pools do not have it. For a compact admission the question itself marks the
  request as compact, and the mark stays:

  * `refused_traceless_iff` -- a refused call is traceless exactly when it does not mark;
  * `refusedCompact_hole` -- a mark that stays, and the hole a dense prefill then has.
-/
import VllmDual.Core.LatentRows

namespace VllmDual.Core

open Outcome Ceil

/-- The latent table of the request is dense: not marked as compact, and without null rows. -/
def State.DenseAt (s : State) (m : Manager) (r : RequestId) : Prop :=
  (s.entries (m.group, r)).compactPrefixTokens = none ∧ (s.entries (m.group, r)).Dense

/-- The admission test of the call writes a compact mark that is not there already. -/
def Config.Marks (c : Config) (request : Request) (a : Config.SlotArgs) (s : State) : Prop :=
  a.compact = true ∧ ∃ m ∈ c.managers, m.isDsaLatent = true ∧
    ((s.entries (m.group, request.requestId)).compactPrefixTokens
        ≠ some (request.numComputedTokens + a.numNewComputedTokens + a.numExternalComputedTokens) ∨
      (s.entries (m.group, request.requestId)).compactReleasedBlocks = none)

/-- A refused call from `s` to `s'` changed nothing that matters. -/
structure Config.Traceless (c : Config) (request : Request) (a : Config.SlotArgs) (s s' : State) :
    Prop where
  /-- only the skipped blocks are gone -/
  same : c.removeSkippedBlocks request.requestId (a.totalComputedTokens c request) s = .ok s'
  /-- a later dense call of a request that was dense has every latent row it needs -/
  later : ∀ (request' : Request) (a' : Config.SlotArgs) (ids : List (List BlockId)) (s'' : State),
    request'.requestId = request.requestId → a'.compact = false →
    c.HitsFrom s' request' a'.newComputedBlocks →
    c.allocateSlots request' a' s' = .ok (some ids, s'') →
    ∀ m ∈ c.managers, m.isDsaLatent = true → s.DenseAt m request.requestId →
      ∀ i : Nat, (i : Int) < cdiv (c.demand request' a').numTokens m.blockSize →
        (s''.entries (m.group, request.requestId)).row i ≠ 0

section Refusal

variable {c : Config} {s s' : State} {req : Request} {a : Config.SlotArgs} {r : RequestId}
  {d : Config.Demand} {m : Manager}

theorem Entry.marked_eq_self {e : Entry} {pt : Int} :
    e.marked pt = e ↔ e.compactPrefixTokens = some pt ∧ e.compactReleasedBlocks ≠ none := by
  cases e with
  | mk blocks ncb cpt crb last al =>
    cases crb <;> simp [Entry.marked, eq_comm]

theorem needed_other {cbts : Nat → List BlockKey} {ps ps' : Pools} {e e' : Entry} {n : Int}
    (hm : ¬m.isDsaLatent = true) (h : Config.needed cbts d m ps e = .ok (n, e', ps')) : e' = e := by
  unfold Config.needed at h
  rw [Bool.eq_false_of_not_eq_true hm, Bool.and_false, if_neg Bool.false_ne_true] at h
  split at h
  · obtain ⟨x, -, h⟩ := of_bind h
    exact (Prod.mk.inj (pair_inj h).2).1.symm
  · obtain ⟨x, -, h⟩ := of_bind h
    exact (Prod.mk.inj (pair_inj h).2).1.symm

/-- **The admission test leaves the state as it was** exactly when every latent entry has its mark
    already. -/
theorem hasEnoughFreeBlocks_same_iff {e : Bool} (h : c.hasEnoughFreeBlocks r d s = .ok (e, s')) :
    s' = s ↔ ∀ m ∈ c.managers, m.isDsaLatent = true →
      (s.entries (m.group, r)).admitted d = s.entries (m.group, r) := by
  constructor
  · rintro rfl m hm hl
    exact (hasEnoughFreeBlocks_entry hm hl h).symm
  · intro hma
    have hp := hasEnoughFreeBlocks_pools h
    obtain ⟨⟨pg, s₁⟩, hlo, hret⟩ := of_bind h
    obtain ⟨-, rfl⟩ := pair_inj hret
    have he : s₁.entries = s.entries := by
      funext k
      by_cases hk : k.2 = r ∧ ∃ m ∈ c.managers, m.group = k.1
      · obtain ⟨hr, m, hm, hg⟩ := hk
        obtain rfl : k = (m.group, r) := Prod.ext hg.symm hr
        by_cases hl : m.isDsaLatent = true
        · rw [hasEnoughFreeBlocks_entry hm hl h, hma m hm hl]
        · obtain ⟨ps, n, ps', -, hc⟩ := forManagers_at (fun _ _ _ _ _ _ hc =>
            (needed_frame hc).1 ▸ .refl) hlo c.groups_nodup hm
          exact needed_other hl hc
      · exact forManagers_frame hlo fun hr m hm hg => hk ⟨hr, m, hm, hg⟩
    have hca := forManagers_invariant (·.cachedBlocksThisStep = s.cachedBlocksThisStep)
      (fun _ _ _ _ _ _ h _ => h) hlo rfl
    cases s
    cases s₁
    simp_all

theorem allocateSlots_dense (hm : m ∈ c.managers) (hl : m.isDsaLatent = true) (hli : s.pools.Live)
    (hc : a.compact = false) (hh : c.HitsFrom s req a.newComputedBlocks)
    (hd : s.DenseAt m req.requestId) {ids : List (List BlockId)}
    (h : c.allocateSlots req a s = .ok (some ids, s')) {i : Nat}
    (hi : (i : Int) < cdiv (c.demand req a).numTokens m.blockSize) :
    (s'.entries (m.group, req.requestId)).row i ≠ 0 := by
  obtain ⟨hma, hr⟩ := hd
  obtain ⟨e, ps₁, ps₂, ps₂', new, hv₁, hv₂, -, -, hf, e', hn, nc, hen⟩ :=
    allocateSlots_latent hm hl hli h
  have hfu : m.kind.isFullAttention = true := by
    rw [Manager.isDsaLatent_iff.mp hl]
    rfl
  have ha : (s.entries (m.group, req.requestId)).admitted (c.demand req a)
      = s.entries (m.group, req.requestId) := by
    simp [Entry.admitted, Config.demand, hc]
  rw [ha] at hf
  -- the first rows
  have he : e.compactPrefixTokens = none ∧ e.Dense := by
    rcases hf with rfl | ⟨u, ps₁', hca⟩
    · exact ⟨hma, hr⟩
    · rcases takeComputed_latent hl hv₁ (hh.live hli hm hfu) hca with
        rfl | ⟨-, ⟨-, hd, heq⟩ | ⟨ht, -⟩⟩
      · exact ⟨hma, hr⟩
      · rw [heq]
        exact ⟨hma, hd⟩
      · exact absurd ht (by simp [Config.demand, hc])
  obtain ⟨hids, rfl, hlen⟩ := takeNew_dense hl hc he.1 hv₂ hn
  have hd' : Entry.Dense { e with blocks := e.blocks ++ new } := fun b hb =>
    (List.mem_append.mp hb).elim (he.2 b) (hids b)
  rw [hen]
  exact hd'.row_ne_zero (by omega)

theorem Config.not_marks_iff {t : Int} (hsk : c.removeSkippedBlocks req.requestId t s = .ok s') :
    ¬c.Marks req a s ↔ ∀ m ∈ c.managers, m.isDsaLatent = true →
      (s'.entries (m.group, req.requestId)).admitted (c.demand req a)
        = s'.entries (m.group, req.requestId) := by
  constructor
  · intro hn m hm hl
    rw [removeSkippedBlocks_entry hm hl hsk, Entry.admitted]
    split
    · rename_i hc
      rw [Entry.marked_eq_self]
      by_contra hd
      refine hn ⟨hc, m, hm, hl, ?_⟩
      exact (not_and_or.mp hd).imp_right not_not.mp
    · rfl
  · rintro ha ⟨hc, m, hm, hl, hd⟩
    have hs := ha m hm hl
    rw [removeSkippedBlocks_entry hm hl hsk, Entry.admitted,
      if_pos (show (c.demand req a).compact = true from hc), Entry.marked_eq_self] at hs
    exact hd.elim (fun h => h hs.1) hs.2

/-- **A refused `allocate_slots` is traceless exactly when it does not mark the request.** -/
theorem refused_traceless_iff {w : World} (hreach : ModeReachable c (fun _ _ => True) w)
    (hrefused : c.allocateSlots (w.requests r) a w.state = .ok (none, s')) :
    c.Traceless (w.requests r) a w.state s' ↔ ¬c.Marks (w.requests r) a w.state := by
  obtain ⟨-, s₁, hs, hen⟩ := allocateSlots_refused.mp hrefused
  have hsa := hasEnoughFreeBlocks_same_iff hen
  have hma : c.Marks (w.requests r) a w.state ↔ s' ≠ s₁ := by
    rw [Ne, hsa, ← Config.not_marks_iff hs, not_not]
  rw [hma, not_not]
  constructor
  · intro h
    exact Except.ok.inj (h.same.symm.trans hs)
  · rintro rfl
    refine ⟨hs, fun req' a' ids s'' hid hc hh hse m hm hl hd i hi => ?_⟩
    have hli := ((removeSkippedBlocks_steps [] hs).later hreach.live).1
    have he := removeSkippedBlocks_entry hm hl hs
    rw [← hid] at hd he ⊢
    have hd' : s'.DenseAt m req'.requestId := by
      unfold State.DenseAt
      rwa [he]
    exact allocateSlots_dense hm hl hli hc hh hd' hse hi

end Refusal

/-! ## A mark that stays -/

/-- One latent group with one scratch row and blocks of two tokens, without prefix caching. -/
def latentConfig : Config where
  managers := [⟨0, .dsaLatent 1, 2, 0, 1, false, Nat.two_pos, Nat.one_pos⟩]
  maxModelLen := 64
  enableCaching := false
  useEagle := false
  hashBlockSize := 2
  hashBlockSize_pos := Nat.two_pos
  managers_group := rfl
  managers_caching := by simp
  hash_dvd := by simp
  unitary := by simp
  hybrid := by simp

def latentRequests (r : RequestId) : Request := ⟨r, 6, 0, [], false, by decide, by decide⟩

def latentWorld (numGpuBlocks : Nat) : World :=
  ⟨State.init (.one (.start numGpuBlocks 0 latentConfig)), latentRequests⟩

theorem latentWorld_reachable (n : Nat) (ok : World → Op → Prop) :
    ModeReachable latentConfig ok (latentWorld n) :=
  .start (fun _ => rfl) ⟨_, .one n 0, rfl⟩

def prefill (r : RequestId) (numNewTokens : Nat) : Op :=
  .allocateSlots r ⟨numNewTokens, 0, fun _ => [], 0, 0, false, 0, false⟩

def computed (n : Nat) : Op := .setRequest 0 { latentRequests 0 with numComputedTokens := n }

def compactLoad : Config.SlotArgs := ⟨0, 0, fun _ => [], 0, 4, true, 0, true⟩

def crowded : World := (prefill 0 4).next latentConfig (latentWorld 4)

theorem crowded_reachable : ModeReachable latentConfig (fun _ _ => True) crowded :=
  .step (prefill 0 4) (latentWorld_reachable 4 _) (.inl rfl) trivial (Op.run_eq_next rfl)

/-- A dense call for which there is no room is traceless. -/
theorem refusedPrefill_traceless :
    let a : Config.SlotArgs := ⟨4, 0, fun _ => [], 0, 0, false, 0, false⟩
    let s' := ((prefill 1 4).next latentConfig crowded).state
    latentConfig.allocateSlots (crowded.requests 1) a crowded.state = .ok (none, s') ∧
      latentConfig.Traceless (crowded.requests 1) a crowded.state s' :=
  ⟨rfl, (refused_traceless_iff crowded_reachable rfl).mpr (by simp [Config.Marks])⟩

def refusedLoad : World := (Op.allocateSlots 1 compactLoad).next latentConfig crowded

def retried : World := (prefill 1 6).next latentConfig ((Op.free 0).next latentConfig refusedLoad)

/-- **The refused load marks request 1**, and its dense prefill of three rows has a hole. -/
theorem refusedCompact_hole : ModeReachable latentConfig (fun _ _ => True) crowded ∧
    latentConfig.allocateSlots (crowded.requests 1) compactLoad crowded.state
      = .ok (none, refusedLoad.state) ∧
    ¬latentConfig.Traceless (crowded.requests 1) compactLoad crowded.state refusedLoad.state ∧
    ModeReachable latentConfig (fun _ _ => True) retried ∧
      retried.state.table (0, 1) = [3, 0, 2] := by
  have hc := crowded_reachable
  have hr : latentConfig.allocateSlots (crowded.requests 1) compactLoad crowded.state
      = .ok (none, refusedLoad.state) := rfl
  refine ⟨hc, hr, ?_, ?_, rfl⟩
  · intro ht
    have hm :=
      congrArg (fun x => x.toOption.map fun s => (s.entries (0, 1)).compactPrefixTokens) ht.same
    exact absurd hm (by decide)
  · have hf := hc.step (.allocateSlots 1 compactLoad) (.inl rfl) trivial (Op.run_eq_next rfl)
    have hs := hf.step (.free 0) trivial trivial (Op.run_eq_next rfl)
    exact hs.step (prefill 1 6) (.inl rfl) trivial (Op.run_eq_next rfl)

end VllmDual.Core
