/-
  Subject:   THE BUNDLE ALLOCATOR OF THE DSA SHARED POOL (`DSASharedBundleAllocator`).

  The allocator hands out bundles 1..capacity of one layout to two owners. Its state is the map
  `_owners` and the list `_free_ranges`. The free bundles are a set (`Ranges.cover`), the list of
  ranges is its canonical form; both calls are proved against that set.
-/
import VllmDual.Lib.Intervals
import VllmDual.Lib.Ranges
import VllmDual.Dsa.Layout

namespace VllmDual.Dsa

open Intervals Ranges List

/-! ## 1. The allocator -/

/-- What the allocator raises. `popFromEmpty` is the `IndexError` of `pop(0)`. -/
inductive AllocatorError where
  | cannotGetBundles (numBundles : Int)
  | popFromEmpty
  | duplicateBundleIds (ids : List Nat)
  | wrongOwner (bundleId : Nat) (actual : Option DSASharedBlockOwner) (owner : DSASharedBlockOwner)
deriving DecidableEq

structure DSASharedBundleAllocator where
  layout : DSASharedBlockLayout
  owners : Finmap fun _ : Nat => DSASharedBlockOwner
  freeRanges : List (Nat × Nat)

namespace DSASharedBundleAllocator

def init (layout : DSASharedBlockLayout) : DSASharedBundleAllocator :=
  ⟨layout, ∅, [(1, layout.capacityBundles)]⟩

variable (a : DSASharedBundleAllocator)

def freeBundleCount : Nat := total a.freeRanges

variable (owner : DSASharedBlockOwner)

/-- `bundle_count_for_blocks`: `_cdiv` by a positive number. -/
def bundleCountForBlocks (numBlocks : Int) : Int :=
  (numBlocks + a.layout.blocksPerBundle owner - 1) / a.layout.blocksPerBundle owner

/-- The search of `_take_from_best_contiguous_range`: index and length of the first shortest range
    that is long enough. -/
def bestRange (numBundles : Nat) : Nat → Option (Nat × Nat) → List (Nat × Nat) →
    Option (Nat × Nat)
  | _, best, [] => best
  | idx, best, r :: rest =>
    if numBundles ≤ size r ∧ best.all (fun b => size r < b.2) then
      bestRange numBundles (idx + 1) (some (idx, size r)) rest
    else
      bestRange numBundles (idx + 1) best rest

/-- `_take_from_best_contiguous_range`, with the ranges it leaves. -/
def takeFromBestContiguousRange (numBundles : Nat) (freeRanges : List (Nat × Nat)) :
    Option (List Nat × List (Nat × Nat)) := do
  let (bestIdx, _) ← bestRange numBundles 0 none freeRanges
  let r ← freeRanges[bestIdx]?
  let chosen := range' r.1 numBundles
  if r.1 + numBundles ≤ r.2 then
    return (chosen, freeRanges.set bestIdx (r.1 + numBundles, r.2))
  else
    return (chosen, freeRanges.eraseIdx bestIdx)

def allocate (numBundles : Int) : Except AllocatorError (List Nat × DSASharedBundleAllocator) :=
  if numBundles ≤ 0 then
    .ok ([], a)
  else if (a.freeBundleCount : Int) < numBundles then
    .error (.cannotGetBundles numBundles)
  else
    let taken := (takeFromBestContiguousRange numBundles.toNat a.freeRanges).or
      (takeFront numBundles.toNat a.freeRanges)
    match taken with
    | none => .error .popFromEmpty
    | some (chosen, freeRanges) =>
      .ok (chosen, { a with
        freeRanges := freeRanges
        owners := chosen.foldl (fun owners b => owners.insert b owner) a.owners })

/-- `_insert_free_bundle`: append, sort, and sweep. -/
def insertFreeBundle (freeRanges : List (Nat × Nat)) (bundleId : Nat) : List (Nat × Nat) :=
  coalesce (sortTuples (freeRanges ++ [(bundleId, bundleId)]))

def release (bundleId : Nat) : DSASharedBundleAllocator :=
  { a with
    owners := a.owners.erase bundleId
    freeRanges := insertFreeBundle a.freeRanges bundleId }

def free (ids : List Nat) : Except AllocatorError DSASharedBundleAllocator :=
  if ¬ ids.Nodup then
    .error (.duplicateBundleIds ids)
  else
    match ids.find? fun b => a.owners.lookup b ≠ some owner with
    | some b => .error (.wrongOwner b (a.owners.lookup b) owner)
    | none => .ok (ids.foldl release a)

/-! ## 2. The invariant -/

/-- The allocator's state is sound: the ranges are canonical, and every bundle of the layout is
    either free or owned, never both. -/
structure AllocatorInv (a : DSASharedBundleAllocator) : Prop where
  gapped : Gapped a.freeRanges
  bundles : ∀ b, (1 ≤ b ∧ b ≤ a.layout.capacityBundles) ↔ b ∈ cover a.freeRanges ∨ b ∈ a.owners
  apart : ∀ b, b ∈ cover a.freeRanges → b ∉ a.owners

theorem init_inv (lo : DSASharedBlockLayout) : AllocatorInv (init lo) := by
  have hc := lo.capacity_pos
  refine ⟨gapped_cons.mpr ⟨hc, by simp, gapped_nil⟩, fun b => ?_, fun b _ => ?_⟩
  · simp [init, mem_cover_cons, Finmap.notMem_empty]
  · exact Finmap.notMem_empty

variable {a : DSASharedBundleAllocator} {n : Nat} {rs : List (Nat × Nat)} {ids : List Nat}
  {owner : DSASharedBlockOwner}

theorem AllocatorInv.count (h : AllocatorInv a) :
    a.freeBundleCount + a.owners.keys.card = a.layout.capacityBundles := by
  have hd : Disjoint (cover a.freeRanges) a.owners.keys :=
    Finset.disjoint_left.mpr fun b hb hk => h.apart b hb (Finmap.mem_keys.mp hk)
  have hu : cover a.freeRanges ∪ a.owners.keys = Finset.Icc 1 a.layout.capacityBundles := by
    ext b
    rw [Finset.mem_union, Finmap.mem_keys, Finset.mem_Icc, h.bundles]
  rw [freeBundleCount, ← h.gapped.card_cover, ← Finset.card_union_of_disjoint hd, hu, Nat.card_Icc,
    Nat.add_sub_cancel]

/-! ## 3. `allocate` -/

theorem bestRange_spec {res : Nat × Nat} :
    ∀ (done re : List (Nat × Nat)) (be : Option (Nat × Nat)), rs = done ++ re →
      (∀ b, be = some b → ∃ r, rs[b.1]? = some r ∧ n ≤ size r) →
      bestRange n done.length be re = some res → ∃ r, rs[res.1]? = some r ∧ n ≤ size r
  | done, [], be, _, hb, h => hb res h
  | done, r :: re, be, hrs, hb, h => by
    have hrs' : rs = (done ++ [r]) ++ re := by rw [hrs]; simp
    have hl : done.length + 1 = (done ++ [r]).length := by simp
    unfold bestRange at h
    rw [hl] at h
    split at h
    · rename_i hf
      refine bestRange_spec (done ++ [r]) re _ hrs' ?_ h
      rintro b ⟨rfl⟩
      exact ⟨r, by simp [hrs], hf.1⟩
    · exact bestRange_spec (done ++ [r]) re be hrs' hb h

theorem takeFromBestContiguousRange_taken {rs' : List (Nat × Nat)} (hg : Gapped rs)
    (h : takeFromBestContiguousRange n rs = some (ids, rs')) :
    Taken rs ids rs' ∧ ids.length = n := by
  unfold takeFromBestContiguousRange at h
  obtain ⟨⟨idx, len⟩, hb, h⟩ := Option.bind_eq_some_iff.mp h
  obtain ⟨r, hr, h⟩ := Option.bind_eq_some_iff.mp h
  obtain ⟨r', hr', hn⟩ := bestRange_spec [] rs none rfl (by simp) hb
  obtain rfl : r = r' := Option.some.inj (hr.symm.trans hr')
  have hs : rs = rs.take idx ++ r :: rs.drop (idx + 1) := by
    obtain ⟨hlt, hget⟩ := List.getElem?_eq_some_iff.mp hr
    rw [← hget, cons_getElem_drop_succ, take_append_drop]
  have ht := taken_from_range (hs ▸ hg) hn
  rw [← hs] at ht
  unfold leftOver at ht
  split at h
  · rename_i hle
    rw [if_pos hle] at ht
    obtain ⟨rfl, rfl⟩ := Prod.mk.inj (Option.some.inj h)
    have hlt := (List.getElem?_eq_some_iff.mp hr).1
    refine ⟨?_, by simp⟩
    rw [set_eq_take_append_cons_drop, if_pos hlt]
    simpa using ht
  · rename_i hle
    rw [if_neg hle, append_nil] at ht
    obtain ⟨rfl, rfl⟩ := Prod.mk.inj (Option.some.inj h)
    refine ⟨?_, by simp⟩
    rw [eraseIdx_eq_take_drop_succ]
    exact ht

theorem lookup_foldl_insert (ids : List Nat) (os : Finmap fun _ : Nat => DSASharedBlockOwner)
    (b : Nat) : (ids.foldl (fun os b => os.insert b owner) os).lookup b
      = if b ∈ ids then some owner else os.lookup b := by
  induction ids generalizing os with
  | nil => simp
  | cons c ids ih =>
    rw [foldl_cons, ih]
    by_cases hb : b ∈ ids
    · simp [hb]
    · by_cases hbc : b = c
      · subst hbc
        simp [hb]
      · simp [hb, hbc, Finmap.lookup_insert_of_ne]

/-- **What `allocate` does**: within the free count it succeeds, hands out that many distinct free
    bundles, gives them to the owner and touches no other bundle. -/
theorem allocate_spec (h : AllocatorInv a) (ow : DSASharedBlockOwner) {nb : Int}
    (hn : nb ≤ a.freeBundleCount) :
    ∃ c a', a.allocate ow nb = .ok (c, a') ∧ AllocatorInv a' ∧ a'.layout = a.layout ∧
      c.length = nb.toNat ∧ c.Nodup ∧ (∀ b ∈ c, b ∈ cover a.freeRanges) ∧
      ∀ b, a'.owners.lookup b = if b ∈ c then some ow else a.owners.lookup b := by
  unfold allocate
  by_cases hp : nb ≤ 0
  · rw [if_pos hp]
    exact ⟨[], a, rfl, h, rfl, by simp; omega, nodup_nil, by simp, by simp⟩
  · rw [if_neg hp, if_neg (by omega)]
    -- whichever way the ranges were found, they are a removal of `nb` bundles
    have hf : ∃ c fr,
        (takeFromBestContiguousRange nb.toNat a.freeRanges).or (takeFront nb.toNat a.freeRanges)
          = some (c, fr) ∧ Taken a.freeRanges c fr ∧ c.length = nb.toNat := by
      cases hbe : takeFromBestContiguousRange nb.toNat a.freeRanges with
      | some res =>
        obtain ⟨ids, rs⟩ := res
        exact ⟨ids, rs, rfl, takeFromBestContiguousRange_taken h.gapped hbe⟩
      | none =>
        simp only [Option.none_or]
        exact takeFront_taken h.gapped (by rw [freeBundleCount] at hn; omega)
    obtain ⟨c, fr, hta, ht, hl⟩ := hf
    simp only [hta]
    have hm : ∀ b, b ∈ c.foldl (fun os b => os.insert b ow) a.owners ↔ b ∈ c ∨ b ∈ a.owners := by
      intro b
      rw [← Finmap.lookup_isSome, lookup_foldl_insert]
      by_cases hb : b ∈ c
      · simp [hb]
      · simp [hb, Finmap.lookup_isSome]
    refine ⟨c, _, rfl, ⟨ht.gapped, fun b => ?_, fun b hb => ?_⟩, rfl, hl, ht.nodup,
      fun b hb => (ht.split b).mpr (.inl hb), lookup_foldl_insert c a.owners⟩
    · rw [h.bundles, ht.split, hm]
      tauto
    · rw [hm]
      rintro (hc | hc)
      · exact ht.apart b hc hb
      · exact h.apart b ((ht.split b).mpr (.inr hb)) hc

/-! ## 4. `free` -/

theorem insertFreeBundle_spec (h : Gapped rs) (bi : Nat) : Gapped (insertFreeBundle rs bi) ∧
      ∀ b, b ∈ cover (insertFreeBundle rs bi) ↔ b ∈ cover rs ∨ b = bi := by
  have hp := sortTuples_perm (rs ++ [(bi, bi)])
  have hne : ∀ r ∈ sortTuples (rs ++ [(bi, bi)]), r.1 ≤ r.2 := by
    intro r hr
    rcases mem_append.mp (hp.mem_iff.mp hr) with hr | hr
    · exact h.nonempty r hr
    · rw [mem_singleton.mp hr]
  obtain ⟨hg, hc⟩ := coalesce_spec hne (sortTuples_sorted _)
  refine ⟨hg, fun b => ?_⟩
  rw [insertFreeBundle, hc, cover_perm hp, mem_cover_append, mem_cover_cons]
  simp only [cover_nil, Finset.notMem_empty, or_false]
  exact or_congr Iff.rfl ⟨fun hb => by omega, fun hb => by omega⟩

theorem release_inv (h : AllocatorInv a) {bi : Nat} (ho : bi ∈ a.owners) :
    AllocatorInv (a.release bi) := by
  obtain ⟨hg, hc⟩ := insertFreeBundle_spec h.gapped bi
  refine ⟨hg, fun b => ?_, fun b hb => ?_⟩
  · simp only [release, hc, Finmap.mem_erase, h.bundles]
    by_cases hb : b = bi
    · subst hb
      simp [ho]
    · simp [hb]
  · simp only [release, hc] at hb
    rw [release, Finmap.mem_erase]
    rintro ⟨hne, hm⟩
    rcases hb with hb | hb
    · exact h.apart b hb hm
    · exact hne hb

theorem foldl_release_spec (h : AllocatorInv a) (hnd : ids.Nodup) (ho : ∀ b ∈ ids, b ∈ a.owners) :
    AllocatorInv (ids.foldl release a) ∧ (ids.foldl release a).layout = a.layout ∧
      ∀ b, (ids.foldl release a).owners.lookup b
        = if b ∈ ids then none else a.owners.lookup b := by
  induction ids generalizing a with
  | nil => exact ⟨h, rfl, by simp⟩
  | cons c ids ih =>
    obtain ⟨hc, hnd⟩ := nodup_cons.mp hnd
    obtain ⟨hi, hlay, hl⟩ := ih (release_inv h (ho c mem_cons_self)) hnd
      fun b hb => Finmap.mem_erase.mpr ⟨fun hbc => hc (hbc ▸ hb), ho b (mem_cons_of_mem _ hb)⟩
    refine ⟨hi, hlay, fun b => ?_⟩
    rw [foldl_cons, hl]
    by_cases hb : b ∈ ids
    · simp [hb]
    · by_cases hbc : b = c
      · subst hbc
        simp [release]
      · simp [hb, hbc, release, Finmap.lookup_erase_ne]

/-- **What `free` does**: distinct bundles of the owner are given back, all of them and no other. -/
theorem free_spec (h : AllocatorInv a) (hnd : ids.Nodup)
    (ho : ∀ b ∈ ids, a.owners.lookup b = some owner) :
    ∃ a', a.free owner ids = .ok a' ∧ AllocatorInv a' ∧ a'.layout = a.layout ∧
      ∀ b, a'.owners.lookup b = if b ∈ ids then none else a.owners.lookup b := by
  have hn : ids.find? (fun b => a.owners.lookup b ≠ some owner) = none := by
    rw [find?_eq_none]
    intro b hb
    simp [ho b hb]
  refine ⟨ids.foldl release a, ?_, foldl_release_spec h hnd fun b hb => ?_⟩
  · rw [free, if_neg (not_not.mpr hnd), hn]
  · exact Finmap.mem_of_lookup_eq_some (ho b hb)

end DSASharedBundleAllocator

end VllmDual.Dsa
