/-
  Subject:   THE DSA SHARED BUNDLE LAYOUT (`vllm/v1/core/dsa_shared_pool.py`) AND THE WORKER'S
             VIEWS OF THE RAW SLAB (`vllm/v1/worker/dsa_shared_pool.py`).

  One raw slab serves two KV groups. The scheduler hands out BUNDLES of it and numbers the pages of
  a bundle per owner (`blockIdsForBundle`); the worker lays tensor views over the same bytes
  (`reshapeDsaSharedPoolRaw`). The two address maps are written independently, and agree:

  * `bundle_bytes_isolated` -- the isolation of bundles, in bytes.
-/
import Mathlib

namespace VllmDual.Dsa

open List Nat

/-! ## 1. The layout -/

inductive DSASharedBlockOwner where
  | latent
  | indexer
deriving DecidableEq

/-- What `__post_init__` rejects. A zero `indexer_dim` raises `ZeroDivisionError` in the source;
    here it ends in `inconsistentSplit`, a rejection as well. -/
inductive LayoutError where
  | pageSizesNotPositive
  | capacityNotPositive
  | ratioMismatch
  | inconsistentSplit
deriving DecidableEq

/-- The fields of the dataclass `DSASharedBlockLayout`, not yet checked. -/
structure LayoutArgs where
  latentPageSizeBytes : Nat
  indexerPageSizeBytes : Nat
  capacityBundles : Nat
  kNopeDim : Nat := 512
  kPeDim : Nat := 64
  indexerDim : Nat := 128

namespace LayoutArgs

variable (a : LayoutArgs)

/-- `_lcm` of the two page sizes. -/
def bundlePageSizeBytes : Nat :=
  a.latentPageSizeBytes * a.indexerPageSizeBytes / Nat.gcd a.latentPageSizeBytes
    a.indexerPageSizeBytes

def latentBlocksPerBundle : Nat := a.bundlePageSizeBytes / a.latentPageSizeBytes

def indexerBlocksPerBundle : Nat := a.bundlePageSizeBytes / a.indexerPageSizeBytes

def latentDim : Nat := a.indexerDim * a.latentPageSizeBytes / a.indexerPageSizeBytes

def slotCount : Nat := a.capacityBundles + 1

def nopePagesPerBundle : Nat := a.latentBlocksPerBundle * a.kNopeDim / a.indexerDim

def pePagesPerBundle : Nat := a.latentBlocksPerBundle * a.kPeDim / a.indexerDim

def postInit : Except LayoutError Unit :=
  if a.latentPageSizeBytes = 0 ∨ a.indexerPageSizeBytes = 0 then
    .error .pageSizesNotPositive
  else if a.capacityBundles = 0 then
    .error .capacityNotPositive
  else if a.latentDim ≠ a.kNopeDim + a.kPeDim then
    .error .ratioMismatch
  else if a.nopePagesPerBundle + a.pePagesPerBundle ≠ a.indexerBlocksPerBundle then
    .error .inconsistentSplit
  else
    .ok ()

theorem postInit_ok_iff :
    a.postInit = .ok () ↔
      0 < a.latentPageSizeBytes ∧ 0 < a.indexerPageSizeBytes ∧ 0 < a.capacityBundles ∧
        a.latentDim = a.kNopeDim + a.kPeDim ∧
        a.nopePagesPerBundle + a.pePagesPerBundle = a.indexerBlocksPerBundle := by
  unfold postInit
  constructor
  · intro h
    split at h
    · cases h
    rename_i hp
    split at h
    · cases h
    rename_i hcap
    split at h
    · cases h
    rename_i hd
    split at h
    · cases h
    rename_i hs
    exact ⟨by omega, by omega, by omega, not_not.mp hd, not_not.mp hs⟩
  · rintro ⟨hl, hi, hc, hd, hs⟩
    rw [if_neg (by omega), if_neg (by omega), if_neg (not_not.mpr hd), if_neg (not_not.mpr hs)]

end LayoutArgs

/-- A layout the constructor accepts. -/
structure DSASharedBlockLayout extends LayoutArgs where
  accepted : toLayoutArgs.postInit = .ok ()

namespace DSASharedBlockLayout

open DSASharedBlockOwner

variable (layout : DSASharedBlockLayout) {owner : DSASharedBlockOwner} {b slot i : Nat}

theorem latentPage_pos : 0 < layout.latentPageSizeBytes :=
  ((LayoutArgs.postInit_ok_iff _).mp layout.accepted).1

theorem indexerPage_pos : 0 < layout.indexerPageSizeBytes :=
  ((LayoutArgs.postInit_ok_iff _).mp layout.accepted).2.1

theorem capacity_pos : 0 < layout.capacityBundles :=
  ((LayoutArgs.postInit_ok_iff _).mp layout.accepted).2.2.1

theorem pages_split :
    layout.nopePagesPerBundle + layout.pePagesPerBundle = layout.indexerBlocksPerBundle :=
  ((LayoutArgs.postInit_ok_iff _).mp layout.accepted).2.2.2.2

theorem bundlePage_eq_lcm :
    layout.bundlePageSizeBytes = Nat.lcm layout.latentPageSizeBytes layout.indexerPageSizeBytes :=
  rfl

def blocksPerBundle : DSASharedBlockOwner → Nat
  | latent => layout.latentBlocksPerBundle
  | indexer => layout.indexerBlocksPerBundle

def rowCount (owner : DSASharedBlockOwner) : Nat :=
  layout.slotCount * layout.blocksPerBundle owner

/-- The ids a bundle slot has, slot 0 included: the formula of `block_ids_for_bundle` behind its
    range check. -/
def slotBlockIds (owner : DSASharedBlockOwner) (slot : Nat) : List Nat :=
  match owner with
  | latent => range' (slot * layout.latentBlocksPerBundle) layout.latentBlocksPerBundle
  | indexer =>
    range' (slot * layout.nopePagesPerBundle) layout.nopePagesPerBundle ++
      range' (layout.slotCount * layout.nopePagesPerBundle + slot * layout.pePagesPerBundle)
        layout.pePagesPerBundle

/-- `block_ids_for_bundle`; `none` is its `ValueError`. -/
def blockIdsForBundle (owner : DSASharedBlockOwner) (bundleId : Nat) : Option (List Nat) :=
  if bundleId = 0 ∨ layout.capacityBundles < bundleId then
    none
  else
    some (layout.slotBlockIds owner bundleId)

/-- `bundle_id_for_block`; `none` is its `ValueError`. -/
def bundleIdForBlock (owner : DSASharedBlockOwner) (blockId : Nat) : Option Nat :=
  if blockId = 0 then
    none
  else
    match owner with
    | latent => some (blockId / layout.latentBlocksPerBundle)
    | indexer =>
      let nopeSlabPages := layout.slotCount * layout.nopePagesPerBundle
      if blockId < nopeSlabPages then
        some (blockId / layout.nopePagesPerBundle)
      else
        some ((blockId - nopeSlabPages) / layout.pePagesPerBundle)

/-! ## 2. Block ids and bundles -/

theorem blocksPerBundle_pos (ow : DSASharedBlockOwner) : 0 < layout.blocksPerBundle ow := by
  have hl : 0 < layout.bundlePageSizeBytes := by
    rw [bundlePage_eq_lcm]
    exact lcm_pos layout.latentPage_pos layout.indexerPage_pos
  cases ow with
  | latent =>
    exact Nat.div_pos (le_of_dvd hl (Nat.dvd_lcm_left _ _)) layout.latentPage_pos
  | indexer =>
    exact Nat.div_pos (le_of_dvd hl (Nat.dvd_lcm_right _ _)) layout.indexerPage_pos

theorem blockIdsForBundle_eq_some (h1 : 1 ≤ b) (hb : b ≤ layout.capacityBundles) :
    layout.blockIdsForBundle owner b = some (layout.slotBlockIds owner b) := by
  unfold blockIdsForBundle
  rw [if_neg (by omega)]

@[simp] theorem length_slotBlockIds (ow : DSASharedBlockOwner) (sl : Nat) :
    (layout.slotBlockIds ow sl).length = layout.blocksPerBundle ow := by
  cases ow with
  | latent => simp [slotBlockIds, blocksPerBundle]
  | indexer => simp [slotBlockIds, blocksPerBundle, layout.pages_split]

theorem mem_range'_slot {k : Nat} (hk : 0 < k) : i ∈ range' (slot * k) k ↔ i / k = slot := by
  rw [mem_range'_1, Nat.div_eq_iff hk]
  have := Nat.sub_add_cancel (show 1 ≤ k from hk)
  omega

theorem mem_slotBlockIds_latent :
    i ∈ layout.slotBlockIds latent slot ↔ i / layout.latentBlocksPerBundle = slot :=
  mem_range'_slot (layout.blocksPerBundle_pos latent)

theorem mem_slotBlockIds_indexer (hs : slot < layout.slotCount) :
    i ∈ layout.slotBlockIds indexer slot ↔
      (i < layout.slotCount * layout.nopePagesPerBundle ∧ i / layout.nopePagesPerBundle = slot) ∨
        (layout.slotCount * layout.nopePagesPerBundle ≤ i ∧ 0 < layout.pePagesPerBundle ∧
          (i - layout.slotCount * layout.nopePagesPerBundle) / layout.pePagesPerBundle = slot) := by
  set n := layout.nopePagesPerBundle with hn
  set pe := layout.pePagesPerBundle with hpe
  have hsl : (slot + 1) * n ≤ layout.slotCount * n := mul_le_mul_right _ hs
  simp only [slotBlockIds, mem_append, ← hn, ← hpe]
  constructor
  · rintro (h | h)
    · left
      have hk : 0 < n := by
        rcases Nat.eq_zero_or_pos n with h0 | h0
        · simp [h0] at h
        · exact h0
      refine ⟨?_, (mem_range'_slot hk).mp h⟩
      rw [mem_range'_1] at h
      rw [add_mul] at hsl
      omega
    · right
      rw [mem_range'_1] at h
      have hk : 0 < pe := by omega
      refine ⟨by omega, hk, (mem_range'_slot hk).mp ?_⟩
      rw [mem_range'_1]
      omega
  · rintro (⟨hlt, h⟩ | ⟨hge, hk, h⟩)
    · left
      have hk : 0 < n := by
        rcases Nat.eq_zero_or_pos n with h0 | h0
        · simp [h0] at hlt
        · exact h0
      exact (mem_range'_slot hk).mpr h
    · right
      have hm := (mem_range'_slot hk).mpr h
      rw [mem_range'_1] at hm ⊢
      omega

theorem pe_pos_of_slab_le (hi : i < layout.rowCount indexer)
    (hge : layout.slotCount * layout.nopePagesPerBundle ≤ i) : 0 < layout.pePagesPerBundle := by
  rcases Nat.eq_zero_or_pos layout.pePagesPerBundle with h0 | h0
  · have hs := layout.pages_split
    rw [h0, add_zero] at hs
    simp only [rowCount, blocksPerBundle, ← hs] at hi
    omega
  · exact h0

/-- **The inverse map is exact**: `bundle_id_for_block` answers `b` on the ids of bundle `b` and
    on no other row of the pool; with a pe page in the bundle, on no other number at all. -/
theorem bundleIdForBlock_eq_iff (h0 : i ≠ 0)
    (hi : 0 < layout.pePagesPerBundle ∨ i < layout.rowCount owner) (hb : b < layout.slotCount) :
    layout.bundleIdForBlock owner i = some b ↔ i ∈ layout.slotBlockIds owner b := by
  unfold bundleIdForBlock
  rw [if_neg h0]
  cases owner with
  | latent => simp only [Option.some.injEq, mem_slotBlockIds_latent]
  | indexer =>
    rw [mem_slotBlockIds_indexer layout hb]
    by_cases hlt : i < layout.slotCount * layout.nopePagesPerBundle
    · simp only [if_pos hlt, Option.some.injEq]
      omega
    · have hpe : 0 < layout.pePagesPerBundle :=
        hi.elim id fun hr => layout.pe_pos_of_slab_le hr (not_lt.mp hlt)
      simp only [if_neg hlt, Option.some.injEq]
      omega

theorem exists_slot_of_lt_rowCount (hi : i < layout.rowCount owner) :
    ∃ slot < layout.slotCount, i ∈ layout.slotBlockIds owner slot := by
  cases owner with
  | latent =>
    refine ⟨i / layout.latentBlocksPerBundle, ?_, layout.mem_slotBlockIds_latent.mpr rfl⟩
    exact (div_lt_iff_lt_mul (layout.blocksPerBundle_pos latent)).mpr hi
  | indexer =>
    by_cases hlt : i < layout.slotCount * layout.nopePagesPerBundle
    · have hs : i / layout.nopePagesPerBundle < layout.slotCount := by
        refine (div_lt_iff_lt_mul ?_).mpr hlt
        rcases Nat.eq_zero_or_pos layout.nopePagesPerBundle with h0 | h0
        · simp [h0] at hlt
        · exact h0
      exact ⟨_, hs, (layout.mem_slotBlockIds_indexer hs).mpr (.inl ⟨hlt, rfl⟩)⟩
    · have hge := not_lt.mp hlt
      have hpe := layout.pe_pos_of_slab_le hi hge
      have hs : (i - layout.slotCount * layout.nopePagesPerBundle) / layout.pePagesPerBundle
          < layout.slotCount := by
        rw [div_lt_iff_lt_mul hpe]
        simp only [rowCount, blocksPerBundle, ← layout.pages_split, mul_add] at hi
        omega
      exact ⟨_, hs, (layout.mem_slotBlockIds_indexer hs).mpr (.inr ⟨hge, hpe, rfl⟩)⟩

theorem slot_unique {s t : Nat} (hs : s < layout.slotCount) (ht : t < layout.slotCount)
    (his : i ∈ layout.slotBlockIds owner s) (hit : i ∈ layout.slotBlockIds owner t) : s = t := by
  cases owner with
  | latent => rw [← layout.mem_slotBlockIds_latent.mp his, layout.mem_slotBlockIds_latent.mp hit]
  | indexer =>
    rw [layout.mem_slotBlockIds_indexer hs] at his
    rw [layout.mem_slotBlockIds_indexer ht] at hit
    omega

theorem lt_rowCount_of_mem (hs : slot < layout.slotCount)
    (hi : i ∈ layout.slotBlockIds owner slot) : i < layout.rowCount owner := by
  cases owner with
  | latent =>
    rw [layout.mem_slotBlockIds_latent] at hi
    subst hi
    exact (div_lt_iff_lt_mul (layout.blocksPerBundle_pos latent)).mp hs
  | indexer =>
    simp only [rowCount, blocksPerBundle, ← layout.pages_split, mul_add]
    rcases (layout.mem_slotBlockIds_indexer hs).mp hi with ⟨hlt, _⟩ | ⟨hge, hpe, h⟩
    · omega
    · subst h
      rw [div_lt_iff_lt_mul hpe] at hs
      omega

theorem ne_zero_of_mem (h1 : 1 ≤ slot) (hs : slot < layout.slotCount)
    (hi : i ∈ layout.slotBlockIds owner slot) : i ≠ 0 := by
  rintro rfl
  cases owner with
  | latent =>
    rw [layout.mem_slotBlockIds_latent, Nat.zero_div] at hi
    omega
  | indexer =>
    rw [layout.mem_slotBlockIds_indexer hs] at hi
    simp only [Nat.zero_div, Nat.zero_sub] at hi
    omega

theorem nodup_slotBlockIds (ow : DSASharedBlockOwner) (hs : slot < layout.slotCount) :
    (layout.slotBlockIds ow slot).Nodup := by
  cases ow with
  | latent => exact nodup_range'
  | indexer =>
    refine nodup_append.mpr ⟨nodup_range', nodup_range', ?_⟩
    intro x hx y hy
    have hsl : (slot + 1) * layout.nopePagesPerBundle
        ≤ layout.slotCount * layout.nopePagesPerBundle := mul_le_mul_right _ hs
    rw [mem_range'_1] at hx hy
    rw [add_mul] at hsl
    omega

end DSASharedBlockLayout

/-! ## 3. The worker's views -/

open LayoutArgs

/-- What `reshape_dsa_shared_pool_raw` can stop on: its three assertions, and a `view` whose shape
    or element size does not fit its bytes. -/
inductive ReshapeError where
  | bundleNotNinePages
  | slabNotWholeBundles
  | pageSplit
  | viewShape

/-- A contiguous tensor view: `rows` rows of `rowBytes` bytes each, from byte `start` of the
    slab. Row `i` is the memory of block `i`. -/
structure RowView where
  start : Nat
  rows : Nat
  rowBytes : Nat

/-- The bytes of row `i`. -/
def RowView.bytesOfRow (v : RowView) (i : Nat) : Set Nat :=
  Set.Ico (v.start + i * v.rowBytes) (v.start + (i + 1) * v.rowBytes)

/-- `raw[start : start + size].view(dtype).view(rows, ...)` with `elems` elements of `elt` bytes a
    row: torch accepts it when offset and size are whole elements and the shape fits the size. -/
def viewRows (start size elt rows elems : Nat) : Except ReshapeError RowView :=
  if start % elt = 0 ∧ size % elt = 0 ∧ rows * elems = size / elt then
    .ok ⟨start, rows, elems * elt⟩
  else
    .error .viewShape

/-- `reshape_dsa_shared_pool_raw`; `numel` is the slab's size in bytes and `elt` the element size
    of `dtype`. The result lists the views a block id indexes: `k_nope` and `k_pe`, or the one
    indexer view. -/
def reshapeDsaSharedPoolRaw (numel elt blockSize numKvHeads kvLoraRank qkRopeHeadDim
    indexHeadDim : Nat) (isIndexer : Bool) : Except ReshapeError (List RowView) :=
  let latentPage := blockSize * numKvHeads * (kvLoraRank + qkRopeHeadDim) * elt
  let indexerPage := blockSize * numKvHeads * indexHeadDim * elt
  let bundlePage := Nat.lcm latentPage indexerPage
  if bundlePage ≠ 9 * indexerPage then
    .error .bundleNotNinePages
  else if numel % bundlePage ≠ 0 then
    .error .slabNotWholeBundles
  else
    let slotCount := numel / bundlePage
    let latentBlocks := slotCount * (bundlePage / latentPage)
    let indexerBlocks := slotCount * (bundlePage / indexerPage)
    let nopePages := latentBlocks * kvLoraRank / indexHeadDim
    let pePages := latentBlocks * qkRopeHeadDim / indexHeadDim
    if nopePages + pePages ≠ indexerBlocks then
      .error .pageSplit
    else if isIndexer then do
      let indexer ← viewRows 0 numel elt indexerBlocks (blockSize * numKvHeads * indexHeadDim)
      return [indexer]
    else do
      let nopeBytes := nopePages * indexerPage
      let peBytes := pePages * indexerPage
      let kNope ← viewRows 0 nopeBytes elt latentBlocks (blockSize * numKvHeads * kvLoraRank)
      let kPe ← viewRows nopeBytes peBytes elt latentBlocks
        (blockSize * numKvHeads * qkRopeHeadDim)
      return [kNope, kPe]

def bytesOfBlocks (views : List RowView) (ids : List Nat) : Set Nat :=
  { x | ∃ v ∈ views, ∃ i ∈ ids, x ∈ v.bytesOfRow i }

theorem mem_rows_range' (v : RowView) (s k x : Nat) :
    (∃ i ∈ range' s k, x ∈ v.bytesOfRow i) ↔ v.start + s * v.rowBytes ≤ x ∧
      x < v.start + (s + k) * v.rowBytes := by
  constructor
  · rintro ⟨i, hi, hlo, hhi⟩
    rw [mem_range'_1] at hi
    have h1 : s * v.rowBytes ≤ i * v.rowBytes := mul_le_mul_right _ hi.1
    have h2 : (i + 1) * v.rowBytes ≤ (s + k) * v.rowBytes := mul_le_mul_right _ hi.2
    exact ⟨by omega, by omega⟩
  · rintro ⟨hlo, hhi⟩
    have hlt : x - v.start < (s + k) * v.rowBytes := by omega
    have hw : 0 < v.rowBytes := by
      rcases Nat.eq_zero_or_pos v.rowBytes with h0 | h0
      · simp [h0] at hlt
      · exact h0
    refine ⟨(x - v.start) / v.rowBytes, ?_, ?_, ?_⟩
    · rw [mem_range'_1]
      exact ⟨(le_div_iff_mul_le hw).mpr (by omega), (div_lt_iff_lt_mul hw).mpr hlt⟩
    · have := div_mul_le_self (x - v.start) v.rowBytes
      omega
    · have := lt_mul_div_succ (x - v.start) hw
      rw [mul_comm] at this
      omega

/-! ## 4. The production dimensions -/

section Production

open DSASharedBlockOwner

variable {layout : DSASharedBlockLayout} {blockSize numKvHeads elt : Nat}

/-- A layout with the production dimensions 512/64/128 whose page sizes are those of the two MLA
    specs (`block_size * num_kv_heads * head_size * elt`) the worker reshapes with. -/
structure ProductionLayout (layout : DSASharedBlockLayout) (blockSize numKvHeads elt : Nat) :
    Prop where
  kNope : layout.kNopeDim = 512
  kPe : layout.kPeDim = 64
  indexer : layout.indexerDim = 128
  latentPage : layout.latentPageSizeBytes = blockSize * numKvHeads * (512 + 64) * elt
  indexerPage : layout.indexerPageSizeBytes = blockSize * numKvHeads * 128 * elt

/-- **The constructor forces the page ratio 9 : 2**: for the production dimensions an accepted
    bundle is two latent pages, and eight nope pages and one pe page of the indexer. -/
theorem production_pages (hn : layout.kNopeDim = 512) (hp : layout.kPeDim = 64)
    (hi : layout.indexerDim = 128) :
    layout.latentBlocksPerBundle = 2 ∧ layout.indexerBlocksPerBundle = 9 ∧
      layout.nopePagesPerBundle = 8 ∧ layout.pePagesPerBundle = 1 := by
  obtain ⟨hl0, hi0, -, hd, hs⟩ := (postInit_ok_iff _).mp layout.accepted
  obtain ⟨g, l, i, hg, hco, hL, hI⟩ := exists_coprime' (m := layout.latentPageSizeBytes)
    (n := layout.indexerPageSizeBytes) (gcd_pos_of_pos_left _ hl0)
  have hip : 0 < i := Nat.pos_of_mul_pos_right (hI ▸ hi0)
  have hl : 0 < l := Nat.pos_of_mul_pos_right (hL ▸ hl0)
  have hlcm : layout.bundlePageSizeBytes = l * i * g := by
    rw [DSASharedBlockLayout.bundlePage_eq_lcm, hL, hI, lcm_mul_right, hco.lcm_eq_mul]
  have hlb : layout.latentBlocksPerBundle = i := by
    rw [latentBlocksPerBundle, hlcm, hL, mul_right_comm]
    exact Nat.mul_div_cancel_left i (Nat.mul_pos hl hg)
  have hib : layout.indexerBlocksPerBundle = l := by
    rw [indexerBlocksPerBundle, hlcm, hI, mul_assoc]
    exact Nat.mul_div_cancel l (Nat.mul_pos hip hg)
  rw [latentDim, hn, hp, hi, hL, hI, ← Nat.mul_assoc, Nat.mul_div_mul_right _ _ hg,
    Nat.div_eq_iff hip] at hd
  simp only [nopePagesPerBundle, pePagesPerBundle, hlb, hib, hn, hp, hi] at hs ⊢
  -- an odd `i` contradicts the ratio, an even one leaves `l : i = 9 : 2`
  have he : 2 * l = 9 * i := by omega
  have hi2 : i = 2 := by
    have h1 : i ∣ 2 := (Nat.Coprime.symm hco).dvd_of_dvd_mul_right ⟨9, by omega⟩
    have h2 : 2 ∣ i := Nat.Coprime.dvd_of_dvd_mul_left (show Nat.Coprime 2 9 by decide) ⟨l, he.symm⟩
    exact dvd_antisymm h1 h2
  omega

/-- The pieces of the slab that the views are laid over, for `slots` bundle slots and `u` bytes
    per head dimension and page: eight indexer pages of the nope slab, one of the pe slab. -/
def bundleByteRange (u slots b : Nat) : Set Nat :=
  Set.Ico (1024 * u * b) (1024 * u * (b + 1)) ∪
    Set.Ico (1024 * u * slots + 128 * u * b) (1024 * u * slots + 128 * u * (b + 1))

theorem disjoint_bundleByteRange {u ss b b' : Nat} (hb : b < ss) (hb' : b' < ss)
    (hne : b ≠ b') : Disjoint (bundleByteRange u ss b) (bundleByteRange u ss b') := by
  have step : ∀ {c d : Nat}, c < d → d < ss →
      Disjoint (bundleByteRange u ss c) (bundleByteRange u ss d) := by
    intro c d hcd hd
    have h1 : 1024 * u * (c + 1) ≤ 1024 * u * d := mul_le_mul_left _ hcd
    have h2 : 1024 * u * (d + 1) ≤ 1024 * u * ss := mul_le_mul_left _ hd
    have h3 : 128 * u * (c + 1) ≤ 128 * u * d := mul_le_mul_left _ hcd
    have h4 : 1024 * u * d ≤ 1024 * u * (d + 1) := mul_le_mul_left _ (le_succ d)
    rw [Set.disjoint_left]
    simp only [bundleByteRange, Set.mem_union, Set.mem_Ico]
    omega
  rcases lt_or_gt_of_ne hne with h | h
  · exact step h hb'
  · exact (step h hb).symm

/-- The views of both owners over a slab of `slotCount` bundles. -/
def productionViews (u slots : Nat) : DSASharedBlockOwner → List RowView
  | latent => [⟨0, 2 * slots, 512 * u⟩, ⟨1024 * u * slots, 2 * slots, 64 * u⟩]
  | indexer => [⟨0, 9 * slots, 128 * u⟩]

theorem viewRows_ok {s si elt rs es : Nat} {v : RowView} (he : 0 < elt)
    (hd : elt ∣ s) (hs : v.start = s) (hr : v.rows = rs)
    (hrow : v.rowBytes = es * elt) (hsi : si = v.rows * v.rowBytes) :
    viewRows s si elt rs es = .ok v := by
  have hf : si = rs * es * elt := by rw [hsi, hr, hrow, mul_assoc]
  obtain ⟨vs, vr, vb⟩ := v
  simp only at hs hr hrow
  unfold viewRows
  rw [if_pos, hs, hr, hrow]
  refine ⟨mod_eq_zero_of_dvd hd, ?_, ?_⟩
  · rw [hf, mul_mod_left]
  · rw [hf, Nat.mul_div_cancel _ he]

theorem reshape_production (hp : ProductionLayout layout blockSize numKvHeads elt)
    (owner : DSASharedBlockOwner) :
    reshapeDsaSharedPoolRaw (layout.slotCount * layout.bundlePageSizeBytes)
      elt blockSize numKvHeads 512 64 128 (decide (owner = indexer))
      = .ok (productionViews (blockSize * numKvHeads * elt) layout.slotCount owner) := by
  obtain ⟨hlb, hib, -, -⟩ := production_pages hp.kNope hp.kPe hp.indexer
  have hI := layout.indexerPage_pos
  have hL := layout.latentPage_pos
  have hdvd : layout.indexerPageSizeBytes ∣ layout.bundlePageSizeBytes := Nat.dvd_lcm_right _ _
  have hb : layout.bundlePageSizeBytes = 9 * layout.indexerPageSizeBytes := by
    rw [← hib, indexerBlocksPerBundle, Nat.div_mul_cancel hdvd]
  have he : 0 < elt := by
    rcases Nat.eq_zero_or_pos elt with h0 | h0
    · rw [hp.indexerPage, h0, mul_zero] at hI
      omega
    · exact h0
  set u := blockSize * numKvHeads * elt with hu
  set ss := layout.slotCount with hs
  have hpa : blockSize * numKvHeads * 128 * elt = 128 * u := by rw [hu]; ring
  have hb0 : 0 < layout.bundlePageSizeBytes := by omega
  unfold reshapeDsaSharedPoolRaw
  simp only [← hp.latentPage, ← hp.indexerPage]
  rw [← DSASharedBlockLayout.bundlePage_eq_lcm, if_neg (not_not.mpr hb),
    if_neg (not_not.mpr (mul_mod_left _ _)), Nat.mul_div_cancel _ hb0]
  change (if _ + _ ≠ ss * layout.indexerBlocksPerBundle then _ else _) = _
  have hlb' : layout.bundlePageSizeBytes / layout.latentPageSizeBytes = 2 := hlb
  have hib' : layout.bundlePageSizeBytes / layout.indexerPageSizeBytes = 9 := hib
  have hn : ss * 2 * 512 / 128 = 8 * ss := by omega
  have hpe : ss * 2 * 64 / 128 = ss := by omega
  rw [hlb', hib', hib, hn, hpe, if_neg (by omega), hb, hp.indexerPage, hpa]
  cases owner with
  | indexer =>
    rw [if_pos (by decide), viewRows_ok (v := ⟨0, 9 * ss, 128 * u⟩) he (dvd_zero elt) rfl
      (mul_comm 9 ss) hpa.symm (by ring)]
    rfl
  | latent =>
    have hd : elt ∣ 8 * ss * (128 * u) := by
      rw [hu]
      exact ⟨8 * ss * (128 * (blockSize * numKvHeads)), by ring⟩
    rw [if_neg (by decide), viewRows_ok (v := ⟨0, 2 * ss, 512 * u⟩) he (dvd_zero elt) rfl
      (mul_comm 2 ss) (by rw [hu]; ring) (by ring)]
    simp only [bind, Except.bind]
    rw [viewRows_ok (v := ⟨1024 * u * ss, 2 * ss, 64 * u⟩) he hd (by ring)
      (mul_comm 2 ss) (by rw [hu]; ring) (by ring)]
    rfl

theorem bytesOfBundle_eq (hp : ProductionLayout layout blockSize numKvHeads elt)
    (owner : DSASharedBlockOwner) (b : Nat) (u : Nat) :
    bytesOfBlocks (productionViews u layout.slotCount owner) (layout.slotBlockIds owner b)
      = bundleByteRange u layout.slotCount b := by
  obtain ⟨hlb, -, hn, hpe⟩ := production_pages hp.kNope hp.kPe hp.indexer
  ext x
  cases owner with
  | latent =>
    simp only [bytesOfBlocks, productionViews, mem_cons, not_mem_nil, or_false,
      exists_eq_or_imp, exists_eq_left, Set.mem_ofPred_eq, DSASharedBlockLayout.slotBlockIds, hlb,
      mem_rows_range', bundleByteRange, Set.mem_union, Set.mem_Ico]
    ring_nf
  | indexer =>
    simp only [bytesOfBlocks, productionViews, mem_singleton, exists_eq_left,
      Set.mem_ofPred_eq, DSASharedBlockLayout.slotBlockIds, hn, hpe, mem_append, or_and_right,
      exists_or, mem_rows_range', bundleByteRange, Set.mem_union, Set.mem_Ico]
    ring_nf

/-- What isolation of the bundles means for the views `views owner` of both owners. -/
structure BundleIsolation (layout : DSASharedBlockLayout)
    (views : DSASharedBlockOwner → List RowView) : Prop where
  /-- every view has a row for each row of its owner's pool, and every bundle has bytes -/
  rows : ∀ o, ∀ v ∈ views o, v.rows = layout.rowCount o
  nonempty : ∀ o b, (bytesOfBlocks (views o) (layout.slotBlockIds o b)).Nonempty
  /-- both owners address the same bytes by a bundle -/
  sameBytes : ∀ b, 1 ≤ b → b ≤ layout.capacityBundles →
    bytesOfBlocks (views latent) (layout.slotBlockIds latent b)
      = bytesOfBlocks (views indexer) (layout.slotBlockIds indexer b)
  /-- different slots, slot 0 included, share no byte, whoever reads them -/
  disjoint : ∀ o o' b b', b ≤ layout.capacityBundles → b' ≤ layout.capacityBundles → b ≠ b' →
    Disjoint (bytesOfBlocks (views o) (layout.slotBlockIds o b))
      (bytesOfBlocks (views o') (layout.slotBlockIds o' b'))
  /-- the ids of a bundle: rows of the pool, none the padding id, none twice, and exactly those
      the inverse map sends to it -/
  ids : ∀ o b, 1 ≤ b → b ≤ layout.capacityBundles → ∃ ids,
    layout.blockIdsForBundle o b = some ids ∧ ids.Nodup ∧
    (∀ i ∈ ids, 1 ≤ i ∧ i < layout.rowCount o) ∧
      ∀ i, layout.bundleIdForBlock o i = some b ↔ i ∈ ids
  /-- every row outside slot 0 is an id of some bundle -/
  covered : ∀ o i, i < layout.rowCount o → i ∉ layout.slotBlockIds o 0 →
    ∃ b ids, layout.blockIdsForBundle o b = some ids ∧ i ∈ ids
  /-- a latent block and an indexer block of different bundles share no byte -/
  blocks : ∀ b b' i j, b ≤ layout.capacityBundles → b' ≤ layout.capacityBundles → b ≠ b' →
    i ∈ layout.slotBlockIds latent b → j ∈ layout.slotBlockIds indexer b' →
    Disjoint (bytesOfBlocks (views latent) [i]) (bytesOfBlocks (views indexer) [j])

theorem bytesOfBlocks_mono {vs : List RowView} {ids ids' : List Nat} (h : ids ⊆ ids') :
    bytesOfBlocks vs ids ⊆ bytesOfBlocks vs ids' := by
  rintro x ⟨v, hv, i, hi, hx⟩
  exact ⟨v, hv, i, h hi, hx⟩

/-- **Physical isolation of the DSA shared pool.** For every accepted layout with the production
    dimensions, the worker's reshape of the slab succeeds for both groups, and its views and the
    scheduler's ids isolate the bundles byte for byte. -/
theorem bundle_bytes_isolated (layout : DSASharedBlockLayout) (blockSize numKvHeads elt : Nat)
    (hprod : ProductionLayout layout blockSize numKvHeads elt) :
    ∃ views : DSASharedBlockOwner → List RowView,
      (∀ owner, reshapeDsaSharedPoolRaw (layout.slotCount * layout.bundlePageSizeBytes) elt
          blockSize numKvHeads 512 64 128 (decide (owner = indexer)) = .ok (views owner)) ∧
        BundleIsolation layout views := by
  have hby := bytesOfBundle_eq hprod
  obtain ⟨hlb, hib, -, hpe⟩ := production_pages hprod.kNope hprod.kPe hprod.indexer
  have hu : 0 < blockSize * numKvHeads * elt := by
    have hpos := layout.indexerPage_pos
    rw [hprod.indexerPage, mul_right_comm] at hpos
    exact Nat.pos_of_mul_pos_right hpos
  have hd : ∀ o o' b b', b ≤ layout.capacityBundles → b' ≤ layout.capacityBundles → b ≠ b' →
      Disjoint
        (bytesOfBlocks (productionViews (blockSize * numKvHeads * elt) layout.slotCount o)
          (layout.slotBlockIds o b))
        (bytesOfBlocks (productionViews (blockSize * numKvHeads * elt) layout.slotCount o')
          (layout.slotBlockIds o' b')) := by
    intro o o' b b' hb hb' hne
    rw [hby, hby]
    exact disjoint_bundleByteRange (lt_succ_of_le hb) (lt_succ_of_le hb') hne
  refine ⟨productionViews (blockSize * numKvHeads * elt) layout.slotCount,
    reshape_production hprod, fun o v hv => ?_, fun o b => ?_, ?_, hd, ?_, ?_, ?_⟩
  · cases o with
    | latent =>
      rw [DSASharedBlockLayout.rowCount, DSASharedBlockLayout.blocksPerBundle, hlb, mul_comm]
      rcases mem_pair.1 hv with rfl | rfl <;> rfl
    | indexer =>
      rw [DSASharedBlockLayout.rowCount, DSASharedBlockLayout.blocksPerBundle, hib, mul_comm]
      cases mem_singleton.1 hv
      rfl
  · rw [hby]
    exact ⟨_, .inl ⟨le_rfl, mul_lt_mul_of_pos_left (lt_succ_self b) (by omega)⟩⟩
  · intro b _ _
    rw [hby, hby]
  · intro o b h1 hb
    have hs : b < layout.slotCount := lt_succ_of_le hb
    refine ⟨_, layout.blockIdsForBundle_eq_some h1 hb, layout.nodup_slotBlockIds o hs,
      fun i hi => ⟨?_, layout.lt_rowCount_of_mem hs hi⟩, fun i => ?_⟩
    · exact pos_of_ne_zero (layout.ne_zero_of_mem h1 hs hi)
    · rcases Nat.eq_zero_or_pos i with rfl | h0
      · have hno : 0 ∉ layout.slotBlockIds o b := fun hi => layout.ne_zero_of_mem h1 hs hi rfl
        simp only [DSASharedBlockLayout.bundleIdForBlock, if_true, reduceCtorEq, false_iff]
        exact hno
      · exact layout.bundleIdForBlock_eq_iff (ne_of_gt h0) (.inl (by omega)) hs
  · intro o i hi h0
    obtain ⟨slot, hs, hm⟩ := layout.exists_slot_of_lt_rowCount hi
    have h1 : 1 ≤ slot := by
      rcases Nat.eq_zero_or_pos slot with rfl | h
      · exact absurd hm h0
      · exact h
    exact ⟨slot, _, layout.blockIdsForBundle_eq_some h1 (le_of_lt_succ hs), hm⟩
  · intro b b' i j hb hb' hne hi hj
    exact (hd latent indexer b b' hb hb' hne).mono
      (bytesOfBlocks_mono (by simpa using hi)) (bytesOfBlocks_mono (by simpa using hj))

/-- The layout the repository's tests use: block size 128, one head, two-byte elements, four
    bundles. -/
def testLayout : DSASharedBlockLayout where
  latentPageSizeBytes := 128 * 576 * 2
  indexerPageSizeBytes := 128 * 128 * 2
  capacityBundles := 4
  accepted := by decide

theorem testLayout_bundle_bytes_isolated :
    ProductionLayout testLayout 128 1 2 ∧
      ∃ views : DSASharedBlockOwner → List RowView,
        (∀ owner, reshapeDsaSharedPoolRaw (testLayout.slotCount * testLayout.bundlePageSizeBytes)
            2 128 1 512 64 128 (decide (owner = indexer)) = .ok (views owner)) ∧
          BundleIsolation testLayout views :=
  have hp : ProductionLayout testLayout 128 1 2 := ⟨rfl, rfl, rfl, rfl, rfl⟩
  ⟨hp, bundle_bytes_isolated testLayout 128 1 2 hp⟩

end Production

end VllmDual.Dsa
