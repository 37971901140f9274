/-
  Subject:   WHAT A CANONICAL SOURCE DESCRIPTOR CONTAINS.

  `canonicalizeOne` copies a raw descriptor and replaces a few of its keys. Here each of its parts
  is taken apart once, and what the decoder will read under every key of the copy is said.
-/
import VllmDual.Split.Plan

namespace VllmDual.Split

open Outcome List Option

/-! ## 1. Registered buffers -/

/-- `bytes` bytes fit into the buffer `index` of the handshake, which has this base and group. -/
def SourceHandshake.Registered (m : SourceHandshake) (index base group bytes : Int) : Prop :=
  ∃ (i : Nat) (size : Int), index = i ∧ m.kvCachesBaseAddr[i]? = some base ∧
    m.bufferGroupIds[i]? = some group ∧ m.kvCachesBufferSizes[i]? = some size ∧ bytes ≤ size

variable {m : SourceHandshake} {b gr bs : Int} {i : Nat} {es es' : Entries} {α : Type}
  {raw v de out : PyVal} {key : String} {sg bt : List Int}
  {md : Int × Int → Option SourceHandshake} {R : PyVal → α → Prop}

theorem SourceHandshake.mem_indices : i ∈ m.indices b ↔ m.kvCachesBaseAddr[i]? = some b := by
  simp only [indices, mem_filter, mem_range, decide_eq_true_eq, and_iff_right_iff_imp]
  intro h
  exact (List.getElem?_eq_some_iff.mp h).1

theorem SourceHandshake.registered_of_find (hm : m.Complete)
    (h : (m.indices b).find? (fun i => m.Fits gr bs i) = some i) : m.Registered i b gr bs := by
  have hb := mem_indices.mp (mem_of_find?_eq_some h)
  have hf : m.Fits gr bs i := by simpa using find?_some h
  have hlt : i < m.kvCachesBufferSizes.length :=
    hm.1 ▸ (List.getElem?_eq_some_iff.mp hb).1
  have hs : m.kvCachesBufferSizes[i]? = some (m.kvCachesBufferSizes.getD i 0) := by
    simp [List.getD, getElem?_eq_getElem hlt]
  exact ⟨i, _, rfl, hb, hf.1, hs, hf.2⟩

theorem SourceHandshake.Registered.inWireRange {ix : Int} (h : m.Registered ix b gr bs) :
    0 ≤ ix ∧ InWireRange ix := by
  obtain ⟨i, size, rfl, hb, -⟩ := h
  have hlt := (List.getElem?_eq_some_iff.mp hb).1
  have hmax := m.addressable
  have hp : (0 : Int) ≤ maxWireInteger := by decide
  refine ⟨Int.natCast_nonneg i, ?_, ?_⟩ <;> omega

/-! ## 2. Layers -/

section Layers

variable {f t : String} {lo lo' : Entries}

theorem registerLayer_spec (hm : m.Complete) {ly : PyVal}
    (h : registerLayer f t gr m ly = .ok (i, es')) :
    ∃ es b tb c, ly.asDict = .ok es ∧ lookup es "buffer_base" = some (.int b) ∧
      lookup es "token_bytes" = some (.int tb) ∧
      lookup es "slot_capacity" = some (.int c) ∧
      m.Registered i b gr (c * tb) ∧
      es' = setKey (setKey es "buffer_base" (.int b)) "buffer_index" (.int i) := by
  obtain ⟨es, hes, h⟩ := of_bind h
  obtain ⟨b, hb, h⟩ := of_bind h
  obtain ⟨tb, ht, h⟩ := of_bind h
  obtain ⟨c, hc, h⟩ := of_bind h
  split at h
  · cases h
  · rename_i ix hf
    obtain ⟨rfl, rfl⟩ := pair_inj h
    exact ⟨es, b, tb, c, hes, (wireItem_dict_eq_ok.mp hb).1,
      (wireItem_dict_eq_ok.mp ht).1, (wireItem_dict_eq_ok.mp hc).1,
      SourceHandshake.registered_of_find hm hf, rfl⟩

/-- A parsed layer has the values of a raw one and lies in the registered buffer that its index
    names. -/
structure LayerOf (m : SourceHandshake) (group : Int) (raw : PyVal) (layer : SplitCompactLayer) :
    Prop where
  same : ∃ es, raw.asDict = .ok es ∧ lookup es "layer_id" = some (.int layer.layerId) ∧
    lookup es "buffer_base" = some (.int layer.bufferBase) ∧
    lookup es "token_bytes" = some (.int layer.tokenBytes) ∧
    lookup es "slot_capacity" = some (.int layer.slotCapacity)
  registered : m.Registered layer.bufferIndex layer.bufferBase group
    (layer.slotCapacity * layer.tokenBytes)

theorem layerOf_parseLayer (hm : m.Complete) {raw : PyVal} {ly : SplitCompactLayer}
    (h : registerLayer f t gr m raw = .ok (i, es'))
    (hp : parseLayer f (.dict es') = .ok ly) : LayerOf m gr raw ly := by
  obtain ⟨es, b, tb, c, hes, hb, ht, hc, hr, rfl⟩ :=
    registerLayer_spec hm h
  simp only [parseLayer, bind_eq_ok, pure_eq_ok, wireItem_dict_eq_ok, wireInt_eq_ok, get_dict,
    Except.ok.injEq] at hp
  obtain ⟨li, ⟨hid, -⟩, base', ⟨hb', -⟩, tb', ⟨ht', -⟩, c', ⟨hc', -⟩, _, rfl, ix, ⟨hi, -⟩,
    rfl⟩ := hp
  -- the keys set last are read back; the others come from the raw layer
  rw [lookup_setKey_self, getD_some, PyVal.int.injEq] at hi
  rw [lookup_setKey_of_ne _ _ (by decide)] at hid hb' ht' hc'
  rw [lookup_setKey_self, Option.some.injEq, PyVal.int.injEq] at hb'
  rw [lookup_setKey_of_ne _ _ (by decide)] at hid ht' hc'
  obtain rfl : tb = tb' := by simpa [ht] using ht'
  obtain rfl : c = c' := by simpa [hc] using hc'
  subst hb' hi
  exact ⟨⟨es, hes, hid, hb, ht, hc⟩, hr⟩

theorem registerLayers_spec (h : registerLayers f t gr m lo = .ok lo') :
    ∃ va rs pairs, lookup lo "layers" = some va ∧ va.iter = .ok rs ∧
      Forall₂ (fun raw p => registerLayer f t gr m raw = .ok p) rs pairs ∧
      lo' = setKey lo "layers" (.list (pairs.map fun p => .dict p.2)) := by
  obtain ⟨va, hv, h⟩ := of_bind h
  obtain ⟨rs, hr, h⟩ := of_bind h
  obtain ⟨pairs, hp, h⟩ := of_bind h
  replace h := of_ensure h
  exact ⟨va, rs, pairs, item_dict_eq_ok.mp hv, hr, mapM_eq_ok.mp hp, (pure_eq_ok.mp h).symm⟩

theorem layersOf_registerLayers (hm : m.Complete) {va : PyVal} {xs : List PyVal}
    {ls : List SplitCompactLayer} (h : registerLayers f t gr m lo = .ok lo')
    (hv : lookup lo' "layers" = some va) (hxs : va.iter = .ok xs)
    (hp : Forall₂ (fun x ly => parseLayer f x = .ok ly) xs ls) :
    ∃ va rs, lookup lo "layers" = some va ∧ va.iter = .ok rs ∧ Forall₂ (LayerOf m gr) rs ls := by
  obtain ⟨va₀, rs, pairs, hva₀, hr, hpa, rfl⟩ := registerLayers_spec h
  obtain rfl : PyVal.list (pairs.map fun p => .dict p.2) = va := by simpa using hv
  obtain rfl : pairs.map (fun p => PyVal.dict p.2) = xs := by simpa [PyVal.iter] using hxs
  rw [forall₂_map_left_iff] at hp
  refine ⟨va₀, rs, hva₀, hr, ?_⟩
  exact forall₂_chain hpa hp fun _ _ _ hraw hl => layerOf_parseLayer hm hraw hl

end Layers

/-! ## 3. Layouts -/

theorem parseCompactLayout_fields {p : SplitCompactLayout}
    (h : parseCompactLayout (.dict es) = .ok (some p)) :
    lookup es "group_id" = some (.int p.groupId) ∧
    lookup es "token_count" = some (.int p.tokenCount) ∧
      (∃ va xs, lookup es "layers" = some va ∧ va.iter = .ok xs ∧
        Forall₂ (fun x ly => parseLayer "compact" x = .ok ly) xs p.layers) ∧
      ∃ va xs, lookup es "runs" = some va ∧ va.iter = .ok xs ∧
        Forall₂ (fun x run => parseRun "compact.logical_token_start"
          "compact.physical_slot_start" "compact.run_token_count" x = .ok run) xs p.runs := by
  simp only [parseCompactLayout, bind_eq_ok, pure_eq_ok, Option.some.injEq, wireItem_dict_eq_ok,
    item_dict_eq_ok, mapM_eq_ok] at h
  obtain ⟨_, hg, _, ht, lv, hlv, lxs, hlxs, _, hl, rv, hrv, rxs, hrxs, _, hr, _, -, rfl⟩ := h
  exact ⟨hg.1, ht.1, ⟨lv, lxs, hlv, hlxs, hl⟩, rv, rxs, hrv, hrxs, hr⟩

theorem parseLatentLayout_fields {p : SplitLatentLayout}
    (h : parseLatentLayout (.dict es) = .ok (some p)) :
    lookup es "group_id" = some (.int p.groupId) ∧
    lookup es "token_count" = some (.int p.tokenCount) ∧
      (∃ va xs, lookup es "layers" = some va ∧ va.iter = .ok xs ∧
        Forall₂ (fun x ly => parseLayer "latent" x = .ok ly) xs p.layers) ∧
      ∃ va xs, lookup es "pages" = some va ∧ va.iter = .ok xs ∧
        Forall₂ (fun x pg => parseLatentPage x = .ok pg) xs p.pages := by
  simp only [parseLatentLayout, bind_eq_ok, pure_eq_ok, Option.some.injEq, wireItem_dict_eq_ok,
    item_dict_eq_ok, mapM_eq_ok] at h
  obtain ⟨pv, hpv, pxs, hpxs, _, hp, _, hg, _, ht, lv, hlv, lxs, hlxs, _, hl, _, -, rfl⟩ := h
  exact ⟨hg.1, ht.1, ⟨lv, lxs, hlv, hlxs, hl⟩, pv, pxs, hpv, hpxs, hp⟩

/-- A parsed compact layout has the values of a raw one, and registered layers. -/
structure CompactOf (m : SourceHandshake) (raw : PyVal) (p : SplitCompactLayout) : Prop where
  valid : CompactValid p
  same : ∃ es, raw.asDict = .ok es ∧ lookup es "group_id" = some (.int p.groupId) ∧
    lookup es "token_count" = some (.int p.tokenCount) ∧
    (∃ value raws, lookup es "layers" = some value ∧ value.iter = .ok raws ∧
      Forall₂ (LayerOf m 1) raws p.layers) ∧
    ∃ value xs, lookup es "runs" = some value ∧ value.iter = .ok xs ∧
      Forall₂ (fun x run => parseRun "compact.logical_token_start"
        "compact.physical_slot_start" "compact.run_token_count" x = .ok run) xs p.runs

/-- A parsed latent layout has the values of a raw one, and registered layers. -/
structure LatentOf (m : SourceHandshake) (raw : PyVal) (p : SplitLatentLayout) : Prop where
  valid : LatentValid p
  same : ∃ es, raw.asDict = .ok es ∧ lookup es "group_id" = some (.int p.groupId) ∧
    lookup es "token_count" = some (.int p.tokenCount) ∧
    (∃ value raws, lookup es "layers" = some value ∧ value.iter = .ok raws ∧
      Forall₂ (LayerOf m 0) raws p.layers) ∧
    ∃ value xs, lookup es "pages" = some value ∧ value.iter = .ok xs ∧
      Forall₂ (fun x page => parseLatentPage x = .ok page) xs p.pages

/-- An optional layout: absent or null on both sides, or described on both. -/
def OptionOf {α : Type} (R : PyVal → α → Prop) (raw : PyVal) (x : Option α) : Prop :=
  if raw.isNone then x = none else ∃ a, x = some a ∧ R raw a

theorem OptionOf.absent (h : raw.isNone = true) : OptionOf R raw none := by
  rw [OptionOf, if_pos h]

theorem OptionOf.present {a : α} (h : ¬ raw.isNone = true) (ha : R raw a) :
    OptionOf R raw (some a) := by
  rw [OptionOf, if_neg h]
  exact ⟨a, rfl, ha⟩

theorem lookup_registerLayers {fa ti : String} {l l' : Entries}
    (h : registerLayers fa ti gr m l = .ok l') (hne : "layers" ≠ key) :
    lookup l' key = lookup l key := by
  obtain ⟨-, -, pairs, -, -, -, rfl⟩ := registerLayers_spec h
  exact lookup_setKey_of_ne l _ hne

variable (hm : m.Complete)
include hm

theorem canonicalizeCompact_spec (h : canonicalizeCompact m sg raw = .ok v) :
    ∃ c, parseCompactLayout v = .ok c ∧ OptionOf (CompactOf m) raw c := by
  unfold canonicalizeCompact at h
  split at h
  · rename_i hn
    obtain rfl : PyVal.none = v := Except.ok.inj h
    exact ⟨none, rfl, .absent hn⟩
  · rename_i hs
    obtain ⟨es, hes, h⟩ := of_bind h
    obtain ⟨gr, -, h⟩ := of_bind h
    replace h := of_ensure h
    obtain ⟨l, hl, h⟩ := of_bind h
    obtain ⟨p, hp, h⟩ := of_bind h
    obtain ⟨hs', rfl⟩ := ensure_bind_pure_eq_ok.mp h
    obtain ⟨c, rfl⟩ := isSome_iff_exists.mp hs'
    obtain ⟨hg, ht, ⟨lv, lxs, hlv, hlxs, hla⟩, hr⟩ :=
      parseCompactLayout_fields hp
    have hre : ∀ key, "layers" ≠ key → lookup l key = lookup es key :=
      fun key => lookup_registerLayers hl
    rw [hre _ (by decide)] at hg ht hr
    exact ⟨some c, hp, .present hs ⟨parseCompactLayout_valid hp, es, hes, hg,
      ht, layersOf_registerLayers hm hl hlv hlxs hla, hr⟩⟩

theorem canonicalizeLatent_spec (h : canonicalizeLatent m sg raw = .ok v) :
    ∃ l, parseLatentLayout v = .ok l ∧ OptionOf (LatentOf m) raw l := by
  unfold canonicalizeLatent at h
  split at h
  · rename_i hn
    obtain rfl : PyVal.none = v := Except.ok.inj h
    exact ⟨none, rfl, .absent hn⟩
  · rename_i hs
    replace h := of_ensure h
    obtain ⟨es, hes, h⟩ := of_bind h
    obtain ⟨la, hl, h⟩ := of_bind h
    obtain ⟨p, hp, h⟩ := of_bind h
    obtain ⟨hs', rfl⟩ := ensure_bind_pure_eq_ok.mp h
    obtain ⟨l, rfl⟩ := isSome_iff_exists.mp hs'
    obtain ⟨hg, ht, ⟨lv, lxs, hlv, hlxs, hla⟩, hpa⟩ :=
      parseLatentLayout_fields hp
    have hr : ∀ key, "layers" ≠ key → lookup la key = lookup es key :=
      fun key => lookup_registerLayers hl
    rw [hr _ (by decide)] at hg ht hpa
    exact ⟨some l, hp, .present hs ⟨parseLatentLayout_valid hp, es, hes, hg,
      ht, layersOf_registerLayers hm hl hlv hlxs hla, hpa⟩⟩

def TotalsForm (es : Entries) (latent : Option SplitLatentLayout) (latentBytes compactBytes : Int)
    (baseTotals : List Int) : Prop :=
  let latentTotal := (lookup es "latent_group_byte_total").getD .none
  (latent = none ∧ baseTotals = [latentBytes, compactBytes]) ∨
    (latent.isSome ∧ baseTotals = [0, compactBytes] ∧ latentTotal = .int latentBytes ∧
      InWireRange latentBytes) ∨
    (latent.isSome ∧ latentTotal.isNone ∧ baseTotals = [latentBytes, compactBytes])

omit hm in
theorem totalsForm_of_accepted {f : PyVal} {la : Option SplitLatentLayout} {lb cb : Int}
    (h : totalsAccepted f la lb cb bt ((lookup es "latent_group_byte_total").getD .none)
      = .ok true) :
    TotalsForm es la lb cb bt := by
  obtain ⟨e, hext, h⟩ := of_bind h
  have hf := of_decide_eq_true (pure_eq_ok.mp h)
  rcases hf with ⟨hl, -, ht⟩ | he | ⟨hl, -, hn, ht⟩
  · exact .inl ⟨isNone_iff_eq_none.mp hl, ht⟩
  · subst he
    unfold extensionValid at hext
    split at hext
    · rename_i hc
      obtain ⟨total, hto, hext⟩ := of_bind hext
      obtain rfl := of_decide_eq_true (pure_eq_ok.mp hext)
      obtain ⟨hint, hr⟩ := wireInt_eq_ok.mp hto
      exact .inr (.inl ⟨hc.1, hc.2.1, hint, hr⟩)
    · cases hext
  · exact .inr (.inr ⟨hl, hn, ht⟩)

/-! ## 4. The two kinds of canonical descriptors -/

/-- The keys that `canonicalizeLayouts` writes. -/
def layoutKeys : List String :=
  ["group_byte_totals", "compact_layout", "latent_layout", "content_diagnostics"]

/-- A canonical descriptor with layouts `c` and `l`, made from the raw descriptor `es`. -/
structure LayoutCanonical (m : SourceHandshake) (es es' : Entries)
    (c : Option SplitCompactLayout) (l : Option SplitLatentLayout) (baseTotals : List Int) :
    Prop where
  hasLayout : ¬ (((lookup es "compact_layout").getD .none).isNone ∧
    ((lookup es "latent_layout").getD .none).isNone)
  noSegments : ((lookup es "segments").getD .none).truthy = false
  compact : parseCompactLayout ((lookup es' "compact_layout").getD .none) = .ok c
  compactOf : OptionOf (CompactOf m) ((lookup es "compact_layout").getD .none) c
  latent : parseLatentLayout ((lookup es' "latent_layout").getD .none) = .ok l
  latentOf : OptionOf (LatentOf m) ((lookup es "latent_layout").getD .none) l
  totals : lookup es' "group_byte_totals" = some (.list (baseTotals.map .int))
  inRange : ∀ n ∈ baseTotals, InWireRange n
  form : TotalsForm es l ((l.map (·.bytes)).getD 0) ((c.map (·.bytes)).getD 0) baseTotals
  rest : ∀ key ∉ layoutKeys, lookup es' key = lookup es key

omit hm in
theorem lookup_setDiagnostics (es : Entries) (d : Option PyVal)
    (hne : "content_diagnostics" ≠ key) : lookup (setDiagnostics es d) key = lookup es key := by
  cases d with
  | none => exact lookup_popKey_of_ne es hne
  | some v => exact lookup_setKey_of_ne es v hne

theorem canonicalizeLayouts_spec
    (hs : ¬ (((lookup es "compact_layout").getD .none).isNone ∧
      ((lookup es "latent_layout").getD .none).isNone)) (h : canonicalizeLayouts m sg es = .ok v)
    : ∃ es' c l bt, v = .dict es' ∧ LayoutCanonical m es es' c l bt := by
  simp only [canonicalizeLayouts, get_dict, ok_bind, item_dict_eq_ok, bind_eq_ok, ensure_eq_ok,
    pure_eq_ok] at h
  obtain ⟨_, ⟨hseg, -⟩, co, hco, latent, hla, c, hc, l, hl, tv, htv, bt, hb, _, -, a, ha, _, hacc,
    ds, -, rfl⟩ := h
  subst hacc
  obtain ⟨c', hc', hcof⟩ := canonicalizeCompact_spec hm hco
  obtain rfl : c = c' := Except.ok.inj (hc.symm.trans hc')
  obtain ⟨l', hl', hlof⟩ := canonicalizeLatent_spec hm hla
  obtain rfl : l = l' := Except.ok.inj (hl.symm.trans hl')
  refine ⟨_, c, l, bt, rfl, hs, by simpa using hseg, ?_, hcof, ?_, hlof, ?_,
    wireInts_eq_ok hb, totalsForm_of_accepted ha, ?_⟩
  · rwa [lookup_setDiagnostics _ _ (by decide), lookup_setKey_of_ne _ _ (by decide),
      lookup_setKey_self]
  · rwa [lookup_setDiagnostics _ _ (by decide), lookup_setKey_self]
  · rw [lookup_setDiagnostics _ _ (by decide), lookup_setKey_of_ne _ _ (by decide),
      lookup_setKey_of_ne _ _ (by decide), lookup_setKey_self]
  · intro key hk
    simp only [layoutKeys, mem_cons, not_mem_nil, or_false, not_or] at hk
    rw [lookup_setDiagnostics _ _ (Ne.symm hk.2.2.2), lookup_setKey_of_ne _ _ (Ne.symm hk.2.2.1),
      lookup_setKey_of_ne _ _ (Ne.symm hk.2.1), lookup_setKey_of_ne _ _ (Ne.symm hk.1)]

/-- A segment with a positive base and length lies in the registered buffer of its group that its
    index names. -/
structure SegmentRegistered (m : SourceHandshake) (s : SplitSourceSegment) : Prop where
  base : 0 < s.sourceBufferBase
  offset : 0 ≤ s.sourceOffset
  length : 0 < s.length
  buffer : m.Registered s.sourceBufferIndex s.sourceBufferBase s.groupId (s.sourceOffset + s.length)

theorem registerExtent_spec {gi : Int} (hg : InWireRange gi) {s : SplitSourceSegment}
    (h : registerExtent m es gi = .ok (s, es')) :
    s.groupId = gi ∧ lookup es "length" = some (.int s.length) ∧ SegmentRegistered m s ∧
      parseSourceSegment (.dict es') = .ok s := by
  simp only [registerExtent, bind_eq_ok, ensure_eq_ok, wireItem_dict_eq_ok] at h
  obtain ⟨b, ⟨-, hb⟩, off, ⟨-, ho⟩, len, ⟨hl, hle⟩, _, hp, _, -, _, -, h⟩ := h
  split at h
  · cases h
  · rename_i ix hf
    obtain ⟨rfl, rfl⟩ := pair_inj h
    have hr := SourceHandshake.registered_of_find hm hf
    refine ⟨rfl, hl, ⟨hp.1, hp.2.1, hp.2.2, hr⟩, ?_⟩
    simp only [parseSourceSegment, bind_eq_ok, pure_eq_ok, wireItem_dict_eq_ok]
    refine ⟨gi, ⟨?_, hg⟩, ix, ⟨?_, hr.inWireRange.2⟩, b, ⟨?_, hb⟩, off, ⟨?_, ho⟩, len,
      ⟨?_, hle⟩, rfl⟩
    · simp [lookup_setKey_of_ne]
    · simp
    · simp [lookup_setKey_of_ne]
    · simp [lookup_setKey_of_ne]
    · simp [lookup_setKey_of_ne]

def rawExtent (supportedGroups : List Int) (segment : PyVal) : Option (Int × Int) :=
  match segment.asDict with
  | .ok es =>
    match lookup es "group_id", lookup es "length" with
    | some (.int groupId), some (.int length) =>
      if groupId ∈ supportedGroups then some (groupId, length) else none
    | _, _ => none
  | .error _ => none

theorem registerSegment_spec {se : PyVal} {r : Option (SplitSourceSegment × Entries)}
    (h : registerSegment m sg se = .ok r) :
    rawExtent sg se = r.map (fun p => (p.1.groupId, p.1.length)) ∧
      ∀ p ∈ r, SegmentRegistered m p.1 ∧ parseSourceSegment (.dict p.2) = .ok p.1 := by
  obtain ⟨es, hes, h⟩ := of_bind h
  obtain ⟨gi, hgr, h⟩ := of_bind h
  obtain ⟨hl, hr⟩ := wireItem_dict_eq_ok.mp hgr
  simp only [rawExtent, hes, hl]
  split at h
  · rename_i hmem
    obtain ⟨⟨s, es'⟩, hs, h⟩ := of_bind h
    obtain rfl := pure_eq_ok.mp h
    obtain ⟨hg, hle, hreg, hpa⟩ := registerExtent_spec hm hr hs
    simp only [hle, if_pos hmem, map_some, hg, true_and]
    intro p hp
    obtain rfl : (s, es') = p := Option.some.inj hp
    exact ⟨hreg, hpa⟩
  · rename_i hmem
    obtain rfl := pure_eq_ok.mp h
    refine ⟨?_, by simp⟩
    split <;> simp_all

theorem registerSegments_spec {xs : List PyVal} {f : List (Option (SplitSourceSegment × Entries))}
    (h : Forall₂ (fun x r => registerSegment m sg x = .ok r) xs f) :
    xs.filterMap (rawExtent sg) = ((f.filterMap id).map (·.1)).map
      (fun s => (s.groupId, s.length)) ∧
      ∀ p ∈ f.filterMap id, SegmentRegistered m p.1 ∧ parseSourceSegment (.dict p.2) = .ok p.1 := by
  induction h with
  | nil => simp
  | @cons x r _ rs hr _ ih =>
    obtain ⟨hraw, hok⟩ := registerSegment_spec hm hr
    cases r with
    | none => simpa [filterMap_cons, hraw] using ih
    | some p =>
      refine ⟨by simpa [filterMap_cons, hraw] using ih.1, fun q hq => ?_⟩
      have hq' : q = p ∨ some q ∈ rs := by simpa [filterMap_cons] using hq
      rcases hq' with hq | hq
      · exact hq ▸ hok p rfl
      · exact ih.2 q (by simpa using hq)

/-- A canonical descriptor with the segments `segments`, made from the raw descriptor `es`. -/
structure PlainCanonical (m : SourceHandshake) (supportedGroups : List Int) (es es' : Entries)
    (segments : List SplitSourceSegment) (totals : Int × Int) : Prop where
  noLayout : ((lookup es "compact_layout").getD .none).isNone ∧
    ((lookup es "latent_layout").getD .none).isNone
  raws : ∃ value xs, lookup es "segments" = some value ∧ value.iter = .ok xs ∧
    xs.filterMap (rawExtent supportedGroups) = segments.map fun s => (s.groupId, s.length)
  written : ∃ xs, lookup es' "segments" = some (.list xs) ∧
    Forall₂ (fun x s => parseSourceSegment x = .ok s) xs segments
  registered : ∀ s ∈ segments, SegmentRegistered m s
  sum : segments.foldlM addTotal (0, 0) = .ok totals
  totals : lookup es' "group_byte_totals" = some (.list [.int totals.1, .int totals.2])
  rest : ∀ key ∉ ["segments", "group_byte_totals"], lookup es' key = lookup es key

theorem canonicalizeSegments_spec
    (hn : ((lookup es "compact_layout").getD .none).isNone ∧
      ((lookup es "latent_layout").getD .none).isNone) (h : canonicalizeSegments m sg es = .ok v)
    : ∃ es' ss ts, v = .dict es' ∧ PlainCanonical m sg es es' ss ts := by
  obtain ⟨va, hv, h⟩ := of_bind h
  obtain ⟨xs, hxs, h⟩ := of_bind h
  obtain ⟨found, hf, h⟩ := of_bind h
  replace h := of_ensure h
  obtain ⟨ts, ht, rfl⟩ := bind_pure_eq_ok.mp h
  have hr := registerSegments_spec hm (mapM_eq_ok.mp hf)
  refine ⟨_, (found.filterMap id).map (·.1), ts, rfl, hn, ⟨va, xs, item_dict_eq_ok.mp hv,
    hxs, hr.1⟩, ⟨(found.filterMap id).map fun s => .dict s.2, ?_, ?_⟩, ?_, ht, by simp, ?_⟩
  · rw [lookup_setKey_of_ne _ _ (by decide), lookup_setKey_self]
  · rw [forall₂_map_left_iff, forall₂_map_right_iff]
    exact forall₂_same.mpr fun p hp => (hr.2 p hp).2
  · intro s hs
    obtain ⟨p, hp, rfl⟩ := mem_map.mp hs
    exact (hr.2 p hp).1
  · intro key hk
    simp only [mem_cons, not_mem_nil, or_false, not_or] at hk
    rw [lookup_setKey_of_ne _ _ (Ne.symm hk.2), lookup_setKey_of_ne _ _ (Ne.symm hk.1)]

omit hm

theorem canonicalizeOne_spec (h : canonicalizeOne md sg raw = .ok v) :
    ∃ es tpRank dr m es', raw = .dict es ∧ v = .dict es' ∧ wireItem raw "tp_rank" "source.tp_rank"
      = .ok tpRank ∧ wireItem raw "dp_rank" "source.dp_rank" = .ok dr ∧
      md (tpRank, dr) = some m ∧
      ((∃ c l bt, LayoutCanonical m es es' c l bt) ∨
        ∃ ss ts, PlainCanonical m sg es es' ss ts) := by
  obtain ⟨tpRank, htp, h⟩ := of_bind h
  obtain ⟨dr, hdp, h⟩ := of_bind h
  obtain ⟨es, rfl⟩ := exists_dict_of_wireItem htp
  split at h
  · cases h
  · rename_i m hme
    obtain ⟨hm, h⟩ := ensure_bind_eq_ok.mp h
    simp only [get_dict, ok_bind, PyVal.asDict] at h
    split at h
    · rename_i hn
      obtain ⟨es', ss, ts, rfl, hp⟩ := canonicalizeSegments_spec hm hn h
      exact ⟨es, tpRank, dr, m, es', rfl, rfl, htp, hdp, hme, .inr ⟨_, _, hp⟩⟩
    · rename_i hs
      obtain ⟨es', c, l, bt, rfl, hl⟩ := canonicalizeLayouts_spec hm hs h
      exact ⟨es, tpRank, dr, m, es', rfl, rfl, htp, hdp, hme, .inl ⟨_, _, _, hl⟩⟩

/-! ## 5. Descriptors of a message -/

def rawDescriptors (descriptor : PyVal) : Except PyExc (List PyVal) := do
  (← descriptor.get "descriptors" (.tuple [descriptor])).iter

theorem canonicalizeSourceDescriptor_spec (h : canonicalizeSourceDescriptor de md sg = .ok out) :
    ∃ rs n, rawDescriptors de = .ok rs ∧
      Forall₂ (fun raw v => canonicalizeOne md sg raw = .ok v) rs n ∧
      out = .dict [(.str "descriptors", .list n)] := by
  unfold canonicalizeSourceDescriptor at h
  split at h
  · simp only [get_dict, ok_bind] at h
    obtain ⟨rs, hr, h⟩ := of_bind h
    obtain ⟨n, hn, rfl⟩ := bind_pure_eq_ok.mp h
    exact ⟨rs, n, hr, mapM_eq_ok.mp hn, rfl⟩
  · cases h

theorem parseSourceDescriptor_canonical {n : List PyVal} {r : Option (List SplitSourceDescriptor)} :
    parseSourceDescriptor (.dict [(.str "descriptors", .list n)]) = .ok r ↔
      ∃ ds, r = some ds ∧ Forall₂ (fun v d => parseOneDescriptor v = .ok d) n ds ∧
        (∀ d ∈ ds, DescriptorValid d) ∧ (ds.map fun d => (d.tpRank, d.dpRank)).Nodup := by
  have hl : lookup [(.str "descriptors", .list n)] "descriptors"
      = some (.list n) := by simp [lookup]
  simp only [parseSourceDescriptor, get_dict, hl, getD_some, ok_bind, PyVal.iter,
    bind_eq_ok, pure_eq_ok, mapM_eq_ok, checkDescriptors_eq_ok]
  constructor
  · rintro ⟨ds, hds, _, ⟨hv, hn, _⟩, hr⟩
    exact ⟨ds, hr.symm, hds, hv, hn⟩
  · rintro ⟨ds, hr, hds, hv, hn⟩
    exact ⟨ds, hds, (), ⟨hv, hn, by simp⟩, hr.symm⟩

theorem LayoutCanonical.segments_eq_nil {c : Option SplitCompactLayout}
    {l : Option SplitLatentLayout}
    (h : LayoutCanonical m es es' c l bt) {d : SplitSourceDescriptor} (hd : ReadFrom es' d) :
    d.segments = [] := by
  obtain ⟨xs, hxs, hs⟩ := hd.segments
  rw [h.rest _ (by decide)] at hxs
  have hn : xs = [] := by
    have hf := h.noSegments
    cases hl : lookup es "segments" with
    | none => simpa [hl, PyVal.iter] using hxs.symm
    | some v =>
      rw [hl, getD_some] at hxs hf
      exact iter_eq_nil_of_not_truthy hf hxs
  exact forall₂_nil_left_iff.mp (hn ▸ hs)

theorem eq_none_of_isNone (h : v.isNone = true) : v = .none := by
  cases v with
  | none => rfl
  | _ => cases h

end VllmDual.Split
