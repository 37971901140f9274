/-
  Subject:   WHICH CANONICAL DESCRIPTORS THE DECODER ACCEPTS.

  The prefiller canonicalizes what it publishes, the decoder parses and checks it again, and the
  two do not check the same. What the decoder needs beyond is a condition on the raw message:

  * `canonical_accepted_iff` -- a canonical message is read in full exactly under it;
  * `nullSegments_rejected` -- a compact descriptor whose `segments` are null is published and
    cannot be parsed.
-/
import VllmDual.Split.Exact

namespace VllmDual.Split

open Outcome List
open Option hiding filter_map

/-! ## 1. What is read back, and when -/

/-- The decoder's descriptor has the ranks and layouts of the raw one, totals that are the bytes it
    describes, and every segment and layer in the registered buffer that its index names. -/
structure Published (metadata : Int × Int → Option SourceHandshake) (raw : PyVal)
    (d : SplitSourceDescriptor) : Prop where
  tpRank : wireItem raw "tp_rank" "source.tp_rank" = .ok d.tpRank
  dpRank : wireItem raw "dp_rank" "source.dp_rank" = .ok d.dpRank
  totals : d.groupByteTotals = d.describedTotals
  registered : ∃ m es, metadata (d.tpRank, d.dpRank) = some m ∧ raw = .dict es ∧
    OptionOf (CompactOf m) ((lookup es "compact_layout").getD .none) d.compactLayout ∧
    OptionOf (LatentOf m) ((lookup es "latent_layout").getD .none) d.latentLayout ∧
    ∀ s ∈ d.segments, SegmentRegistered m s

def HasLayout (es : Entries) : Prop :=
  ¬ (((lookup es "compact_layout").getD .none).isNone ∧
    ((lookup es "latent_layout").getD .none).isNone)

def extentBytes (group : Int) (extents : List (Int × Int)) : Int :=
  ((extents.filter fun e => e.1 = group).map (·.2)).sum

structure AcceptableOne (supportedGroups : List Int) (es : Entries) : Prop where
  /-- Beside a layout, `segments` is absent or can be iterated: not null, false or zero. -/
  iterable : HasLayout es → ∀ v, lookup es "segments" = some v → v.iterable = true
  /-- Beside a latent layout, `latent_group_byte_total` is absent or not null. -/
  notNull : ¬ ((lookup es "latent_layout").getD .none).isNone →
    ∀ v, lookup es "latent_group_byte_total" = some v → v.isNone = false
  /-- Without a layout, supported segments are of group 0 or 1, and a group's lengths sum to an
      integer that can be sent. -/
  extents : ¬ HasLayout es → ∀ v xs, lookup es "segments" = some v → v.iter = .ok xs →
    (∀ e ∈ xs.filterMap (rawExtent supportedGroups), e.1 = 0 ∨ e.1 = 1) ∧
      ∀ g, g = 0 ∨ g = 1 → extentBytes g (xs.filterMap (rawExtent supportedGroups)) ≤ maxWireInteger

def rawRank (raw : PyVal) : Option (Int × Int) :=
  match wireItem raw "tp_rank" "source.tp_rank", wireItem raw "dp_rank" "source.dp_rank" with
  | .ok tpRank, .ok dpRank => some (tpRank, dpRank)
  | _, _ => none

def Acceptable (supportedGroups : List Int) (descriptor : PyVal) : Prop :=
  ∃ raws, rawDescriptors descriptor = .ok raws ∧ (raws.map rawRank).Nodup ∧
    ∀ raw ∈ raws, ∀ es, raw = .dict es → AcceptableOne supportedGroups es

/-! ## 2. Descriptors with layouts -/

section Layout

variable {m : SourceHandshake} {sg : List Int} {es es' : Entries} {c : Option SplitCompactLayout}
  {l : Option SplitLatentLayout} {baseTotals : List Int} {d : SplitSourceDescriptor}

theorem optionOf_isSome {α : Type} {R : PyVal → α → Prop} {raw : PyVal} {x : Option α}
    (h : OptionOf R raw x) : x.isSome ↔ ¬ raw.isNone = true := by
  unfold OptionOf at h
  split at h
  · rename_i hn
    simp [h, hn]
  · rename_i hs
    obtain ⟨a, rfl, -⟩ := h
    simp [hs]

variable (h : LayoutCanonical m es es' c l baseTotals)
include h

theorem LayoutCanonical.sourceTotals
    (hnu : ¬ ((lookup es "latent_layout").getD .none).isNone →
      ∀ v, lookup es "latent_group_byte_total" = some v → v.isNone = false) :
    sourceGroupByteTotals (.dict es') l = .ok [((l.map (·.bytes)).getD 0),
      ((c.map (·.bytes)).getD 0)] := by
  have hb : wireInts (.list (baseTotals.map .int)) "source.group_byte_total" = .ok baseTotals :=
    wireInts_list _ h.inRange
  have hk := h.rest "latent_group_byte_total" (by decide)
  have hi := item_dict_eq_ok.mpr h.totals
  rw [sourceGroupByteTotals, hi, ok_bind, hb, ok_bind]
  have hs := optionOf_isSome h.latentOf
  rcases h.form with ⟨rfl, rfl⟩ | ⟨hl, rfl, ht, hr⟩ | ⟨hl, hn, rfl⟩
  · rfl
  · -- the extension: its key is there, with the bytes of the latent layout
    obtain ⟨latent, rfl⟩ := isSome_iff_exists.mp hl
    have hlo : lookup es "latent_group_byte_total"
        = some (.int (((some latent).map (·.bytes)).getD 0)) := by
      cases hv : lookup es "latent_group_byte_total" with
      | none => simp [hv] at ht
      | some v => rw [← ht, hv, getD_some]
    have hh : hasKey es' "latent_group_byte_total" = true := by
      rw [hasKey_eq_isSome, hk, hlo]
      rfl
    have hw : wireItem (.dict es') "latent_group_byte_total" "source.latent_group_byte_total"
        = .ok (((some latent).map (·.bytes)).getD 0) :=
      wireItem_dict_eq_ok.mpr ⟨hk.trans hlo, hr⟩
    simp only [hh, if_true]
    rw [ensure_pos (by simp), ok_bind, hw, ok_bind]
    rfl
  · -- legacy hybrid: the key is absent
    obtain ⟨latent, rfl⟩ := isSome_iff_exists.mp hl
    have hlo : lookup es "latent_group_byte_total" = none := by
      cases hv : lookup es "latent_group_byte_total" with
      | none => rfl
      | some v =>
        have hf := hnu (hs.mp rfl) v hv
        simp [hv, hf] at hn
    have hh : hasKey es' "latent_group_byte_total" = false := by
      rw [hasKey_eq_isSome, hk, hlo]
      rfl
    simp [hh, pure, Except.pure]

omit h in
theorem LayerOf.resolved {gr : Int} {rs : List PyVal} {ls : List SplitCompactLayer}
    (h : Forall₂ (LayerOf m gr) rs ls) : ∀ ly ∈ ls, 0 ≤ ly.bufferIndex := by
  intro ly hl
  obtain ⟨i, hi, rfl⟩ := mem_iff_getElem.mp hl
  have hla := (forall₂_iff_get.mp h).2 i (h.length_eq ▸ hi) hi
  exact hla.registered.inWireRange.1

theorem LayoutCanonical.read (hd : ReadFrom es' d) :
    d.compactLayout = c ∧ d.latentLayout = l ∧ d.segments = [] ∧
      ∀ v, lookup es "segments" = some v → v.iterable = true := by
  refine ⟨Except.ok.inj (hd.compact.symm.trans h.compact),
    Except.ok.inj (hd.latent.symm.trans h.latent), h.segments_eq_nil hd, fun v hv => ?_⟩
  obtain ⟨xs, hxs, -⟩ := hd.segments
  rw [h.rest _ (by decide), hv, getD_some] at hxs
  simp [PyVal.iterable, hxs]

theorem LayoutCanonical.not_null (hd : ReadFrom es' d)
    (hla : ¬ ((lookup es "latent_layout").getD .none).isNone) {v : PyVal}
    (hv : lookup es "latent_group_byte_total" = some v) : v.isNone = false := by
  have hk : lookup es' "latent_group_byte_total" = some v :=
    (h.rest _ (by decide)).trans hv
  have hh : hasKey es' "latent_group_byte_total" = true := by
    rw [hasKey_eq_isSome, hk]
    rfl
  have ht := hd.totals
  obtain ⟨latent, hl⟩ := isSome_iff_exists.mp ((optionOf_isSome h.latentOf).mpr hla)
  rw [(h.read hd).2.1, hl, sourceGroupByteTotals] at ht
  obtain ⟨_, -, ht⟩ := of_bind ht
  obtain ⟨_, -, ht⟩ := of_bind ht
  simp only [hh, if_true] at ht
  replace ht := of_ensure ht
  obtain ⟨n, hn, -⟩ := of_bind ht
  have hint := (wireItem_dict_eq_ok.mp hn).1
  rw [hk] at hint
  rw [some.inj hint]
  rfl

theorem LayoutCanonical.parse_iff {tr dr : Int}
    (htp : wireItem (.dict es) "tp_rank" "source.tp_rank" = .ok tr)
    (hdp : wireItem (.dict es) "dp_rank" "source.dp_rank" = .ok dr) :
    (∃ d, parseOneDescriptor (.dict es') = .ok d ∧ DescriptorValid d) ↔ AcceptableOne sg es := by
  constructor
  · intro ⟨d, hd, _⟩
    have hr := readFrom_of_parseOneDescriptor hd
    exact ⟨fun _ => (h.read hr).2.2.2, fun hla v hv => h.not_null hr hla hv,
      fun hno => absurd h.hasLayout hno⟩
  · intro hok
    -- the segments are falsy, so they are empty when they can be iterated
    have hir : ((lookup es' "segments").getD (.tuple [])).iter = .ok [] := by
      rw [h.rest _ (by decide)]
      have hf := h.noSegments
      cases hv : lookup es "segments" with
      | none => rfl
      | some v =>
        have hi := hok.iterable h.hasLayout v hv
        rw [hv, getD_some] at hf
        unfold PyVal.iterable at hi
        split at hi
        · rename_i xs hxs
          rw [getD_some, hxs, iter_eq_nil_of_not_truthy hf hxs]
        · cases hi
    have hra : ∀ key, key ∉ layoutKeys → ∀ field n, wireItem (.dict es) key field = .ok n →
        wireItem (.dict es') key field = .ok n := by
      intro key hk field n hn
      obtain ⟨hlo, hrn⟩ := wireItem_dict_eq_ok.mp hn
      exact wireItem_dict_eq_ok.mpr ⟨(h.rest key hk).trans hlo, hrn⟩
    have hr : ReadFrom es'
        ⟨[], [((l.map (·.bytes)).getD 0), ((c.map (·.bytes)).getD 0)], tr, dr, c, l, none⟩ :=
      ⟨h.latent, h.compact, ⟨[], hir, .nil⟩, h.sourceTotals hok.notNull,
        hra _ (by decide) _ _ htp, hra _ (by decide) _ _ hdp⟩
    obtain ⟨ds, hpa⟩ := hr.parseOneDescriptor
    refine ⟨_, hpa, rfl, by simp, fun p hp => ?_, fun p hp => ?_, by
      simp [SplitSourceDescriptor.describedTotals, segmentBytes]⟩
    · obtain rfl : c = some p := hp
      have hof := h.compactOf
      rw [OptionOf, if_neg ((optionOf_isSome hof).mp rfl)] at hof
      obtain ⟨_, hp', hof⟩ := hof
      obtain rfl := some.inj hp'
      obtain ⟨_, _, _, _, ⟨_, _, _, _, hl⟩, _⟩ := hof.same
      exact LayerOf.resolved hl
    · obtain rfl : l = some p := hp
      have hof := h.latentOf
      rw [OptionOf, if_neg ((optionOf_isSome hof).mp rfl)] at hof
      obtain ⟨_, hp', hof⟩ := hof
      obtain rfl := some.inj hp'
      obtain ⟨_, _, _, _, ⟨_, _, _, _, hl⟩, _⟩ := hof.same
      exact LayerOf.resolved hl

end Layout

/-! ## 3. Plain descriptors -/

section Plain

variable {m : SourceHandshake} {supportedGroups : List Int} {es es' : Entries}
  {segments : List SplitSourceSegment} {totals : Int × Int}

theorem extentBytes_eq_segmentBytes (gr : Int) (segments : List SplitSourceSegment) :
    extentBytes gr (segments.map fun s => (s.groupId, s.length)) = segmentBytes gr segments := by
  simp [extentBytes, segmentBytes, filter_map, Function.comp_def]

theorem foldlM_addTotal (st : Int × Int) {segments : List SplitSourceSegment}
    (h : ∀ s ∈ segments, s.groupId = 0 ∨ s.groupId = 1) :
    segments.foldlM addTotal st = .ok (st.1 + segmentBytes 0 segments,
      st.2 + segmentBytes 1 segments) := by
  induction segments generalizing st with
  | nil => simp [segmentBytes, pure, Except.pure]
  | cons s segments ih =>
    have hr := fun t => ih t fun x hx => h x (mem_cons_of_mem _ hx)
    rw [foldlM_cons]
    rcases h s mem_cons_self with hs | hs
    · have hst : addTotal st s = .ok (st.1 + s.length, st.2) := by simp [addTotal, hs]
      rw [hst, ok_bind, hr]
      simp [segmentBytes, hs, add_assoc]
    · have hst : addTotal st s = .ok (st.1, st.2 + s.length) := by simp [addTotal, hs]
      rw [hst, ok_bind, hr]
      simp [segmentBytes, hs, add_assoc]

theorem segmentBytes_nonneg {segments : List SplitSourceSegment}
    (h : ∀ s ∈ segments, 0 < s.length) (gr : Int) : 0 ≤ segmentBytes gr segments := by
  refine sum_nonneg fun n hn => ?_
  obtain ⟨s, hs, rfl⟩ := mem_map.mp hn
  exact (h s (mem_of_mem_filter hs)).le

variable (h : PlainCanonical m supportedGroups es es' segments totals)
include h

theorem PlainCanonical.read {d : SplitSourceDescriptor} (hd : ReadFrom es' d) :
    d.compactLayout = none ∧ d.latentLayout = none ∧ d.segments = segments ∧
      d.groupByteTotals = [totals.1, totals.2] ∧ InWireRange totals.1 ∧ InWireRange totals.2 := by
  have hc := hd.compact
  have hla := hd.latent
  rw [h.rest _ (by decide), eq_none_of_isNone h.noLayout.1] at hc
  rw [h.rest _ (by decide), eq_none_of_isNone h.noLayout.2] at hla
  have hl : d.latentLayout = none := (Except.ok.inj hla).symm
  obtain ⟨xs, hxs, hs⟩ := h.written
  obtain ⟨ys, hys, hs'⟩ := hd.segments
  obtain rfl : xs = ys := by simpa [hxs, PyVal.iter] using hys
  -- both lists are what the same loop returns
  have hsa : d.segments = segments :=
    Except.ok.inj ((mapM_eq_ok.mpr hs').symm.trans (mapM_eq_ok.mpr hs))
  have ht := hd.totals
  rw [hl, sourceGroupByteTotals, item_dict_eq_ok.mpr h.totals, ok_bind] at ht
  obtain ⟨ns, hns, ht⟩ := of_bind ht
  have hp := hns
  simp only [wireInts, PyVal.iter, ok_bind, mapM_eq_ok, forall₂_cons_left_iff,
    forall₂_nil_left_iff, wireInt_eq_ok, PyVal.int.injEq] at hp
  obtain ⟨_, _, ⟨rfl, hr₁⟩, ⟨_, _, ⟨rfl, hr₂⟩, rfl, rfl⟩, rfl⟩ := hp
  exact ⟨(Except.ok.inj hc).symm, hl, hsa, (pure_eq_ok.mp ht).symm, hr₁, hr₂⟩

theorem PlainCanonical.totals_eq (hg : ∀ s ∈ segments, s.groupId = 0 ∨ s.groupId = 1) :
    totals = (segmentBytes 0 segments, segmentBytes 1 segments) := by
  have hs := h.sum
  rw [foldlM_addTotal _ hg, zero_add, zero_add] at hs
  exact (Except.ok.inj hs).symm

theorem PlainCanonical.parse_iff {tr dr : Int}
    (htp : wireItem (.dict es) "tp_rank" "source.tp_rank" = .ok tr)
    (hdp : wireItem (.dict es) "dp_rank" "source.dp_rank" = .ok dr) :
    (∃ d, parseOneDescriptor (.dict es') = .ok d ∧ DescriptorValid d) ↔
      AcceptableOne supportedGroups es := by
  obtain ⟨va, xs, hva, hxs, het⟩ := h.raws
  have hno : ¬ HasLayout es := fun hh => hh h.noLayout
  constructor
  · intro ⟨d, hd, hvl⟩
    obtain ⟨-, -, hse, -, hr₁, hr₂⟩ := h.read (readFrom_of_parseOneDescriptor hd)
    have hgr : ∀ s ∈ segments, s.groupId = 0 ∨ s.groupId = 1 :=
      fun s hs => (hvl.segments s (hse ▸ hs)).1
    obtain rfl := h.totals_eq hgr
    refine ⟨fun hh => absurd hh hno, fun hl => absurd h.noLayout.2 hl,
      fun _ v ys hv hys => ?_⟩
    obtain rfl : va = v := some.inj (hva.symm.trans hv)
    obtain rfl : xs = ys := Except.ok.inj (hxs.symm.trans hys)
    rw [het]
    refine ⟨fun e he => ?_, fun g hg => ?_⟩
    · obtain ⟨s, hs, rfl⟩ := mem_map.mp he
      exact hgr s hs
    · rw [extentBytes_eq_segmentBytes]
      rcases hg with rfl | rfl
      · exact hr₁.2
      · exact hr₂.2
  · intro hok
    obtain ⟨hgr, hsu⟩ := hok.extents hno va xs hva hxs
    rw [het] at hgr hsu
    simp only [extentBytes_eq_segmentBytes] at hsu
    have hgp : ∀ s ∈ segments, s.groupId = 0 ∨ s.groupId = 1 :=
      fun s hs => hgr (s.groupId, s.length) (mem_map.mpr ⟨s, hs, rfl⟩)
    obtain rfl := h.totals_eq hgp
    have hr : ∀ g, g = 0 ∨ g = 1 → InWireRange (segmentBytes g segments) := by
      intro g hg
      have hnn := segmentBytes_nonneg (fun s hs => (h.registered s hs).length) g
      have hm : (0 : Int) ≤ maxWireInteger := by decide
      exact ⟨by omega, hsu g hg⟩
    have hra : ∀ key, key ∉ ["segments", "group_byte_totals"] → ∀ field n,
        wireItem (.dict es) key field = .ok n → wireItem (.dict es') key field = .ok n := by
      intro key hk field n hn
      obtain ⟨hlo, hr⟩ := wireItem_dict_eq_ok.mp hn
      exact wireItem_dict_eq_ok.mpr ⟨(h.rest key hk).trans hlo, hr⟩
    have ht : sourceGroupByteTotals (.dict es') none
        = .ok [segmentBytes 0 segments, segmentBytes 1 segments] := by
      rw [sourceGroupByteTotals, item_dict_eq_ok.mpr h.totals, ok_bind]
      have hwi : wireInts (.list ([segmentBytes 0 segments, segmentBytes 1 segments].map .int))
          "source.group_byte_total" = .ok _ := wireInts_list _ (by simp [hr])
      rw [map_cons, map_cons, map_nil] at hwi
      rw [hwi, ok_bind]
      rfl
    obtain ⟨ys, hys, hw⟩ := h.written
    have hre : ReadFrom es' ⟨segments, [segmentBytes 0 segments, segmentBytes 1 segments], tr,
        dr, none, none, none⟩ := by
      refine ⟨?_, ?_, ⟨ys, by rw [hys]; rfl, hw⟩, ht, hra _ (by decide) _ _ htp,
        hra _ (by decide) _ _ hdp⟩
      · rw [h.rest _ (by decide), eq_none_of_isNone h.noLayout.2]
        rfl
      · rw [h.rest _ (by decide), eq_none_of_isNone h.noLayout.1]
        rfl
    obtain ⟨ds, hp⟩ := hre.parseOneDescriptor
    refine ⟨_, hp, rfl, fun s hs => ?_, by simp, by simp, by
      simp [SplitSourceDescriptor.describedTotals]⟩
    have hreg := h.registered s hs
    exact ⟨hgp s hs, hreg.buffer.inWireRange.1, hreg.base, hreg.offset, hreg.length⟩

end Plain

/-! ## 4. Messages -/

section Message

variable {md : Int × Int → Option SourceHandshake} {sg : List Int} {raw v : PyVal}
  {d : SplitSourceDescriptor}

theorem parseOne_canonical_iff (h : canonicalizeOne md sg raw = .ok v) :
    (∃ d, parseOneDescriptor v = .ok d ∧ DescriptorValid d) ↔ ∀ es, raw = .dict es →
      AcceptableOne sg es := by
  obtain ⟨es, tpRank, dr, m, es', rfl, rfl, htp, hdp, -, hk⟩ := canonicalizeOne_spec h
  have hs : (∀ es₁, PyVal.dict es = .dict es₁ → AcceptableOne sg es₁) ↔ AcceptableOne sg es := by
    constructor
    · exact fun ha => ha es rfl
    · intro hok es₁ heq
      exact PyVal.dict.inj heq ▸ hok
  rw [hs]
  rcases hk with ⟨c, l, baseTotals, hl⟩ | ⟨segments, totals, hp⟩
  · exact hl.parse_iff htp hdp
  · exact hp.parse_iff htp hdp

theorem published_of_parseOne (h : canonicalizeOne md sg raw = .ok v)
    (hd : parseOneDescriptor v = .ok d) (hv : DescriptorValid d) : Published md raw d := by
  obtain ⟨es, tpRank, dr, m, es', rfl, rfl, htp, hdp, hm, hk⟩ := canonicalizeOne_spec h
  have hr := readFrom_of_parseOneDescriptor hd
  have hra : d.tpRank = tpRank ∧ d.dpRank = dr := by
    have hke : lookup es' "tp_rank" = lookup es "tp_rank" ∧
        lookup es' "dp_rank" = lookup es "dp_rank" := by
      rcases hk with ⟨_, _, _, hla⟩ | ⟨_, _, hpl⟩
      · exact ⟨hla.rest _ (by decide), hla.rest _ (by decide)⟩
      · exact ⟨hpl.rest _ (by decide), hpl.rest _ (by decide)⟩
    have ht := (wireItem_dict_eq_ok.mp hr.tpRank).1
    have hp := (wireItem_dict_eq_ok.mp hr.dpRank).1
    rw [hke.1, (wireItem_dict_eq_ok.mp htp).1] at ht
    rw [hke.2, (wireItem_dict_eq_ok.mp hdp).1] at hp
    simp only [some.injEq, PyVal.int.injEq] at ht hp
    exact ⟨ht.symm, hp.symm⟩
  obtain ⟨rfl, rfl⟩ := hra
  refine ⟨htp, hdp, hv.totals.symm, m, es, hm, rfl, ?_⟩
  rcases hk with ⟨c, l, baseTotals, hla⟩ | ⟨segments, totals, hpl⟩
  · obtain ⟨rfl, rfl, hn, -⟩ := hla.read hr
    exact ⟨hla.compactOf, hla.latentOf, by simp [hn]⟩
  · obtain ⟨hc, hl, hs, -⟩ := hpl.read hr
    rw [hc, hl, hs]
    exact ⟨.absent hpl.noLayout.1, .absent hpl.noLayout.2, hpl.registered⟩

theorem Published.rank (h : Published md raw d) : rawRank raw = some (d.tpRank, d.dpRank) := by
  simp only [rawRank, h.tpRank, h.dpRank]

theorem rawRanks_eq {rs : List PyVal} {ds : List SplitSourceDescriptor}
    (h : Forall₂ (Published md) rs ds) :
    rs.map rawRank = (ds.map fun d => (d.tpRank, d.dpRank)).map some := by
  induction h with
  | nil => rfl
  | cons hp _ ih => rw [map_cons, map_cons, map_cons, hp.rank, ih]

/-- **When the decoder accepts**: a canonical message is parsed, one descriptor for each raw one
    with the same ranks and layouts, exactly when the raw message is acceptable. -/
theorem canonical_accepted_iff {descriptor out : PyVal}
    (h : canonicalizeSourceDescriptor descriptor md sg = .ok out) :
    (∃ raws ds, rawDescriptors descriptor = .ok raws ∧
      parseSourceDescriptor out = .ok (some ds) ∧ Forall₂ (Published md) raws ds) ↔
      Acceptable sg descriptor := by
  obtain ⟨raws, n, hr, hno, rfl⟩ := canonicalizeSourceDescriptor_spec h
  constructor
  · intro ⟨rs', ds, hr', hp, hpub⟩
    obtain rfl : raws = rs' := Except.ok.inj (hr.symm.trans hr')
    obtain ⟨ds', hds, hre, hva, hn⟩ := parseSourceDescriptor_canonical.mp hp
    obtain rfl := some.inj hds
    have hc : Forall₂ (fun raw d => ∃ v, canonicalizeOne md sg raw
        = .ok v ∧ parseOneDescriptor v = .ok d ∧ DescriptorValid d) raws ds :=
      forall₂_chain hno (forall₂_and_right.mpr ⟨hre, hva⟩) fun _ v _ hv hd => ⟨v, hv, hd⟩
    refine ⟨raws, hr, rawRanks_eq hpub ▸ hn.map (some_injective _),
      fun raw hraw => ?_⟩
    obtain ⟨d, -, v, hca, hok⟩ := exists_of_mem_left hc hraw
    exact (parseOne_canonical_iff hca).mp ⟨d, hok⟩
  · intro ⟨rs', hr', hn, hok⟩
    obtain rfl : raws = rs' := Except.ok.inj (hr.symm.trans hr')
    obtain ⟨ds, hds⟩ := exists_forall₂ hno fun raw hraw v hv =>
      (parseOne_canonical_iff hv).mpr (hok raw hraw)
    have hpub : Forall₂ (Published md) raws ds :=
      forall₂_chain hno hds fun _ _ _ hv hd => published_of_parseOne hv hd.1 hd.2
    obtain ⟨hre, hva⟩ := forall₂_and_right.mp hds
    rw [rawRanks_eq hpub] at hn
    exact ⟨raws, ds, hr, parseSourceDescriptor_canonical.mpr ⟨ds, rfl, hre, hva,
      Nodup.of_map some hn⟩, hpub⟩

end Message

/-- The published hybrid descriptor is acceptable, so the decoder reads it in full. -/
theorem testDescriptor_accepted : ∃ out raws ds,
    canonicalizeSourceDescriptor testDescriptor testMetadata [0, 1] = .ok out ∧
      rawDescriptors testDescriptor = .ok raws ∧ parseSourceDescriptor out = .ok (some ds) ∧
      Forall₂ (Published testMetadata) raws ds := by
  have hok : Acceptable [0, 1] testDescriptor := by
    refine ⟨[testDescriptor], rfl, nodup_singleton _, fun raw hraw es hes => ?_⟩
    obtain rfl := mem_singleton.mp hraw
    obtain rfl := PyVal.dict.inj hes
    refine ⟨fun _ v hv => ?_, fun _ v hv => ?_, fun hno => absurd (fun hn => ?_) hno⟩
    · cases hv
    · cases hv
    · exact absurd hn.1 (by decide)
  have hc : canonicalizeSourceDescriptor testDescriptor testMetadata [0, 1] = .ok _ := rfl
  obtain ⟨raws, ds, hr, hp, hpub⟩ := (canonical_accepted_iff hc).mpr hok
  exact ⟨_, raws, ds, hc, hr, hp, hpub⟩

/-- A compact descriptor that says `segments: None`. -/
def nullSegmentsDescriptor : PyVal :=
  record [("tp_rank", .int 0), ("dp_rank", .int 0), ("format", .str "layer_slot_runs_v1"),
    ("segments", .none), ("group_byte_totals", .list [.int 0, .int 9]),
    ("compact_layout", record [("group_id", .int 1), ("token_count", .int 3),
      ("layers", .list [testLayer 0 200 2, testLayer 1 300 1]),
      ("runs", .list [testRun 0 4 2, testRun 2 0 1])])]

/-- **Null is not absent**: the prefiller publishes the descriptor, the decoder iterates over
    `None`. -/
theorem nullSegments_rejected : ∃ out,
    canonicalizeSourceDescriptor nullSegmentsDescriptor testMetadata [0, 1] = .ok out ∧
      parseSourceDescriptor out = .error .typeError :=
  ⟨_, rfl, rfl⟩

end VllmDual.Split
