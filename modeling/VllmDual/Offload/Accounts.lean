/-
  Subject:   RUNS OF AN OFFLOADING MANAGER: WHICH BLOCK IS WHOSE.

  Loads are completed as often as they are prepared, and every prepared hash is stored once, with
  whichever others. These are such runs, for any manager that keeps the laws of its calls.
-/
import VllmDual.Offload.PrepareStore

namespace VllmDual.Offload

open Outcome Function List Option

variable {H S : Type} [DecidableEq H]

/-! ## 1. Runs -/

structure World (H S : Type) where
  state : S
  loads : H → Nat
  stores : List H

inductive Act (H : Type) where
  | lookup (hashes : List H)
  | touch (hashes : List H)
  | prepareLoad (hashes : List H)
  | completeLoad (hashes : List H)
  | prepareStore (hashes : List H)
  | completeStore (hashes : List H) (success : Bool)

namespace World

variable (m : OffloadingManager H S) (w : World H S)

/-- A call that the protocol allows and that returns. The pending loads of a block are counted in a
    `c_int32`, so there are fewer than `2 ^ 31`. -/
def step : Act H → Option (World H S)
  | .lookup _ => some w
  | .touch hashes => some { w with state := m.touch w.state hashes }
  | .prepareLoad hashes =>
    if ∀ h ∈ hashes, w.loads h + hashes.count h < 2 ^ 31 then
      (m.prepareLoad w.state hashes).toOption.map fun res =>
        { w with state := res.1, loads := fun h => w.loads h + hashes.count h }
    else none
  | .completeLoad hashes =>
    if ∀ h ∈ hashes, hashes.count h ≤ w.loads h then
      (m.completeLoad w.state hashes).toOption.map fun s =>
        { w with state := s, loads := fun h => w.loads h - hashes.count h }
    else none
  | .prepareStore hashes => (m.prepareStore w.state hashes).toOption.map fun res =>
      { w with
        state := res.1
        stores := w.stores ++ (res.2.map (·.blockHashesToStore)).getD [] }
  | .completeStore hashes success =>
    if hashes.Nodup ∧ ∀ h ∈ hashes, h ∈ w.stores then
      (m.completeStore w.state hashes success).toOption.map fun s =>
        { w with state := s, stores := w.stores.filter (· ∉ hashes) }
    else none

def exec : World H S → List (Act H) → Option (World H S)
  | w, [] => some w
  | w, a :: acts => (w.step m a).bind fun w' => exec w' acts

end World

structure View (H S : Type) where
  find : S → H → Option BlockStatus
  put : S → H → BlockStatus → S
  backend : S → CPUBackend

/-- The ids that the stored hashes have and those that are free are the ones allocated so far; no
    two have the same. -/
structure Balanced (ids : H → Option Nat) (b : CPUBackend) : Prop where
  allocated : ∀ id, id < b.numAllocatedBlocks ↔ id ∈ b.allocatedBlocksFreeList ∨
    ∃ h, ids h = some id
  free : b.allocatedBlocksFreeList.Nodup
  stored : ∀ h id, ids h = some id → id ∉ b.allocatedBlocksFreeList
  unique : ∀ h h' id, ids h = some id → ids h' = some id → h = h'

variable (v : View H S)

def View.ids (s : S) (h : H) : Option Nat := (v.find s h).map (·.blockId)

def View.Balanced (s : S) : Prop := Offload.Balanced (v.ids s) (v.backend s)

def View.Distinct (s : S) (hashes : List H) : Prop :=
  (hashes.filter fun h => (v.find s h).isNone).Nodup

structure Sound (m : OffloadingManager H S) (v : View H S) (w : World H S) : Prop where
  balanced : v.Balanced w.state
  loading : ∀ h, 0 < w.loads h → ∃ b, v.find w.state h = some b ∧ b.refCnt = w.loads h
  storing : ∀ h ∈ w.stores, ∃ b, v.find w.state h = some b ∧ b.refCnt = -1
  fits : ∀ h b, v.find w.state h = some b → -1 ≤ b.refCnt ∧ b.refCnt < 2 ^ 31
  kept : ∀ hashes, v.Distinct w.state hashes →
    ∃ s' out, m.prepareStore w.state hashes = .ok (s', out) ∧
    ∀ h, v.find w.state h ≠ none → v.find s' h = none → w.loads h = 0 ∧ h ∉ w.stores ∧ h ∉ hashes

def Clean (w : World H S) : Act H → Prop
  | .prepareStore hashes => v.Distinct w.state hashes
  | _ => True

def RunsClean (m : OffloadingManager H S) (v : View H S) : World H S → List (Act H) → Prop
  | _, [] => True
  | w, a :: acts => Clean v w a ∧ ∀ w', w.step m a = some w' → RunsClean m v w' acts

/-! ## 2. The laws of a manager -/

/-- A call of `prepare_store`: `gone` is what it evicts. -/
structure Prepared (v : View H S) (s : S) (hashes : List H) (s' : S)
    (out : Option (PrepareStoreOutput H)) (gone : List H) : Prop where
  unused : ∀ h ∈ gone, ∃ b, v.find s h = some b ∧ b.refCnt = 0 ∧ h ∉ hashes
  toStore : ∀ o ∈ out, o.blockHashesToStore = hashes.filter fun h => (v.find s h).isNone
  stored : ∀ o ∈ out, ∀ h ∈ o.blockHashesToStore, ∃ b, v.find s' h = some b ∧ b.refCnt = -1
  others : ∀ h, (∀ o ∈ out, h ∉ o.blockHashesToStore) → v.find s' h = if h ∈ gone then none
    else v.find s h
  balanced : v.Balanced s → v.Balanced s'

structure Lawful (m : OffloadingManager H S) (v : View H S) (Inv : S → Prop) : Prop where
  prepareLoad : m.prepareLoad = prepareLoadWith v.find v.put
  completeLoad : m.completeLoad = completeLoadWith v.find v.put
  put : ∀ s h b b', Inv s → v.find s h = some b → Inv (v.put s h b') ∧
    v.find (v.put s h b') = update (v.find s) h (some b') ∧ v.backend (v.put s h b') = v.backend s
  touch : ∀ s hashes, Inv s → Inv (m.touch s hashes) ∧ v.find (m.touch s hashes) = v.find s ∧
    v.backend (m.touch s hashes) = v.backend s
  prepareStore : ∀ s hashes, Inv s → v.Distinct s hashes → ∃ s' out gone,
    m.prepareStore s hashes = .ok (s', out) ∧ Inv s' ∧ Prepared v s hashes s' out gone
  completeStore : ∀ s hashes success s', Inv s → hashes.Nodup →
    (∀ h ∈ hashes, ∃ b, v.find s h = some b ∧ b.refCnt = -1) →
    m.completeStore s hashes success = .ok s' → Inv s' ∧ (v.Balanced s → v.Balanced s') ∧
      ∀ h, v.find s' h = if h ∈ hashes then
        if success then (v.find s h).map fun b => { b with refCnt := 0 } else none
      else v.find s h

section Balance

variable {v : View H S} {s s' : S} {h : H} {bl : BlockStatus}

omit [DecidableEq H] in
theorem View.Balanced.congr (hbal : v.Balanced s) (hi : v.ids s' = v.ids s)
    (hb : v.backend s' = v.backend s) : v.Balanced s' := by
  rwa [View.Balanced, hi, hb]

theorem View.Balanced.put {b' : BlockStatus} (hbal : v.Balanced s) (hb : v.find s h = some bl)
    (hid : b'.blockId = bl.blockId) (hf : v.find s' = update (v.find s) h (some b'))
    (hba : v.backend s' = v.backend s) : v.Balanced s' := by
  refine hbal.congr (funext fun q => ?_) hba
  rw [View.ids, View.ids, hf, update_apply]
  split_ifs with hq
  · rw [hq, hb, map_some, map_some, hid]
  · rfl

theorem View.Balanced.drop (hbal : v.Balanced s) (hb : v.find s h = some bl)
    (hfi : v.find s' = update (v.find s) h none) (hba : v.backend s' = (v.backend s).free bl) :
    v.Balanced s' := by
  have hid : v.ids s h = some bl.blockId := by rw [View.ids, hb, map_some]
  have hi : ∀ q id, v.ids s' q = some id ↔ q ≠ h ∧ v.ids s q = some id := by
    intro q id
    rw [View.ids, View.ids, hfi, update_apply]
    split_ifs with hq <;> simp [hq]
  rw [View.Balanced, hba]
  refine ⟨fun id => ?_, ?_, fun q id hq => ?_, fun q q' id hq hq' => ?_⟩
  · simp only [CPUBackend.free, hbal.allocated, mem_append, mem_singleton, hi]
    constructor
    · rintro (hf | ⟨q, hq⟩)
      · exact .inl (.inl hf)
      · by_cases hqh : q = h
        · rw [hqh, hid] at hq
          exact .inl (.inr (Option.some.inj hq).symm)
        · exact .inr ⟨q, hqh, hq⟩
    · rintro ((hf | rfl) | ⟨q, -, hq⟩)
      · exact .inl hf
      · exact .inr ⟨h, hid⟩
      · exact .inr ⟨q, hq⟩
  · exact hbal.free.append (nodup_singleton _) (disjoint_singleton.mpr (hbal.stored h _ hid))
  · obtain ⟨hqh, hq⟩ := (hi q id).mp hq
    rw [CPUBackend.free, mem_append, mem_singleton, not_or]
    refine ⟨hbal.stored q id hq, ?_⟩
    rintro rfl
    exact hqh (hbal.unique q h _ hq hid)
  · exact hbal.unique q q' id ((hi q id).mp hq).2 ((hi q' id).mp hq').2

end Balance

/-! ## 3. Pending loads and stores -/

/-- The counters of the blocks: -1 while a block is being stored, and then its pending loads. -/
structure Tracks (find : H → Option BlockStatus) (loads : H → Nat) (stores : List H) : Prop where
  absent : ∀ h, find h = none → loads h = 0 ∧ h ∉ stores
  storing : ∀ h b, find h = some b → h ∈ stores → b.refCnt = -1 ∧ loads h = 0
  loading : ∀ h b, find h = some b → h ∉ stores → b.refCnt = loads h

namespace Tracks

variable {fi f' : H → Option BlockStatus} {ls ls' : H → Nat} {ss : List H}

variable (ht : Tracks fi ls ss)
include ht

omit [DecidableEq H] in
theorem change (d : H → Int)
    (hf : ∀ h, f' h = (fi h).map fun b => { b with refCnt := b.refCnt + d h })
    (hlo : ∀ h, (ls' h : Int) = ls h + d h)
    (hi : ∀ h, d h ≠ 0 → ∃ b, fi h = some b ∧ h ∉ ss) : Tracks f' ls' ss where
  absent h hn := by
    rw [hf, map_eq_none_iff] at hn
    have hz : d h = 0 := by
      by_contra hd
      obtain ⟨b, hb, -⟩ := hi h hd
      rw [hb] at hn
      cases hn
    obtain ⟨hl, hnot⟩ := ht.absent h hn
    have := hlo h
    exact ⟨by omega, hnot⟩
  storing h b' hb' hmem := by
    rw [hf] at hb'
    obtain ⟨b, hb, rfl⟩ := map_eq_some_iff.mp hb'
    have hz : d h = 0 := by
      by_contra hd
      obtain ⟨-, -, hnot⟩ := hi h hd
      exact hnot hmem
    obtain ⟨hr, hl⟩ := ht.storing h b hb hmem
    have := hlo h
    exact ⟨by dsimp only; omega, by omega⟩
  loading h b' hb' hnot := by
    rw [hf] at hb'
    obtain ⟨b, hb, rfl⟩ := map_eq_some_iff.mp hb'
    rw [hlo, ← ht.loading h b hb hnot]

omit [DecidableEq H] in
theorem idle {h : H} {b : BlockStatus} (hb : fi h = some b) (hr : 0 ≤ b.refCnt) :
    h ∉ ss ∧ b.refCnt = ls h := by
  have hn : h ∉ ss := by
    intro hm
    have := (ht.storing h b hb hm).1
    omega
  exact ⟨hn, ht.loading h b hb hn⟩

omit [DecidableEq H] in
theorem of_loads {h : H} (hpos : 0 < ls h) : ∃ b, fi h = some b ∧ h ∉ ss := by
  cases hb : fi h with
  | none =>
    have := (ht.absent h hb).1
    omega
  | some b =>
    refine ⟨b, rfl, fun hin => ?_⟩
    have := (ht.storing h b hb hin).2
    omega

omit [DecidableEq H] in
theorem of_stores {h : H} (hin : h ∈ ss) : ∃ b, fi h = some b ∧ b.refCnt = -1 := by
  cases hb : fi h with
  | none => exact absurd hin (ht.absent h hb).2
  | some b => exact ⟨b, rfl, (ht.storing h b hb hin).1⟩

theorem complete {bh : List H} (hm : ∀ h ∈ bh, h ∈ ss) (su : Bool)
    (hf : ∀ h, f' h = if h ∈ bh then
        if su then (fi h).map fun b => { b with refCnt := 0 } else none
      else fi h) : Tracks f' ls (ss.filter (· ∉ bh)) := by
  have hi : ∀ h ∈ bh, ls h = 0 := by
    intro h hh
    cases hb : fi h with
    | none => exact (ht.absent h hb).1
    | some b => exact (ht.storing h b hb (hm h hh)).2
  have hiff : ∀ h, h ∈ ss.filter (· ∉ bh) ↔ h ∈ ss ∧ h ∉ bh := by simp
  refine ⟨fun h hn => ?_, fun h b hb hin => ?_, fun h b hb hnot => ?_⟩
  · rw [hiff]
    by_cases hh : h ∈ bh
    · exact ⟨hi h hh, fun hin => hin.2 hh⟩
    · rw [hf, if_neg hh] at hn
      exact (ht.absent h hn).imp_right (mt And.left)
  · obtain ⟨hin, hh⟩ := (hiff h).1 hin
    rw [hf, if_neg hh] at hb
    exact ht.storing h b hb hin
  · by_cases hh : h ∈ bh
    · rw [hf, if_pos hh] at hb
      split_ifs at hb
      obtain ⟨b₀, -, rfl⟩ := map_eq_some_iff.mp hb
      rw [hi h hh]
      rfl
    · rw [hf, if_neg hh] at hb
      exact ht.loading h b hb fun hin => hnot ((hiff h).2 ⟨hin, hh⟩)

end Tracks

section Laws

variable {m : OffloadingManager H S} {v : View H S} {I : S → Prop} {s s' : S} {bh : List H}
variable {w w' : World H S} {α : Type} {f : α → H → Except (OffloadError H) α} {r : α → S}

theorem Lawful.changeAll (hm : Lawful m v I) (d : Int) {P : BlockStatus → Prop} {a a' : α}
    (hf : ∀ a h a', f a h = .ok a' → ∃ b, v.find (r a) h = some b ∧ P b ∧
      r a' = v.put (r a) h { b with refCnt := b.refCnt + d })
    (hi : I (r a)) (hok : bh.foldlM f a = .ok a') :
    I (r a') ∧ (v.Balanced (r a) → v.Balanced (r a')) ∧
      (∀ h ∈ bh, ∃ b, v.find (r a) h = some b ∧ P b) ∧ ∀ h, v.find (r a') h =
        (v.find (r a) h).map fun b => { b with refCnt := b.refCnt + d * bh.count h } := by
  induction bh generalizing a with
  | nil =>
    obtain rfl := Except.ok.inj hok
    refine ⟨hi, id, nofun, fun h => ?_⟩
    cases v.find (r a) h <;> simp
  | cons h bh ih =>
    rw [foldlM_cons] at hok
    obtain ⟨a₁, ho, hr⟩ := of_bind hok
    obtain ⟨b, hb, hP, ha₁⟩ := hf a h a₁ ho
    obtain ⟨hinv₁, hn₁, hc₁⟩ := hm.put (r a) h b { b with refCnt := b.refCnt + d } hi hb
    rw [← ha₁] at hinv₁ hn₁ hc₁
    obtain ⟨hi', hbal', ha', hfi'⟩ := ih hinv₁ hr
    refine ⟨hi', fun hbal => hbal' (hbal.put hb (by rfl) hn₁ hc₁), fun q hq => ?_, fun q => ?_⟩
    · by_cases hqh : q = h
      · exact ⟨b, by rw [hqh, hb], hP⟩
      · have hs := ha' q (mem_of_ne_of_mem hqh hq)
        rwa [hn₁, update_of_ne hqh] at hs
    · rw [hfi', hn₁, count_cons]
      by_cases hq : q = h
      · subst hq
        rw [update_self, hb]
        simp only [map_some, beq_self_eq_true, if_true, Option.some.injEq, BlockStatus.mk.injEq,
          and_true]
        push_cast
        ring
      · rw [update_of_ne hq, if_neg (by simpa using Ne.symm hq), Nat.add_zero]

theorem completeAll (su : Bool) {a a' : α}
    (hf : ∀ a h a' b, I (r a) → v.find (r a) h = some b → b.refCnt = -1 → f a h = .ok a' →
      I (r a') ∧ v.backend (r a') = (if su then v.backend (r a) else (v.backend (r a)).free b) ∧
        v.find (r a') = update (v.find (r a)) h (if su then some { b with refCnt := 0 } else none))
    (hi : I (r a)) (hn : bh.Nodup)
    (hp : ∀ h ∈ bh, ∃ b, v.find (r a) h = some b ∧ b.refCnt = -1)
    (hok : bh.foldlM f a = .ok a') :
    I (r a') ∧ (v.Balanced (r a) → v.Balanced (r a')) ∧
      ∀ h, v.find (r a') h = if h ∈ bh then
        if su then (v.find (r a) h).map fun b => { b with refCnt := 0 } else none
      else v.find (r a) h := by
  induction bh generalizing a with
  | nil =>
    obtain rfl := Except.ok.inj hok
    exact ⟨hi, id, fun h => (if_neg not_mem_nil).symm⟩
  | cons h bh ih =>
    rw [foldlM_cons] at hok
    obtain ⟨a₁, ho, hr⟩ := of_bind hok
    obtain ⟨b, hb, hs⟩ := hp h mem_cons_self
    obtain ⟨hinv₁, hc₁, hd₁⟩ := hf a h a₁ b hi hb hs ho
    have hbal₁ : v.Balanced (r a) → v.Balanced (r a₁) := fun hbal => by
      cases su with
      | true => exact hbal.put hb (by rfl) hd₁ hc₁
      | false => exact hbal.drop hb hd₁ hc₁
    obtain ⟨hnot, hn'⟩ := nodup_cons.mp hn
    have hne : ∀ q ∈ bh, q ≠ h := fun q hq hqh => hnot (hqh ▸ hq)
    obtain ⟨hi', hbal', hfi'⟩ := ih hinv₁ hn' (fun q hq => by
      rw [hd₁, update_of_ne (hne q hq)]
      exact hp q (mem_cons_of_mem _ hq)) hr
    refine ⟨hi', fun hbal => hbal' (hbal₁ hbal), fun q => ?_⟩
    rw [hfi', hd₁]
    by_cases hq : q = h
    · subst hq
      rw [if_neg hnot, update_self, if_pos mem_cons_self, hb]
      rfl
    · rw [update_of_ne hq]
      simp only [mem_cons, hq, false_or]

theorem Prepared.absent {out : Option (PrepareStoreOutput H)} {g : List H} {h : H}
    (hp : Prepared v s bh s' out g) (hn : v.find s' h = none) :
    (¬ ∃ o ∈ out, h ∈ o.blockHashesToStore) ∧ (h ∈ g ∨ v.find s h = none) := by
  have hno : ∀ o ∈ out, h ∉ o.blockHashesToStore := by
    intro o ho hh
    obtain ⟨b, hb, -⟩ := hp.stored o ho h hh
    rw [hb] at hn
    cases hn
  refine ⟨by simpa using hno, ?_⟩
  rw [hp.others h hno] at hn
  split_ifs at hn with hg
  · exact .inl hg
  · exact .inr hn

theorem Prepared.tracks {out : Option (PrepareStoreOutput H)} {g : List H} {ls : H → Nat}
    {ss : List H} (hp : Prepared v s bh s' out g) (ht : Tracks (v.find s) ls ss) :
    Tracks (v.find s') ls (ss ++ (out.map (·.blockHashesToStore)).getD []) := by
  have hm : ∀ h, h ∈ ss ++ (out.map (·.blockHashesToStore)).getD [] ↔
      h ∈ ss ∨ ∃ o ∈ out, h ∈ o.blockHashesToStore := by
    intro h
    rw [mem_append]
    cases out <;> simp
  have hnew : ∀ h, (∃ o ∈ out, h ∈ o.blockHashesToStore) → v.find s h = none := by
    rintro h ⟨o, ho, hh⟩
    rw [hp.toStore o ho, mem_filter, isNone_iff_eq_none] at hh
    exact hh.2
  have hold : ∀ h b, (¬ ∃ o ∈ out, h ∈ o.blockHashesToStore) → v.find s' h = some b →
      v.find s h = some b := by
    intro h b hno hb
    rw [hp.others h fun o ho hh => hno ⟨o, ho, hh⟩] at hb
    split_ifs at hb with hg
    exact hb
  refine ⟨fun h hn => ?_, fun h b hb hin => ?_, fun h b hb hnot => ?_⟩
  · obtain ⟨hno, hg | hn⟩ := hp.absent hn
    · obtain ⟨b, hb, hz, -⟩ := hp.unused h hg
      obtain ⟨hnot, hl⟩ := ht.idle hb hz.ge
      rw [hm, or_iff_left hno]
      exact ⟨by omega, hnot⟩
    · rw [hm, or_iff_left hno]
      exact ht.absent h hn
  · by_cases hno : ∃ o ∈ out, h ∈ o.blockHashesToStore
    · obtain ⟨o, ho, hh⟩ := hno
      obtain ⟨b', hb', hr⟩ := hp.stored o ho h hh
      obtain rfl := Option.some.inj (hb'.symm.trans hb)
      exact ⟨hr, (ht.absent h (hnew h ⟨o, ho, hh⟩)).1⟩
    · exact ht.storing h b (hold h b hno hb) (((hm h).mp hin).resolve_right hno)
  · rw [hm, not_or] at hnot
    exact ht.loading h b (hold h b hnot.2 hb) hnot.1

/-! ## 4. Every state of a run is sound -/

structure Good (v : View H S) (I : S → Prop) (w : World H S) : Prop where
  inv : I w.state
  balanced : v.Balanced w.state
  tracks : Tracks (v.find w.state) w.loads w.stores
  bounded : ∀ h, w.loads h < 2 ^ 31

theorem Lawful.prepareLoad_good (hm : Lawful m v I) (hg : Good v I w)
    (hs : w.step m (.prepareLoad bh) = some w') : Good v I w' := by
  obtain ⟨hi, hbal, htr, hbo⟩ := hg
  simp only [World.step, ite_none_right_eq_some] at hs
  obtain ⟨hfew, hs⟩ := hs
  obtain ⟨⟨s', ids⟩, hok, rfl⟩ := map_eq_some_iff.mp hs
  rw [toOption_eq_some, hm.prepareLoad] at hok
  obtain ⟨hi', hbal', hre, hf⟩ := hm.changeAll (r := Prod.fst) 1 (P := fun b => 0 ≤ b.refCnt)
    (fun acc h acc' ho => by
      split at ho
      · cases ho
      · rename_i b hb
        obtain ⟨hr, ho⟩ := ensure_bind_eq_ok.mp ho
        obtain rfl := Except.ok.inj ho
        exact ⟨b, hb, of_decide_eq_true hr, rfl⟩) hi hok
  refine ⟨hi', hbal' hbal, htr.change (fun h => 1 * (bh.count h : Int)) hf
    (fun h => by dsimp only; push_cast; ring) fun h hd => ?_, fun h => ?_⟩
  · obtain ⟨b, hb, hr⟩ := hre h (count_pos_iff.mp (by omega))
    exact ⟨b, hb, (htr.idle hb hr).1⟩
  · by_cases hh : h ∈ bh
    · exact hfew h hh
    · simpa [count_eq_zero.mpr hh] using hbo h

theorem Lawful.completeLoad_good (hm : Lawful m v I) (hg : Good v I w)
    (hs : w.step m (.completeLoad bh) = some w') : Good v I w' := by
  obtain ⟨hi, hbal, htr, hbo⟩ := hg
  simp only [World.step, ite_none_right_eq_some] at hs
  obtain ⟨hco, hs⟩ := hs
  obtain ⟨s', hok, rfl⟩ := map_eq_some_iff.mp hs
  rw [toOption_eq_some, hm.completeLoad] at hok
  obtain ⟨hi', hbal', ha, hf⟩ := hm.changeAll (r := id) (-1) (P := fun b => 0 < b.refCnt)
    (fun s h s' ho => by
      split at ho
      · cases ho
      · rename_i b hb
        obtain ⟨hr, ho⟩ := ensure_bind_eq_ok.mp ho
        obtain rfl := Except.ok.inj ho
        exact ⟨b, hb, hr, rfl⟩) hi hok
  refine ⟨hi', hbal' hbal, htr.change (fun h => -1 * (bh.count h : Int)) hf (fun h => ?_)
    fun h hd => ?_, fun h => (Nat.sub_le _ _).trans_lt (hbo h)⟩
  · by_cases hh : h ∈ bh
    · have := hco h hh
      dsimp only
      omega
    · simp [count_eq_zero.mpr hh]
  · have hpos : 0 < bh.count h := by omega
    exact htr.of_loads (hpos.trans_le (hco h (count_pos_iff.mp hpos)))

theorem Lawful.step (hm : Lawful m v I) {a : Act H} (hg : Good v I w) (hc : Clean v w a)
    (hs : w.step m a = some w') : Good v I w' := by
  have ⟨hi, hbal, htr, hbo⟩ := hg
  cases a with
  | lookup bh =>
    obtain rfl := Option.some.inj hs
    exact hg
  | touch bh =>
    obtain rfl := Option.some.inj hs
    obtain ⟨hi', hf, hba⟩ := hm.touch w.state bh hi
    exact ⟨hi', hbal.congr (by unfold View.ids; rw [hf]) hba, by dsimp only; rwa [hf], hbo⟩
  | prepareLoad bh => exact hm.prepareLoad_good hg hs
  | completeLoad bh => exact hm.completeLoad_good hg hs
  | prepareStore bh =>
    obtain ⟨⟨s', out⟩, hok, rfl⟩ := map_eq_some_iff.mp hs
    obtain ⟨s₁, out₁, g, hok₁, hi', hp⟩ := hm.prepareStore w.state bh hi hc
    rw [toOption_eq_some, hok₁] at hok
    obtain ⟨rfl, rfl⟩ := pair_inj hok
    exact ⟨hi', hp.balanced hbal, hp.tracks htr, hbo⟩
  | completeStore bh su =>
    simp only [World.step, ite_none_right_eq_some] at hs
    obtain ⟨⟨hnd, hin⟩, hs⟩ := hs
    obtain ⟨s', hok, rfl⟩ := map_eq_some_iff.mp hs
    rw [toOption_eq_some] at hok
    obtain ⟨hi', hbal', hf⟩ := hm.completeStore w.state bh su s' hi hnd
      (fun h hh => htr.of_stores (hin h hh)) hok
    exact ⟨hi', hbal' hbal, htr.complete hin su hf, hbo⟩

theorem Lawful.exec (hm : Lawful m v I) {acts : List (Act H)} (hg : Good v I w)
    (hc : RunsClean m v w acts) (he : w.exec m acts = some w') : Good v I w' := by
  induction acts generalizing w with
  | nil =>
    obtain rfl := Option.some.inj he
    exact hg
  | cons a acts ih =>
    obtain ⟨w₁, ho, hr⟩ := bind_eq_some_iff.mp he
    exact ih (hm.step hg hc.1 ho) (hc.2 w₁ ho) hr

theorem Lawful.sound (hm : Lawful m v I) (hg : Good v I w) : Sound m v w where
  balanced := hg.balanced
  loading h hpos := by
    obtain ⟨b, hb, hnot⟩ := hg.tracks.of_loads hpos
    exact ⟨b, hb, hg.tracks.loading h b hb hnot⟩
  storing h hin := hg.tracks.of_stores hin
  fits h b hb := by
    have hl := hg.bounded h
    by_cases hin : h ∈ w.stores
    · have := (hg.tracks.storing h b hb hin).1
      omega
    · have := hg.tracks.loading h b hb hin
      omega
  kept bh hd := by
    obtain ⟨s', out, g, hok, -, hp⟩ := hm.prepareStore w.state bh hg.inv hd
    refine ⟨s', out, hok, fun h hso hn => ?_⟩
    obtain ⟨b, hb, hz, hna⟩ := hp.unused h ((hp.absent hn).2.resolve_right hso)
    obtain ⟨hnot, hl⟩ := hg.tracks.idle hb hz.ge
    exact ⟨by omega, hnot, hna⟩

end Laws

end VllmDual.Offload
