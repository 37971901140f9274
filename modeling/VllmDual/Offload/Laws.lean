/-
  Subject:   THE LAWS OF THE TWO OFFLOADING MANAGERS.

  * `accounts_sound` -- every run of either manager in which no call stores a hash twice is sound.
-/
import VllmDual.Offload.Accounts

namespace VllmDual.Offload

open Outcome Function OrderedDict Option ARC Prod
open List hiding keys

variable {H S : Type} [DecidableEq H] {v : View H S} {I : S → Prop}

/-! ## 1. Allocation -/

section Allocation

variable {b b' : CPUBackend} {bs : List BlockStatus} {n : Nat} {ts : List H}
  {ids ids' : H → Option Nat}

omit [DecidableEq H]

theorem CPUBackend.allocateBlocks_spec
    (hok : (b.allocateBlocks n : Except (OffloadError H) _) = .ok (b', bs)) :
    bs.length = n ∧ (∀ x ∈ bs, x.refCnt = -1) ∧
      ∃ k, b'.numAllocatedBlocks = b.numAllocatedBlocks + k ∧
      (bs.map (·.blockId) ++ b'.allocatedBlocksFreeList).Perm
        (b.allocatedBlocksFreeList ++ range' b.numAllocatedBlocks k) := by
  obtain ⟨hr, hok⟩ := ensure_bind_eq_ok.mp hok
  obtain ⟨rfl, rfl⟩ := pair_inj hok
  refine ⟨?_, ?_, _, rfl, ?_⟩
  · simp only [length_map, length_append, length_range', length_take, length_reverse]
    omega
  · intro x hx
    obtain ⟨id, -, rfl⟩ := mem_map.mp hx
    rfl
  · rw [perm_iff_count]
    intro id
    have hf := congrArg (count id) (take_append_drop
      (b.allocatedBlocksFreeList.length - (n - min n (b.numBlocks - b.numAllocatedBlocks)))
      b.allocatedBlocksFreeList)
    simp only [List.map_map, comp_def, List.map_id', List.count_append, List.take_reverse,
      List.count_reverse] at hf ⊢
    omega

theorem Balanced.allocate (hbal : Balanced ids b)
    (hok : (b.allocateBlocks ts.length : Except (OffloadError H) _) = .ok (b', bs))
    (hi : ∀ h id, ids' h = some id ↔ ids h = some id ∨ ∃ x, (h, x) ∈ ts.zip bs ∧ x.blockId = id) :
    Balanced ids' b' := by
  obtain ⟨hl, -, k, hnum, hp⟩ := CPUBackend.allocateBlocks_spec hok
  have hm : ∀ id, id ∈ bs.map (·.blockId) ∨ id ∈ b'.allocatedBlocksFreeList ↔
      id ∈ b.allocatedBlocksFreeList ∨ b.numAllocatedBlocks ≤ id ∧ id < b'.numAllocatedBlocks := by
    intro id
    rw [← mem_append, hp.mem_iff, mem_append, mem_range'_1, hnum]
  have hold : ∀ id, id ∈ b.allocatedBlocksFreeList ∨ (∃ h, ids h = some id) →
      id < b.numAllocatedBlocks :=
    fun id => (hbal.allocated id).mpr
  have hn : (bs.map (·.blockId) ++ b'.allocatedBlocksFreeList).Nodup := by
    rw [hp.nodup_iff]
    refine hbal.free.append nodup_range' fun id hf hfr => ?_
    have hlt := hold id (.inl hf)
    have hle := (mem_range'_1.mp hfr).1
    omega
  obtain ⟨hb, hf', hd⟩ := nodup_append'.mp hn
  -- an id that a hash has already is not given out again
  have hk : ∀ h id, ids h = some id →
      ¬(id ∈ bs.map (·.blockId) ∨ id ∈ b'.allocatedBlocksFreeList) := by
    intro h id hid hin
    have hlt := hold id (.inr ⟨h, hid⟩)
    rcases (hm id).mp hin with hf | ⟨hle, -⟩
    · exact hbal.stored h id hid hf
    · omega
  have hz : ∀ {h : H} {x : BlockStatus}, (h, x) ∈ ts.zip bs → x.blockId ∈ bs.map (·.blockId) :=
    fun hx => mem_map_of_mem (of_mem_zip hx).2
  have hg : ((ts.zip bs).map (·.2.blockId)) = bs.map (·.blockId) := by
    conv_rhs => rw [← List.map_snd_zip hl.le, List.map_map]
    rfl
  refine ⟨fun id => ?_, hf', fun h id hid hf => ?_, fun h h' id hid hid' => ?_⟩
  · have hat : (∃ h x, (h, x) ∈ ts.zip bs ∧ x.blockId = id) ↔ id ∈ bs.map (·.blockId) := by
      rw [← hg, List.mem_map, Prod.exists]
    have hlt := hbal.allocated id
    simp only [hi, exists_or, hat]
    have hid := hm id
    grind
  · rcases (hi h id).mp hid with hid | ⟨x, hx, rfl⟩
    · exact hk h id hid (.inr hf)
    · exact hd (hz hx) hf
  · rcases (hi h id).mp hid with hid | ⟨x, hx, rfl⟩ <;>
      rcases (hi h' _).mp hid' with hid' | ⟨x', hx', heq⟩
    · exact hbal.unique h h' id hid hid'
    · exact absurd (.inl (heq ▸ hz hx')) (hk h id hid)
    · exact absurd (.inl (hz hx)) (hk h' _ hid')
    · rw [← hg] at hb
      exact congrArg fst (inj_on_of_nodup_map hb hx hx' heq.symm)

end Allocation

/-! ## 2. Evictions and a store -/

structure Evicted (v : View H S) (s : S) (named gone : List H) (s₁ : S) : Prop where
  unused : ∀ h ∈ gone, ∃ b, v.find s h = some b ∧ b.refCnt = 0 ∧ h ∉ named
  others : ∀ h, v.find s₁ h = if h ∈ gone then none else v.find s h
  balanced : v.Balanced s → v.Balanced s₁

namespace Evicted

variable {v : View H S} {s s₁ s₂ s' : S} {bh g gone' : List H} {h : H} {b : BlockStatus}

theorem refl : Evicted v s bh [] s := ⟨nofun, fun _ => (if_neg not_mem_nil).symm, id⟩

theorem cons (hb : v.find s h = some b) (hz : b.refCnt = 0) (hn : h ∉ bh)
    (hf : v.find s₁ = update (v.find s) h none) (hba : v.backend s₁ = (v.backend s).free b)
    (he : Evicted v s₁ bh g s₂) : Evicted v s bh (h :: g) s₂ where
  unused q hq := by
    by_cases hqh : q = h
    · exact ⟨b, by rw [hqh, hb], hz, by rwa [hqh]⟩
    · have hr := he.unused q (mem_of_ne_of_mem hqh hq)
      rwa [hf, update_of_ne hqh] at hr
  others q := by
    rw [he.others, hf]
    by_cases hqh : q = h
    · simp [hqh]
    · simp [hqh]
  balanced hbal := he.balanced (hbal.drop hb hf hba)

variable (he : Evicted v s bh g s₁)
include he

theorem refused : Prepared v s bh s₁ none g :=
  ⟨he.unused, nofun, nofun, fun h _ => he.others h, he.balanced⟩

theorem find_toStore (hh : h ∈ bh.filter fun h => (v.find s h).isNone) : v.find s₁ h = none := by
  rw [mem_filter, isNone_iff_eq_none] at hh
  rw [he.others, hh.2, ite_self]

theorem store {t e : List H} {sp : List Nat} {bl : List BlockStatus}
    (hto : t = bh.filter fun h => (v.find s h).isNone)
    (hok : ((v.backend s₁).allocateBlocks t.length : Except (OffloadError H) _)
      = .ok (v.backend s', bl))
    (hf : ∀ h b, v.find s' h = some b ↔ v.find s₁ h = some b ∨ (h, b) ∈ t.zip bl) :
    Prepared v s bh s' (some ⟨t, sp, e⟩) g := by
  obtain ⟨hl, hn, -⟩ := CPUBackend.allocateBlocks_spec hok
  refine ⟨he.unused, ?_, ?_, fun h hno => ?_, fun hb => ?_⟩
  · rintro o ⟨⟩
    exact hto
  · rintro o ⟨⟩ h hh
    rw [← map_fst_zip hl.ge] at hh
    obtain ⟨⟨h, b⟩, hm, rfl⟩ := mem_map.mp hh
    exact ⟨b, (hf h b).mpr (.inr hm), hn b (of_mem_zip hm).2⟩
  · rw [← he.others]
    refine Option.ext fun b => ?_
    rw [hf, or_iff_left fun hm => hno _ rfl (of_mem_zip hm).1]
  · refine Balanced.allocate (he.balanced hb) hok fun h id => ?_
    simp only [View.ids, map_eq_some_iff, hf, or_and_right, exists_or]

end Evicted

omit [DecidableEq H] in
theorem touchAll {f : S → H → S}
    (hf : ∀ s h, I s → I (f s h) ∧ v.find (f s h) = v.find s ∧ v.backend (f s h) = v.backend s)
    (bh : List H) {s : S} (hi : I s) : I (bh.foldl f s) ∧
      v.find (bh.foldl f s) = v.find s ∧ v.backend (bh.foldl f s) = v.backend s := by
  induction bh generalizing s with
  | nil => exact ⟨hi, rfl, rfl⟩
  | cons h bh ih =>
    obtain ⟨hinv₁, hn₁, hb₁⟩ := hf s h hi
    obtain ⟨hi', hfi', hb'⟩ := ih hinv₁
    exact ⟨hi', hfi'.trans hn₁, hb'.trans hb₁⟩

/-! ## 3. The LRU manager -/

namespace LRU

variable {s s' : LRU H} {bh : List H} {h : H} {b : BlockStatus}
  {out : Option (PrepareStoreOutput H)}

def view : View H (LRU H) := ⟨find, setStatus, backend⟩

theorem find_put (b' : BlockStatus) : (s.setStatus h b').find = update s.find h (some b') := by
  funext q
  rw [update_apply]
  exact get_set

theorem find_drop (backend : CPUBackend) :
    find { s with backend, blocks := s.blocks.pop h } = update s.find h none := by
  funext q
  rw [update_apply]
  exact get_pop

theorem evicted {l : List (H × BlockStatus)} (hl : ∀ e ∈ l, e ∈ evictable s.blocks bh)
    (hn : (l.map fst).Nodup) : Evicted view s bh (l.map fst) { s with
      backend := l.foldl (fun b e => b.free e.2) s.backend
      blocks := l.foldl (fun d e => d.pop e.1) s.blocks } := by
  induction l generalizing s with
  | nil => exact .refl
  | cons e l ih =>
    rw [map_cons, nodup_cons] at hn
    obtain ⟨hb, hz, hnot⟩ := mem_evictable.mp (hl e mem_cons_self)
    refine .cons hb hz hnot (find_drop _) rfl (ih (fun e' he' => ?_) hn.2)
    obtain ⟨hb', hr⟩ := mem_evictable.mp (hl e' (mem_cons_of_mem _ he'))
    have hne : e'.1 ≠ e.1 := fun heq => hn.1 (heq ▸ mem_map_of_mem he')
    exact mem_evictable.mpr ⟨by rw [get_pop, if_neg hne, hb'], hr⟩

theorem toStore_eq : s.blockHashesToStore bh = bh.filter fun h => (view.find s h).isNone := by
  refine filter_congr fun h _ => ?_
  rw [decide_eq_decide.mpr get_eq_none.symm]
  exact (Bool.eq_iff_iff.mpr (by rw [isNone_iff_eq_none, decide_eq_true_eq]; rfl))

theorem store_prepared {te : List (H × BlockStatus)} (hd : view.Distinct s bh)
    (hl : ∀ e ∈ te, e ∈ evictable s.blocks bh) (hn : (te.map fst).Nodup)
    (hok : s.store bh te = .ok (s', out)) : Prepared view s bh s' out (te.map fst) := by
  obtain ⟨⟨b', blocks⟩, ha, hok⟩ := of_bind hok
  obtain ⟨rfl, rfl⟩ := pair_inj hok
  have he := evicted hl hn
  obtain ⟨hlen, -, -⟩ := CPUBackend.allocateBlocks_spec ha
  refine he.store toStore_eq ha fun h b => get_foldl_set ?_ fun h hh => ?_
  · rw [map_fst_zip hlen.ge, toStore_eq]
    exact hd
  · rw [map_fst_zip hlen.ge, toStore_eq] at hh
    exact get_eq_none.mp (he.find_toStore hh)

theorem prepareStore_prepared (hd : view.Distinct s bh) (hok : s.prepareStore bh = .ok (s', out)) :
    ∃ g, Prepared view s bh s' out g := by
  unfold prepareStore at hok
  dsimp only at hok
  split_ifs at hok with hp
  · rw [collect_eq hp] at hok
    split at hok
    · obtain ⟨rfl, rfl⟩ := pair_inj hok
      exact ⟨[], Evicted.refl.refused⟩
    · rename_i te heq
      split_ifs at heq
      obtain rfl := Option.some.inj heq
      exact ⟨_, store_prepared hd (fun e he => mem_of_mem_take he) (s.blocks.nodup.sublist
        (((take_sublist _ _).trans filter_sublist).map fst)) hok⟩
  · exact ⟨_, store_prepared hd (fun e he => absurd he not_mem_nil) nodup_nil hok⟩

end LRU

theorem lru_lawful : Lawful (lruManager : OffloadingManager H (LRU H)) LRU.view fun _ => True where
  prepareLoad := rfl
  completeLoad := rfl
  put s h b b' _ _ := ⟨trivial, LRU.find_put b', rfl⟩
  touch s bh _ := by
    refine touchAll (v := LRU.view) (I := fun _ => True)
      (f := fun s h => { s with blocks := s.blocks.moveToEnd h })
      (fun s h _ => ?_) bh.reverse trivial
    exact ⟨trivial, funext fun q => get_moveToEnd, rfl⟩
  prepareStore s bh _ hd := by
    obtain ⟨s', out, hok, -⟩ := LRU.allOrNothing s bh
    obtain ⟨g, hp⟩ := LRU.prepareStore_prepared hd hok
    exact ⟨s', out, g, hok, trivial, hp⟩
  completeStore s bh success s' hinv hnodup hpending hok := by
    obtain ⟨⟨s₁, stored⟩, hf, hok⟩ := of_bind hok
    obtain rfl := Except.ok.inj hok
    refine completeAll (r := fst) (v := LRU.view) (I := fun _ => True) success
      (fun acc h acc' b _ hb hs ho => ?_) hinv hnodup hpending hf
    have hr : b.isReady = false := by rw [BlockStatus.isReady, hs]; rfl
    have hg : acc.1.blocks.get h = some b := hb
    simp only [LRU.completeOne, hg, hr] at ho
    cases success <;> obtain rfl := Except.ok.inj ho
    · exact ⟨trivial, rfl, LRU.find_drop _⟩
    · exact ⟨trivial, rfl, LRU.find_put _⟩

/-! ## 4. The ARC manager -/

namespace ARC

variable {s s' : ARC H} {bh : List H} {h : H} {b : BlockStatus}
  {out : Option (PrepareStoreOutput H)}

/-- A hash is in at most one of the resident maps, and then in no ghost list. -/
def Exclusive (s : ARC H) : Prop :=
  ∀ h, (h ∈ s.t1.keys → h ∉ s.t2.keys) ∧
    (h ∈ s.t1.keys ∨ h ∈ s.t2.keys → h ∉ s.b1.keys ∧ h ∉ s.b2.keys)

def view : View H (ARC H) := ⟨find, setStatus, backend⟩

theorem find_of_mem_t1 (h1 : h ∈ s.t1.keys) : s.find h = s.t1.get h := by
  obtain ⟨b, hb⟩ := isSome_iff_exists.mp (get_isSome.mpr h1)
  rw [find, hb, some_or]

theorem find_of_notMem_t1 (h1 : h ∉ s.t1.keys) : s.find h = s.t2.get h := by
  rw [find, get_eq_none.mpr h1, none_or]

theorem find_eq_none : s.find h = none ↔ h ∉ s.t1.keys ∧ h ∉ s.t2.keys := by
  rw [find, or_eq_none_iff, get_eq_none, get_eq_none]

theorem Exclusive.find_eq_some (hx : s.Exclusive) :
    s.find h = some b ↔ s.t1.get h = some b ∨ s.t2.get h = some b := by
  by_cases h1 : h ∈ s.t1.keys
  · rw [find_of_mem_t1 h1, get_eq_none.mpr ((hx h).1 h1), or_iff_left nofun]
  · rw [find_of_notMem_t1 h1, get_eq_none.mpr h1, or_iff_right nofun]

theorem put (b' : BlockStatus) (hx : s.Exclusive) (hb : s.find h = some b) :
    (s.setStatus h b').Exclusive ∧ (s.setStatus h b').find = update s.find h (some b') ∧
      (s.setStatus h b').backend = s.backend := by
  unfold setStatus
  split_ifs with h1
  · refine ⟨fun q => ?_, funext fun q => ?_, rfl⟩
    · have hq := hx q
      by_cases hqh : q = h <;> simp_all [mem_keys_set]
    · rw [update_apply, find, get_set]
      split_ifs <;> rfl
  · rw [find_of_notMem_t1 h1] at hb
    have h2 : h ∈ s.t2.keys := get_isSome.mp (by rw [hb]; rfl)
    refine ⟨fun q => ?_, funext fun q => ?_, rfl⟩
    · have hq := hx q
      by_cases hqh : q = h <;> simp_all [mem_keys_set]
    · rw [update_apply, find, get_set]
      split_ifs with hqh
      · rw [hqh, get_eq_none.mpr h1]
        rfl
      · rfl

omit [DecidableEq H] in
theorem Exclusive.shrink (hx : s.Exclusive) (h1 : ∀ q, q ∈ s'.t1.keys → q ∈ s.t1.keys)
    (h2 : ∀ q, q ∈ s'.t2.keys → q ∈ s.t2.keys) (hb1 : s'.b1 = s.b1) (hb2 : s'.b2 = s.b2) :
    s'.Exclusive := by
  intro q
  rw [hb1, hb2]
  exact ⟨fun hq hq' => (hx q).1 (h1 q hq) (h2 q hq'), fun hq => (hx q).2 (hq.imp (h1 q) (h2 q))⟩

theorem find_drop (s' : ARC H) (hx : s.Exclusive)
    (hm : s.t1.get h = some b ∧ s'.t1 = s.t1.pop h ∧ s'.t2 = s.t2 ∨
      s.t2.get h = some b ∧ s'.t1 = s.t1 ∧ s'.t2 = s.t2.pop h) : s'.find
        = update s.find h none := by
  have hb : h ∈ s.t1.keys → h ∉ s.t2.keys := (hx h).1
  funext q
  rw [update_apply]
  split_ifs with hq
  · rw [hq, find_eq_none]
    obtain ⟨hg, h1, h2⟩ | ⟨hg, h1, h2⟩ := hm
    all_goals
      have hmem := get_isSome.mp (by rw [hg]; rfl)
      rw [h1, h2, mem_keys_pop]
      tauto
  · obtain ⟨-, h1, h2⟩ | ⟨-, h1, h2⟩ := hm <;>
      rw [find, h1, h2, get_pop, if_neg hq, find]

theorem touchOne_same (rnd : ℚ → ℚ) (hx : s.Exclusive) : (s.touchOne rnd h).Exclusive ∧
    (s.touchOne rnd h).find = s.find ∧ (s.touchOne rnd h).backend = s.backend := by
  unfold touchOne
  split
  · rename_i b hb
    have h1 : h ∈ s.t1.keys := get_isSome.mp (by rw [hb]; rfl)
    split_ifs
    all_goals
      refine ⟨fun q => ?_, funext fun q => ?_, rfl⟩
      · have hq := hx q
        by_cases hqh : q = h <;> simp_all [mem_keys_set, mem_keys_pop]
      · by_cases hqh : q = h <;> simp [find, hqh, get_set, hb]
  · split_ifs
    · refine ⟨fun q => ?_, funext fun q => ?_, rfl⟩
      · simpa only [mem_keys_moveToEnd] using hx q
      · rw [find, get_moveToEnd, find]
    · exact ⟨fun q => by simpa only [mem_keys_moveToEnd] using hx q, rfl, rfl⟩
    · exact ⟨fun q => by simpa only [mem_keys_moveToEnd] using hx q, rfl, rfl⟩
    · exact ⟨hx, rfl, rfl⟩

theorem evictLoop_evicted (bh : List H) (n : Nat) (hx : s.Exclusive) :
    ∃ g, (evictLoop bh n s).1.Exclusive ∧ Evicted view s bh g (evictLoop bh n s).1 := by
  induction n generalizing s with
  | zero => exact ⟨[], hx, .refl⟩
  | succ n ih =>
    unfold evictLoop
    split
    · exact ⟨[], hx, .refl⟩
    · rename_i s₁ h ho
      obtain ⟨b, ⟨-, hm, rfl⟩ | ⟨-, hm, rfl⟩⟩ := evictOne_cases ho
      all_goals obtain ⟨hg, hz, hn⟩ := mem_evictable.mp hm
      · have hx₁ : Exclusive { s with
            t1 := s.t1.pop h, b1 := s.b1.set h (), backend := s.backend.free b } := by
          intro q
          have hq := hx q
          have h1 := (hx h).1 (get_isSome.mp (by rw [hg]; rfl))
          by_cases hqh : q = h <;> simp_all [mem_keys_set, mem_keys_pop]
        obtain ⟨g, hx', he⟩ := ih hx₁
        refine ⟨h :: g, hx', he.cons (hx.find_eq_some.mpr (.inl hg)) hz hn ?_ rfl⟩
        exact find_drop _ hx (.inl ⟨hg, rfl, rfl⟩)
      · have hx₁ : Exclusive { s with
            t2 := s.t2.pop h, b2 := s.b2.set h (), backend := s.backend.free b } := by
          intro q
          have hq := hx q
          have h2 := get_isSome.mp (show (s.t2.get h).isSome by rw [hg]; rfl)
          by_cases hqh : q = h <;> simp_all [mem_keys_set, mem_keys_pop]
        obtain ⟨g, hx', he⟩ := ih hx₁
        refine ⟨h :: g, hx', he.cons (hx.find_eq_some.mpr (.inr hg)) hz hn ?_ rfl⟩
        exact find_drop _ hx (.inr ⟨hg, rfl, rfl⟩)

omit [DecidableEq H] in
theorem mem_keys_trim {d : OrderedDict H Unit} {n : Nat} (hm : h ∈ (trim d n).keys) :
    h ∈ d.keys := by
  unfold trim at hm
  generalize d.entries.length - n = k at hm
  induction k generalizing d with
  | zero => exact hm
  | succ k ih =>
    have ht := ih hm
    rw [keys, popFirst, map_tail] at ht
    exact mem_of_mem_tail ht

theorem foldl_insertNew {l : List (H × BlockStatus)} (hx : s.Exclusive)
    (hl : ∀ h ∈ l.map fst, h ∉ s.t2.keys) : (l.foldl insertNew s).Exclusive ∧
      (l.foldl insertNew s).t1 = l.foldl (fun d e => d.set e.1 e.2) s.t1 ∧
      (l.foldl insertNew s).t2 = s.t2 ∧ (l.foldl insertNew s).backend = s.backend := by
  induction l generalizing s with
  | nil => exact ⟨hx, rfl, rfl, rfl⟩
  | cons e l ih =>
    have hx₁ : (insertNew s e).Exclusive := by
      intro q
      have hq := hx q
      have he := hl e.1 mem_cons_self
      by_cases hqe : q = e.1 <;> simp_all [insertNew, mem_keys_set, mem_keys_pop]
    exact ih hx₁ fun h hh => hl h (mem_cons_of_mem _ hh)

theorem toStore_eq : s.blockHashesToStore bh = bh.filter fun h => (view.find s h).isNone := by
  refine filter_congr fun h _ => ?_
  rw [decide_eq_decide.mpr find_eq_none.symm]
  exact (Bool.eq_iff_iff.mpr (by rw [isNone_iff_eq_none, decide_eq_true_eq]; rfl))

theorem store_prepared {s₁ : ARC H} {g e : List H} (hd : view.Distinct s bh)
    (he : Evicted view s bh g s₁) (hx : s₁.Exclusive)
    (hok : s₁.store (s.blockHashesToStore bh) e = .ok (s', out)) :
    s'.Exclusive ∧ Prepared view s bh s' out g := by
  obtain ⟨⟨b', blocks⟩, ha, hok⟩ := of_bind hok
  obtain ⟨rfl, rfl⟩ := pair_inj hok
  obtain ⟨hl, -, -⟩ := CPUBackend.allocateBlocks_spec ha
  have hn : ∀ h ∈ ((s.blockHashesToStore bh).zip blocks).map fst, h ∉ s₁.t1.keys ∧
      h ∉ s₁.t2.keys := by
    intro h hh
    rw [map_fst_zip hl.ge, toStore_eq] at hh
    exact find_eq_none.mp (he.find_toStore hh)
  obtain ⟨hx', ht1, ht2, hb⟩ := foldl_insertNew (s := { s₁ with
      backend := b'
      b1 := trim s₁.b1 s₁.cacheCapacity
      b2 := trim s₁.b2 s₁.cacheCapacity
      events := addEvent s₁.events s₁.backend e true })
    (fun q => ⟨(hx q).1, fun hq => ⟨mt mem_keys_trim ((hx q).2 hq).1,
      mt mem_keys_trim ((hx q).2 hq).2⟩⟩)
    fun h hh => (hn h hh).2
  refine ⟨hx', he.store toStore_eq (ha.trans (congrArg (fun b => Except.ok (b, blocks)) hb.symm))
    fun h b => ?_⟩
  refine hx'.find_eq_some.trans ?_
  rw [ht1, ht2, get_foldl_set (by rw [map_fst_zip hl.ge, toStore_eq]; exact hd)
    fun h hh => (hn h hh).1]
  exact or_right_comm.trans (or_congr_left hx.find_eq_some.symm)

theorem prepareStore_prepared (hx : s.Exclusive) (hd : view.Distinct s bh)
    (hok : s.prepareStore bh = .ok (s', out)) :
    ∃ g, s'.Exclusive ∧ Prepared view s bh s' out g := by
  unfold prepareStore at hok
  dsimp only at hok
  split_ifs at hok with hn
  · obtain ⟨rfl, rfl⟩ := pair_inj hok
    refine ⟨[], hx, nofun, ?_, ?_, fun h _ => (if_neg not_mem_nil).symm, id⟩
    · rintro o ⟨⟩
      rw [← toStore_eq, hn]
    · rintro o ⟨⟩ h hh
      cases hh
  · obtain ⟨g, hx₁, he⟩ :=
      evictLoop_evicted bh ((s.blockHashesToStore bh).length - s.backend.getNumFreeBlocks) hx
    split at hok
    all_goals
      rename_i hl
      rw [hl] at hx₁ he
    · obtain ⟨rfl, rfl⟩ := pair_inj hok
      exact ⟨g, hx₁, he.refused⟩
    · exact ⟨g, store_prepared hd he hx₁ hok⟩

end ARC

theorem arc_lawful (rnd : ℚ → ℚ) :
    Lawful (arcManager rnd : OffloadingManager H (ARC H)) view ARC.Exclusive where
  prepareLoad := rfl
  completeLoad := rfl
  put s h b b' hx hb := put b' hx hb
  touch s bh hx := touchAll (v := view) (fun s h hx => touchOne_same rnd hx) bh.reverse hx
  prepareStore s bh hx hd := by
    obtain ⟨s', out, hok, -⟩ := prepareStore_spec s bh
    obtain ⟨g, hx', hp⟩ := prepareStore_prepared hx hd hok
    exact ⟨s', out, g, hok, hx', hp⟩
  completeStore s bh success s' hx hnodup hpending hok := by
    obtain rfl := Except.ok.inj hok
    have hfo : bh.foldlM (fun acc h => (.ok (completeOne success acc h) : Except
        (OffloadError H) _)) (s, []) = .ok (bh.foldl (completeOne success) (s, [])) := foldlM_pure
    refine completeAll (r := fst) (v := view) (I := ARC.Exclusive) success
      (fun acc h acc' b hx hb hs ho => ?_) hx hnodup hpending hfo
    have hr : b.isReady = false := by rw [BlockStatus.isReady, hs]; rfl
    obtain rfl := Except.ok.inj ho
    have hfi : acc.1.find h = some b := hb
    cases success with
    | true =>
      simp only [completeOne, hfi, hr, if_true, Bool.false_eq_true, if_false]
      obtain ⟨hx', hf, hba⟩ := put { b with refCnt := 0 } hx hb
      exact ⟨hx', hba, hf⟩
    | false =>
      simp only [completeOne, Bool.false_eq_true, if_false]
      have hpop : ∀ {d : OrderedDict H BlockStatus} (q : H), q ∈ (d.pop h).keys → q ∈ d.keys :=
        fun q hq => (mem_keys_pop.mp hq).1
      rcases hx.find_eq_some.mp hfi with hg | hg
      · simp only [hg, hr, Bool.false_eq_true, if_false]
        exact ⟨hx.shrink hpop (fun _ => id) rfl rfl, rfl, find_drop _ hx (.inl ⟨hg, rfl, rfl⟩)⟩
      · have hn : acc.1.t1.get h = none := get_eq_none.mpr fun h1 =>
          (hx h).1 h1 (get_isSome.mp (by rw [hg]; rfl))
        simp only [hn, hg, hr, Bool.false_eq_true, if_false]
        exact ⟨hx.shrink (fun _ => id) hpop rfl rfl, rfl, find_drop _ hx (.inr ⟨hg, rfl, rfl⟩)⟩

/-! ## 5. Every run -/

def World.init (s : S) : World H S := ⟨s, fun _ => 0, []⟩

omit [DecidableEq H] in
theorem Good.init {s : S} (hinv : I s) (hf : ∀ h, v.find s h = none)
    (hba : ∃ blockSize nb, v.backend s = .init blockSize nb) : Good v I (World.init s) := by
  obtain ⟨blockSize, nb, hba⟩ := hba
  have hi : ∀ h, v.ids s h = none := fun h => by rw [View.ids, hf, map_none]
  refine ⟨hinv, ?_, ⟨fun h _ => ⟨rfl, not_mem_nil⟩, fun h b hb => ?_, fun h b hb => ?_⟩,
    fun h => Nat.two_pow_pos 31⟩
  · rw [View.Balanced, World.init, hba]
    exact ⟨fun id => by simp [CPUBackend.init, hi], nodup_nil, fun h id hid => by simp [hi] at hid,
      fun h h' id hid => by simp [hi] at hid⟩
  all_goals
    rw [World.init, hf] at hb
    cases hb

/-- **The accounts of both managers balance** in every run from the start in which no call stores a
    hash twice. -/
theorem accounts_sound (blockSize numBlocks : Nat) (enableEvents : Bool) (acts : List (Act H)) :
    (∀ w, RunsClean lruManager LRU.view
      (World.init (LRU.init (.init blockSize numBlocks) enableEvents)) acts →
      World.exec lruManager (World.init (LRU.init (.init blockSize numBlocks) enableEvents)) acts
        = some w → Sound lruManager LRU.view w) ∧
    ∀ rnd w, RunsClean (arcManager rnd)
      ARC.view (World.init (ARC.init (.init blockSize numBlocks) enableEvents)) acts →
      World.exec (arcManager rnd) (World.init (ARC.init (.init blockSize numBlocks) enableEvents))
        acts = some w → Sound (arcManager rnd) ARC.view w ∧ w.state.Exclusive := by
  refine ⟨fun w hc hec => ?_, fun rnd w hc hec => ?_⟩
  · have hs := Good.init (v := LRU.view (H := H)) (I := fun _ => True)
      (s := LRU.init (.init blockSize numBlocks) enableEvents) trivial (fun h => rfl) ⟨_, _, rfl⟩
    exact lru_lawful.sound (lru_lawful.exec hs hc hec)
  · have hs := Good.init (v := view (H := H)) (I := ARC.Exclusive) (s := init (.init blockSize
      numBlocks) enableEvents) (fun h => ⟨nofun, nofun⟩) (fun h => rfl) ⟨_, _, rfl⟩
    have hg := (arc_lawful rnd).exec hs hc hec
    exact ⟨(arc_lawful rnd).sound hg, hg.inv⟩

def thirdStored : List (Act Nat) :=
  [.prepareStore [0, 1], .completeStore [0, 1] true, .prepareStore [2]]

theorem thirdStored_sound :
    (∃ w, World.exec lruManager (World.init (LRU.init (.init 16 2) true)) thirdStored = some w ∧
      Sound lruManager LRU.view w) ∧
    ∃ w, World.exec (arcManager id) (World.init (ARC.init (.init 16 2) true)) thirdStored = some w ∧
      Sound (arcManager id) ARC.view w ∧ w.state.Exclusive := by
  have hf : [0, 1].Nodup := by decide
  refine ⟨⟨_, rfl, (accounts_sound 16 2 true thirdStored).1 _ ⟨hf, fun _ h => ?_⟩ rfl⟩,
    _, rfl, (accounts_sound 16 2 true thirdStored).2 id _ ⟨hf, fun _ h => ?_⟩ rfl⟩
  all_goals
    obtain rfl := Option.some.inj h
    refine ⟨trivial, fun _ h => ?_⟩
    obtain rfl := Option.some.inj h
    exact ⟨nodup_singleton 2, fun _ _ => trivial⟩

/-- **A hash that is stored twice in one call** gets two ids, and one of them is lost. -/
theorem repeated_hash_loses_id :
    (∃ w, World.exec lruManager (World.init (LRU.init (.init 16 2) true)) [Act.prepareStore [5, 5]]
      = some w ∧ ¬ LRU.view.Balanced w.state) ∧
    ∃ w, World.exec (arcManager id) (World.init (ARC.init (.init 16 2) true))
      [Act.prepareStore [5, 5]] = some w ∧ ¬ ARC.view.Balanced w.state := by
  refine ⟨⟨_, rfl, fun hbal => ?_⟩, _, rfl, fun hbal => ?_⟩
  all_goals
    obtain hf | ⟨h, hid⟩ := (hbal.allocated 0).mp Nat.two_pos
    · cases hf
    obtain ⟨b, hb, hid⟩ := map_eq_some_iff.mp hid
  · have ho := mem_singleton.mp (get_eq_some_iff.mp hb)
    cases ho
    cases hid
  · have ho := mem_singleton.mp (get_eq_some_iff.mp (or_none.symm.trans hb))
    cases ho
    cases hid

end VllmDual.Offload
