/-
  Subject:   DICTIONARIES THAT REMEMBER THE ORDER OF INSERTION.

  A key keeps its place when its value is replaced, and the oldest entry can be dropped. That the
  keys are distinct is part of the type:

  * `OrderedDict` with `get`, `set`, `pop`, `filter`, `popFirst`, `moveToEnd`;
  * `get_set`, `get_pop`, `get_filter` -- what a lookup finds after each;
  * `mergeWith`, `get_mergeWith` -- one dictionary folded into another, entry by entry.
-/
import Mathlib

/-- Entries in the order of their first insertion. -/
structure OrderedDict (κ ν : Type) where
  entries : List (κ × ν)
  nodup : (entries.map Prod.fst).Nodup

namespace OrderedDict

open List

variable {κ ν : Type} [DecidableEq κ]

def empty : OrderedDict κ ν := ⟨[], List.nodup_nil⟩

variable (d : OrderedDict κ ν)

def keys : List κ := d.entries.map Prod.fst

variable (k : κ)

def get : Option ν := (d.entries.find? (·.1 = k)).map Prod.snd

theorem keys_replace (l : List (κ × ν)) (k : κ) (v : ν) :
    (l.map fun e => if e.1 = k then (k, v) else e).map Prod.fst = l.map Prod.fst := by
  rw [map_map]
  refine map_congr_left fun e _ => ?_
  by_cases he : e.1 = k <;> simp [he]

def set (v : ν) : OrderedDict κ ν :=
  if hk : k ∈ d.keys then
    ⟨d.entries.map fun e => if e.1 = k then (k, v) else e, by rw [keys_replace]; exact d.nodup⟩
  else
    ⟨d.entries ++ [(k, v)], by
      rw [List.map_append, List.nodup_append]
      refine ⟨d.nodup, List.nodup_singleton _, fun a ha b hb hab => ?_⟩
      rw [hab, List.mem_singleton.mp hb] at ha
      exact hk ha⟩

def filter (p : κ → Bool) : OrderedDict κ ν :=
  ⟨d.entries.filter fun e => p e.1, d.nodup.sublist (List.filter_sublist.map Prod.fst)⟩

def pop : OrderedDict κ ν := d.filter (· ≠ k)

def popFirst : OrderedDict κ ν :=
  ⟨d.entries.tail, by rw [List.map_tail]; exact d.nodup.sublist (List.tail_sublist _)⟩

def moveToEnd : OrderedDict κ ν :=
  match d.get k with
  | none => d
  | some v => (d.pop k).set k v

variable {d : OrderedDict κ ν} {k k' : κ} {v : ν}

@[simp] theorem get_empty : (empty : OrderedDict κ ν).get k = none := rfl

theorem get_eq_none : d.get k = none ↔ k ∉ d.keys := by
  rw [get, Option.map_eq_none_iff, find?_eq_none, keys, mem_map]
  constructor
  · intro h ⟨e, he, hk⟩
    exact h e he (decide_eq_true hk)
  · intro h e he hk
    exact h ⟨e, he, of_decide_eq_true hk⟩

theorem get_isSome : (d.get k).isSome ↔ k ∈ d.keys := by
  rw [Option.isSome_iff_ne_none, ne_eq, get_eq_none, not_not]

theorem get_set : (d.set k v).get k' = if k' = k then some v else d.get k' := by
  unfold set
  split
  · rename_i hk
    have hc : (fun e : κ × ν => decide ((if e.1 = k then (k, v) else e).1 = k'))
        = fun e => decide (e.1 = k') := by
      funext e
      by_cases he : e.1 = k <;> simp [he]
    simp only [get, find?_map, Function.comp_def, hc, Option.map_map]
    by_cases hkk : k' = k
    · obtain ⟨e, he⟩ := Option.isSome_iff_exists.mp (get_isSome.mpr hk)
      obtain ⟨e', hf, -⟩ := Option.map_eq_some_iff.mp he
      have hkey : e'.1 = k := by simpa using find?_some hf
      simp [hkk, hf, hkey]
    · rw [if_neg hkk]
      cases hf : d.entries.find? fun e => decide (e.1 = k') with
      | none => rfl
      | some e =>
        have hkey : e.1 = k' := by simpa using find?_some hf
        simp [hkey, hkk]
  · rename_i hk
    have hn := get_eq_none.mpr hk
    simp only [get, find?_append, Option.map_eq_none_iff] at hn ⊢
    by_cases hkk : k' = k
    · simp [hkk, hn]
    · rw [if_neg hkk]
      simp [Ne.symm hkk]

theorem get_filter (p : κ → Bool) :
    (d.filter p).get k' = if p k' then d.get k' else none := by
  have hc : ∀ e : κ × ν, (p e.1 && decide (e.1 = k')) = (p k' && decide (e.1 = k')) := by
    intro e
    by_cases he : e.1 = k' <;> simp [he]
  simp only [get, filter, find?_filter, Bool.decide_and, Bool.decide_eq_true, hc]
  by_cases hp : p k' <;> simp [hp]

@[simp] theorem get_pop : (d.pop k).get k' = if k' = k then none else d.get k' := by
  rw [pop, get_filter]
  by_cases hkk : k' = k <;> simp [hkk]

theorem mem_keys_set : k' ∈ (d.set k v).keys ↔ k' = k ∨ k' ∈ d.keys := by
  rw [← get_isSome, get_set, ← get_isSome]
  by_cases hkk : k' = k <;> simp [hkk]

theorem mem_keys_filter {p : κ → Bool} : k' ∈ (d.filter p).keys ↔ k' ∈ d.keys ∧ p k' = true := by
  rw [← get_isSome, get_filter, ← get_isSome]
  by_cases hp : p k' <;> simp [hp]

theorem mem_keys_pop : k' ∈ (d.pop k).keys ↔ k' ∈ d.keys ∧ k' ≠ k := by
  rw [pop, mem_keys_filter, decide_eq_true_eq]

theorem length_set_le : (d.set k v).entries.length ≤ d.entries.length + 1 := by
  unfold set
  split <;> simp

theorem get_eq_some_iff : d.get k = some v ↔ (k, v) ∈ d.entries := by
  rw [get, Option.map_eq_some_iff]
  constructor
  · intro ⟨e, hf, hv⟩
    have hk : e.1 = k := by simpa using find?_some hf
    rw [← hk, ← hv]
    exact mem_of_find?_eq_some hf
  · intro hm
    obtain ⟨e, hf⟩ : ∃ e, d.entries.find? (·.1 = k) = some e :=
      Option.isSome_iff_exists.mp (find?_isSome.mpr ⟨_, hm, by simp⟩)
    have hk : e.1 = k := by simpa using find?_some hf
    have heq := inj_on_of_nodup_map d.nodup (mem_of_find?_eq_some hf) hm hk
    exact ⟨e, hf, by rw [heq]⟩

theorem perm_pop (h : d.get k = some v) : d.entries.Perm ((k, v) :: (d.pop k).entries) := by
  have hs := filter_append_perm (fun e => decide (e.1 = k)) d.entries
  have ho : d.entries.filter (fun e => decide (e.1 = k)) = [(k, v)] := by
    have hm := get_eq_some_iff.mp h
    refine perm_singleton.mp ((perm_ext_iff_of_nodup
      ((Nodup.of_map _ d.nodup).filter _) (nodup_singleton _)).mpr fun e => ?_)
    rw [mem_filter, decide_eq_true_eq, mem_singleton]
    constructor
    · intro ⟨he, hek⟩
      have hg := get_eq_some_iff.mpr (show (e.1, e.2) ∈ d.entries from he)
      rw [hek, h] at hg
      exact Prod.ext hek (Option.some.inj hg).symm
    · rintro rfl
      exact ⟨hm, rfl⟩
  rw [ho] at hs
  have hr : (d.pop k).entries = d.entries.filter (fun e => !decide (e.1 = k)) := by
    simp [pop, filter]
  rw [hr]
  exact hs.symm

theorem get_moveToEnd : (d.moveToEnd k).get k' = d.get k' := by
  unfold moveToEnd
  split
  · rfl
  · rename_i v hv
    rw [get_set, get_pop]
    split_ifs with hk
    · rw [hk, hv]
    · rfl

theorem mem_keys_moveToEnd : k' ∈ (d.moveToEnd k).keys ↔ k' ∈ d.keys := by
  rw [← get_isSome, get_moveToEnd, get_isSome]

theorem get_foldl_set {l : List (κ × ν)} (hn : (l.map Prod.fst).Nodup)
    (hnew : ∀ k ∈ l.map Prod.fst, k ∉ d.keys) :
    (l.foldl (fun d e => d.set e.1 e.2) d).get k = some v ↔ d.get k = some v ∨ (k, v) ∈ l := by
  induction l generalizing d with
  | nil => simp
  | cons e l ih =>
    rw [map_cons, nodup_cons] at hn
    have hr : ∀ k' ∈ l.map Prod.fst, k' ∉ (d.set e.1 e.2).keys := by
      intro k' hk' hm
      rcases mem_keys_set.mp hm with rfl | hold
      · exact hn.1 hk'
      · exact hnew k' (mem_cons_of_mem _ hk') hold
    rw [foldl_cons, ih hn.2 hr, get_set, mem_cons]
    by_cases hk : k = e.1
    · have hno : d.get k ≠ some v := by
        rw [get_eq_none.mpr (hk ▸ hnew e.1 mem_cons_self)]
        nofun
      rw [if_pos hk, or_iff_right hno, Option.some.injEq, Prod.ext_iff, and_iff_right hk, eq_comm]
    · rw [if_neg hk, or_iff_right fun heq : (k, v) = e => hk (congrArg Prod.fst heq)]

/-- Fold the entries of `d'` into `d`; `f` combines an old value, if there is one, with a new
    one. -/
def mergeWith (f : Option ν → ν → ν) (d d' : OrderedDict κ ν) : OrderedDict κ ν :=
  d'.entries.foldl (fun d e => d.set e.1 (f (d.get e.1) e.2)) d

theorem get_mergeWith (f : Option ν → ν → ν) {d d' : OrderedDict κ ν} :
    (mergeWith f d d').get k = match d'.get k with
      | none => d.get k
      | some v => some (f (d.get k) v) := by
  obtain ⟨l, hl⟩ := d'
  simp only [mergeWith, get]
  induction l generalizing d with
  | nil => rfl
  | cons e l ih =>
    rw [map_cons, nodup_cons] at hl
    have hs : (d.set e.1 (f (d.get e.1) e.2)).get k
        = if k = e.1 then some (f (d.get e.1) e.2) else d.get k := get_set
    rw [foldl_cons, ih hl.2, find?_cons]
    by_cases hk : e.1 = k
    · have hn : l.find? (·.1 = k) = none := by
        rw [find?_eq_none]
        intro e' he' hk'
        exact hl.1 (mem_map.mpr ⟨e', he', by rw [of_decide_eq_true hk', hk]⟩)
      rw [if_pos hk.symm, hk] at hs
      simpa [hn, hk, get] using hs
    · rw [if_neg (Ne.symm hk)] at hs
      simp only [get] at hs
      simp only [hs, hk, decide_false]

theorem length_le_card {S : Finset κ} (h : ∀ k ∈ d.keys, k ∈ S) : d.entries.length ≤ S.card := by
  have hl : d.entries.length = d.keys.toFinset.card := by
    rw [keys, toFinset_card_of_nodup d.nodup, length_map]
  rw [hl]
  exact Finset.card_le_card fun k hk => h k (mem_toFinset.mp hk)

omit [DecidableEq κ] in
theorem seen_iff_pairwise (due : κ × ν → Prop) {ex : κ × ν → Prop} [DecidablePred ex]
    (hdue : ∀ e, due e → ex e) {l : List (κ × ν)} (hnd : (l.map Prod.fst).Nodup) :
    (∀ e ∈ l, due e → ∃ e' ∈ l.takeWhile ex, e'.1 = e.1) ↔ l.Pairwise fun ea later => due later →
      ex ea := by
  induction l with
  | nil => simp
  | cons a l ih =>
    obtain ⟨ha, hnd⟩ := nodup_cons.mp hnd
    rw [pairwise_cons, ← ih hnd, takeWhile_cons, forall_mem_cons]
    by_cases hexp : ex a
    · rw [if_pos (decide_eq_true hexp)]
      constructor
      · rintro ⟨-, h⟩
        refine ⟨fun _ _ _ => hexp, fun e he hd => ?_⟩
        obtain ⟨e', he', hk⟩ := h e he hd
        rcases mem_cons.mp he' with rfl | he'
        · exact absurd (mem_map.mpr ⟨e, he, hk.symm⟩) ha
        · exact ⟨e', he', hk⟩
      · rintro ⟨-, h⟩
        exact ⟨fun _ => ⟨a, mem_cons_self, rfl⟩, fun e he hd =>
          (h e he hd).imp fun _ => And.imp_left (mem_cons_of_mem a)⟩
    · have hn : ∀ e : κ × ν, ¬ ∃ e' ∈ ([] : List (κ × ν)), e'.1 = e.1 := by simp
      rw [if_neg (by simpa using hexp)]
      constructor
      · rintro ⟨-, h⟩
        exact ⟨fun e he hd => absurd (h e he hd) (hn e), fun e he hd =>
          absurd (h e he hd) (hn e)⟩
      · rintro ⟨h, -⟩
        exact ⟨fun hd => absurd (hdue a hd) hexp, fun e he hd => absurd (h e he hd) hexp⟩

end OrderedDict
