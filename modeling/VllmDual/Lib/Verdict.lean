/-
  Subject:   VERDICTS: REPORTS ABOUT THE SAME KEY JOINED INTO ONE.

  Several reports about a key are joined as they come: equal reports stay what they are, and two
  different ones make the bad verdict, which nothing takes back:

  * `verdict` -- what a list of reports says (`verdict_eq_bad`, `verdict_of_forall`);
  * `noteAll`, `get_noteAll` -- a key's entry in a dictionary is the verdict on its reports;
  * `get_noteAll_entries` -- verdicts may be joined before they are entered.
-/
import VllmDual.Lib.OrderedDict

namespace Verdict

open List

variable {κ σ : Type} [DecidableEq κ] [DecidableEq σ] {bad a b c : σ} {ss : List σ}

/-! ## 1. Reports about one key -/

def join (bad a b : σ) : σ := if a = b then a else bad

theorem join_self : join bad a a = a := if_pos rfl

theorem join_of_ne (h : a ≠ b) : join bad a b = bad := if_neg h

@[simp] theorem bad_join : join bad bad a = bad := by
  unfold join
  split <;> rfl

@[simp] theorem join_bad : join bad a bad = bad := by
  unfold join
  split
  · assumption
  · rfl

theorem join_assoc : join bad (join bad a b) c = join bad a (join bad b c) := by
  by_cases hab : a = b
  · subst hab
    by_cases hac : a = c
    · rw [hac, join_self, join_self]
    · rw [join_self, join_of_ne hac, join_bad]
  · by_cases hbc : b = c
    · subst hbc
      rw [join_of_ne hab, bad_join, join_self, join_of_ne hab]
    · rw [join_of_ne hab, join_of_ne hbc, bad_join, join_bad]

def verdict (bad : σ) : List σ → Option σ
  | [] => none
  | s :: ss => some (ss.foldl (join bad) s)

theorem foldl_join_bad (ss : List σ) : ss.foldl (join bad) bad = bad := by
  induction ss with
  | nil => rfl
  | cons s ss ih => rw [foldl_cons, bad_join, ih]

theorem foldl_join_eq (h : ∀ s ∈ ss, s = a) : ss.foldl (join bad) a = a := by
  induction ss with
  | nil => rfl
  | cons s ss ih =>
    rw [foldl_cons, h s mem_cons_self, join_self]
    exact ih fun s hs => h s (mem_cons_of_mem _ hs)

theorem foldl_join_of_ne (hb : b ∈ ss) (hne : b ≠ a) : ss.foldl (join bad) a = bad := by
  induction ss generalizing a with
  | nil => cases hb
  | cons s ss ih =>
    rw [foldl_cons]
    by_cases hs : a = s
    · have hm : b ∈ ss := by
        cases mem_cons.mp hb with
        | inl h => exact absurd (h.trans hs.symm) hne
        | inr h => exact h
      rw [hs, join_self]
      exact ih hm (hs ▸ hne)
    · rw [join_of_ne hs, foldl_join_bad]

theorem verdict_eq_bad (h : (∃ a ∈ ss, ∃ b ∈ ss, a ≠ b) ∨ bad ∈ ss) :
    verdict bad ss = some bad := by
  cases ss with
  | nil => simp at h
  | cons s ss =>
    refine congrArg some ?_
    by_cases hall : ∀ b ∈ ss, b = s
    · rw [foldl_join_eq hall]
      have hs : ∀ b ∈ s :: ss, b = s := by
        intro b hb
        cases mem_cons.mp hb with
        | inl h => exact h
        | inr h => exact hall b h
      cases h with
      | inl h =>
        obtain ⟨a, ha, b, hb, hne⟩ := h
        exact absurd ((hs a ha).trans (hs b hb).symm) hne
      | inr h => exact (hs bad h).symm
    · obtain ⟨b, hb, hne⟩ : ∃ b ∈ ss, b ≠ s := by simpa using hall
      exact foldl_join_of_ne hb hne

theorem verdict_of_forall (hne : ss ≠ []) (h : ∀ s ∈ ss, s = a) : verdict bad ss = some a := by
  cases ss with
  | nil => exact absurd rfl hne
  | cons s ss =>
    obtain rfl := h s mem_cons_self
    exact congrArg some (foldl_join_eq fun b hb => h b (mem_cons_of_mem _ hb))

theorem verdict_eq_none : verdict bad ss = none ↔ ss = [] := by
  cases ss <;> simp [verdict]

theorem foldl_join_join (ss : List σ) :
    join bad a (ss.foldl (join bad) b) = (b :: ss).foldl (join bad) a := by
  induction ss generalizing b with
  | nil => rfl
  | cons s ss ih => rw [foldl_cons, ih, foldl_cons, ← join_assoc]; rfl

theorem verdict_append_verdict (ss ts : List σ) :
    verdict bad (ss ++ (verdict bad ts).toList) = verdict bad (ss ++ ts) := by
  cases ts with
  | nil => rfl
  | cons t ts =>
    cases ss with
    | nil => rfl
    | cons s ss =>
      simp only [verdict, Option.toList_some, cons_append, foldl_append, foldl_cons, foldl_nil]
      rw [foldl_join_join, foldl_cons]

theorem verdict_toList_append (ss ts : List σ) :
    verdict bad ((verdict bad ss).toList ++ ts) = verdict bad (ss ++ ts) := by
  cases ss with
  | nil => rfl
  | cons s ss => simp only [verdict, Option.toList_some, cons_append, nil_append, foldl_append]

/-! ## 2. Reports in a dictionary -/

def note (bad : σ) (d : OrderedDict κ σ) (k : κ) (s : σ) : OrderedDict κ σ :=
  match d.get k with
  | none => d.set k s
  | some previous => if previous ≠ s then d.set k bad else d

def noteAll (bad : σ) (d : OrderedDict κ σ) (reports : List (κ × σ)) : OrderedDict κ σ :=
  reports.foldl (fun d e => note bad d e.1 e.2) d

def statuses (k : κ) (reports : List (κ × σ)) : List σ :=
  (reports.filter fun e => e.1 = k).map Prod.snd

omit [DecidableEq σ] in
theorem mem_statuses {k : κ} {s : σ} {rp : List (κ × σ)} : s ∈ statuses k rp ↔ (k, s) ∈ rp := by
  simp [statuses]

omit [DecidableEq σ] in
theorem statuses_append (k : κ) (l l' : List (κ × σ)) :
    statuses k (l ++ l') = statuses k l ++ statuses k l' := by
  rw [statuses, filter_append, map_append]
  rfl

variable {d d' : OrderedDict κ σ} {k k' : κ} {s : σ}

theorem get_note : (note bad d k s).get k'
    = if k' = k then verdict bad ((d.get k).toList ++ [s]) else d.get k' := by
  unfold note
  cases hk : d.get k with
  | none => exact OrderedDict.get_set
  | some ps =>
    by_cases hne : ps = s
    · by_cases hkk : k' = k <;> simp [hne, hkk, hk, verdict, join_self]
    · by_cases hkk : k' = k <;> simp [hne, hkk, OrderedDict.get_set, verdict, join_of_ne hne]

theorem get_noteAll (rp : List (κ × σ)) :
    (noteAll bad d rp).get k = verdict bad ((d.get k).toList ++ statuses k rp) := by
  induction rp generalizing d with
  | nil => cases hk : d.get k <;> simp [noteAll, statuses, hk, verdict]
  | cons e rp ih =>
    rw [noteAll, foldl_cons]
    refine ih.trans ?_
    rw [get_note]
    by_cases hk : k = e.1
    · subst hk
      cases d.get e.1 <;> simp [statuses, verdict]
    · rw [if_neg hk, statuses, statuses, filter_cons_of_neg (by simpa using Ne.symm hk)]

omit [DecidableEq σ] in
theorem statuses_entries : statuses k d.entries = (d.get k).toList := by
  obtain ⟨l, hl⟩ := d
  simp only [OrderedDict.get]
  induction l with
  | nil => rfl
  | cons e l ih =>
    rw [map_cons, nodup_cons] at hl
    have hr := ih hl.2
    by_cases hk : e.1 = k
    · have hn : l.find? (·.1 = k) = none := by
        rw [find?_eq_none]
        intro e' he' hk'
        exact hl.1 (mem_map.mpr ⟨e', he', (of_decide_eq_true hk').trans hk.symm⟩)
      rw [hn] at hr
      rw [statuses, filter_cons_of_pos (by simpa using hk), map_cons]
      simp only [find?_cons, hk, decide_true, Option.map_some, Option.toList_some]
      exact congrArg _ hr
    · rw [statuses, filter_cons_of_neg (by simpa using hk)]
      simp only [find?_cons, hk, decide_false]
      exact hr

theorem get_noteAll_entries {ts : List σ} (h : d'.get k = verdict bad ts) :
    (noteAll bad d d'.entries).get k = verdict bad ((d.get k).toList ++ ts) := by
  rw [get_noteAll, statuses_entries, h, verdict_append_verdict]

end Verdict
