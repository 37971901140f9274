/-
  Subject:   STOP STRINGS AND THE GROUPING OF TOKENS INTO CALLS OF `update`
             (`v1/engine/detokenizer.py`).

  * `grouping_irrelevant_iff` -- a grouping changes nothing exactly if, in the first call in which a
    stop string ends, the first listed one ends as soon as any;
  * `listed_first_wins` -- otherwise a group reports a stop string that ends later.
-/
import VllmDual.Engine.DeltaStream

namespace VllmDual.Engine

open List

namespace Detokenizer

variable (c : Config)

/-- Calls of `update`, up to the first that reports a stop string. -/
def feed : Detokenizer → List (List Nat) → Detokenizer × Option (List Char)
  | d, [] => (d, none)
  | d, g :: gs =>
    let res := d.update c g false
    if res.2.isSome then res else feed res.1 gs

def text (T : List Nat) : List Char := (T.foldl (decode c) ([], [], 0)).2.1

/-- Where the search for stop strings begins when `T` is followed by `g`. -/
def searched (T g : List Nat) : Nat := (text c ((T ++ g).take (max T.length c.minTokens))).length

/-- The string ends behind `o`, if it begins at `i`. -/
def Ends (X : List Char) (o : Nat) (s : List Char) (i : Nat) : Prop :=
  o < i + s.length ∧ s <+: X.drop i

instance (X : List Char) (o : Nat) (s : List Char) : DecidablePred (Ends X o s) :=
  fun _ => inferInstanceAs (Decidable (_ ∧ _))

/-! ## 1. The search -/

/-- The first place from which a string ends behind `o`. -/
def firstEnd (X : List Char) (o : Nat) (s : List Char) : Option Nat :=
  (range (X.length + 1)).find? fun i => Ends X o s i

/-- Where a string begins that ends in the text of `g`, as far as it is searched. -/
def found (T g : List Nat) (s : List Char) : Option Nat :=
  firstEnd (text c (T ++ g)) (searched c T g) s

/-- The report on a stop string that begins at `i`. -/
def reportAt (inc : Bool) (X s : List Char) (i : Nat) : List Char × Option Nat :=
  (s, if inc then if X.length ≤ i + s.length then none else some (i + s.length) else some i)

variable {c} {X Y s s' : List Char} {o i : Nat} {T g : List Nat}

theorem Ends.le (h : Ends X o s i) (hi : i ≤ X.length) : i + s.length ≤ X.length := by
  have hl := h.2.length_le
  rw [length_drop] at hl
  omega

theorem ends_append_iff (h : i + s.length ≤ X.length) : Ends (X ++ Y) o s i ↔ Ends X o s i := by
  refine and_congr_right fun _ => ?_
  rw [drop_append_of_le_length (by omega)]
  refine ⟨fun hp => prefix_of_prefix_length_le hp (prefix_append _ _) ?_,
    fun hp => hp.trans (prefix_append _ _)⟩
  rw [length_drop]
  omega

theorem firstEnd_eq_some :
    firstEnd X o s = some i ↔ Ends X o s i ∧ i ≤ X.length ∧ ∀ j < i, ¬Ends X o s j := by
  simp [firstEnd, find?_range_eq_some]

theorem firstEnd_eq_none : firstEnd X o s = none ↔ ∀ i ≤ X.length, ¬Ends X o s i := by
  simp [firstEnd]

theorem firstEnd_length (X s : List Char) : firstEnd X X.length s = none :=
  firstEnd_eq_none.2 fun i hi he => by
    have := he.le hi
    have := he.1
    omega

theorem find_eq_firstEnd (ho : o ≤ X.length) : find X s (o + 1 - s.length) = firstEnd X o s := by
  have hfrom : ∀ j, o + 1 - s.length ≤ j ↔ o < j + s.length := fun j => by omega
  refine Option.ext fun i => ?_
  have hto : i < o + 1 - s.length + (X.length + 1 - (o + 1 - s.length)) ↔ i ≤ X.length := by omega
  rw [find, find?_range'_eq_some, firstEnd_eq_some]
  simp only [Ends, mem_range'_1, hfrom, hto, isPrefixOf_iff_prefix, Bool.not_eq_true',
    Bool.eq_false_iff, ne_eq]
  tauto

theorem checkStopStrings_eq (inc : Bool) (stop : List (List Char)) (ho : o ≤ X.length) :
    checkStopStrings X (X.length - o) inc stop = stop.findSome? fun s =>
      (firstEnd X o s).map (reportAt inc X s) := by
  rcases Nat.eq_or_lt_of_le ho with rfl | hlt
  · -- nothing is new
    have hnone : stop.findSome? (fun s => (firstEnd X X.length s).map (reportAt inc X s)) = none :=
      findSome?_eq_none_iff.2 fun s _ => by rw [firstEnd_length, Option.map_none]
    rw [hnone, Nat.sub_self]
    cases stop <;> rfl
  · induction stop with
    | nil => rfl
    | cons s stop ih =>
      have hstart : X.length + 1 - (X.length - o) - s.length = o + 1 - s.length := by omega
      rw [checkStopStrings, if_neg (by omega), hstart, find_eq_firstEnd ho, findSome?_cons]
      cases firstEnd X o s with
      | none => exact ih
      | some i => cases inc <;> rfl

/-! ## 2. One call -/

variable (c) in
/-- What `update` reports when `T` is followed by `g`. -/
def report (T g : List Nat) : Option (List Char × Option Nat) :=
  c.stop.findSome? fun s => (found c T g s).map
    (reportAt c.includeStopStrInOutput (text c (T ++ g)) s)

variable (c) in
def live (T : List Nat) : Detokenizer := ⟨T, text c T, 0⟩

def cutText (X : List Char) (r : List Char × Option Nat) : List Char := (r.2.map X.take).getD X

theorem cutText_reportAt (inc : Bool) (X s : List Char) (i : Nat) :
    cutText X (reportAt inc X s i) = X.take (if inc then i + s.length else i) := by
  cases inc with
  | false => rfl
  | true =>
    by_cases h : X.length ≤ i + s.length
    · simp [cutText, reportAt, h, take_of_length_le]
    · simp [cutText, reportAt, h]

theorem text_concat (T : List Nat) (t : Nat) :
    text c (T ++ [t]) = text c T ++ c.decodeNext T t := by
  obtain ⟨X, o, h, _⟩ := foldl_decode c T [] [] 0 le_rfl
  simp [text, h, decode]

theorem text_append (T g : List Nat) : ∃ Y, text c (T ++ g) = text c T ++ Y := by
  induction g using reverseRecOn with
  | nil => exact ⟨[], by simp⟩
  | append_singleton g t ih =>
    obtain ⟨Y, h⟩ := ih
    exact ⟨Y ++ c.decodeNext (T ++ g) t, by rw [← append_assoc, text_concat, h, append_assoc]⟩

theorem text_take_le (l : List Nat) (n : Nat) : (text c (l.take n)).length ≤ (text c l).length := by
  obtain ⟨Y, h⟩ := text_append (c := c) (l.take n) (l.drop n)
  rw [take_append_drop] at h
  simp [h]

theorem searched_append (g' : List Nat) (h : c.minTokens ≤ (T ++ g).length) :
    searched c T (g ++ g') = searched c T g := by
  rw [searched, ← append_assoc, take_append_of_le_length]
  · rfl
  · simp at h ⊢
    omega

theorem searched_of_le (h : (T ++ g).length ≤ max T.length c.minTokens) :
    searched c T g = (text c (T ++ g)).length := by
  rw [searched, take_of_length_le h]

theorem foldl_decode_text (T g : List Nat) :
    g.foldl (decode c) (T, text c T, (text c T).length) = (T ++
      g, text c (T ++ g), searched c T g) := by
  induction g using reverseRecOn with
  | nil => simp [searched_of_le]
  | append_singleton g t ih =>
    rw [foldl_append, ih, ← append_assoc, text_concat]
    by_cases h : (T ++ g).length + 1 ≤ c.minTokens
    · rw [searched_of_le (g := g ++ [t]) (by simp at h ⊢; omega), ← append_assoc, text_concat]
      simp only [foldl_cons, foldl_nil, decode]
      rw [if_pos ⟨by omega, by rwa [length_append, length_singleton]⟩]
    · rw [searched_append _ (by omega)]
      simp only [foldl_cons, foldl_nil, decode]
      rw [if_neg (by simp at h ⊢; omega)]

theorem report_of_le (h : (T ++ g).length ≤ max T.length c.minTokens) : report c T g = none := by
  refine findSome?_eq_none_iff.2 fun s _ => ?_
  rw [found, searched_of_le h, firstEnd_length, Option.map_none]

theorem update_live (T g : List Nat) : (live c T).update c g false =
    match report c T g with
    | none => (live c (T ++ g), none)
    | some r => (⟨T ++ g, cutText (text c (T ++ g)) r, 0⟩, some r.1) := by
  by_cases hg : g = []
  · subst hg
    rw [report_of_le (by simp)]
    simp [update]
  · have hcheck : (if c.stop ≠ [] ∧ c.minTokens < (T ++ g).length then
        checkStopStrings (text c (T ++ g)) ((text c (T ++ g)).length - searched c T g)
          c.includeStopStrInOutput c.stop
        else none) = report c T g := by
      split
      · exact checkStopStrings_eq _ _ (text_take_le _ _)
      · next h =>
        rcases Classical.em (c.stop = []) with hs | hs
        · simp [report, hs]
        · exact (report_of_le (by have := not_and.1 h hs; omega)).symm
    simp only [update, if_neg hg, live, Bool.false_and, Bool.false_eq_true, if_false, Nat.sub_zero,
      take_length, drop_length, append_nil, foldl_decode_text, hcheck]
    cases report c T g <;> rfl

/-! ## 3. Groups of tokens -/

theorem report_append_of_none (g' : List Nat) (h : report c T g = none) :
    report c T (g ++ g') = report c (T ++ g) g' := by
  obtain ⟨Y, hY⟩ := text_append (c := c) (T ++ g) g'
  unfold report found
  rw [← append_assoc, hY]
  by_cases hm : c.minTokens ≤ (T ++ g).length
  · have hnew : searched c (T ++ g) g' = (text c (T ++ g)).length := by
      rw [searched, max_eq_left hm, take_left]
    rw [searched_append g' hm, hnew, ← head?_filterMap, ← head?_filterMap]
    congr 1
    refine filterMap_congr fun s hs => ?_
    have hnone := firstEnd_eq_none.1 (Option.map_eq_none_iff.1 (findSome?_eq_none_iff.1 h s hs))
    congr 1
    refine find?_congr fun i hi => decide_eq_decide.2 ⟨fun he => ⟨?_, he.2⟩, fun he => ⟨?_, he.2⟩⟩
    · -- an end in the old text would have been found
      refine Nat.lt_of_not_le fun hle => hnone i (by omega) ((ends_append_iff hle).1 he)
    · exact Nat.lt_of_le_of_lt (text_take_le _ _) he.1
  · have hmax : max (T ++ g).length c.minTokens = max T.length c.minTokens := by
      simp at hm ⊢
      omega
    rw [searched, searched, hmax, append_assoc]

theorem found_append (g' : List Nat) (h : found c T g s = some i) :
    found c T (g ++ g') s = some i := by
  have hm : c.minTokens ≤ (T ++ g).length := by
    by_contra hlt
    rw [found, searched_of_le (by omega), firstEnd_length] at h
    exact nomatch h
  obtain ⟨Y, hY⟩ := text_append (c := c) (T ++ g) g'
  obtain ⟨he, hle, hfirst⟩ := firstEnd_eq_some.1 h
  have hin := he.le hle
  rw [found, searched_append g' hm, ← append_assoc, hY]
  exact firstEnd_eq_some.2 ⟨(ends_append_iff hin).2 he, by simp; omega, fun j hj hej =>
    hfirst j hj ((ends_append_iff (by omega)).1 hej)⟩

variable (c) in
/-- Whether the string ends in the text of `g`, as far as it is searched. -/
def endsIn (T g : List Nat) (s : List Char) : Bool := (found c T g s).isSome

theorem endsIn_append (g' : List Nat) (h : endsIn c T g s) : endsIn c T (g ++ g') s := by
  obtain ⟨i, hi⟩ := Option.isSome_iff_exists.1 h
  rw [endsIn, found_append g' hi]
  rfl

theorem report_eq_none : report c T g = none ↔ c.stop.find? (endsIn c T g) = none := by
  simp [report, endsIn]

theorem report_eq_some {r : List Char × Option Nat} (h : report c T g = some r) :
    c.stop.find? (endsIn c T g) = some r.1 ∧ ∃ i, found c T g r.1 = some i ∧
      r = reportAt c.includeStopStrInOutput (text c (T ++ g)) r.1 i := by
  obtain ⟨l, s, l', hl, hs, hnone⟩ := findSome?_eq_some_iff.1 h
  obtain ⟨i, hi, rfl⟩ := Option.map_eq_some_iff.1 hs
  refine ⟨find?_eq_some_iff_append.2 ⟨by simp [endsIn, reportAt, hi], l, l', hl, ?_⟩, i, hi, rfl⟩
  intro s' hs'
  simpa [endsIn] using hnone s' hs'

/-- A longer group reports the same, exactly if the string that it reports ends in the shorter
    one. -/
theorem report_append_iff {r r' : List Char × Option Nat} (g' : List Nat)
    (h : report c T g = some r) (h' : report c T (g ++ g') = some r') : (r'.1 = r.1 ∧
      cutText (text c (T ++ (g ++ g'))) r' = cutText (text c (T ++ g)) r) ↔ endsIn c T g r'.1 := by
  obtain ⟨hfind, i, hi, hr⟩ := report_eq_some h
  obtain ⟨hfind', j, hj, hr'⟩ := report_eq_some h'
  refine ⟨fun e => e.1 ▸ find?_some hfind, fun he => ?_⟩
  -- what is listed before it does not end in the longer text, so not in the shorter one
  have hfst : r'.1 = r.1 := by
    obtain ⟨-, l, l', hl, hnone⟩ := find?_eq_some_iff_append.1 hfind'
    refine Option.some.inj (Eq.trans (Eq.symm ?_) hfind)
    refine find?_eq_some_iff_append.2 ⟨he, l, l', hl, fun s hs => ?_⟩
    have hn := hnone s hs
    cases hg : endsIn c T g s with
    | false => rfl
    | true => simp [endsIn_append g' hg] at hn
  rw [hfst, found_append g' hi] at hj
  cases hj
  obtain ⟨Y, hY⟩ := text_append (c := c) (T ++ g) g'
  obtain ⟨he, hle, -⟩ := firstEnd_eq_some.1 hi
  have hin := he.le hle
  refine ⟨hfst, ?_⟩
  rw [hr', hr, cutText_reportAt, cutText_reportAt, ← append_assoc, hY, take_append_of_le_length]
  · rw [hfst]
  · rw [hfst]
    split <;> omega

theorem feed_append (d : Detokenizer) (gs gs' : List (List Nat)) : feed c d (gs ++ gs') =
    if (feed c d gs).2.isSome then feed c d gs else feed c (feed c d gs).1 gs' := by
  induction gs generalizing d with
  | nil => rfl
  | cons g gs ih =>
    rw [cons_append, feed, feed]
    by_cases h : (d.update c g false).2.isSome
    · simp [h]
    · simp [h, ih]

theorem feed_singles (T g : List Nat) :
    let res := feed c (live c T) (g.map fun t => [t])
    match report c T g with
    | none => res = (live c (T ++ g), none)
    | some _ => ∃ g₁ g₂ r, g = g₁ ++ g₂ ∧ report c T g₁ = some r ∧
        (∀ g', g' <+: g → report c T g' ≠ none → g₁ <+: g') ∧
        res.2 = some r.1 ∧ res.1.outputText = cutText (text c (T ++ g₁)) r := by
  induction g generalizing T with
  | nil =>
    rw [report_of_le (by simp)]
    simp [feed]
  | cons t g ih =>
    rw [map_cons, feed, update_live]
    cases h : report c T [t] with
    | none =>
      have hrest := ih (T ++ [t])
      have hsplit : ∀ g', report c T (t :: g') = report c (T ++ [t]) g' :=
        fun g' => report_append_of_none g' h
      rw [hsplit]
      cases hr : report c (T ++ [t]) g with
      | none => simpa [hr] using hrest
      | some r₀ =>
        simp only [hr] at hrest
        obtain ⟨g₁, g₂, r, rfl, hr₁, hmin, hres⟩ := hrest
        refine ⟨t :: g₁, g₂, r, rfl, (hsplit g₁).trans hr₁,
          fun g' hg' hne => ?_, by simpa using hres⟩
        cases g' with
        | nil => exact absurd (report_of_le (by simp)) hne
        | cons t' g' =>
          obtain ⟨rfl, hp⟩ := cons_prefix_cons.1 hg'
          exact cons_prefix_cons.2 ⟨rfl, hmin g' hp (hsplit g' ▸ hne)⟩
    | some r =>
      cases hr : report c T (t :: g) with
      | none =>
        have hend := find?_some (report_eq_some h).1
        have hnone := find?_eq_none.1 (report_eq_none.1 hr)
            r.1 (mem_of_find?_eq_some (report_eq_some h).1)
        exact absurd (endsIn_append g hend) hnone
      | some r₀ =>
        refine ⟨[t], g, r, rfl, h, fun g' hg' hne => ?_, rfl, rfl⟩
        cases g' with
        | nil => exact absurd (report_of_le (by simp)) hne
        | cons t' g' => exact cons_prefix_cons.2 ⟨(cons_prefix_cons.1 hg').1.symm, nil_prefix⟩

variable (c) in
/-- In the first call in which a stop string ends, the first listed one ends as soon as any. -/
def ListedFirst : List Nat → List (List Nat) → Prop
  | _, [] => True
  | T, g :: gs => match c.stop.find? (endsIn c T g) with
    | none => ListedFirst (T ++ g) gs
    | some s => ∀ g', g' <+: g → c.stop.any (endsIn c T g') → endsIn c T g' s

theorem feed_eq_singles_iff (T : List Nat) (gs : List (List Nat)) :
    let res := feed c (live c T) gs
    let res' := feed c (live c T) (gs.flatten.map fun t => [t])
    (res.2 = res'.2 ∧ res.1.outputText = res'.1.outputText) ↔ ListedFirst c T gs := by
  induction gs generalizing T with
  | nil => exact ⟨fun _ => trivial, fun _ => ⟨rfl, rfl⟩⟩
  | cons g gs ih =>
    have hs := feed_singles (c := c) T g
    rw [flatten_cons, map_append, feed_append, feed, update_live, ListedFirst]
    cases hr : report c T g with
    | none =>
      simp only [hr] at hs
      rw [hs, report_eq_none.1 hr]
      exact ih (T ++ g)
    | some r =>
      simp only [hr] at hs
      obtain ⟨g₁, g₂, r₁, rfl, hr₁, hmin, hres, htext⟩ := hs
      have hany : ∀ g', c.stop.any (endsIn c T g') ↔ report c T g' ≠ none := fun g' => by
        simp [report_eq_none]
      rw [(report_eq_some hr).1]
      simp only [Option.isSome_some, if_true, hres, htext, Option.some_inj]
      rw [report_append_iff g₂ hr₁ hr]
      refine ⟨fun he g' hg' h => ?_,
        fun h => h g₁ (prefix_append _ _) ((hany g₁).2 (by rw [hr₁]; exact nofun))⟩
      obtain ⟨g'', rfl⟩ := hmin g' hg' ((hany g').1 h)
      exact endsIn_append g'' he

/-- **Grouping changes nothing exactly if** the stop string that is listed first, of those that end
    in the first call in which one ends, ends as soon as any. -/
theorem grouping_irrelevant_iff (c : Config) (gs : List (List Nat)) :
    let res := feed c ⟨[], [], 0⟩ gs
    let res' := feed c ⟨[], [], 0⟩ (gs.flatten.map fun t => [t])
    (res.2 = res'.2 ∧ res.1.outputText = res'.1.outputText) ↔ ListedFirst c [] gs :=
  feed_eq_singles_iff [] gs

/-- Token `n` is the letter that many places after `a`. -/
def letters (stop : List (List Char)) (h : [] ∉ stop) : Config :=
  ⟨stop, 0, false, fun _ n => [Char.ofNat (97 + n)], 1, h⟩

/-- **A group reports the stop string that is listed first**, also if another one ends before it. -/
theorem listed_first_wins :
    (feed (letters [['b'], ['a']] (by decide)) ⟨[], [], 0⟩ [[0, 1]]).2 = some ['b'] ∧
    (feed (letters [['b'], ['a']] (by decide)) ⟨[], [], 0⟩ [[0], [1]]).2 = some ['a'] := by
  decide

end Detokenizer

end VllmDual.Engine
