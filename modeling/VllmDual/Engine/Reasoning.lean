/-
  Subject:   REASONING AND CONTENT OF AN OUTPUT, WHOLE AND STREAMED (`reasoning/basic_parsers.py`,
             `reasoning/deepseek_r1_reasoning_parser.py`).

  Both parsers leave a piece out of the text, up to a start marker, and the end marker behind it:

  * `shown_whole`, `streamed_eq_cut` -- where each of them cuts;
  * `streamed_eq_whole_iff` -- the deltas give the whole exactly if the cuts agree.
-/
import VllmDual.Engine.DeltaStream

namespace VllmDual.Engine

open List

/-! ## 1. The parsers -/

def startToken : List Char := ['<', 't', 'h', 'i', 'n', 'k', '>']

def endToken : List Char := ['<', '/', 't', 'h', 'i', 'n', 'k', '>']

/-- The text of each token of the vocabulary, and the two markers. -/
structure ReasoningParser where
  text : Nat → List Char
  startTokenId : Nat
  endTokenId : Nat
  startText : text startTokenId = startToken
  endText : text endTokenId = endToken

structure DeltaMessage where
  reasoning : Option (List Char)
  content : Option (List Char)

/-- `content if content else None`. -/
def orNone (content : List Char) : Option (List Char) := if content = [] then none else some content

/-- `text[:text.find(marker)]`; the index is `-1` if there is none. -/
def upTo (text marker : List Char) : List Char :=
  match find text marker 0 with
  | none => text.dropLast
  | some i => text.take i

/-- `text.find(marker) + len(marker)`. -/
def behind (text marker : List Char) : Nat :=
  match find text marker 0 with
  | none => marker.length - 1
  | some i => i + marker.length

def extractReasoning (modelOutput : List Char) : DeltaMessage :=
  let modelOutput := if (find modelOutput startToken 0).isSome then
    modelOutput.drop (behind modelOutput startToken)
    else modelOutput
  if find modelOutput endToken 0 = none then ⟨some modelOutput, none⟩
  else ⟨some (upTo modelOutput endToken), orNone (modelOutput.drop (behind modelOutput endToken))⟩

def shown (m : Option DeltaMessage) : List Char × List Char :=
  ((m.bind (·.reasoning)).getD [], (m.bind (·.content)).getD [])

def glue (a b : List Char × List Char) : List Char × List Char := (a.1 ++ b.1, a.2 ++ b.2)

namespace ReasoningParser

variable (p : ReasoningParser)

def decode (tokenIds : List Nat) : List Char := tokenIds.flatMap p.text

/-- `BaseThinkingReasoningParser.extract_reasoning_streaming`. -/
def baseStreaming (previous delta : List Nat) : Option DeltaMessage :=
  let text := p.decode delta
  let content := orNone (text.drop (behind text endToken))
  if delta = [p.startTokenId] ∨ delta = [p.endTokenId] then none
  else if p.startTokenId ∈ previous then
    if p.endTokenId ∈ delta then some ⟨some (upTo text endToken), content⟩
    else if p.endTokenId ∈ previous then some ⟨none, some text⟩
    else some ⟨some text, none⟩
  else if p.startTokenId ∈ delta then
    if p.endTokenId ∈ delta then
      some ⟨some ((upTo text endToken).drop (behind text startToken)), content⟩
    else some ⟨some text, none⟩
  else some ⟨none, some text⟩

/-- `DeepSeekR1ReasoningParser.extract_reasoning_streaming`. -/
def extractReasoningStreaming (previous delta : List Nat) : Option DeltaMessage :=
  let text := p.decode delta
  match p.baseStreaming previous delta with
  | none => none
  | some ret =>
    if p.startTokenId ∉ previous ∧ p.startTokenId ∉ delta then
      if p.endTokenId ∈ delta then
        some ⟨some (upTo text endToken), orNone (text.drop (behind text endToken))⟩
      else if p.endTokenId ∈ previous then some ⟨none, some text⟩
      else some ⟨some text, none⟩
    else some ret

def streamed : List Nat → List (List Nat) → List Char × List Char
  | _, [] => ([], [])
  | previous, delta :: deltas =>
    glue (shown (p.extractReasoningStreaming previous delta)) (streamed (previous ++ delta) deltas)

end ReasoningParser

/-! ## 2. Cuts -/

/-- A text without `skip` characters behind the first `sent` ones, and without the end marker at
    `close`, where the content begins. -/
structure Cut where
  sent : Nat
  skip : Nat
  close : Option Nat

namespace Cut

def gap (k : Cut) (w : List Char) : List Char := w.take k.sent ++ w.drop (k.sent + k.skip)

def of (k : Cut) (w : List Char) : List Char × List Char :=
  match k.close with
  | none => (k.gap w, [])
  | some e => (k.gap (w.take e), w.drop (e + endToken.length))

/-- The cut of the whole text: up to the first start marker, and at the first end marker behind
    it. -/
def whole (w : List Char) : Cut :=
  let skip := if (find w startToken 0).isSome then behind w startToken else 0
  ⟨0, skip, (find (w.drop skip) endToken 0).map (· + skip)⟩

def shift (k : Cut) (n : Nat) : Cut := ⟨k.sent + n, k.skip, k.close.map (· + n)⟩

/-- What is skipped ends before the end marker, which is there. -/
structure Ok (k : Cut) (w : List Char) : Prop where
  room : k.skip = 0 ∨ k.sent + k.skip ≤ k.close.getD w.length
  marker : ∀ e, k.close = some e → endToken <+: w.drop e
  short : k.close = none → k.skip < endToken.length

end Cut

namespace ReasoningParser

/-- Where the stream cuts: behind the deltas before the one with the start token, up to the first
    start marker in that delta, but only if it has no other token or the end token too; and at the
    first end marker in the delta with the end token. -/
def cut (p : ReasoningParser) : List (List Nat) → Cut
  | [] => ⟨0, 0, none⟩
  | d :: ds =>
    let text := p.decode d
    let rest := (p.cut ds).shift text.length
    let close := if p.endTokenId ∈ d then find text endToken 0 else rest.close
    if p.startTokenId ∉ d then ⟨rest.sent, rest.skip, close⟩
    else if p.endTokenId ∈ d then ⟨0, min (behind text startToken) (close.getD 0), close⟩
    else ⟨0, if d = [p.startTokenId] then text.length else 0, close⟩

/-- The stream skips as much as the whole text, behind what comes again in the text then, and both
    end the reasoning at one end marker. -/
def SameCuts (p : ReasoningParser) (ds : List (List Nat)) : Prop :=
  let w := p.decode ds.flatten
  (Cut.whole w).skip = (p.cut ds).skip ∧ (Cut.whole w).close = (p.cut ds).close ∧
    w.take (p.cut ds).sent <+: w.drop (p.cut ds).skip

instance (p : ReasoningParser) (ds : List (List Nat)) : Decidable (p.SameCuts ds) :=
  inferInstanceAs (Decidable (_ ∧ _ ∧ _))

end ReasoningParser

/-! ## 3. Texts -/

variable {w x m : List Char} {i j e n : Nat} {k : Cut}

@[simp] theorem getD_orNone (l : List Char) : (orNone l).getD [] = l := by
  unfold orNone
  split <;> simp_all

theorem find_eq_some :
    find w m 0 = some i ↔ m <+: w.drop i ∧ i ≤ w.length ∧ ∀ j < i, ¬m <+: w.drop j := by
  simp [find, find?_range'_eq_some, mem_range'_1, Bool.eq_false_iff]

theorem find_eq_none : find w m 0 = none ↔ ∀ i ≤ w.length, ¬m <+: w.drop i := by
  simp [find, mem_range'_1]

theorem getElem?_of_prefix_drop (h : m <+: w.drop j) (hi : i < m.length) : w[j + i]? = m[i]? := by
  obtain ⟨t, ht⟩ := h
  rw [← getElem?_drop, ← ht, getElem?_append_left hi]

theorem markers_apart (hs : startToken <+: w.drop j) (he : endToken <+: w.drop e) :
    e + endToken.length ≤ j ∨ j + startToken.length ≤ e := by
  have hone : ∀ i < startToken.length, startToken[i]? = some '<' → i = 0 := by decide
  have hone' : ∀ i < endToken.length, endToken[i]? = some '<' → i = 0 := by decide
  have hj : w[j]? = some '<' := getElem?_of_prefix_drop (i := 0) hs (by decide)
  have hj' : w[j + 1]? = some 't' := getElem?_of_prefix_drop hs (by decide)
  have he' : w[e]? = some '<' := getElem?_of_prefix_drop (i := 0) he (by decide)
  have he'' : w[e + 1]? = some '/' := getElem?_of_prefix_drop he (by decide)
  by_contra hn
  rw [not_or, not_le, not_le] at hn
  rcases Nat.lt_trichotomy e j with hlt | rfl | hlt
  · have := hone' (j - e) (by omega)
      (by rw [← getElem?_of_prefix_drop he (by omega), Nat.add_sub_of_le hlt.le, hj])
    omega
  · rw [hj'] at he''
    cases he''
  · have := hone (e - j) (by omega)
      (by rw [← getElem?_of_prefix_drop hs (by omega), Nat.add_sub_of_le hlt.le, he'])
    omega

theorem add_le_of_prefix_drop (h : m <+: w.drop i) (hm : 0 < m.length) :
    i + m.length ≤ w.length := by
  have hl := h.length_le
  rw [length_drop] at hl
  omega

namespace Cut

theorem of_skip_zero (h : k.skip = 0) (n : Nat) : k.of w = (⟨n, 0, k.close⟩ : Cut).of w := by
  simp [of, gap, h]

theorem shift_of (x w : List Char) : (k.shift x.length).of (x ++ w) = glue (x, []) (k.of w) := by
  have hgap : ∀ v, (k.shift x.length).gap (x ++ v) = x ++ k.gap v := fun v => by
    rw [gap, shift, Nat.add_comm k.sent, Nat.add_assoc, take_length_add_append,
      drop_length_add_append, append_assoc]
    rfl
  unfold of
  cases hc : k.close with
  | none => simp [shift, hc, ← hgap, glue]
  | some e =>
    have ht : (x ++ w).take (e + x.length) = x ++ w.take e := by
      rw [Nat.add_comm, take_length_add_append]
    have hd : (x ++ w).drop (e + x.length + endToken.length) = w.drop (e + endToken.length) := by
      rw [Nat.add_comm e, Nat.add_assoc, drop_length_add_append]
    have hcs : (k.shift x.length).close = some (e + x.length) := by simp [shift, hc]
    simp only [hcs, ht, hd, hgap, glue, nil_append]

theorem of_append (c : Nat × Nat) (h : i + endToken.length ≤ x.length) (w : List Char) :
    (⟨c.1, c.2, some i⟩ : Cut).of (x ++ w)
      = ((⟨c.1, c.2, some i⟩ : Cut).gap (x.take i), x.drop (i + endToken.length) ++ w) := by
  simp only [of]
  rw [take_append_of_le_length (by omega), drop_append_of_le_length h]

theorem skip_of (h : k.skip = 0) (x w : List Char) :
    (⟨0, x.length, (k.shift x.length).close⟩ : Cut).of (x ++ w) = k.of w := by
  rw [of_skip_zero h 0]
  unfold of shift
  cases k.close with
  | none => simp [gap]
  | some e => simp [gap, Nat.add_comm e, take_length_add_append, Nat.add_assoc,
    drop_length_add_append]

theorem Ok.shift (h : k.Ok w) (x : List Char) : (k.shift x.length).Ok (x ++ w) := by
  refine ⟨h.room.imp_right fun hr => ?_, fun e he => ?_,
    fun hn => h.short (Option.map_eq_none_iff.1 hn)⟩
  · cases hc : k.close <;> simp [Cut.shift, hc] at hr ⊢ <;> omega
  · obtain ⟨e', he', rfl⟩ := Option.map_eq_some_iff.1 he
    rw [Nat.add_comm, drop_length_add_append]
    exact h.marker e' he'

theorem gap_eq_drop_iff (hx : x <+: w) (h : k.skip = 0 ∨ k.sent + k.skip ≤ x.length) :
    k.gap x = x.drop k.skip ↔ w.take k.sent <+: w.drop k.skip := by
  obtain ⟨v, rfl⟩ := hx
  rcases h with h0 | hle
  · simp [gap, h0, take_prefix]
  · have ht : (x ++ v).take k.sent = x.take k.sent := take_append_of_le_length (by omega)
    have hd : (x ++ v).drop k.skip = x.drop k.skip ++ v := drop_append_of_le_length (by omega)
    have hsplit : x.drop k.skip = (x.drop k.skip).take k.sent ++ x.drop (k.sent + k.skip) := by
      rw [Nat.add_comm, ← drop_drop, take_append_drop]
    have hlen : (x.take k.sent).length = k.sent := by simp; omega
    rw [gap, hsplit, append_left_inj, ht, hd, prefix_iff_eq_take, hlen, take_append_of_le_length]
    simp; omega

theorem length_gap (h : k.skip = 0 ∨ k.sent + k.skip ≤ x.length) :
    (k.gap x).length = x.length - k.skip := by
  simp only [gap, length_append, length_take, length_drop]
  omega

theorem whole_skip (w : List Char) : (whole w).skip ≤ w.length ∧ ((whole w).skip = 0 ∨
    ∃ j, (whole w).skip = j + startToken.length ∧ startToken <+: w.drop j) := by
  unfold whole behind
  cases hf : find w startToken 0 with
  | none => simp
  | some j =>
    have hj := (find_eq_some.1 hf).1
    exact ⟨add_le_of_prefix_drop hj (by decide), .inr ⟨j, rfl, hj⟩⟩

theorem whole_close (w : List Char) : match (whole w).close with
    | none => ∀ e, (whole w).skip ≤ e → ¬endToken <+: w.drop e
    | some e => (whole w).skip ≤ e ∧ e + endToken.length ≤ w.length := by
  have hl := (whole_skip w).1
  have hc : (whole w).close
      = (find (w.drop (whole w).skip) endToken 0).map (· + (whole w).skip) := rfl
  generalize (whole w).skip = l at hc hl ⊢
  rw [hc]
  cases hf : find (w.drop l) endToken 0 with
  | none =>
    intro e hle he
    have hlen := add_le_of_prefix_drop he (by decide)
    refine find_eq_none.1 hf (e - l) (by simp; omega) ?_
    rwa [drop_drop, Nat.add_sub_of_le hle]
  | some i =>
    have hi := add_le_of_prefix_drop (find_eq_some.1 hf).1 (by decide)
    rw [length_drop] at hi
    simp only [Option.map_some]
    omega

theorem gap_whole (w x : List Char) : (whole w).gap x = x.drop (whole w).skip := by
  simp [gap, whole]

theorem of_eq (k : Cut) (w : List Char) : k.of w = (k.gap (w.take (k.close.getD w.length)),
    (k.close.map fun e => w.drop (e + endToken.length)).getD []) := by
  unfold of
  cases k.close <;> simp

/-- **What is left is the same exactly if the cuts agree**, but for text that comes again. -/
theorem whole_of_eq_iff (h : k.Ok w) : (whole w).of w = k.of w ↔
    (whole w).skip = k.skip ∧ (whole w).close = k.close ∧ w.take k.sent <+: w.drop k.skip := by
  obtain ⟨hl, hst⟩ := whole_skip w
  have hcl := whole_close w
  have hm := h.marker
  have hle : k.close.getD w.length ≤ w.length := by
    cases hc : k.close with
    | none => exact le_rfl
    | some e => exact (Nat.le_add_right _ _).trans (add_le_of_prefix_drop (hm e hc) (by decide))
  have hr : k.skip = 0 ∨ k.sent + k.skip ≤ (w.take (k.close.getD w.length)).length := by
    simpa [Nat.min_eq_left hle] using h.room
  have hw := take_prefix (k.close.getD w.length) w
  have hgap := gap_eq_drop_iff hw hr
  have hlen := length_gap hr
  rw [of_eq, of_eq, gap_whole]
  refine ⟨fun he => ?_, fun ⟨hs, hc, hp⟩ => by rw [hs, hc, hgap.2 hp]⟩
  have e1 := congrArg (·.1.length) he
  have e2 := congrArg (·.2.length) he
  simp only [hlen, length_drop, length_take] at e1 e2
  rw [length_take] at hr
  have hsc : (whole w).skip = k.skip ∧ (whole w).close = k.close := by
    have h8 : endToken.length = 8 := rfl
    have h7 : startToken.length = 7 := rfl
    cases hc' : (whole w).close <;> cases hc : k.close <;>
      simp only [hc', hc, Option.getD_none, Option.getD_some, Option.map_none, Option.map_some,
        length_nil, length_drop] at hcl hle hr e1 e2
    case none.none => exact ⟨by omega, rfl⟩
    case some.none =>
      have hsh := h.short hc
      omega
    case some.some e' e =>
      have he' := add_le_of_prefix_drop (hm e hc) (by decide)
      obtain rfl : e' = e := by omega
      exact ⟨by omega, rfl⟩
    case none.some e =>
      -- the whole text skips more by an end marker, and finds none behind it
      have he' := add_le_of_prefix_drop (hm e hc) (by decide)
      rcases hst with h0 | ⟨j, hj, hs⟩
      · omega
      · have hap := markers_apart hs (hm e hc)
        exact absurd (hm e hc) (hcl e (by omega))
  rw [hsc.1, hsc.2] at he
  exact ⟨hsc.1, hsc.2, hgap.1 (congrArg Prod.fst he).symm⟩

theorem shown_whole (w : List Char) : shown (some (extractReasoning w)) = (whole w).of w := by
  have hs : (if (find w startToken 0).isSome then w.drop (behind w startToken) else w)
      = w.drop (whole w).skip := by
    unfold whole
    split <;> simp
  have hc : (whole w).close
      = (find (w.drop (whole w).skip) endToken 0).map (· + (whole w).skip) := rfl
  unfold extractReasoning
  rw [hs, of_eq, gap_whole, hc]
  generalize (whole w).skip = l
  unfold upTo behind
  cases hf : find (w.drop l) endToken 0 with
  | none => simp [shown, hf]
  | some i => simp [shown, hf, drop_take, Nat.add_comm, Nat.add_assoc]

end Cut

/-! ## 4. Deltas -/

namespace ReasoningParser

variable {p : ReasoningParser} {A B prev d : List Nat} {ds : List (List Nat)}

@[simp] theorem decode_append (A B : List Nat) : p.decode (A ++ B) = p.decode A ++ p.decode B :=
  flatMap_append

theorem start_ne_end : p.startTokenId ≠ p.endTokenId := fun h =>
  absurd (p.startText.symm.trans (h ▸ p.endText)) (by decide)

theorem shown_eq (prev d : List Nat) : shown (p.extractReasoningStreaming prev d) =
    if d = [p.startTokenId] ∨ d = [p.endTokenId] then ([], [])
    else if p.endTokenId ∈ d then
      ((upTo (p.decode d) endToken).drop (if p.startTokenId ∈ d ∧ p.startTokenId ∉ prev then
        behind (p.decode d) startToken else 0), (p.decode d).drop (behind (p.decode d) endToken))
    else if p.endTokenId ∈ prev ∧ (p.startTokenId ∈ d → p.startTokenId ∈ prev) then ([], p.decode d)
    else (p.decode d, []) := by
  unfold extractReasoningStreaming baseStreaming
  split_ifs <;> simp_all [shown]

theorem shown_plain (hs : p.startTokenId ∉ d) (he : p.endTokenId ∉ d) :
    shown (p.extractReasoningStreaming prev d)
      = if p.endTokenId ∈ prev then ([], p.decode d) else (p.decode d, []) := by
  have h : ¬(d = [p.startTokenId] ∨ d = [p.endTokenId]) := by
    rintro (rfl | rfl) <;> simp at hs he
  simp [shown_eq, hs, he, h]

theorem shown_end (prev : List Nat) (he : p.endTokenId ∈ d) :
    ∃ i, find (p.decode d) endToken 0 = some i ∧
    i + endToken.length ≤ (p.decode d).length ∧ endToken <+: (p.decode d).drop i ∧
    shown (p.extractReasoningStreaming prev d) =
      (((p.decode d).take i).drop (if p.startTokenId ∈ d ∧ p.startTokenId ∉ prev then
        behind (p.decode d) startToken else 0), (p.decode d).drop (i + endToken.length)) := by
  obtain ⟨A, B, rfl⟩ := append_of_mem he
  cases hf : find (p.decode (A ++ p.endTokenId :: B)) endToken 0 with
  | none =>
    refine absurd ?_ (find_eq_none.1 hf (p.decode A).length (by simp))
    simp [decode, p.endText]
  | some i =>
    have hi := (find_eq_some.1 hf).1
    refine ⟨i, rfl, add_le_of_prefix_drop hi (by decide), hi, ?_⟩
    have hne : A ++ p.endTokenId :: B ≠ [p.startTokenId] := fun e => by
      have : p.endTokenId ∈ [p.startTokenId] := e ▸ he
      exact start_ne_end (mem_singleton.1 this).symm
    by_cases h : A ++ p.endTokenId :: B = [p.endTokenId]
    · rw [h] at hf ⊢
      have hd : p.decode [p.endTokenId] = endToken := by simp [decode, p.endText]
      rw [hd] at hf ⊢
      cases hf
      simp [shown_eq]
    · rw [shown_eq, if_neg (not_or.2 ⟨hne, h⟩), if_pos he]
      unfold upTo behind
      rw [hf]

theorem streamed_closed (he : p.endTokenId ∈ prev) (hs : p.startTokenId ∉ ds.flatten)
    (hn : p.endTokenId ∉ ds.flatten) : p.streamed prev ds = ([], p.decode ds.flatten) := by
  induction ds generalizing prev with
  | nil => rfl
  | cons d ds ih =>
    rw [flatten_cons, mem_append, not_or] at hs hn
    rw [streamed, shown_plain hs.1 hn.1, if_pos he, ih (mem_append_left _ he) hs.2 hn.2]
    simp [glue]

theorem cut_skip_of_notMem (h : p.startTokenId ∉ ds.flatten) : (p.cut ds).skip = 0 := by
  induction ds with
  | nil => rfl
  | cons d ds ih =>
    rw [flatten_cons, mem_append, not_or] at h
    simp [cut, h.1, ih h.2, Cut.shift]

/-- The deltas give what their cut leaves. -/
def Streams (p : ReasoningParser) (prev : List Nat) (ds : List (List Nat)) : Prop :=
  p.streamed prev ds = (p.cut ds).of (p.decode ds.flatten) ∧ (p.cut ds).Ok (p.decode ds.flatten)

/-- Behind the end token all is content. -/
theorem streams_end (hd : p.endTokenId ∈ d) (hsp : p.startTokenId ∈ prev → p.startTokenId ∉ d)
    (hns : p.startTokenId ∉ ds.flatten) (hne : p.endTokenId ∉ ds.flatten) :
    p.Streams prev (d :: ds) := by
  obtain ⟨i, hf, hi, hm, hsh⟩ := shown_end prev hd
  have hm' : endToken <+: (p.decode d ++ p.decode ds.flatten).drop i := by
    rw [drop_append_of_le_length (by omega)]
    exact hm.trans (prefix_append _ _)
  rw [Streams, flatten_cons, streamed, decode_append, hsh,
    streamed_closed (mem_append_right _ hd) hns hne]
  by_cases hsd : p.startTokenId ∈ d
  · have hsp : p.startTokenId ∉ prev := fun h => hsp h hsd
    have hc : p.cut (d :: ds) = ⟨0, min (behind (p.decode d) startToken) i, some i⟩ := by
      simp [cut, hsd, hd, hf]
    have hdrop : ∀ b, ((p.decode d).take i).drop (min b i) = ((p.decode d).take i).drop b := by
      intro b
      rcases Nat.le_total b i with h | h
      · rw [Nat.min_eq_left h]
      · rw [Nat.min_eq_right h, drop_eq_nil_of_le (by simp), drop_eq_nil_of_le (by simp; omega)]
    rw [hc]
    refine ⟨?_, .inr (by simp), fun e he => by cases he; exact hm', nofun⟩
    rw [Cut.of_append (0, _) hi]
    simp [Cut.gap, hsd, hsp, glue, hdrop]
  · have hc : p.cut (d :: ds) = ⟨(p.cut ds).sent + (p.decode d).length, 0, some i⟩ := by
      simp [cut, hsd, hd, hf, Cut.shift, cut_skip_of_notMem hns]
    rw [hc]
    refine ⟨?_, .inl rfl, fun e he => by cases he; exact hm', nofun⟩
    rw [Cut.of_append (_, 0) hi]
    simp [Cut.gap, hsd, glue]

theorem streams_start (hd : p.endTokenId ∉ d) (hsd : p.startTokenId ∈ d)
    (hsp : p.startTokenId ∉ prev) (hns : p.startTokenId ∉ ds.flatten)
    (h : p.Streams (prev ++ d) ds) : p.Streams prev (d :: ds) := by
  have hok' := h.2.shift (p.decode d)
  have hz := cut_skip_of_notMem hns
  rw [Streams, flatten_cons, streamed, decode_append, h.1]
  by_cases h1 : d = [p.startTokenId]
  · -- the delta is not sent, and so the marker is skipped
    subst h1
    have h7 : (p.decode [p.startTokenId]).length = startToken.length := by
      simp [decode, p.startText]
    have hc : p.cut ([p.startTokenId] :: ds) = ⟨0, (p.decode [p.startTokenId]).length,
        ((p.cut ds).shift (p.decode [p.startTokenId]).length).close⟩ := by
      simp [cut, start_ne_end.symm]
    rw [hc, Cut.skip_of hz]
    refine ⟨by simp [shown_eq, glue], .inr ?_, hok'.marker, fun _ => h7.trans_lt (by decide)⟩
    cases hcl : (p.cut ds).close <;> simp [Cut.shift, hcl]
  · have hc : p.cut (d :: ds) = ⟨0, 0, ((p.cut ds).shift (p.decode d).length).close⟩ := by
      simp [cut, hsd, hd, h1]
    have hne : d ≠ [p.endTokenId] := fun e => hd (e ▸ mem_cons_self)
    rw [hc, ← Cut.of_skip_zero (k := (p.cut ds).shift _) hz, Cut.shift_of]
    exact ⟨by simp [shown_eq, h1, hne, hd, hsd, hsp], .inl rfl, hok'.marker,
      fun _ => Nat.succ_pos _⟩

theorem streams_plain (hp : p.endTokenId ∉ prev) (hd : p.endTokenId ∉ d)
    (hsd : p.startTokenId ∉ d) (h : p.Streams (prev ++ d) ds) : p.Streams prev (d :: ds) := by
  have hc : p.cut (d :: ds) = (p.cut ds).shift (p.decode d).length := by
    simp [cut, hsd, hd]
  rw [Streams, flatten_cons, streamed, decode_append, h.1, hc, shown_plain hsd hd, if_neg hp,
    Cut.shift_of]
  exact ⟨rfl, h.2.shift _⟩

/-- **The deltas give what the stream's cut leaves**, behind tokens without the end token. -/
theorem streamed_eq_cut (hp : p.endTokenId ∉ prev)
    (hps : p.startTokenId ∈ prev → p.startTokenId ∉ ds.flatten)
    (hs : ds.flatten.count p.startTokenId ≤ 1) (he : ds.flatten.count p.endTokenId ≤ 1)
    (ho : ∀ A B, ds.flatten = A ++ p.startTokenId :: B → p.endTokenId ∉ A) :
    p.Streams prev ds := by
  induction ds generalizing prev with
  | nil => exact ⟨rfl, .inl rfl, nofun, fun _ => Nat.succ_pos _⟩
  | cons d ds ih =>
    rw [flatten_cons] at hps hs he ho
    rw [count_append] at hs he
    have hrest : ∀ {t}, t ∈ d → d.count t + ds.flatten.count t ≤ 1 → t ∉ ds.flatten := by
      intro t ht hc h
      have := count_pos_iff.2 h
      have := count_pos_iff.2 ht
      omega
    have hsp : p.startTokenId ∈ prev → p.startTokenId ∉ d := fun h hsd =>
      hps h (mem_append_left _ hsd)
    by_cases hd : p.endTokenId ∈ d
    · refine streams_end hd hsp (fun h => ?_) (hrest hd he)
      obtain ⟨A, B, hAB⟩ := append_of_mem h
      exact ho (d ++ A) B (by rw [hAB, append_assoc]) (mem_append_left _ hd)
    · have ih := @ih (prev ++ d) (by simp [hp, hd])
        (fun h => (mem_append.1 h).elim (fun h' hd' => hps h' (mem_append_right _ hd'))
          (hrest · hs))
        (by omega) (by omega)
        fun A B hAB h => ho (d ++ A) B (by rw [hAB, append_assoc]) (mem_append_right _ h)
      by_cases hsd : p.startTokenId ∈ d
      · exact streams_start hd hsd (fun h => hsp h hsd) (hrest hsd hs) ih
      · exact streams_plain hp hd hsd ih

/-- **The deltas give the whole exactly if the cuts agree.** -/
theorem streamed_eq_whole_iff (p : ReasoningParser) (ds : List (List Nat))
    (hs : ds.flatten.count p.startTokenId ≤ 1) (he : ds.flatten.count p.endTokenId ≤ 1)
    (ho : p.startTokenId ∈ ds.flatten →
      ds.flatten.idxOf p.startTokenId < ds.flatten.idxOf p.endTokenId) :
    p.streamed [] ds = shown (some (extractReasoning (p.decode ds.flatten))) ↔ p.SameCuts ds := by
  have hbefore : ∀ A B, ds.flatten = A ++ p.startTokenId :: B → p.endTokenId ∉ A := by
    intro A B hAB h
    rw [hAB, count_append, count_cons_self] at hs
    have hn : p.startTokenId ∉ A := count_eq_zero.1 (by omega)
    have hlt := ho (hAB ▸ by simp)
    rw [hAB, idxOf_append_of_mem h, idxOf_append_of_notMem hn] at hlt
    have := idxOf_lt_length_of_mem h
    omega
  obtain ⟨hstream, hok⟩ := streamed_eq_cut not_mem_nil nofun hs he hbefore
  rw [hstream, Cut.shown_whole, eq_comm]
  exact Cut.whole_of_eq_iff hok

/-- The tokens `0` and `1` are the markers, `2` is a letter, `3` and `4` spell an end marker. -/
def testParser : ReasoningParser :=
  ⟨fun t => [startToken, endToken, ['a'], endToken.take 4, endToken.drop 4].getD t [], 0, 1,
    rfl, rfl⟩

theorem streamed_eq_whole_iff_alone :
    testParser.streamed [] [[0], [2, 1], [3], [4]] = (['a'], endToken) ∧
    testParser.streamed [] [[0], [2, 1], [3], [4]]
      = shown (some (extractReasoning (testParser.decode [0, 2, 1, 3, 4]))) :=
  ⟨by decide, (streamed_eq_whole_iff testParser [[0], [2, 1], [3], [4]] (by decide) (by decide)
    (by decide)).2 (by decide)⟩

/-- **The start marker is sent as reasoning** if its token comes with the next one. -/
theorem start_marker_sent : testParser.streamed [] [[0, 2]] = (startToken ++ ['a'], []) ∧
    shown (some (extractReasoning (testParser.decode [0, 2]))) = (['a'], []) := by
  decide

end ReasoningParser

end VllmDual.Engine
