/-
  Subject:   STREAMED OUTPUTS OF A REQUEST (`vllm/v1/engine/output_processor.py`, `detokenizer.py`,
             `vllm/outputs.py`).

  A request in DELTA mode is sent piece by piece, and pieces that wait for the client are merged.
  Requests with one collector have an index each; a logprob stands for one position.

  * `deltas_reassemble` -- what the client got is the cumulative output exactly if no output without
    tokens ends the request after all its tokens were sent: `logprobs[-0:]` is the whole list.
-/
import Mathlib

namespace VllmDual.Engine

open List

variable {L : Type}

/-! ## 1. The detokenizer -/

/-- The parameters of a request that the detokenizer reads (no stop string is empty), the text that
a token adds after others, and the interval of the outputs. -/
structure Config where
  stop : List (List Char)
  minTokens : Nat
  includeStopStrInOutput : Bool
  decodeNext : List Nat → Nat → List Char
  streamInterval : Nat
  nonempty : [] ∉ stop

def Config.stopBufferLength (c : Config) : Nat :=
  if c.stop ≠ [] ∧ c.includeStopStrInOutput = false then c.stop.toFinset.sup List.length - 1 else 0

structure Detokenizer where
  tokenIds : List Nat
  outputText : List Char
  lastOutputTextOffset : Nat

/-- `text.find(sub, start)`. -/
def find (text sub : List Char) (start : Nat) : Option Nat :=
  (range' start (text.length + 1 - start)).find? fun i => sub.isPrefixOf (text.drop i)

/-- `check_stop_strings`: the stop string and where to cut the text, if at all. -/
def checkStopStrings (outputText : List Char) (newCharCount : Nat) (includeInOutput : Bool) :
    List (List Char) → Option (List Char × Option Nat)
  | [] => none
  | stopStr :: stop =>
    if newCharCount = 0 then none
    else
      match find outputText stopStr (outputText.length + 1 - newCharCount - stopStr.length) with
      | none => checkStopStrings outputText newCharCount includeInOutput stop
      | some i =>
        if includeInOutput then
          some (stopStr, if outputText.length ≤ i
            + stopStr.length then none else some (i + stopStr.length))
        else some (stopStr, some i)

namespace Detokenizer

variable (c : Config)

/-- The loop of `update`; the third part is where the search for stop strings begins. -/
def decode (acc : List Nat × List Char × Nat) (tokenId : Nat) : List Nat × List Char × Nat :=
  let tokenIds := acc.1 ++ [tokenId]
  let text := acc.2.1 ++ c.decodeNext acc.1 tokenId
  (tokenIds, text, if c.minTokens ≠ 0 ∧ tokenIds.length ≤ c.minTokens then text.length else acc.2.2)

/-- `update`: the stop string that was found, if any. -/
def update (d : Detokenizer) (newTokenIds : List Nat) (stopTerminated : Bool) :
    Detokenizer × Option (List Char) :=
  if newTokenIds = [] then (d, none)
  else
    let skipped := if stopTerminated && !c.includeStopStrInOutput then 1 else 0
    let (tokenIds, text, offset) :=
      (newTokenIds.take (newTokenIds.length - skipped)).foldl (decode c)
      (d.tokenIds, d.outputText, d.outputText.length)
    let tokenIds := tokenIds ++ newTokenIds.drop (newTokenIds.length - skipped)
    let stop := if c.stop ≠ [] ∧ c.minTokens < tokenIds.length then
      checkStopStrings text (text.length - offset) c.includeStopStrInOutput c.stop else none
    match stop with
    | none => ({ d with tokenIds, outputText := text }, none)
    | some (stopString, cut) =>
      ({ d with tokenIds, outputText := (cut.map text.take).getD text }, some stopString)

def getNextOutputText (d : Detokenizer) (finished delta : Bool) : List Char × Detokenizer :=
  let length := d.outputText.length - if finished then 0 else c.stopBufferLength
  if delta = false then (d.outputText.take length, d)
  else if d.lastOutputTextOffset < length then
    ((d.outputText.take length).drop d.lastOutputTextOffset,
      { d with lastOutputTextOffset := length })
  else ([], d)

end Detokenizer

/-! ## 2. The outputs of a request -/

inductive RequestOutputKind where
  | cumulative
  | delta
  | finalOnly
deriving DecidableEq

/-- What is streamed of a `CompletionOutput`; its index is the one of its request. -/
@[ext] structure Delta (L : Type) where
  tokenIds : List Nat
  logprobs : List L
  text : List Char

instance :
    Append (Delta L) :=
      ⟨fun a b => ⟨a.tokenIds ++ b.tokenIds, a.logprobs ++ b.logprobs, a.text ++ b.text⟩⟩

/-- `finished`: the request is no longer among the request states. -/
structure RequestState (L : Type) extends Detokenizer where
  logprobs : List L
  sentTokensOffset : Nat
  finished : Bool

inductive FinishReason where
  | stop
  | length
  | abort
  | error
deriving DecidableEq

/-- An output has a logprob for each token, and tokens unless it finishes the request. -/
structure EngineCoreOutput (L : Type) where
  newTokenIds : List Nat
  newLogprobs : List L
  finishReason : Option FinishReason
  aligned : newLogprobs.length = newTokenIds.length
  tokens : newTokenIds ≠ [] ∨ finishReason ≠ none

/-- `l[-n:]`. -/
def lastEntries (n : Nat) (l : List L) : List L := if n = 0 then l else l.drop (l.length - n)

namespace RequestState

variable (c : Config) (kind : RequestOutputKind) (st : RequestState L)

def newCompletionOutput (tokenIds : List Nat) (finished : Bool) : RequestState L × Delta L :=
  let (text, detokenizer) := st.getNextOutputText c finished (kind = .delta)
  let tokenIds := if kind = .delta then tokenIds else st.tokenIds
  let logprobs := if kind = .delta ∧ st.logprobs ≠ [] then lastEntries tokenIds.length st.logprobs
    else st.logprobs
  ({ st with toDetokenizer := detokenizer }, ⟨tokenIds, logprobs, text⟩)

def makeRequestOutput (newTokenIds : List Nat) (finished : Bool) :
    RequestState L × Option (Delta L) :=
  if finished = false ∧ kind = .finalOnly then (st, none)
  else if 1 < c.streamInterval ∧ ¬(finished = true ∨ st.sentTokensOffset = 0 ∨
      st.sentTokensOffset + c.streamInterval ≤ st.tokenIds.length) then (st, none)
  else
    let res := if 1 < c.streamInterval ∧ kind = .delta then
        newCompletionOutput c kind { st with sentTokensOffset := st.tokenIds.length }
          (st.tokenIds.drop st.sentTokensOffset) finished
      else newCompletionOutput c kind st newTokenIds finished
    (res.1, some res.2)

/-- The part of `process_outputs` for one request. -/
def processOutput (out : EngineCoreOutput L) : RequestState L × Option (Delta L) :=
  let (detokenizer, stopString) := st.update c out.newTokenIds (out.finishReason = some .stop)
  let finished := out.finishReason.isSome || stopString.isSome
  makeRequestOutput c kind ⟨detokenizer, st.logprobs ++
    out.newLogprobs, st.sentTokensOffset, finished⟩ out.newTokenIds finished

/-- The part of `abort_requests` for one request. -/
def abort : RequestState L × Option (Delta L) :=
  makeRequestOutput c kind { st with finished := true } [] true

def cumulative : Delta L := (st.newCompletionOutput c .cumulative [] true).2

theorem cumulative_eq : st.cumulative c = ⟨st.tokenIds, st.logprobs, st.outputText⟩ := by
  simp [cumulative, newCompletionOutput, Detokenizer.getNextOutputText]

end RequestState

/-! ## 3. The collector and its client -/

/-- `RequestOutput.add` with `aggregate`, for one completion and its index. -/
def addCompletion (i : Nat) (next : Delta L) : List (Nat × Delta L) → List (Nat × Delta L)
  | [] => [(i, next)]
  | a :: as => if a.1 = i then (i, a.2 ++ next) :: as else a :: addCompletion i next as

/-- The requests by index, the output that waits in the collector, and what the client got. -/
structure World (L : Type) where
  states : Nat → RequestState L
  output : List (Nat × Delta L)
  received : List (List (Nat × Delta L))

inductive Event (L : Type) where
  | output (i : Nat) (out : EngineCoreOutput L)
  | abort (i : Nat)
  | get

/-- What the outputs `l` have for request `i`, one after the other. -/
def concat (i : Nat) (l : List (List (Nat × Delta L))) : Delta L :=
  let ds := l.filterMap (·.lookup i)
  ⟨ds.flatMap (·.tokenIds), ds.flatMap (·.logprobs), ds.flatMap (·.text)⟩

namespace World

variable (c : Config)

def init : World L := ⟨fun _ => ⟨⟨[], [], 0⟩, [], 0, false⟩, [], []⟩

/-- The new state of a request that is not finished, and the put of its output. -/
def handle (w : World L) (i : Nat) (f : RequestState L → RequestState L × Option (Delta L)) :
    World L :=
  if (w.states i).finished then w
  else
    let res := f (w.states i)
    { w with
      states := Function.update w.states i res.1
      output := res.2.elim w.output (addCompletion i · w.output) }

def step (w : World L) : Event L → World L
  | .output i out => w.handle i (·.processOutput c .delta out)
  | .abort i => w.handle i (·.abort c .delta)
  | .get =>
    if w.output = [] then w else { w with output := [], received := w.received ++ [w.output] }

end World

/-! ## 4. The text that was sent stays -/

theorem checkStopStrings_cut {te s : List Char} {n cut : Nat} {inc : Bool} {sp : List (List Char)}
    (h : checkStopStrings te n inc sp = some (s, some cut)) :
    ∃ t ∈ sp, te.length + 1 ≤ cut + n + if inc then 0 else t.length := by
  induction sp with
  | nil => simp [checkStopStrings] at h
  | cons t sp ih =>
    unfold checkStopStrings at h
    split at h
    · simp at h
    · split at h
      · obtain ⟨t', ht, hle⟩ := ih h
        exact ⟨t', mem_cons_of_mem _ ht, hle⟩
      · rename_i i hf
        have hi := (mem_range'_1.mp (mem_of_find?_eq_some hf)).1
        refine ⟨t, mem_cons_self, ?_⟩
        cases inc <;> grind

namespace Detokenizer

variable {c : Config} {d : Detokenizer}

theorem foldl_decode (c : Config) (ts T : List Nat) (X : List Char) (o : Nat) (ho : o ≤ X.length) :
    ∃ a off, ts.foldl (decode c) (T, X, o) = (T ++ ts, X ++ a, off) ∧ o ≤ off := by
  induction ts generalizing T X o with
  | nil => exact ⟨[], o, by simp, le_rfl⟩
  | cons t ts ih =>
    obtain ⟨a, off, heq, hle⟩ := ih (T ++ [t]) (X ++ c.decodeNext T t)
      (decode c (T, X, o) t).2.2 (by grind [decode])
    exact ⟨c.decodeNext T t ++ a, off, by simpa [decode] using heq, by grind [decode]⟩

/-- Text up to `o` may be sent: a later stop string does not reach it. -/
def Kept (c : Config) (d : Detokenizer) (o : Nat) : Prop :=
  o + c.stopBufferLength ≤ d.outputText.length ∨ o = 0

theorem update_spec (new : List Nat) (b : Bool) {o : Nat} (ho : d.Kept c o) :
    let res := d.update c new b
    res.1.tokenIds = d.tokenIds ++ new ∧ res.1.lastOutputTextOffset = d.lastOutputTextOffset ∧
      o ≤ res.1.outputText.length ∧ res.1.outputText.take o = d.outputText.take o ∧
      (res.2 = none → res.1.Kept c o) := by
  have hle : o ≤ d.outputText.length := by unfold Kept at ho; omega
  intro res
  unfold res update
  split
  · next hn => simp [hn, hle, ho]
  · obtain ⟨a, off, heq, hoff⟩ := foldl_decode c
      (new.take (new.length - if b && !c.includeStopStrInOutput then 1 else 0))
        d.tokenIds d.outputText _ le_rfl
    simp only [heq]
    have hta : (d.outputText ++ a).take o = d.outputText.take o := take_append_of_le_length hle
    split
    · refine ⟨by simp, rfl, by simp; omega, hta, fun _ => ?_⟩
      simp only [Kept, length_append] at ho ⊢
      omega
    · rename_i s cut hs
      cases cut with
      | none => exact ⟨by simp, rfl, by simp; omega, hta, nofun⟩
      | some cut =>
        rw [Option.ite_none_right_eq_some] at hs
        obtain ⟨t, ht, hc⟩ := checkStopStrings_cut hs.2
        have hsup : t.length ≤ _ := Finset.le_sup (f := List.length) (mem_toFinset.mpr ht)
        -- the stop string ends in the new text, so it begins in the text held back
        have hcut : o ≤ cut := by
          unfold Kept Config.stopBufferLength at ho
          grind
        exact ⟨by simp, rfl, by simp; omega, by simp [take_take, hcut, hta], nofun⟩

theorem getNextOutputText_delta (c : Config) (fin : Bool)
    (ho : d.lastOutputTextOffset ≤ d.outputText.length) :
    let res := d.getNextOutputText c fin true
    ∃ o ≤ d.outputText.length, res.2 = { d with lastOutputTextOffset := o } ∧
      d.outputText.take d.lastOutputTextOffset ++ res.1 = d.outputText.take o ∧
      (fin = true → o = d.outputText.length) ∧
      (fin = false → d.Kept c d.lastOutputTextOffset → d.Kept c o) := by
  simp only [getNextOutputText, Kept, Bool.true_eq_false, if_false]
  by_cases hlt : d.lastOutputTextOffset < d.outputText.length - if fin then 0
    else c.stopBufferLength
  · rw [if_pos hlt]
    refine ⟨_, by omega, rfl, ?_, fun hf => by simp [hf], fun hf _ => .inl (by simp_all; omega)⟩
    have := take_append_drop d.lastOutputTextOffset (d.outputText.take
      (d.outputText.length - if fin then 0 else c.stopBufferLength))
    rwa [take_take, min_eq_left hlt.le] at this
  · rw [if_neg hlt]
    exact ⟨_, ho, rfl, by simp, fun hf => by simp_all; omega, fun _ h => h⟩

end Detokenizer

/-! ## 5. What an output adds to the outputs before it -/

section

variable (c : Config) {st st' : RequestState L} {new : List Nat} {d : Delta L}

/-- The tokens of `st` that were not sent; `new` are those of the engine output at hand. -/
def RequestState.unsent (st : RequestState L) (new : List Nat) : List Nat :=
  if 1 < c.streamInterval then st.tokenIds.drop st.sentTokensOffset else new

/-- An event with the tokens `new` has something to send, or no token came before it. -/
def RequestState.Clean (st : RequestState L) (new : List Nat) : Prop :=
  new ≠ [] ∨ st.tokenIds = [] ∨ 1 < c.streamInterval ∧ st.sentTokensOffset < st.tokenIds.length

/-- `d` was sent of `st`, all but the unsent tokens and the text held back. -/
structure Streamed (st : RequestState L) (new : List Nat) (d : Delta L) : Prop where
  aligned : st.logprobs.length = st.tokenIds.length
  sent : st.sentTokensOffset ≤ st.tokenIds.length
  tokenIds : d.tokenIds ++ st.unsent c new = st.tokenIds
  logprobs : d.logprobs = st.logprobs.take d.tokenIds.length
  text : d.text = st.outputText.take st.lastOutputTextOffset
  offset : st.lastOutputTextOffset ≤ st.outputText.length

/-- A live request of which `d` was sent. -/
structure Live (st : RequestState L) (d : Delta L) : Prop extends Streamed c st [] d where
  live : st.finished = false
  kept : st.Kept c st.lastOutputTextOffset

/-- After an event the request is live, or it has all exactly if the event is `clean`. -/
def Next (st : RequestState L) (d : Delta L) (clean : Prop) : Prop :=
  Live c st d ∧ clean ∨ st.finished = true ∧ (d = st.cumulative c ↔ clean)

variable {c}

theorem Streamed.append_lastEntries (h : Streamed c st new d) :
    d.logprobs ++
      (if st.logprobs ≠ [] then lastEntries (st.unsent c new).length st.logprobs else st.logprobs) =
      st.logprobs ↔ st.unsent c new ≠ [] ∨ st.tokenIds = [] := by
  have hl := congrArg List.length h.tokenIds
  rw [length_append, ← h.aligned] at hl
  rw [h.logprobs, ← length_eq_zero_iff (l := st.tokenIds), ← h.aligned]
  by_cases hn : st.unsent c new = []
  · -- no token is unsent, and the slice is the whole list
    rw [take_of_length_le (by simp_all)]
    simp [lastEntries, hn]
  · have := length_pos_iff.mpr hn
    have hne : st.logprobs ≠ [] := length_pos_iff.mp (by omega)
    have hk : st.logprobs.length - (st.unsent c new).length = d.tokenIds.length := by omega
    simp [lastEntries, hn, hne, hk]

theorem Streamed.next (h : Streamed c st new d) (hnew : st.finished = false → st.unsent c new ≠ [])
    (hk : st.finished = false → st.Kept c st.lastOutputTextOffset) :
    let res := st.makeRequestOutput c .delta new st.finished
    Next c res.1 (res.2.elim d (d ++ ·)) (st.unsent c new ≠ [] ∨ st.tokenIds = []) := by
  obtain ⟨o, hle, hd, ht, hfin, hk'⟩ := st.getNextOutputText_delta c st.finished h.offset
  intro res
  by_cases hs : 1 < c.streamInterval ∧ ¬(st.finished = true ∨ st.sentTokensOffset = 0 ∨
      st.sentTokensOffset + c.streamInterval ≤ st.tokenIds.length)
  · have hr : res = (st, none) := by simp [res, RequestState.makeRequestOutput, hs]
    have hl : st.finished = false := by simp_all
    rw [hr]
    refine .inl ⟨⟨{ h with tokenIds := ?_ }, hl, hk hl⟩, .inl (hnew hl)⟩
    simpa [RequestState.unsent, hs.1] using h.tokenIds
  · -- the tokens sent are the unsent ones, for any interval
    obtain ⟨n, hn, hr, ha⟩ : ∃ n ≤ st.tokenIds.length,
        res = (fun r => (r.1, some r.2)) (RequestState.newCompletionOutput c .delta
          { st with sentTokensOffset := n } (st.unsent c new) st.finished) ∧
        (1 < c.streamInterval → n = st.tokenIds.length) := by
      by_cases hint : 1 < c.streamInterval
      · exact ⟨_, le_rfl, by simp_all [res, RequestState.makeRequestOutput, RequestState.unsent],
          fun _ => rfl⟩
      · exact ⟨_, h.sent, by simp [res, RequestState.makeRequestOutput, RequestState.unsent, hint],
          fun hi => absurd hi hint⟩
    have happ : ∀ l, d ++ Delta.mk (st.unsent c new) l (st.getNextOutputText c st.finished true).1 =
        ⟨st.tokenIds, d.logprobs ++ l, st.outputText.take o⟩ := fun l => by
      rw [← h.tokenIds, ← ht, ← h.text]
      rfl
    simp only [RequestState.newCompletionOutput, decide_true, hd, true_and, if_true] at hr
    simp only [hr, Option.elim_some, happ]
    cases hf : st.finished with
    | false =>
      have hc := hnew hf
      refine .inl ⟨⟨⟨h.aligned, hn, ?_, ?_, rfl, hle⟩, rfl, hk' hf (hk hf)⟩, .inl hc⟩
      · by_cases hint : 1 < c.streamInterval <;> simp [RequestState.unsent, hint, ha]
      · rw [h.append_lastEntries.mpr (.inl hc), ← h.aligned, take_length]
    | true =>
      exact .inr ⟨rfl, by simpa [RequestState.cumulative_eq, hfin hf] using h.append_lastEntries⟩

theorem Streamed.clean_iff (h : Streamed c st [] d) (ht : st'.tokenIds = st.tokenIds ++ new)
    (hs : st'.sentTokensOffset = st.sentTokensOffset) :
    st'.unsent c new ≠ [] ∨ st'.tokenIds = [] ↔ st.Clean c new := by
  have := h.sent
  simp only [RequestState.unsent, RequestState.Clean, ht, hs]
  split <;> grind [drop_eq_nil_iff]

theorem Live.processOutput (h : Live c st d) (out : EngineCoreOutput L) :
    let res := st.processOutput c .delta out
    Next c res.1 (res.2.elim d (d ++ ·)) (st.Clean c out.newTokenIds) := by
  have hs := st.update_spec out.newTokenIds (out.finishReason = some .stop) h.kept
  unfold RequestState.processOutput
  generalize st.update c out.newTokenIds _ = upd at hs ⊢
  obtain ⟨htok, ho, hle, ht, hk⟩ := hs
  have hold := h.tokenIds
  have hl := congrArg List.length hold
  have ha := h.aligned
  rw [length_append] at hl
  let st' : RequestState L := ⟨upd.1, st.logprobs ++ out.newLogprobs, st.sentTokensOffset,
    out.finishReason.isSome || upd.2.isSome⟩
  have hc : st'.unsent c _ ≠ [] ∨ _ ↔ _ := h.clean_iff htok rfl
  dsimp only
  rw [← hc]
  refine Streamed.next ⟨?_, ?_, ?_, ?_, ?_, ho.trans_le hle⟩ ?_ ?_
  · simp [htok, ha, out.aligned]
  · exact h.sent.trans (by simp [htok])
  · simp only [RequestState.unsent, htok] at hold ⊢
    split at hold
    · next hint => rw [if_pos hint, drop_append_of_le_length h.sent, ← append_assoc, hold]
    · next hint => rw [if_neg hint, ← hold, append_nil]
  · rw [h.logprobs, take_append_of_le_length (by omega)]
  · rw [h.text, ho, ht]
  · intro hf
    have hn := out.tokens.resolve_right (by simp_all)
    exact (hc.mpr (.inl hn)).resolve_right (by simp [st', htok, hn])
  · intro hf
    exact ho ▸ hk (by simp_all)

theorem Live.abort (h : Live c st d) :
    let res := st.abort c .delta
    Next c res.1 (res.2.elim d (d ++ ·)) (st.Clean c []) := by
  have h' : Streamed c { st with finished := true } [] d := { h with }
  have hc : RequestState.unsent c { st with finished := true } [] ≠ [] ∨ _ ↔ _ :=
    h.clean_iff (by simp) rfl
  dsimp only
  rw [← hc]
  exact h'.next nofun nofun

end

/-! ## 6. Runs -/

theorem lookup_addCompletion (i j : Nat) (n : Delta L) (as : List (Nat × Delta L)) :
    (addCompletion j n as).lookup i = if j = i then some ((as.lookup i).elim n (· ++ n))
      else as.lookup i := by
  induction as with
  | nil => grind [addCompletion]
  | cons a as ih =>
    unfold addCompletion
    split <;> grind

theorem concat_append (i : Nat) (l : List (List (Nat × Delta L))) (as : List (Nat × Delta L)) :
    concat i (l ++ [as]) = (as.lookup i).elim (concat i l) (concat i l ++ ·) := by
  unfold concat
  cases hf : as.lookup i with
  | none => simp [hf]
  | some a => simp [hf]; rfl

namespace World

variable (c : Config) (i : Nat) {w : World L} {e : Event L} {new : List Nat}

/-- What was sent for request `i`: got by the client, or waiting. -/
def delivered (w : World L) : Delta L := concat i (w.received ++ [w.output])

def tokensFor : Event L → Option (List Nat)
  | .output j out => if j = i then some out.newTokenIds else none
  | .abort j => if j = i then some [] else none
  | .get => none

/-- Every event of a run that finds request `i` live is clean. -/
def RunsClean (w : World L) : List (Event L) → Prop
  | [] => True
  | e :: es => ((w.states i).finished = false → ∀ new ∈ tokensFor i e, (w.states i).Clean c new) ∧
    RunsClean (w.step c e) es

variable {c i}

theorem handle_spec (w : World L) (i j : Nat)
    (f : RequestState L → RequestState L × Option (Delta L)) :
    (w.handle j f).states i = (if j = i ∧
      (w.states i).finished = false then (f (w.states i)).1 else w.states i) ∧
      (w.handle j f).delivered i = if j = i ∧ (w.states i).finished = false then
        (f (w.states i)).2.elim (w.delivered i) (w.delivered i ++ ·) else w.delivered i := by
  unfold handle
  split
  · grind
  · next hf =>
    have hp : ∀ d, concat i (w.received ++ [addCompletion j d w.output]) =
        if j = i then w.delivered i ++ d else w.delivered i := by
      intro d
      rw [delivered, concat_append, concat_append, lookup_addCompletion]
      split
      · cases w.output.lookup i with
        | none => rfl
        | some b =>
          exact Delta.ext (append_assoc ..).symm (append_assoc ..).symm (append_assoc ..).symm
      · rfl
    by_cases hj : j = i
    · subst hj
      cases hr : (f (w.states j)).2 <;> simp_all [delivered]
    · cases hr : (f (w.states j)).2 <;> simp_all [delivered, Function.update_of_ne (Ne.symm hj)]

theorem step_frame (c : Config) (h : tokensFor i e = none ∨ (w.states i).finished = true) :
    (w.step c e).states i = w.states i ∧ (w.step c e).delivered i = w.delivered i := by
  cases e with
  | output j out =>
    have hs : ¬(j = i ∧ (w.states i).finished = false) := by grind [tokensFor]
    simp [step, handle_spec, hs]
  | abort j =>
    have hs : ¬(j = i ∧ (w.states i).finished = false) := by grind [tokensFor]
    simp [step, handle_spec, hs]
  | get =>
    by_cases ho : w.output = []
    · simp [step, ho]
    · simp only [step, ho, if_false, delivered]
      exact ⟨trivial, concat_append i _ []⟩

theorem step_live (h : Live c (w.states i) (w.delivered i)) (he : tokensFor i e = some new) :
    Next c ((w.step c e).states i) ((w.step c e).delivered i) ((w.states i).Clean c new) := by
  cases e with
  | output j out =>
    obtain ⟨rfl, rfl⟩ : j = i ∧ out.newTokenIds = new := by simpa [tokensFor] using he
    simpa [step, handle_spec, h.live] using h.processOutput out
  | abort j =>
    obtain ⟨rfl, rfl⟩ : j = i ∧ [] = new := by simpa [tokensFor] using he
    simpa [step, handle_spec, h.live] using h.abort
  | get => nomatch he

theorem foldl_finished (c : Config) (h : (w.states i).finished = true) (es : List (Event L)) :
    (es.foldl (step c) w).states i = w.states i ∧
      (es.foldl (step c) w).delivered i = w.delivered i ∧ RunsClean c i w es := by
  induction es generalizing w with
  | nil => exact ⟨rfl, rfl, trivial⟩
  | cons e es ih =>
    obtain ⟨hst, hd⟩ := step_frame (e := e) c (.inr h)
    obtain ⟨hst', hd', hc⟩ := ih (hst ▸ h)
    exact ⟨hst'.trans hst, hd'.trans hd, by simp [h], hc⟩

theorem foldl_live (h : Live c (w.states i) (w.delivered i)) (es : List (Event L)) :
    let w' := es.foldl (step c) w
    (w'.states i).finished = true →
      (w'.delivered i = (w'.states i).cumulative c ↔ RunsClean c i w es) := by
  induction es generalizing w with
  | nil => exact fun hf => absurd h.live (by simp_all)
  | cons e es ih =>
    intro w' hf
    cases he : tokensFor i e with
    | none =>
      obtain ⟨hst, hd⟩ := step_frame (w := w) c (.inl he)
      exact (ih (by rwa [hst, hd]) hf).trans (by simp [RunsClean, he])
    | some new =>
      obtain ⟨hl, hc⟩ | ⟨hend, hi⟩ := step_live h he
      · exact (ih hl hf).trans (by simp [RunsClean, he, hc])
      · obtain ⟨hst, hd, hr⟩ := foldl_finished c hend es
        exact hst ▸ hd ▸ hi.trans (by simp [RunsClean, he, h.live, hr])

/-- **When the client has all outputs of an ended request, they make up its cumulative output
exactly if the run was clean.** -/
theorem deltas_reassemble (c : Config) (i : Nat) (es : List (Event L)) :
    let w := es.foldl (step c) init
    (w.states i).finished = true → w.output = [] →
      (concat i w.received = (w.states i).cumulative c ↔ RunsClean c i init es) := by
  intro w hf ho
  have hl : Live c ((init : World L).states i) (init.delivered i) :=
    { aligned := rfl, sent := le_rfl, tokenIds := by unfold RequestState.unsent; split <;> rfl,
      logprobs := rfl, text := rfl, offset := le_rfl, live := rfl, kept := .inr rfl }
  rw [← foldl_live hl es hf, delivered, ho]
  exact Eq.congr_left (concat_append i w.received []).symm

def plain : Config := ⟨[], 0, false, fun _ _ => ['a'], 1, by simp⟩

def oneToken : EngineCoreOutput Nat := ⟨[7], [70], none, rfl, by simp⟩

theorem deltas_reassemble_lastToken :
    RunsClean plain 0 init [.output 0 oneToken,
      .output 0 ⟨[8], [80], some .length, rfl, by simp⟩, .get] :=
  (deltas_reassemble plain 0 _ rfl rfl).mp rfl

/-- An abort sends the logprobs of the first token again. -/
theorem logprobs_sent_twice :
    let w := [Event.output 0 oneToken, .abort 0, .get].foldl (step plain) init
    (w.states 0).finished = true ∧ w.output = [] ∧ (concat 0 w.received).logprobs = [70, 70] ∧
      ((w.states 0).cumulative plain).logprobs = [70] :=
  ⟨rfl, rfl, rfl, rfl⟩

end World

end VllmDual.Engine
