/-
  Subject:   SEVERAL CONNECTORS BEHIND ONE (`MultiConnector`,
             `kv_connector/v1/multi_connector.py`; `AscendMultiConnector`,
             `ascend/ascend_multi_connector.py`).

  A request may be saved by several child connectors at once, and its blocks are kept until all of
  them are done. The scheduler side counts the children that save asynchronously and ships the
  count beyond the first to the workers, where the count is drained.
-/
import VllmDual.Connector.Aggregator

namespace VllmDual.Connector

open Outcome Countdown

/-- The connector's state that the fan-in needs: `_extra_async_saves`, the asynchronous saves of a
    request beyond the first. The dict is never iterated but to update another. -/
structure MultiConnector where
  extraAsyncSaves : RequestId → Option Int

namespace MultiConnector

def init : MultiConnector := ⟨fun _ => none⟩

/-! ## 1. The scheduler side -/

section Scheduler

variable {ν : Type} [DecidableEq ν]

abbrev Params (ν : Type) := OrderedDict String ν

/-- What a child answers when a request is finished: whether it saves the request asynchronously
    and its transfer parameters; and whether it supports live-split sources. -/
structure Answer (ν : Type) where
  supportsDsaLiveSplitSource : Bool
  asyncSave : Bool
  txferParams : Option (Params ν)

/-- The loop of `_merge_kv_transfer_params` over the new parameters. -/
def mergeParams (merged : Params ν) : List (String × ν) → Except ConnectorError (Params ν)
  | [] => .ok merged
  | (key, value) :: rest =>
    match merged.get key with
    | some old =>
      if old ≠ value then
        .error (.runtimeError
          ("Multiple connectors produced conflicting KV transfer params for key " ++ key))
      else mergeParams (merged.set key value) rest
    | none => mergeParams (merged.set key value) rest

def mergeKvTransferParams (merged newParams : Option (Params ν)) :
    Except ConnectorError (Option (Params ν)) :=
  match newParams with
  | none => .ok merged
  | some newParams =>
    match merged with
    | none => .ok (some newParams)
    | some merged => some <$> mergeParams merged newParams.entries

structure Finishing (ν : Type) where
  asyncSaves : Nat
  /-- `request.kv_transfer_params`, if it is a dict. -/
  params : Option (Params ν)
  kvTransferParams : Option (Params ν)
  remoteFillParams : Option (Params ν)

def sourceKey : String := "ascend_live_split_source_v1"

/-- The source layout of a live-split provider moves to the request's own parameters, where the
    children after it find it. -/
def handSource (params txferParams : Option (Params ν)) (supports : Bool) :
    Option (Params ν) × Option (Params ν) :=
  match params, txferParams with
  | some p, some t =>
    match supports, t.get sourceKey with
    | true, some source => (some (p.set sourceKey source), some (t.pop sourceKey))
    | _, _ => (params, txferParams)
  | _, _ => (params, txferParams)

def finishChild (f : Finishing ν) (answer : Answer ν) : Except ConnectorError (Finishing ν) := do
  let asyncSaves := f.asyncSaves + answer.asyncSave.toNat
  let (params, txferParams) :=
    handSource f.params answer.txferParams answer.supportsDsaLiveSplitSource
  if (txferParams.bind (·.get "lmcache.remote_fill")).isSome then
    let remoteFillParams ← mergeKvTransferParams f.remoteFillParams txferParams
    return ⟨asyncSaves, params, f.kvTransferParams, remoteFillParams⟩
  else
    let kvTransferParams ← mergeKvTransferParams f.kvTransferParams txferParams
    return ⟨asyncSaves, params, kvTransferParams, f.remoteFillParams⟩

/-- The children in the order they are asked: for a remote decode the live-split providers first. -/
def askOrder (truthy : ν → Bool) (params : Option (Params ν)) (answers : List (Answer ν)) :
    List (Answer ν) :=
  if ((params.bind (·.get "do_remote_decode")).map truthy).getD false then
    answers.filter (·.supportsDsaLiveSplitSource) ++ answers.filter (!·.supportsDsaLiveSplitSource)
  else
    answers

/-- The parameters of the children with those of the remote fill, from which the keys another child
    has answered are dropped. -/
def mergeRemoteFill (kvTransferParams remoteFillParams : Option (Params ν)) :
    Except ConnectorError (Option (Params ν)) :=
  match remoteFillParams with
  | none => .ok kvTransferParams
  | some remoteFill => mergeKvTransferParams kvTransferParams <| some <|
    match kvTransferParams with
    | none => remoteFill
    | some kv => remoteFill.filter (· ∉ kv.keys)

/-- `request_finished_all_groups`, with the children's answers. It returns whether the request's
    blocks are kept, and the parameters. -/
def requestFinishedAllGroups (m : MultiConnector) (truthy : ν → Bool) (r : RequestId)
    (params : Option (Params ν)) (answers : List (Answer ν)) :
    Except ConnectorError ((Bool × Option (Params ν)) × MultiConnector) := do
  let f ← (askOrder truthy params answers).foldlM finishChild ⟨0, params, none, none⟩
  let kvTransferParams ← mergeRemoteFill f.kvTransferParams f.remoteFillParams
  let m := if 1 < f.asyncSaves then
      { m with extraAsyncSaves :=
          Function.update m.extraAsyncSaves r (some ((f.asyncSaves : Int) - 1)) }
    else m
  return ((decide (0 < f.asyncSaves), kvTransferParams), m)

/-- `build_connector_meta`: the counts are shipped once. An absent dict and an empty one say the
    same. -/
def buildConnectorMeta (m : MultiConnector) : (RequestId → Option Int) × MultiConnector :=
  (m.extraAsyncSaves, init)

end Scheduler

/-! ## 2. The worker side -/

structure Report where
  sending : Option (Finset RequestId)
  recving : Option (Finset RequestId)

def bindConnectorMetadata (m : MultiConnector) (extraAsyncSaves : RequestId → Option Int) :
    MultiConnector :=
  ⟨fun r => (extraAsyncSaves r).or (m.extraAsyncSaves r)⟩

/-- A request that a child has sent: without extra saves it is finished, otherwise one of them is
    done. -/
def drain (extraPending : Option Int) : Option Int × Bool :=
  match extraPending with
  | none => (none, true)
  | some pending => if pending = 1 then (none, false) else (some (pending - 1), false)

def finishReport (l : MultiConnector × Finset RequestId × Finset RequestId) (report : Report) :
    Except ConnectorError (MultiConnector × Finset RequestId × Finset RequestId) :=
  let (m, finishedSending, finishedRecving) := l
  let sending := report.sending.getD ∅
  let recving := report.recving.getD ∅
  if recving = ∅ ∧ sending = ∅ then
    .ok l
  else if ∀ r ∈ sending, ∀ pending ∈ m.extraAsyncSaves r, 0 < pending then
    .ok (⟨fun r => if r ∈ sending then (drain (m.extraAsyncSaves r)).1 else m.extraAsyncSaves r⟩,
      finishedSending ∪ sending.filter fun r => (drain (m.extraAsyncSaves r)).2,
      finishedRecving ∪ recving)
  else
    .error (.assertion "extra_pending > 0")

/-- `get_finished`, with the children's reports. -/
def getFinished (m : MultiConnector) (reports : List Report) : Except ConnectorError
    ((Option (Finset RequestId) × Option (Finset RequestId)) × MultiConnector) := do
  let (m, finishedSending, finishedRecving) ← reports.foldlM finishReport (m, ∅, ∅)
  return ((orNone finishedSending, orNone finishedRecving), m)

/-! ## 3. The scheduler side counts the children -/

section Counting

variable {ν : Type} [DecidableEq ν] {t : ν → Bool} {m m' : MultiConnector} {r : RequestId}
  {ps : Option (Params ν)} {an : List (Answer ν)} {f f' : Finishing ν}

theorem finishChild_asyncSaves {a : Answer ν} (h : finishChild f a = .ok f') :
    f'.asyncSaves = f.asyncSaves + [a].countP (·.asyncSave) := by
  have hc : a.asyncSave.toNat = [a].countP (·.asyncSave) := by
    cases ha : a.asyncSave <;> simp [ha]
  rw [← hc]
  unfold finishChild at h
  split at h
  dsimp only at h
  split at h
  all_goals
    obtain ⟨_, -, rfl⟩ := bind_pure_eq_ok.mp h
    rfl

theorem foldlM_asyncSaves (h : an.foldlM finishChild f = .ok f') :
    f'.asyncSaves = f.asyncSaves + an.countP (·.asyncSave) := by
  induction an generalizing f with
  | nil =>
    obtain rfl := pure_eq_ok.mp h
    rfl
  | cons a an ih =>
    rw [List.foldlM_cons] at h
    obtain ⟨f₁, h₁, h⟩ := of_bind h
    rw [ih h, finishChild_asyncSaves h₁, add_assoc, ← List.countP_append]
    rfl

omit [DecidableEq ν] in
theorem countP_askOrder : (askOrder t ps an).countP (·.asyncSave) = an.countP (·.asyncSave) := by
  unfold askOrder
  split
  · exact (List.filter_append_perm _ an).countP_eq _
  · rfl

/-- **The children that save asynchronously are counted**: the blocks are kept if there is one, and
    the count beyond the first waits to be shipped. -/
theorem requestFinishedAllGroups_eq {a : Bool × Option (Params ν)}
    (h : m.requestFinishedAllGroups t r ps an = .ok (a, m')) :
    a.1 = decide (0 < an.countP (·.asyncSave)) ∧
    m'.extraAsyncSaves = if 1 < an.countP (·.asyncSave) then
        Function.update m.extraAsyncSaves r (some ((an.countP (·.asyncSave) : Int) - 1))
      else m.extraAsyncSaves := by
  unfold requestFinishedAllGroups at h
  obtain ⟨f, hf, h⟩ := of_bind h
  obtain ⟨_, -, h⟩ := of_bind h
  obtain ⟨rfl, rfl⟩ := pair_inj h
  have hc := foldlM_asyncSaves hf
  rw [zero_add, countP_askOrder] at hc
  rw [← hc]
  exact ⟨rfl, apply_ite _ _ _ _⟩

end Counting

/-! ## 4. The worker side drains the count -/

section Draining

variable {m : MultiConnector} {r : RequestId} {n : Nat}

def Report.sends (report : Report) (r : RequestId) : Bool := r ∈ report.sending.getD ∅

def Report.recvs (report : Report) (r : RequestId) : Bool := r ∈ report.recving.getD ∅

/-- The extra saves that are pending after `d` of `n` children have sent. -/
def pendingSaves (n d : Nat) : Option Int := if d + 1 < n then some (n - 1 - d) else none

theorem fires_drain : Countdown.Fires drain n (pendingSaves n) := by
  intro d hd
  by_cases hl : d + 1 = n
  · simp [pendingSaves, drain, hl]
  · have hm : d + 1 < n := by omega
    rw [pendingSaves, if_pos hm, decide_eq_false hl]
    by_cases htwo : d + 2 = n
    · have ho : (n : Int) - 1 - d = 1 := by omega
      simp [pendingSaves, drain, ho, htwo]
    · have hne : (n : Int) - 1 - d ≠ 1 := by omega
      have ht : d + 1 + 1 < n := by omega
      simp only [pendingSaves, drain, if_neg hne, if_pos ht]
      push_cast
      rw [sub_sub _ (d : Int)]

def Positive (m : MultiConnector) : Prop := ∀ r, ∀ pending ∈ m.extraAsyncSaves r, 0 < pending

theorem positive_drain {c : Option Int} (h : ∀ pending ∈ c, 0 < pending) :
    ∀ pending ∈ (drain c).1, 0 < pending := by
  intro pending hp
  cases c with
  | none => cases hp
  | some old =>
    have hold := h old rfl
    unfold drain at hp
    split at hp
    · rename_i heq
      cases heq
    · rename_i old' heq
      obtain rfl : old = old' := Option.some.inj heq
      split at hp
      · cases hp
      · obtain rfl : old - 1 = pending := Option.some.inj hp
        omega

theorem finishReport_ok (h : Positive m) (sn re : Finset RequestId) (rp : Report) :
    ∃ m' sn' re', finishReport (m, sn, re) rp = .ok (m', sn', re') ∧
      Positive m' ∧ ∀ r, m'.extraAsyncSaves r = (feed drain (m.extraAsyncSaves r) [rp.sends r]).1 ∧
        (r ∈ sn' ↔ r ∈ sn ∨ (feed drain (m.extraAsyncSaves r) [rp.sends r]).2 = true) ∧
        (r ∈ re' ↔ r ∈ re ∨ rp.recvs r = true) := by
  unfold finishReport
  dsimp only
  split
  · rename_i hn
    refine ⟨m, sn, re, rfl, h, fun r => ?_⟩
    simp [Report.sends, Report.recvs, hn.1, hn.2, feed]
  · rw [if_pos fun r _ => h r]
    refine ⟨_, _, _, rfl, fun r pending hp => ?_, fun r => ?_⟩
    · dsimp only at hp
      split at hp
      · exact positive_drain (h r) pending hp
      · exact h r pending hp
    · by_cases hs : r ∈ rp.sending.getD ∅ <;> simp [Report.sends, Report.recvs, hs, feed]

/-- **On a worker every request has a countdown of its own.** `get_finished` raises nothing, and a
    request is finished when its countdown fires. -/
theorem getFinished_feed (h : Positive m) (rp : List Report) :
    ∃ sent rc m', m.getFinished rp = .ok ((sent, rc), m') ∧ Positive m' ∧ ∀ r,
      feed drain (m.extraAsyncSaves r) (rp.map (·.sends r))
        = (m'.extraAsyncSaves r, decide (r ∈ sent.getD ∅)) ∧
      (r ∈ rc.getD ∅ ↔ ∃ report ∈ rp, report.recvs r = true) := by
  -- the loop, from any sets collected so far
  have hl : ∀ (rp : List Report) (m : MultiConnector) (sending re : Finset RequestId),
      Positive m → ∃ m' sending' re',
        rp.foldlM finishReport (m, sending, re) = .ok (m', sending', re') ∧
        Positive m' ∧ ∀ r, m'.extraAsyncSaves r
          = (feed drain (m.extraAsyncSaves r) (rp.map (·.sends r))).1 ∧
          (r ∈ sending' ↔ r ∈ sending ∨
            (feed drain (m.extraAsyncSaves r) (rp.map (·.sends r))).2 = true) ∧
          (r ∈ re' ↔ r ∈ re ∨ ∃ report ∈ rp, report.recvs r = true) := by
    intro rp
    induction rp with
    | nil =>
      intro m sending re h
      exact ⟨m, sending, re, rfl, h, fun r => by simp [feed]⟩
    | cons report rp ih =>
      intro m sending re h
      obtain ⟨m₁, sending₁, re₁, hrun₁, hpos₁, hc₁⟩ :=
        finishReport_ok h sending re report
      obtain ⟨m₂, sending₂, re₂, hrun₂, hpos₂, hc₂⟩ := ih m₁ sending₁ re₁ hpos₁
      refine ⟨m₂, sending₂, re₂, ?_, hpos₂, fun r => ?_⟩
      · rw [List.foldlM_cons, hrun₁, ok_bind, hrun₂]
      · obtain ⟨he₁, hn₁, hv₁⟩ := hc₁ r
        obtain ⟨he₂, hn₂, hv₂⟩ := hc₂ r
        rw [List.map_cons, ← List.singleton_append, feed_append, ← he₁, Bool.or_eq_true,
          List.exists_mem_cons_iff]
        exact ⟨he₂, by rw [hn₂, hn₁, or_assoc], by rw [hv₂, hv₁, or_assoc]⟩
  obtain ⟨m', sending', re', hr, hp, hs⟩ := hl rp m ∅ ∅ h
  refine ⟨orNone sending', orNone re', m', ?_, hp, fun r => ⟨?_, ?_⟩⟩
  · rw [getFinished, hr]
    rfl
  · refine Prod.ext (hs r).1.symm ?_
    rw [getD_orNone, Bool.eq_iff_iff, decide_eq_true_iff]
    simpa using (hs r).2.1.symm
  · rw [getD_orNone]
    simpa using (hs r).2.2

end Draining

end MultiConnector

end VllmDual.Connector
