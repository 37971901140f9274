/-
  Subject:   THE SENDER'S TASK TRACKER (`KVCacheTaskTracker`,
             `ascend/kv_p2p/mooncake_connector.py`).

  The sending side keeps the KV blocks of a finished request until the receiver has read them. A
  split request holds a lease: only an acknowledgement that names its transfer releases it. The
  tracker's methods run under one lock, so a run is a sequence of calls:

  * `reportsExpired_iff` -- when a poll reports all that has expired.
-/
import VllmDual.Lib.OrderedDict

namespace VllmDual.Connector

abbrev RequestId := String

/-- `split_transfer_id`: one for each time a request is sent. -/
abbrev TransferId := String

abbrev Time := Int

/-- `MAX_TASK_HISTORY_SIZE`. -/
def maxTaskHistorySize : Nat := 16000

inductive SplitStatus where
  | success
  | failure
  | cancelled
  | fallback

/-- The status field of `SPLIT_DONE_MSG`; an unknown one counts as a failure. -/
def SplitStatus.ofWire (status : String) : SplitStatus :=
  if status = "success" then .success
  else if status = "cancelled" then .cancelled
  else if status = "fallback" then .fallback
  else .failure

/-! ## 1. The tracker -/

structure KVCacheTaskTracker where
  finishedRequests : Finset RequestId
  delayedFreeRequests : OrderedDict RequestId Time
  reqsToProcess : Finset RequestId
  splitResults : RequestId → Option SplitStatus
  splitLeases : Finset RequestId
  splitTerminalRequests : OrderedDict RequestId Unit
  splitTransferIds : RequestId → Option TransferId
  earlySplitResults : OrderedDict (RequestId × Option TransferId) SplitStatus

namespace KVCacheTaskTracker

def init : KVCacheTaskTracker where
  finishedRequests := ∅
  delayedFreeRequests := .empty
  reqsToProcess := ∅
  splitResults := fun _ => none
  splitLeases := ∅
  splitTerminalRequests := .empty
  splitTransferIds := fun _ => none
  earlySplitResults := .empty

variable (t : KVCacheTaskTracker) (r : RequestId)

/-- `add_req_to_process`. It forgets the request's last generation, and the early results of any
    other transfer. -/
def addReqToProcess (splitTransferId : Option TransferId) : KVCacheTaskTracker :=
  if r ∈ t.reqsToProcess then
    t
  else
    { finishedRequests := t.finishedRequests.erase r
      delayedFreeRequests := t.delayedFreeRequests.pop r
      splitResults := Function.update t.splitResults r none
      splitLeases := t.splitLeases.erase r
      splitTerminalRequests := t.splitTerminalRequests.pop r
      splitTransferIds := Function.update t.splitTransferIds r splitTransferId
      earlySplitResults :=
        if splitTransferId = none then t.earlySplitResults
        else t.earlySplitResults.filter fun key => ¬(key.1 = r ∧ key.2 ≠ splitTransferId)
      reqsToProcess := insert r t.reqsToProcess }

def addNotTransferRequest : KVCacheTaskTracker :=
  { t with
    finishedRequests := insert r t.finishedRequests
    reqsToProcess := t.reqsToProcess.erase r }

def updateDoneTaskCount : KVCacheTaskTracker :=
  if r ∈ t.reqsToProcess then
    { t with
      finishedRequests := insert r t.finishedRequests
      reqsToProcess := t.reqsToProcess.erase r
      delayedFreeRequests := t.delayedFreeRequests.pop r }
  else
    t

def remember {κ ν : Type} [DecidableEq κ] (d : OrderedDict κ ν) (k : κ) (v : ν) :
    OrderedDict κ ν :=
  if maxTaskHistorySize < (d.set k v).entries.length then (d.set k v).popFirst else d.set k v

/-- The end of `complete_split_request`, and of `add_delayed_request` after an early
    acknowledgement: the lease is released. -/
def terminate (status : SplitStatus) (markFinished : Bool) (terminal : OrderedDict RequestId Unit) :
    KVCacheTaskTracker :=
  { t with
    splitTerminalRequests := terminal
    splitResults := Function.update t.splitResults r (some status)
    finishedRequests := if markFinished then insert r t.finishedRequests else t.finishedRequests
    reqsToProcess := t.reqsToProcess.erase r
    delayedFreeRequests := t.delayedFreeRequests.pop r
    splitLeases := t.splitLeases.erase r
    splitTransferIds := Function.update t.splitTransferIds r none }

/-- `complete_split_request`, with its answer. -/
def completeSplitRequest (status : SplitStatus) (markFinished : Bool)
    (splitTransferId : Option TransferId) : Bool × KVCacheTaskTracker :=
  let current := t.splitTransferIds r
  if current ≠ none ∧ splitTransferId = none then
    (false, t)
  else if splitTransferId ≠ none ∧ current = none then
    (true, { t with
      earlySplitResults := remember t.earlySplitResults (r, splitTransferId) status })
  else if splitTransferId ≠ none ∧ current ≠ splitTransferId then
    (false, t)
  else if r ∈ t.splitTerminalRequests.keys then
    (true, t)
  else
    (true, t.terminate r status markFinished (remember t.splitTerminalRequests r ()))

def getAndClearSplitResults : (RequestId → Option SplitStatus) × KVCacheTaskTracker :=
  (t.splitResults, { t with splitResults := fun _ => none })

/-- The loop of `_retrieve_expired_requests` over the entries of `delayed_free_requests`. It stops
    at the first entry that has not expired, and passes over leases. -/
def retrieveExpiredRequests (timeout now : Time) :
    List (RequestId × Time) → KVCacheTaskTracker → Finset RequestId × KVCacheTaskTracker
  | [], t => (∅, t)
  | (r, delayStartTime) :: rest, t =>
    if now - delayStartTime ≤ timeout then
      (∅, t)
    else if r ∈ t.splitLeases then
      retrieveExpiredRequests timeout now rest t
    else
      let (expired, t) := retrieveExpiredRequests timeout now rest { t with
        delayedFreeRequests := t.delayedFreeRequests.pop r
        reqsToProcess := t.reqsToProcess.erase r }
      (insert r expired, t)

/-- `get_and_clear_finished_requests`, at a time and with `VLLM_NIXL_ABORT_REQUEST_TIMEOUT`. -/
def getAndClearFinishedRequests (timeout now : Time) : Finset RequestId × KVCacheTaskTracker :=
  let (expired, t') := retrieveExpiredRequests timeout now t.delayedFreeRequests.entries t
  (t.finishedRequests ∪ expired, { t' with finishedRequests := ∅ })

def addDelayedRequest (delayStartTime : Time) (split : Bool) (splitTransferId : Option TransferId) :
    KVCacheTaskTracker :=
  if r ∈ t.reqsToProcess then
    let t' := { t with delayedFreeRequests := t.delayedFreeRequests.set r delayStartTime }
    if split then
      let t' := { t' with
        splitTransferIds := if splitTransferId = none then t.splitTransferIds
          else Function.update t.splitTransferIds r splitTransferId
        splitLeases := insert r t.splitLeases
        earlySplitResults := t.earlySplitResults.pop (r, splitTransferId) }
      match t.earlySplitResults.get (r, splitTransferId) with
      | none => t'
      | some status => t'.terminate r status true (t.splitTerminalRequests.set r ())
    else
      t'
  else
    t

/-- `SPLIT_DONE_MSG` in `KVCacheSendingThread.run_busy_loop`. -/
def splitDone (status : String) (splitTransferId : Option TransferId) : Bool × KVCacheTaskTracker :=
  t.completeSplitRequest r (.ofWire status) true splitTransferId

end KVCacheTaskTracker

/-! ## 2. Runs -/

inductive Call where
  | addReqToProcess (r : RequestId) (splitTransferId : Option TransferId)
  | addDelayedRequest (r : RequestId) (delayStartTime : Time) (split : Bool)
      (splitTransferId : Option TransferId)
  | splitDone (r : RequestId) (status : String) (splitTransferId : Option TransferId)
  | getAndClearFinishedRequests (now : Time)
  | getAndClearSplitResults
  | addNotTransferRequest (r : RequestId)
  | updateDoneTaskCount (r : RequestId)
deriving DecidableEq

variable (timeout : Time) (t : KVCacheTaskTracker)

def Call.exec : Call → Finset RequestId × KVCacheTaskTracker
  | addReqToProcess r id => (∅, t.addReqToProcess r id)
  | addDelayedRequest r start split id => (∅, t.addDelayedRequest r start split id)
  | splitDone r status id => (∅, (t.splitDone r status id).2)
  | getAndClearFinishedRequests now => t.getAndClearFinishedRequests timeout now
  | getAndClearSplitResults => (∅, t.getAndClearSplitResults.2)
  | addNotTransferRequest r => (∅, t.addNotTransferRequest r)
  | updateDoneTaskCount r => (∅, t.updateDoneTaskCount r)

def run (calls : List Call) : KVCacheTaskTracker :=
  calls.foldl (fun t c => (c.exec timeout t).2) t

def reports (r : RequestId) : KVCacheTaskTracker → List Call → Nat
  | _, [] => 0
  | t, c :: calls =>
    (if r ∈ (c.exec timeout t).1 then 1 else 0) + reports r (c.exec timeout t).2 calls

@[simp] theorem run_nil : run timeout t [] = t := rfl

@[simp] theorem run_cons (c : Call) (calls : List Call) :
    run timeout t (c :: calls) = run timeout (c.exec timeout t).2 calls := rfl

theorem run_append (as bs : List Call) :
    run timeout t (as ++ bs) = run timeout (run timeout t as) bs := List.foldl_append

theorem reports_append (r : RequestId) (t : KVCacheTaskTracker) (as bs : List Call) :
    reports timeout r t (as ++ bs) = reports timeout r t as
      + reports timeout r (run timeout t as) bs := by
  induction as generalizing t with
  | nil => simp [reports]
  | cons c as ih =>
    rw [List.cons_append, reports, ih, reports, run_cons, Nat.add_assoc]

/-! ## 3. Expiry -/

namespace KVCacheTaskTracker

variable {timeout}

/-- A delayed entry is due at a time: past the timeout, and not under a lease. -/
def Due (timeout now : Time) (t : KVCacheTaskTracker) (e : RequestId × Time) : Prop :=
  timeout < now - e.2 ∧ e.1 ∉ t.splitLeases

/-- A poll reports every delayed request that is due, and beside the finished ones no other. -/
structure ReportsExpired (timeout now : Time) (t : KVCacheTaskTracker) : Prop where
  all : ∀ e ∈ t.delayedFreeRequests.entries, Due timeout now t e →
    e.1 ∈ (t.getAndClearFinishedRequests timeout now).1
  only : ∀ r ∈ (t.getAndClearFinishedRequests timeout now).1, r ∈ t.finishedRequests ∨
    ∃ e ∈ t.delayedFreeRequests.entries, Due timeout now t e ∧ e.1 = r

/-- No entry within its time was inserted before one that is due, unless that one is reported as
    finished anyway. -/
def NoneWaits (timeout now : Time) (t : KVCacheTaskTracker) : Prop :=
  t.delayedFreeRequests.entries.Pairwise fun earlier later =>
    Due timeout now t later → later.1 ∉ t.finishedRequests → timeout < now - earlier.2

theorem mem_retrieveExpiredRequests {now : Time} {r : RequestId} (es : List (RequestId × Time))
    (t : KVCacheTaskTracker) : r ∈ (retrieveExpiredRequests timeout now es t).1 ↔
      ∃ e ∈ es.takeWhile fun e => timeout < now - e.2, e.1 ∉ t.splitLeases ∧ e.1 = r := by
  induction es generalizing t with
  | nil => simp [retrieveExpiredRequests]
  | cons e es ih =>
    rw [retrieveExpiredRequests, List.takeWhile_cons]
    by_cases hla : now - e.2 ≤ timeout
    · simp [hla]
    · rw [if_neg hla, if_pos (decide_eq_true (not_le.mp hla)), List.exists_mem_cons_iff]
      by_cases hl : e.1 ∈ t.splitLeases
      · rw [if_pos hl, ih]
        exact ⟨.inr, fun h => h.resolve_left fun h => h.1 hl⟩
      · rw [if_neg hl]
        show r ∈ insert e.1 (retrieveExpiredRequests timeout now es _).1 ↔ _
        rw [Finset.mem_insert, ih]
        exact or_congr ⟨fun h => ⟨hl, h.symm⟩, fun h => h.2.symm⟩ Iff.rfl

/-- **Expired sends are reported exactly when none of them waits.** The scan stops at the first
    entry within its time: a request that is due behind such an entry stays. -/
theorem reportsExpired_iff (timeout now : Time) (t : KVCacheTaskTracker) :
    ReportsExpired timeout now t ↔ NoneWaits timeout now t := by
  have hm : ∀ r, r ∈ (t.getAndClearFinishedRequests timeout now).1 ↔ r ∈ t.finishedRequests ∨
      ∃ e ∈ t.delayedFreeRequests.entries.takeWhile fun e => timeout < now - e.2,
        e.1 ∉ t.splitLeases ∧ e.1 = r := fun r => by
    rw [← mem_retrieveExpiredRequests _ t]
    exact Finset.mem_union
  have hs := OrderedDict.seen_iff_pairwise (fun e => Due timeout now t e ∧ e.1 ∉ t.finishedRequests)
    (fun e h => h.1.1) t.delayedFreeRequests.nodup
  simp only [and_imp] at hs
  rw [NoneWaits, ← hs]
  constructor
  · intro h e he hd hf
    obtain hin | ⟨e', he', -, hk⟩ := (hm e.1).mp (h.all e he hd)
    · exact absurd hin hf
    · exact ⟨e', he', hk⟩
  · refine fun h => ⟨fun e he hd => (hm e.1).mpr ?_, fun r hr => ?_⟩
    · by_cases hf : e.1 ∈ t.finishedRequests
      · exact .inl hf
      · obtain ⟨e', he', hk⟩ := h e he hd hf
        exact .inr ⟨e', he', hk ▸ hd.2, hk⟩
    · refine ((hm r).mp hr).imp_right fun ⟨e, he, hl, hk⟩ => ⟨e, ?_, ⟨?_, hl⟩, hk⟩
      · exact List.takeWhile_subset _ he
      · simpa using List.mem_takeWhile_imp he

end KVCacheTaskTracker

/-- Two sends, the second with the earlier start time. At time 7 it has waited for longer than the
    timeout, and the poll does not report it: the first has not. -/
theorem expired_behind_later_start :
    let t := run 5 .init [.addReqToProcess "a" none, .addReqToProcess "b" none,
      .addDelayedRequest "a" 3 false none, .addDelayedRequest "b" 0 false none]
    ¬ KVCacheTaskTracker.ReportsExpired 5 7 t := by
  intro t h
  exact absurd (h.all ("b", 0) (by decide) ⟨by decide, by decide⟩) (by decide)

end VllmDual.Connector
