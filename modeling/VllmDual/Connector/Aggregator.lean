/-
  Subject:   THE WORKERS' KV OUTPUTS, AGGREGATED FOR THE SCHEDULER (`KVOutputAggregator`,
             `kv_connector/utils.py`; `KVConnectorOutput`,
             `vllm/v1/outputs.py`).

  Each worker reports, step by step, the transfers it has finished and how far its decode windows
  are saved. The aggregator counts the first and merges the second:

  * `release_waits_iff` -- releases wait for every worker exactly when no worker is ahead of
    another.
-/
import VllmDual.Lib.Outcome
import VllmDual.Lib.Countdown
import VllmDual.Connector.TaskTracker

namespace VllmDual.Connector

inductive ConnectorError where
  | assertion (condition : String)
  | indexError
  | runtimeError (message : String)

/-- How a connector's own data is combined: its statistics, its cache events (of one worker, and
    across workers) and what its workers tell its scheduler side. -/
structure Aggregates (σ ε μ : Type) where
  stats : σ → σ → σ
  mergeEvents : ε → ε → ε
  events : ε → ε → ε
  workerMeta : μ → μ → μ

/-! ## 1. One worker -/

structure KVConnectorOutput (σ ε μ : Type) where
  finishedSending : Option (Finset RequestId) := none
  finishedRecving : Option (Finset RequestId) := none
  kvConnectorStats : Option σ := none
  kvCacheEvents : Option ε := none
  kvConnectorWorkerMeta : Option μ := none
  invalidBlockIds : Finset Int := ∅
  completedDecodeWindowSaves : OrderedDict RequestId Nat := .empty
  expectedFinishedCount : Int := 0

/-- The part of `ModelRunnerOutput` that the aggregator reads and replaces. -/
structure ModelRunnerOutput (σ ε μ : Type) where
  kvConnectorOutput : Option (KVConnectorOutput σ ε μ)

section

variable {σ ε μ : Type} (ops : Aggregates σ ε μ)

def combineNonNone {α : Type} (f : α → α → α) (items : List (Option α)) : Option α :=
  match items.filterMap id with
  | [] => none
  | item :: rest => some (rest.foldl f item)

/-- A set as `s or None`. -/
def orNone (s : Finset RequestId) : Option (Finset RequestId) := if s = ∅ then none else some s

/-- The frontiers of `saves` merged into `completed`, the larger one where both have one. -/
def mergeSaves (completed saves : OrderedDict RequestId Nat) : OrderedDict RequestId Nat :=
  completed.mergeWith (fun old windowEnd => max (old.getD 0) windowEnd) saves

namespace KVConnectorOutput

def isEmpty (out : KVConnectorOutput σ ε μ) : Bool :=
  out.finishedSending.getD ∅ = ∅ && out.finishedRecving.getD ∅ = ∅ && out.kvConnectorStats.isNone
    && out.kvCacheEvents.isNone && out.invalidBlockIds = ∅
    && out.completedDecodeWindowSaves.entries.isEmpty && out.kvConnectorWorkerMeta.isNone

/-- `merge`, as `_merge_kv_connector_outputs` calls it: the worker metadata is kept. -/
def merge (outputs : List (KVConnectorOutput σ ε μ)) :
    Except ConnectorError (KVConnectorOutput σ ε μ) :=
  match outputs with
  | [] => .error (.assertion "Cannot merge empty outputs")
  | first :: rest =>
    if ∀ out ∈ rest, out.expectedFinishedCount = first.expectedFinishedCount then
      .ok {
        finishedSending := combineNonNone (· ∪ ·) (outputs.map finishedSending)
        finishedRecving := combineNonNone (· ∪ ·) (outputs.map finishedRecving)
        kvConnectorStats := combineNonNone ops.stats (outputs.map kvConnectorStats)
        kvCacheEvents := combineNonNone ops.mergeEvents (outputs.map kvCacheEvents)
        kvConnectorWorkerMeta := combineNonNone ops.workerMeta (outputs.map kvConnectorWorkerMeta)
        invalidBlockIds := outputs.foldl (fun ids out => ids ∪ out.invalidBlockIds) ∅
        completedDecodeWindowSaves :=
          outputs.foldl (fun saves out => mergeSaves saves out.completedDecodeWindowSaves) .empty
        expectedFinishedCount := first.expectedFinishedCount }
    else
      .error (.assertion "expected_finished_count")

end KVConnectorOutput

/-! ## 2. All workers -/

/-- `KVOutputAggregator`. Its dicts are never iterated. -/
structure KVOutputAggregator where
  recvRemainingCount : RequestId → Option Int
  sendRemainingCount : RequestId → Option Int
  expectedFinishedCount : Int

namespace KVOutputAggregator

/-- `__init__`, with what `from_connector` passes. -/
def fromConnector (finishedCount : Option Int) (worldSize : Int) : KVOutputAggregator where
  recvRemainingCount := fun _ => none
  sendRemainingCount := fun _ => none
  -- `get_finished_count() or world_size`
  expectedFinishedCount := if finishedCount.getD 0 = 0 then worldSize else finishedCount.getD 0

/-- `update_finished_set`. The ids of a set are distinct and each counts down for itself, so the
    order of the loop does not matter. -/
def updateFinishedSet (expected : Int) (reqIds : Option (Finset RequestId))
    (remaining : RequestId → Option Int) (finished : Finset RequestId) :
    (RequestId → Option Int) × Finset RequestId :=
  let ids := reqIds.getD ∅
  (fun r => if r ∈ ids then (Countdown.tick expected (remaining r)).1 else remaining r,
    finished ∪ ids.filter fun r => (Countdown.tick expected (remaining r)).2)

structure Loop (σ ε μ : Type) where
  aggregator : KVOutputAggregator
  finishedSending : Finset RequestId
  finishedRecving : Finset RequestId
  stats : Option σ
  workerMeta : Option μ
  events : Option ε
  invalidBlockIds : Finset Int
  saves : OrderedDict RequestId Nat

def accumulate {α : Type} (f : α → α → α) : Option α → Option α → Option α
  | none, new => new
  | some acc, none => some acc
  | some acc, some new => some (f acc new)

def absorb (l : Loop σ ε μ) (kvOutput : Option (KVConnectorOutput σ ε μ)) : Loop σ ε μ :=
  match kvOutput with
  | none => l
  | some out =>
    -- a worker may change how many reports a request waits for
    let expected := if 0 < out.expectedFinishedCount then out.expectedFinishedCount
      else l.aggregator.expectedFinishedCount
    let (sendRemaining, sending) := updateFinishedSet expected out.finishedSending
      l.aggregator.sendRemainingCount l.finishedSending
    let (recvRemaining, recving) := updateFinishedSet expected out.finishedRecving
      l.aggregator.recvRemainingCount l.finishedRecving
    { aggregator := ⟨recvRemaining, sendRemaining, expected⟩
      finishedSending := sending
      finishedRecving := recving
      stats := accumulate ops.stats l.stats out.kvConnectorStats
      workerMeta := accumulate ops.workerMeta l.workerMeta out.kvConnectorWorkerMeta
      events := accumulate ops.events l.events out.kvCacheEvents
      invalidBlockIds := l.invalidBlockIds ∪ out.invalidBlockIds
      saves := mergeSaves l.saves out.completedDecodeWindowSaves }

def start (a : KVOutputAggregator) : Loop σ ε μ := ⟨a, ∅, ∅, none, none, none, ∅, .empty⟩

def Loop.output (l : Loop σ ε μ) : KVConnectorOutput σ ε μ where
  finishedSending := orNone l.finishedSending
  finishedRecving := orNone l.finishedRecving
  kvConnectorStats := l.stats
  kvCacheEvents := l.events
  kvConnectorWorkerMeta := l.workerMeta
  invalidBlockIds := l.invalidBlockIds
  completedDecodeWindowSaves := l.saves
  expectedFinishedCount := l.aggregator.expectedFinishedCount

/-- `aggregate`. Without an output of the worker at `outputRank` nothing is aggregated. -/
def aggregate (a : KVOutputAggregator) (outputs : List (Option (ModelRunnerOutput σ ε μ)))
    (outputRank : Nat) :
    Except ConnectorError (Option (ModelRunnerOutput σ ε μ) × KVOutputAggregator) :=
  match outputs[outputRank]? with
  | none => .error .indexError
  | some none => .ok (none, a)
  | some (some _) => do
    let l ← outputs.foldlM (fun l out => match out with
      | none => .error (.assertion "model_runner_output is not None")
      | some out => .ok (absorb ops l out.kvConnectorOutput)) (start a)
    return (some ⟨some l.output⟩, l.aggregator)

end KVOutputAggregator

end

/-! ## 3. When every worker delivers -/

section Delivered

open KVOutputAggregator List

variable {σ ε μ : Type} {ops : Aggregates σ ε μ} {a : KVOutputAggregator} {W : Nat} {r : RequestId}
  {b : Nat} {e : Int} {c ss : OrderedDict RequestId Nat}

theorem aggregate_all (os : Fin W → Option (KVConnectorOutput σ ε μ)) (ra : Fin W) :
    a.aggregate ops (ofFn fun w => some ⟨os w⟩) ra
      = let l := (ofFn os).foldl (absorb ops) (start a)
        .ok (some ⟨some l.output⟩, l.aggregator) := by
  have hl : ∀ (ko : List (Option (KVConnectorOutput σ ε μ))) (l : Loop σ ε μ),
      (ko.map fun out => some (ModelRunnerOutput.mk out)).foldlM (fun l out => match out with
        | none => .error (.assertion "model_runner_output is not None")
        | some out => .ok (absorb ops l out.kvConnectorOutput)) l
        = (.ok (ko.foldl (absorb ops) l) : Except ConnectorError _) := by
    intro ko
    induction ko with
    | nil => intro l; rfl
    | cons out re ih => intro l; exact ih _
  have hr : (ofFn fun w => some (ModelRunnerOutput.mk (os w)))[(ra : Nat)]?
      = some (some ⟨os ra⟩) := by
    simp
  have hm : (ofFn fun w => some (ModelRunnerOutput.mk (os w)))
      = (ofFn os).map fun out => some (ModelRunnerOutput.mk out) := by
    rw [map_ofFn]
    rfl
  rw [aggregate, hr]
  dsimp only
  rw [hm, hl]
  rfl

def sentOf (out : Option (KVConnectorOutput σ ε μ)) : Finset RequestId :=
  (out.bind (·.finishedSending)).getD ∅

def recvdOf (out : Option (KVConnectorOutput σ ε μ)) : Finset RequestId :=
  (out.bind (·.finishedRecving)).getD ∅

@[simp] theorem getD_orNone (s : Finset RequestId) : (orNone s).getD ∅ = s := by
  unfold orNone
  by_cases hs : s = ∅ <;> simp [hs]

theorem sentOf_output (l : Loop σ ε μ) : sentOf (some l.output) = l.finishedSending := getD_orNone _

theorem recvdOf_output (l : Loop σ ε μ) : recvdOf (some l.output) = l.finishedRecving :=
    getD_orNone _

/-- The counter of a request and its place in the set of finished ones, after the `events`. -/
def Advanced (expected : Int) (events : List Bool) (before after : Option Int × Prop) : Prop :=
  after.1 = (Countdown.feed (Countdown.tick expected) before.1 events).1 ∧
    (after.2 ↔ before.2 ∨ (Countdown.feed (Countdown.tick expected) before.1 events).2 = true)

theorem Advanced.append {es es' : List Bool} {x y z : Option Int × Prop}
    (h : Advanced e es x y) (h' : Advanced e es' y z) :
    Advanced e (es ++ es') x z := by
  rw [Advanced, Countdown.feed_append, ← h.1, Bool.or_eq_true]
  exact ⟨h'.1, by rw [h'.2, h.2, or_assoc]⟩

theorem updateFinishedSet_advanced {ri : Option (Finset RequestId)} {re : RequestId → Option Int}
    {f : Finset RequestId} : Advanced e [decide (r ∈ ri.getD ∅)] (re r, r ∈ f)
      ((updateFinishedSet e ri re f).1 r, r ∈ (updateFinishedSet e ri re f).2) := by
  by_cases hr : r ∈ ri.getD ∅ <;> simp [Advanced, updateFinishedSet, hr, Countdown.feed]

/-- **The aggregator counts down for every request by itself**, as long as no worker changes how
    many reports are expected. -/
theorem foldl_advanced (ops : Aggregates σ ε μ) {os : List (Option (KVConnectorOutput σ ε μ))}
    (l : Loop σ ε μ) (hc : ∀ out ∈ os, ∀ o ∈ out, o.expectedFinishedCount = 0) :
    let l' := os.foldl (absorb ops) l
    l'.aggregator.expectedFinishedCount = l.aggregator.expectedFinishedCount ∧
    Advanced l.aggregator.expectedFinishedCount (os.map fun out => decide (r ∈ sentOf out))
      (l.aggregator.sendRemainingCount r, r ∈ l.finishedSending)
      (l'.aggregator.sendRemainingCount r, r ∈ l'.finishedSending) ∧
    Advanced l.aggregator.expectedFinishedCount (os.map fun out => decide (r ∈ recvdOf out))
      (l.aggregator.recvRemainingCount r, r ∈ l.finishedRecving)
      (l'.aggregator.recvRemainingCount r, r ∈ l'.finishedRecving) := by
  induction os generalizing l with
  | nil => simp [Advanced, Countdown.feed]
  | cons out re ih =>
    rw [forall_mem_cons] at hc
    obtain ⟨he, hs, hr⟩ := ih (absorb ops l out) hc.2
    cases out with
    | none =>
      have hsk : ∀ (events : List Bool) (x y : Option Int × Prop),
          Advanced l.aggregator.expectedFinishedCount events x y →
            Advanced l.aggregator.expectedFinishedCount (false :: events) x y :=
        fun _ _ _ h => h
      exact ⟨he, hsk _ _ _ hs, hsk _ _ _ hr⟩
    | some o =>
      have hk : (absorb ops l (some o)).aggregator.expectedFinishedCount
          = l.aggregator.expectedFinishedCount := by
        have h0 : ¬0 < o.expectedFinishedCount := by
          rw [hc.1 o rfl]
          exact lt_irrefl 0
        exact if_neg h0
      have hse : Advanced (absorb ops l (some o)).aggregator.expectedFinishedCount
          [decide (r ∈ sentOf (some o))] (l.aggregator.sendRemainingCount r, r ∈ l.finishedSending)
          ((absorb ops l (some o)).aggregator.sendRemainingCount r,
            r ∈ (absorb ops l (some o)).finishedSending) := updateFinishedSet_advanced
      have hre : Advanced (absorb ops l (some o)).aggregator.expectedFinishedCount
          [decide (r ∈ recvdOf (some o))] (l.aggregator.recvRemainingCount r, r ∈ l.finishedRecving)
          ((absorb ops l (some o)).aggregator.recvRemainingCount r,
            r ∈ (absorb ops l (some o)).finishedRecving) := updateFinishedSet_advanced
      rw [← hk]
      exact ⟨he, hse.append hs, hre.append hr⟩

def savedFrontier (r : RequestId) (out : Option (KVConnectorOutput σ ε μ)) : Option Nat :=
  out.bind fun out => out.completedDecodeWindowSaves.get r

theorem get_mergeSaves : (mergeSaves c ss).get r = match ss.get r with
      | none => c.get r
      | some we => some (max ((c.get r).getD 0) we) := by
  rw [mergeSaves, OrderedDict.get_mergeWith]
  cases ss.get r <;> rfl

theorem mergeSaves_le_iff : (∀ f ∈ (mergeSaves c ss).get r, f ≤ b) ↔
      (∀ f ∈ c.get r, f ≤ b) ∧ ∀ f ∈ ss.get r, f ≤ b := by
  rw [get_mergeSaves]
  cases ss.get r <;> cases c.get r <;> simp

/-- **The aggregated frontier is the largest one**: it stays under a bound exactly when every
    worker's does. -/
theorem saves_le_iff (ops : Aggregates σ ε μ) (os : List (Option (KVConnectorOutput σ ε μ)))
    (l : Loop σ ε μ) : (∀ f ∈ (os.foldl (absorb ops) l).saves.get r, f ≤ b) ↔
      (∀ f ∈ l.saves.get r, f ≤ b) ∧ ∀ out ∈ os, ∀ f ∈ savedFrontier r out, f ≤ b := by
  induction os generalizing l with
  | nil => simp
  | cons out re ih =>
    rw [foldl_cons, ih, forall_mem_cons]
    cases out with
    | none => simp [absorb, savedFrontier]
    | some out =>
      rw [show (absorb ops l (some out)).saves = mergeSaves l.saves out.completedDecodeWindowSaves
        from rfl, mergeSaves_le_iff, and_assoc]
      rfl

end Delivered

/-! ## 4. Released decode windows -/

section Releases

open KVOutputAggregator

variable {σ ε μ : Type} {W : Nat}

/-- The calls of `remove_saved_decode_window_blocks` in `_update_from_kv_xfer_finished`: a frontier
    of a request the scheduler no longer has is passed over. -/
def releases (requests : Finset RequestId) (out : KVConnectorOutput σ ε μ) :
    List (RequestId × Nat) :=
  out.completedDecodeWindowSaves.entries.filter (·.1 ∈ requests)

/-- A step as the scheduler sees it: the workers' outputs, whose output it takes, and the requests
    it has when it processes them. -/
structure SaveStep (σ ε μ : Type) (W : Nat) where
  outputs : Fin W → Option (KVConnectorOutput σ ε μ)
  rank : Fin W
  requests : Finset RequestId

def releasesOf (ops : Aggregates σ ε μ) :
    KVOutputAggregator → List (SaveStep σ ε μ W) →
      Except ConnectorError (List (List (RequestId × Nat)))
  | _, [] => .ok []
  | a, step :: rest => do
    let (out, a) ← a.aggregate ops (List.ofFn fun w => some ⟨step.outputs w⟩) step.rank
    let later ← releasesOf ops a rest
    let kvOutput := out.bind ModelRunnerOutput.kvConnectorOutput
    return ((kvOutput.map (releases step.requests)).getD []) :: later

/-- The largest frontier a worker has reported for a request, 0 if there is none. -/
def largest (w : Fin W) (r : RequestId) (steps : List (SaveStep σ ε μ W)) : Nat :=
  (steps.map fun step => (savedFrontier r (step.outputs w)).getD 0).foldr max 0

/-- Every frontier passed in a step is at most the largest of each worker so far. -/
def WaitsForEveryWorker (steps : List (SaveStep σ ε μ W)) (calls : List (List (RequestId × Nat))) :
    Prop :=
  ∀ k, ∀ c ∈ calls[k]?, ∀ r f, (r, f) ∈ c → ∀ w, f ≤ largest w r (steps.take (k + 1))

/-- No worker is ahead of another: when it reports a frontier of a request the scheduler has, every
    worker has reported as much. -/
def NoneAhead (steps : List (SaveStep σ ε μ W)) : Prop :=
  ∀ k, ∀ step ∈ steps[k]?, ∀ r ∈ step.requests, ∀ w, ∀ f ∈ savedFrontier r (step.outputs w),
    ∀ w', f ≤ largest w' r (steps.take (k + 1))

variable {ops : Aggregates σ ε μ} {a : KVOutputAggregator} {steps : List (SaveStep σ ε μ W)}
  {step : SaveStep σ ε μ W} {r : RequestId} {b : Nat}

theorem releases_le_iff :
    (∀ f, (r, f) ∈ releases step.requests
      ((List.ofFn step.outputs).foldl (absorb ops) (start a)).output → f ≤ b) ↔
      (r ∈ step.requests → ∀ w, ∀ f ∈ savedFrontier r (step.outputs w), f ≤ b) := by
  have hm : ∀ f, (r, f) ∈ releases step.requests
      ((List.ofFn step.outputs).foldl (absorb ops) (start a)).output ↔
        f ∈ ((List.ofFn step.outputs).foldl (absorb ops) (start a)).saves.get r ∧
          r ∈ step.requests := by
    intro f
    rw [releases, List.mem_filter, ← OrderedDict.get_eq_some_iff, decide_eq_true_eq]
    rfl
  have hle := saves_le_iff (r := r) (b := b) ops (List.ofFn step.outputs) (start a)
  simp only [hm, and_imp]
  constructor
  · intro h hr w f hf
    exact (hle.mp fun f hf => h f hf hr).2 _ (List.mem_ofFn.mpr ⟨w, rfl⟩) f hf
  · intro h f hf hr
    refine hle.mpr ⟨?_, ?_⟩ f hf
    · simp [start]
    · intro out ho f hf
      obtain ⟨w, rfl⟩ := List.mem_ofFn.mp ho
      exact h hr w f hf

theorem releasesOf_ok (ops : Aggregates σ ε μ) (steps : List (SaveStep σ ε μ W))
    (a : KVOutputAggregator) : ∃ cs, releasesOf ops a steps = .ok cs ∧ cs.length = steps.length ∧
      ∀ k : Nat, ∀ step ∈ steps[k]?, ∀ c ∈ cs[k]?, ∀ r b, (∀ f, (r, f) ∈ c → f ≤ b) ↔
        (r ∈ step.requests → ∀ w, ∀ f ∈ savedFrontier r (step.outputs w), f ≤ b) := by
  induction steps generalizing a with
  | nil => exact ⟨[], rfl, rfl, fun k step h => by simp at h⟩
  | cons step re ih =>
    obtain ⟨later, hl, hlen, hb⟩ :=
      ih ((List.ofFn step.outputs).foldl (absorb ops) (start a)).aggregator
    refine ⟨releases step.requests
      ((List.ofFn step.outputs).foldl (absorb ops) (start a)).output :: later, ?_,
        congrArg Nat.succ hlen, fun k => ?_⟩
    · rw [releasesOf, aggregate_all]
      simp only [Outcome.ok_bind, hl]
      rfl
    · cases k with
      | zero =>
        intro s' hs c hc r b
        obtain rfl : step = s' := Option.some.inj hs
        obtain rfl := Option.some.inj hc
        exact releases_le_iff
      | succ k => exact hb k

/-- **Release waits for every worker exactly when no worker is ahead of another.** The frontiers of
    a step are merged with `max`, so one worker's report is enough. -/
theorem release_waits_iff (ops : Aggregates σ ε μ) (a : KVOutputAggregator)
    (steps : List (SaveStep σ ε μ W)) :
    (∃ calls, releasesOf ops a steps = .ok calls ∧ WaitsForEveryWorker steps calls) ↔
      NoneAhead steps := by
  obtain ⟨calls, hca, hl, hb⟩ := releasesOf_ok ops steps a
  constructor
  · intro ⟨cs', hca', hw⟩ k step hs r hr w f hf w'
    obtain rfl : calls = cs' := Except.ok.inj (hca.symm.trans hca')
    have hk : k < calls.length := by
      rw [hl]
      exact (getElem?_eq_some_iff.mp hs).1
    have hc : calls[k] ∈ calls[k]? := List.getElem?_eq_getElem hk
    refine (hb k step hs _ hc r _).mp ?_ hr w f hf
    exact fun f hf => hw k _ hc r f hf w'
  · intro hn
    refine ⟨calls, hca, fun k c hc r f hf w => ?_⟩
    have hk : k < steps.length := by
      rw [← hl]
      exact (getElem?_eq_some_iff.mp hc).1
    have hs : steps[k] ∈ steps[k]? := List.getElem?_eq_getElem hk
    refine (hb k _ hs c hc r _).mpr ?_ f hf
    exact fun hr w' f hf => hn k _ hs r hr w' f hf w

end Releases

def oneAhead : SaveStep Unit Unit Unit 2 where
  outputs w := some (if w = 0 then
    { completedDecodeWindowSaves := OrderedDict.empty.set "r" 16 } else {})
  rank := 0
  requests := {"r"}

/-- **The first worker's window is released** though the second has reported nothing. -/
theorem oneAhead_released :
    releasesOf ⟨max, max, max, max⟩ (.fromConnector none 2) [oneAhead] = .ok [[("r", 16)]] ∧
      largest 1 "r" [oneAhead] = 0 := by
  refine ⟨?_, by decide⟩
  rfl

end VllmDual.Connector
