/-
  Subject:   FINISHED TRANSFERS OF ALL CHILDREN ON ALL WORKERS, REPORTED ONCE.

  A request is sent by `n` child connectors on each of `W` workers. Two countdowns stand between
  the children's reports and the scheduler, the extra saves of a worker and the workers that
  remain. The system here is all of it, round by round:

  * `finished_reported_once` -- the request is reported in the step of the last report, and only
    there, and nothing fails.
-/
import VllmDual.Connector.MultiConnector

namespace VllmDual.Connector

open Outcome MultiConnector Countdown Report List Option
open Finset hiding forall_mem_cons

/-! ## 1. The system -/

section Model

variable {σ ε μ ν : Type} [DecidableEq ν] {W C : Nat} (ops : Aggregates σ ε μ)

/-- One `get_finished` call of a worker, with the children's reports. The rest of the output is
    what the worker has put there. -/
structure WorkerCall (σ ε μ : Type) (C : Nat) where
  reports : Fin C → Report
  rest : KVConnectorOutput σ ε μ

/-- A worker's step. With a deferred connector there is a second call after the drafts, and a worker
    that does not sample passes an empty output on as none. -/
structure WorkerStep (σ ε μ : Type) (C : Nat) where
  call : WorkerCall σ ε μ C
  finalized : Option (WorkerCall σ ε μ C)
  passThrough : Bool

/-- `maybe_get_kv_connector_output`, `finalize_kv_connector`: the worker fills a fresh
    `KVConnectorOutput`, and leaves the expected count at its default. -/
def WorkerCall.exec (m : MultiConnector) (c : WorkerCall σ ε μ C) :
    Except ConnectorError (KVConnectorOutput σ ε μ × MultiConnector) := do
  let ((finishedSending, finishedRecving), m) ← m.getFinished (ofFn c.reports)
  return ({ c.rest with finishedSending, finishedRecving, expectedFinishedCount := 0 }, m)

def WorkerCall.finalize (out : KVConnectorOutput σ ε μ) (m : MultiConnector)
    (c : WorkerCall σ ε μ C) :
    Except ConnectorError (KVConnectorOutput σ ε μ × MultiConnector) := do
  let (later, m) ← c.exec m
  if later.isEmpty then
    return (out, m)
  else
    let merged ← KVConnectorOutput.merge ops [out, later]
    return (merged, m)

def WorkerStep.exec (m : MultiConnector) (s : WorkerStep σ ε μ C) :
    Except ConnectorError (Option (KVConnectorOutput σ ε μ) × MultiConnector) := do
  let (out, m) ← s.call.exec m
  let (out, m) ← s.finalized.elim (Except.ok (out, m)) (WorkerCall.finalize ops out m)
  return (if s.passThrough && out.isEmpty then none else some out, m)

structure System (W : Nat) where
  scheduler : MultiConnector
  workers : Fin W → MultiConnector
  aggregator : KVOutputAggregator

structure Finish (ν : Type) (C : Nat) where
  request : RequestId
  params : Option (Params ν)
  answers : Fin C → Answer ν

/-- A round: the requests that finish before the metadata is built, the workers' steps, and whose
    output the scheduler takes. -/
structure Round (σ ε μ ν : Type) (W C : Nat) where
  finishes : List (Finish ν C)
  steps : Fin W → WorkerStep σ ε μ C
  rank : Fin W

/-- Without a count of its own (`get_finished_count` is None) the connector waits for every
    worker. -/
def System.init (W : Nat) : System W where
  scheduler := MultiConnector.init
  workers := fun _ => MultiConnector.init
  aggregator := .fromConnector none W

/-- `request_finished_all_groups` on the scheduler side. -/
def Finish.exec (truthy : ν → Bool) (m : MultiConnector) (f : Finish ν C) :
    Except ConnectorError MultiConnector := do
  let (_, m) ← m.requestFinishedAllGroups truthy f.request f.params (ofFn f.answers)
  return m

def System.report (s : System W) (steps : Fin W → WorkerStep σ ε μ C) (rank : Fin W) :
    Except ConnectorError (Option (KVConnectorOutput σ ε μ) × System W) := do
  let results ← collect fun w => (steps w).exec ops (s.workers w)
  let (out, aggregator) ← s.aggregator.aggregate ops
    (ofFn fun w => some ⟨(results w).1⟩) rank
  return (out.bind (·.kvConnectorOutput), { s with workers := fun w => (results w).2, aggregator })

def System.bind (s : System W) (extraAsyncSaves : RequestId → Option Int) : System W :=
  { s with workers := fun w => (s.workers w).bindConnectorMetadata extraAsyncSaves }

/-- A round: requests finish, the metadata is built and bound by every worker, and the workers'
    outputs are aggregated. -/
def System.round (truthy : ν → Bool) (s : System W) (rd : Round σ ε μ ν W C) :
    Except ConnectorError (Option (KVConnectorOutput σ ε μ) × System W) := do
  let scheduler ← rd.finishes.foldlM (Finish.exec truthy) s.scheduler
  let (extraAsyncSaves, scheduler) := scheduler.buildConnectorMeta
  System.report ops { s.bind extraAsyncSaves with scheduler } rd.steps rd.rank

def System.run (truthy : ν → Bool) : System W → List (Round σ ε μ ν W C) →
    Except ConnectorError (List (Option (KVConnectorOutput σ ε μ)) × System W)
  | s, [] => .ok ([], s)
  | s, rd :: rest => do
    let (out, s) ← s.round ops truthy rd
    let (outs, s) ← System.run truthy s rest
    return (out :: outs, s)

end Model

/-! ## 2. The reports of a round -/

section Reports

variable {σ ε μ ν : Type} {W C : Nat} (s : WorkerStep σ ε μ C) (tells : Report → RequestId → Bool)

/-- Whether a child reports the request in one of a worker's calls: as sent or as received. -/
def WorkerStep.told (c : Fin C) (r : RequestId) : Nat :=
  (tells (s.call.reports c) r).toNat + s.finalized.elim 0 fun call =>
    (tells (call.reports c) r).toNat

def told (tells : Report → RequestId → Bool) (w : Fin W) (c : Fin C) (r : RequestId)
    (rounds : List (Round σ ε μ ν W C)) : Nat :=
  (rounds.map fun rd => (rd.steps w).told tells c r).sum

variable (r : RequestId)

def toldAll (rounds : List (Round σ ε μ ν W C)) : Nat :=
  ∑ w, ∑ c, told tells w c r rounds

def WorkerStep.events : List Bool :=
  (ofFn fun c => tells (s.call.reports c) r) ++ s.finalized.elim [] fun call => ofFn fun c =>
    tells (call.reports c) r

theorem WorkerStep.count_events : (s.events tells r).count true = ∑ c, s.told tells c r := by
  rw [events, count_append, count_ofFn]
  cases hf : s.finalized with
  | none => simp [told, hf]
  | some call => simp [told, hf, count_ofFn, sum_add_distrib]

end Reports

/-! ## 3. A worker's step -/

section Worker

variable {σ ε μ : Type} {C : Nat} {ops : Aggregates σ ε μ} {m m₁ m₂ : MultiConnector}
  {out out₁ out₂ : KVConnectorOutput σ ε μ} {c : WorkerCall σ ε μ C}

/-- What a worker does with the children's reports: pending saves are drained, and the output names
    the requests whose last save is done or that a child has received. -/
structure Served (m m' : MultiConnector) (sends recvs : RequestId → List Bool)
    (out : Option (KVConnectorOutput σ ε μ)) : Prop where
  positive : Positive m'
  count : ∀ o ∈ out, o.expectedFinishedCount = 0
  sent : ∀ r, Countdown.feed drain (m.extraAsyncSaves r) (sends r)
    = (m'.extraAsyncSaves r, decide (r ∈ sentOf out))
  recvd : ∀ r, r ∈ recvdOf out ↔ true ∈ recvs r

theorem WorkerCall.exec_served (h : Positive m) (c : WorkerCall σ ε μ C) :
    ∃ out m', c.exec m = .ok (out, m') ∧ Served m m' (fun r => ofFn fun i => (c.reports i).sends r)
      (fun r => ofFn fun i => (c.reports i).recvs r) (some out) := by
  obtain ⟨sent, re, m', hrun, hp, hs⟩ := getFinished_feed h (ofFn c.reports)
  refine ⟨_, m', by rw [WorkerCall.exec, hrun]; rfl, hp, ?_, fun r => ?_, fun r => ?_⟩
  · intro o ho
    obtain rfl := some.inj ho
    rfl
  · have hse := (hs r).1
    rw [map_ofFn] at hse
    exact hse
  · have hr := (hs r).2
    simp only [mem_ofFn, exists_exists_eq_and] at hr ⊢
    exact hr

theorem Served.append {ss₁ rs₁ ss₂ rs₂ : RequestId → List Bool}
    {out : Option (KVConnectorOutput σ ε μ)} (h₁ : Served m m₁ ss₁ rs₁ (some out₁))
    (h₂ : Served m₁ m₂ ss₂ rs₂ (some out₂)) (hc : ∀ o ∈ out, o.expectedFinishedCount = 0)
    (hs : sentOf out = sentOf (some out₁) ∪ sentOf (some out₂))
    (hr : recvdOf out = recvdOf (some out₁) ∪ recvdOf (some out₂)) :
    Served m m₂ (fun r => ss₁ r ++ ss₂ r) (fun r => rs₁ r ++ rs₂ r) out where
  positive := h₂.positive
  count := hc
  sent r := by
    rw [feed_append, h₁.sent r, h₂.sent r, hs]
    simp [mem_union, Bool.decide_or]
  recvd r := by
    rw [hr, mem_union, h₁.recvd, h₂.recvd, mem_append]

theorem sets_of_isEmpty (h : out.isEmpty = true) :
    sentOf (some out) = ∅ ∧ recvdOf (some out) = ∅ := by
  simp only [KVConnectorOutput.isEmpty, Bool.and_eq_true, decide_eq_true_eq] at h
  exact ⟨h.1.1.1.1.1.1, h.1.1.1.1.1.2⟩

theorem combineNonNone_union (a b : Option (Finset RequestId)) :
    (combineNonNone (· ∪ ·) [a, b]).getD ∅ = a.getD ∅ ∪ b.getD ∅ := by
  cases a <;> cases b <;> simp [combineNonNone]

theorem merge_sets (ops : Aggregates σ ε μ)
    (hc : out₂.expectedFinishedCount = out₁.expectedFinishedCount) :
    ∃ out, KVConnectorOutput.merge ops [out₁, out₂] = .ok out ∧
      out.expectedFinishedCount = out₁.expectedFinishedCount ∧
      sentOf (some out) = sentOf (some out₁) ∪ sentOf (some out₂) ∧
      recvdOf (some out) = recvdOf (some out₁) ∪ recvdOf (some out₂) := by
  refine ⟨_, if_pos ?_, rfl, combineNonNone_union _ _, combineNonNone_union _ _⟩
  simpa using hc

theorem WorkerStep.exec_served (ops : Aggregates σ ε μ) (h : Positive m) (s : WorkerStep σ ε μ C) :
    ∃ out m', s.exec ops m = .ok (out, m') ∧ Served m m' (s.events sends) (s.events recvs) out := by
  obtain ⟨out₁, m₁, hrun₁, hv₁⟩ := s.call.exec_served h
  -- the second call, if there is one
  have hf : ∃ out m', s.finalized.elim (Except.ok (out₁, m₁)) (WorkerCall.finalize ops out₁ m₁)
      = .ok (out, m') ∧ Served m m' (s.events sends) (s.events recvs) (some out) := by
    unfold events
    cases hfin : s.finalized with
    | none =>
      refine ⟨out₁, m₁, rfl, ?_⟩
      simpa only [elim_none, append_nil] using hv₁
    | some c =>
      obtain ⟨out₂, m₂, hrun₂, hv₂⟩ := c.exec_served hv₁.positive
      have hcount₁ := hv₁.count out₁ rfl
      have hcount₂ := hv₂.count out₂ rfl
      simp only [elim_some, WorkerCall.finalize, hrun₂, ok_bind]
      by_cases he : out₂.isEmpty = true
      · obtain ⟨hse, hr⟩ := sets_of_isEmpty he
        refine ⟨out₁, m₂, if_pos he, hv₁.append hv₂ hv₁.count ?_ ?_⟩
        · rw [hse, union_empty]
        · rw [hr, union_empty]
      · obtain ⟨out, hm, hc, hse, hr⟩ :=
          merge_sets ops (hcount₂.trans hcount₁.symm)
        refine ⟨out, m₂, ?_, hv₁.append hv₂ ?_ hse hr⟩
        · rw [if_neg he, hm]
          rfl
        · intro o ho
          rw [← some.inj ho, hc, hcount₁]
  obtain ⟨out, m', hrun, hs⟩ := hf
  refine ⟨if s.passThrough && out.isEmpty then none else some out, m', ?_, ?_⟩
  · rw [WorkerStep.exec, hrun₁, ok_bind]
    dsimp only
    rw [hrun, ok_bind]
    rfl
  · by_cases hp : (s.passThrough && out.isEmpty) = true
    · obtain ⟨hse, hr⟩ := sets_of_isEmpty (Bool.and_eq_true_iff.mp hp).2
      rw [if_pos hp]
      refine ⟨hs.positive, by simp, fun r => ?_, fun r => ?_⟩
      · rw [hs.sent r, hse]
        rfl
      · rw [← hs.recvd r, hr]
        rfl
    · rw [if_neg hp]
      exact hs

end Worker

/-! ## 4. A round -/

section Round

open KVOutputAggregator

variable {σ ε μ ν : Type} [DecidableEq ν] {W C : Nat} {ops : Aggregates σ ε μ} {t : ν → Bool}
  {s s' : System W} {r : RequestId} {n : Nat} {ns ns' : Fin W → Nat} {m m' : MultiConnector}
  {f : Finish ν C}

/-- What holds of the system whatever happens: the counts are shipped, pending saves are positive
    and every worker is waited for. -/
structure System.Ok (s : System W) : Prop where
  shipped : s.scheduler = MultiConnector.init
  positive : ∀ w, Positive (s.workers w)
  expected : s.aggregator.expectedFinishedCount = W

/-- The saves of a request by `n` children on each worker, after `counts w` of them have reported
    on worker `w`. -/
structure System.Sending (s : System W) (r : RequestId) (n : Nat) (counts : Fin W → Nat) :
    Prop where
  saves : ∀ w, (s.workers w).extraAsyncSaves r = pendingSaves n (counts w)
  remaining : s.aggregator.sendRemainingCount r
    = Countdown.remaining W (Countdown.finished n counts)

def System.Receiving (s : System W) (r : RequestId) (counts : Fin W → Nat) : Prop :=
  s.aggregator.recvRemainingCount r = Countdown.remaining W (Countdown.finished 1 counts)

theorem advanced_counts {x : Option Int × Prop} (hW : 0 < W) (hm : ∀ w, ns w ≤ ns' w)
    (hle : ∀ w, ns' w ≤ n)
    (h : Advanced W (ofFn fun w => decide (ns w < n ∧ ns' w = n))
    (remaining W (finished n ns), False) x) :
    x.1 = remaining W (finished n ns') ∧ (x.2 ↔ ∑ w, ns w < n * W ∧ ∑ w, ns' w = n * W) := by
  have ha := finished_add_count hm hle
  have hf := fires_tick.feed (ha.trans_le (finished_le ns'))
  rw [Advanced, hf, ha, false_or, decide_eq_true_eq] at h
  refine ⟨h.1, h.2.trans ?_⟩
  rcases Nat.eq_zero_or_pos n with rfl | hn
  · have hz : finished 0 ns' = 0 := by simp [finished]
    constructor
    · intro hfin
      omega
    · intro hs
      omega
  · have hlt : ∑ w, ns w < n * W ↔ finished n ns < W := by
      have hle' : ∀ w, ns w ≤ n := fun w => (hm w).trans (hle w)
      rw [(finished_le ns).lt_iff_ne, (sum_le_mul hle').lt_iff_ne, ne_eq, ne_eq,
        finished_eq_iff hn hle']
    rw [hlt, finished_eq_iff hn hle]

/-- **One round of reports** raises nothing; it moves the counts of every request with its reports,
    and reports a request to the scheduler when they are complete. -/
theorem report_counts (ops : Aggregates σ ε μ) (h : s.Ok) (ss : Fin W → WorkerStep σ ε μ C)
    (rank : Fin W) : ∃ out s', s.report ops ss rank = .ok (out, s') ∧ s'.Ok ∧ ∀ r,
      (∀ n ns, s.Sending r n ns → (∀ w, ns w + ∑ c, (ss w).told sends c r ≤ n) →
        s'.Sending r n (fun w => ns w + ∑ c, (ss w).told sends c r) ∧
        (r ∈ sentOf out ↔ ∑ w, ns w < n * W ∧ ∑ w, (ns w + ∑ c, (ss w).told sends c r) = n * W)) ∧
      (∀ ns, s.Receiving r ns → (∀ w, ns w + ∑ c, (ss w).told recvs c r ≤ 1) →
        s'.Receiving r (fun w => ns w + ∑ c, (ss w).told recvs c r) ∧
        (r ∈ recvdOf out ↔ ∑ w, ns w < 1 * W ∧
          ∑ w, (ns w + ∑ c, (ss w).told recvs c r) = 1 * W)) := by
  have hW : 0 < W := rank.pos
  choose out m hrun hs using fun w => (ss w).exec_served ops (h.positive w)
  have hco : collect (fun w => (ss w).exec ops (s.workers w)) = .ok fun w => (out w, m w) :=
    collect_ok hrun
  let l := (ofFn out).foldl (absorb ops) (start s.aggregator)
  have hcn : ∀ o ∈ ofFn out, ∀ o' ∈ o, o'.expectedFinishedCount = 0 := by
    intro o ho
    obtain ⟨w, rfl⟩ := mem_ofFn.mp ho
    exact (hs w).count
  have ha := fun r => foldl_advanced (r := r) ops (start s.aggregator) hcn
  refine ⟨some l.output, ⟨s.scheduler, m, l.aggregator⟩, ?_, ⟨h.shipped, ?_, ?_⟩, fun r => ⟨?_, ?_⟩⟩
  · rw [System.report, hco, ok_bind, aggregate_all]
    rfl
  · exact fun w => (hs w).positive
  · exact (ha "").1.trans h.expected
  · intro n ns hse hle
    -- on a worker, the events drain the pending saves
    have hd : ∀ w, (m w).extraAsyncSaves r = pendingSaves n (ns w + ∑ c, (ss w).told sends c r) ∧
        decide (r ∈ sentOf (out w)) = decide (ns w < n ∧
          ns w + ∑ c, (ss w).told sends c r = n) := by
      intro w
      have hf : feed drain (pendingSaves n (ns w)) ((ss w).events sends r)
          = _ := fires_drain.feed (by rw [WorkerStep.count_events]; exact hle w)
      rw [WorkerStep.count_events, ← hse.saves w, (hs w).sent r] at hf
      exact Prod.mk.inj hf
    have hadv := (ha r).2.1
    have hn : (r ∈ (start s.aggregator : Loop σ ε μ).finishedSending) = False := by simp [start]
    rw [map_ofFn, hn] at hadv
    have hc := advanced_counts (x := (l.aggregator.sendRemainingCount r, r ∈ l.finishedSending))
      hW (fun w => Nat.le_add_right (ns w) _) hle (by
        rw [← h.expected, ← hse.remaining]
        simp only [← (hd _).2]
        exact hadv)
    exact ⟨⟨fun w => (hd w).1, hc.1⟩, by rw [sentOf_output]; exact hc.2⟩
  · intro ns hr hle
    have he : ∀ w, decide (r ∈ recvdOf (out w)) = decide (ns w < 1 ∧
        ns w + ∑ c, (ss w).told recvs c r = 1) := by
      intro w
      have hl := hle w
      rw [decide_eq_decide, (hs w).recvd r, ← count_pos_iff, WorkerStep.count_events]
      omega
    have hadv := (ha r).2.2
    have hn : (r ∈ (start s.aggregator : Loop σ ε μ).finishedRecving) = False := by simp [start]
    rw [map_ofFn, hn] at hadv
    have hc := advanced_counts (x := (l.aggregator.recvRemainingCount r, r ∈ l.finishedRecving))
      hW (fun w => Nat.le_add_right (ns w) _) hle (by
        rw [← h.expected, ← hr]
        simp only [← he]
        exact hadv)
    exact ⟨hc.1, by rw [recvdOf_output]; exact hc.2⟩

def Finish.saves (f : Finish ν C) : Nat := ∑ c, (f.answers c).asyncSave.toNat

theorem Finish.exec_eq (h : f.exec t m = .ok m') : m'.extraAsyncSaves = if 1 < f.saves then
        Function.update m.extraAsyncSaves f.request (some ((f.saves : Int) - 1))
      else m.extraAsyncSaves := by
  obtain ⟨⟨a, m₁⟩, hr, h⟩ := of_bind h
  obtain rfl : m₁ = m' := pure_eq_ok.mp h
  have hs : (ofFn f.answers).countP (·.asyncSave) = f.saves := by
    have hc : (ofFn f.answers).countP (·.asyncSave) = ((ofFn f.answers).map (·.asyncSave)).count
        true := by
      rw [count_eq_countP, countP_map]
      exact countP_congr fun _ _ => by simp
    rw [hc, map_ofFn, count_ofFn]
    rfl
  rw [← hs]
  exact (requestFinishedAllGroups_eq hr).2

theorem foldlM_finish {fs : List (Finish ν C)} (h : fs.foldlM (Finish.exec t) m = .ok m') :
    (Positive m → Positive m') ∧ ((∀ f ∈ fs, f.request ≠ r) →
      m'.extraAsyncSaves r = m.extraAsyncSaves r) := by
  induction fs generalizing m with
  | nil =>
    obtain rfl := pure_eq_ok.mp h
    exact ⟨id, fun _ => rfl⟩
  | cons f fs ih =>
    rw [foldlM_cons] at h
    obtain ⟨m₁, h₁, h⟩ := of_bind h
    obtain ⟨hpos, he⟩ := ih h
    have heq := Finish.exec_eq h₁
    refine ⟨fun hm => hpos fun r' pending hp => ?_, fun hne => ?_⟩
    · rw [heq] at hp
      split at hp
      · by_cases hr : r' = f.request
        · rw [hr, Function.update_self] at hp
          obtain rfl := some.inj hp
          omega
        · rw [Function.update_of_ne hr] at hp
          exact hm r' pending hp
      · exact hm r' pending hp
    · rw [forall_mem_cons] at hne
      rw [he hne.2, heq]
      split
      · exact Function.update_of_ne (Ne.symm hne.1) _ _
      · rfl

theorem foldlM_finish_self {e l : List (Finish ν C)}
    (h : (e ++ f :: l).foldlM (Finish.exec t) m = .ok m')
    (ho : ∀ g ∈ e ++ l, g.request ≠ f.request) (hn : m.extraAsyncSaves f.request = none) :
    m'.extraAsyncSaves f.request = pendingSaves f.saves 0 := by
  rw [foldlM_append] at h
  obtain ⟨m₁, h₁, h⟩ := of_bind h
  rw [foldlM_cons] at h
  obtain ⟨m₂, h₂, h⟩ := of_bind h
  rw [(foldlM_finish h).2 fun g hg => ho g (mem_append_right _ hg), Finish.exec_eq h₂, pendingSaves,
    zero_add]
  split
  · simp
  · rw [(foldlM_finish h₁).2 fun g hg => ho g (mem_append_left _ hg), hn]

theorem System.Ok.bind {ex : RequestId → Option Int} (h : s.Ok)
    (het : ∀ r, ∀ pending ∈ ex r, 0 < pending) : (s.bind ex).Ok where
  shipped := h.shipped
  expected := h.expected
  positive w r pending hp := by
    have hp : pending ∈ (ex r).or ((s.workers w).extraAsyncSaves r) := hp
    cases he : ex r with
    | none =>
      rw [he] at hp
      exact h.positive w r pending hp
    | some e =>
      rw [he] at hp
      exact het r pending (he ▸ hp)

theorem round_eq (ops : Aggregates σ ε μ) (h : s.Ok) {rd : Round σ ε μ ν W C}
    (hm : rd.finishes.foldlM (Finish.exec t) MultiConnector.init = .ok m) :
    (s.bind m.extraAsyncSaves).Ok ∧
      s.round ops t rd = (s.bind m.extraAsyncSaves).report ops rd.steps rd.rank := by
  have hpos : Positive m := (foldlM_finish (r := "") hm).1 fun r pending hp => by cases hp
  have hb : s.bind m.extraAsyncSaves
      = { s.bind m.extraAsyncSaves with scheduler := MultiConnector.init } := by
    rw [← h.shipped]
    rfl
  refine ⟨h.bind hpos, ?_⟩
  rw [System.round, h.shipped, hm, ok_bind, hb]
  rfl

end Round

/-! ## 5. Runs -/

section Runs

variable {σ ε μ ν : Type} [DecidableEq ν] {W C : Nat} {ops : Aggregates σ ε μ} {truthy : ν → Bool}
  {s s' : System W} {r : RequestId} {n : Nat} {ns : Fin W → Nat}

/-- No finished request of the round runs into conflicting parameters. -/
def Round.Answered (truthy : ν → Bool) (rd : Round σ ε μ ν W C) : Prop :=
  ∃ m, rd.finishes.foldlM (Finish.exec truthy) MultiConnector.init = .ok m

/-- The request is reported in the step in which its reports become complete, and nowhere else. -/
def ReportedAt (finishedOf : Option (KVConnectorOutput σ ε μ) → Finset RequestId) (r : RequestId)
    (outs : List (Option (KVConnectorOutput σ ε μ))) (count : Nat → Nat) (total : Nat) : Prop :=
  (∀ k : Nat, ∀ out ∈ outs[k]?, r ∈ finishedOf out ↔ count k < total ∧ count (k + 1) = total) ∧
    (0 < total → count outs.length = total → ∃! k : Nat, ∃ out ∈ outs[k]?, r ∈ finishedOf out)

/-- A state of the request that one round of reports moves as `report_counts` says. -/
def Tracks (ops : Aggregates σ ε μ) (C : Nat) (T : System W → (Fin W → Nat) → Prop)
    (tells : Report → RequestId → Bool)
    (finishedOf : Option (KVConnectorOutput σ ε μ) → Finset RequestId) (r : RequestId) (n : Nat) :
    Prop :=
  ∀ (s : System W) (ns : Fin W → Nat) (steps : Fin W → WorkerStep σ ε μ C) (rank : Fin W),
    s.Ok → T s ns → (∀ w, ns w + ∑ c, (steps w).told tells c r ≤ n) →
    ∃ out s', s.report ops steps rank = .ok (out, s') ∧ s'.Ok ∧
      T s' (fun w => ns w + ∑ c, (steps w).told tells c r) ∧
      (r ∈ finishedOf out ↔ ∑ w, ns w < n * W ∧ ∑ w, (ns w + ∑ c, (steps w).told tells c r) = n * W)

theorem tracks_sending : Tracks (W := W) ops C (fun s => s.Sending r n) sends sentOf r n := by
  intro s ns steps rank h hs hle
  obtain ⟨out, s', hr, hok, hsp⟩ := report_counts ops h steps rank
  exact ⟨out, s', hr, hok, (hsp r).1 n ns hs hle⟩

theorem tracks_receiving : Tracks (W := W) ops C (fun s => s.Receiving r) recvs recvdOf r 1 := by
  intro s ns steps rank h hr hle
  obtain ⟨out, s', hrun, hok, hs⟩ := report_counts ops h steps rank
  exact ⟨out, s', hrun, hok, (hs r).2 ns hr hle⟩

variable {T : System W → (Fin W → Nat) → Prop} {tells : Report → RequestId → Bool}
  {finishedOf : Option (KVConnectorOutput σ ε μ) → Finset RequestId}
  {rounds : List (Round σ ε μ ν W C)}
  {rd : Round σ ε μ ν W C} {out : Option (KVConnectorOutput σ ε μ)}
  {outs : List (Option (KVConnectorOutput σ ε μ))} {m : MultiConnector}

omit [DecidableEq ν] in
theorem told_cons (ts : Report → RequestId → Bool) (w : Fin W) (r : RequestId)
    (rd : Round σ ε μ ν W C) (rs : List (Round σ ε μ ν W C)) :
    ∑ c, told ts w c r (rd :: rs) = (∑ c, (rd.steps w).told ts c r) + ∑ c, told ts w c r rs := by
  simp [told, sum_add_distrib]

omit [DecidableEq ν] in
theorem toldAll_cons (ts : Report → RequestId → Bool) (r : RequestId) (rd : Round σ ε μ ν W C)
    (rs : List (Round σ ε μ ν W C)) : toldAll ts r (rd :: rs)
      = (∑ w, ∑ c, (rd.steps w).told ts c r) + toldAll ts r rs := by
  simp only [toldAll, told_cons, sum_add_distrib]

/-- The reports of a run that starts with the counts `counts`. -/
def Reported (finishedOf : Option (KVConnectorOutput σ ε μ) → Finset RequestId)
    (tells : Report → RequestId → Bool) (r : RequestId) (n : Nat) (counts : Fin W → Nat)
    (rounds : List (Round σ ε μ ν W C)) (outs : List (Option (KVConnectorOutput σ ε μ))) : Prop :=
  outs.length = rounds.length ∧ ∀ k : Nat, ∀ out ∈ outs[k]?, r ∈ finishedOf out ↔
    ∑ w, counts w + toldAll tells r (rounds.take k) < n * W ∧
      ∑ w, counts w + toldAll tells r (rounds.take (k + 1)) = n * W

omit [DecidableEq ν] in
theorem Reported.cons
    (hout : r ∈ finishedOf out ↔ ∑ w, ns w < n * W ∧
      ∑ w, (ns w + ∑ c, (rd.steps w).told tells c r) = n * W)
    (ho : Reported finishedOf tells r n (fun w => ns w + ∑ c, (rd.steps w).told tells c r)
      rounds outs) : Reported finishedOf tells r n ns (rd :: rounds) (out :: outs) := by
  refine ⟨congrArg Nat.succ ho.1, fun k => ?_⟩
  cases k with
  | zero =>
    intro out' hout'
    obtain rfl : out = out' := some.inj hout'
    rw [hout, take_zero, take_succ_cons, take_zero, toldAll_cons, sum_add_distrib]
    simp [toldAll, told]
  | succ k =>
    intro out' hout'
    rw [ho.2 k out' hout', take_succ_cons, take_succ_cons, toldAll_cons, toldAll_cons,
      sum_add_distrib, add_assoc, add_assoc]

theorem System.run_cons {s₁ : System W} (hr : s.round ops truthy rd = .ok (out, s₁))
    (hrun : s₁.run ops truthy rounds = .ok (outs, s')) :
    s.run ops truthy (rd :: rounds) = .ok (out :: outs, s') := by
  rw [System.run, hr, ok_bind]
  dsimp only
  rw [hrun, ok_bind]
  rfl

/-- **A whole run**: the first round starts from a bound state with the counts `ns`, and the
    rounds after it do not touch them but by their reports. -/
theorem run_reported (ht : Tracks ops C T tells finishedOf r n)
    (hbi : ∀ rd ∈ rounds, ∀ s ns m, rd.finishes.foldlM (Finish.exec truthy) .init = .ok m →
      T s ns → T (s.bind m.extraAsyncSaves) ns) (hok : s.Ok)
    (hm : rd.finishes.foldlM (Finish.exec truthy) .init = .ok m)
    (hT : T (s.bind m.extraAsyncSaves) ns)
    (ha : ∀ rd ∈ rounds, rd.Answered truthy)
    (hle : ∀ w, ns w + ∑ c, told tells w c r (rd :: rounds) ≤ n) :
    ∃ outs s', s.run ops truthy (rd :: rounds) = .ok (outs, s') ∧
      Reported finishedOf tells r n ns (rd :: rounds) outs := by
  induction rounds generalizing s rd m ns with
  | nil =>
    obtain ⟨hb, hro⟩ := round_eq ops hok hm
    obtain ⟨out, s₁, hr, -, -, ho⟩ := ht _ ns rd.steps rd.rank hb hT
      fun w => by simpa [told] using hle w
    exact ⟨[out], s₁, System.run_cons (hro.trans hr) rfl, Reported.cons ho ⟨rfl, by simp⟩⟩
  | cons rd' rounds ih =>
    have hle₁ : ∀ w, ns w + (∑ c, (rd.steps w).told tells c r) + ∑ c,
        told tells w c r (rd' :: rounds) ≤ n := by
      intro w
      have hw := hle w
      rw [told_cons] at hw
      omega
    rw [forall_mem_cons] at hbi ha
    obtain ⟨hb, hro⟩ := round_eq ops hok hm
    obtain ⟨out, s₁, hr, hok₁, hT₁, ho⟩ := ht _ ns rd.steps rd.rank hb hT
      fun w => (Nat.le_add_right _ _).trans (hle₁ w)
    obtain ⟨m', hm'⟩ := ha.1
    obtain ⟨outs, s', hrun, hre⟩ :=
      ih hbi.2 hok₁ hm' (hbi.1 s₁ _ m' hm' hT₁) ha.2 hle₁
    exact ⟨out :: outs, s', System.run_cons (hro.trans hr) hrun, hre.cons ho⟩

omit [DecidableEq ν] in
theorem Reported.reportedAt (h : Reported finishedOf tells r n (fun _ => 0) rounds outs) :
    ReportedAt finishedOf r outs (fun k => toldAll tells r (rounds.take k)) (n * W) := by
  obtain ⟨hl, hs⟩ := h
  simp only [sum_const_zero, zero_add] at hs
  refine ⟨hs, fun hp ht => ?_⟩
  have hm : Monotone fun k => toldAll tells r (rounds.take k) := by
    refine monotone_nat_of_le_succ fun k => ?_
    refine Finset.sum_le_sum fun w _ => Finset.sum_le_sum fun c _ => ?_
    exact ((take_sublist_take_left k.le_succ).map _).sum_le_sum fun _ _ => Nat.zero_le _
  have hz : toldAll tells r (rounds.take 0) < n * W := by simpa [toldAll, told] using hp
  refine (existsUnique_congr fun k => ?_).mpr (existsUnique_reaches hm hz ht)
  constructor
  · intro ⟨out, ho, hr⟩
    exact ⟨(List.getElem?_eq_some_iff.mp ho).1, (hs k out ho).mp hr⟩
  · intro ⟨hk, hre⟩
    exact ⟨outs[k], getElem?_eq_getElem hk, (hs k _ (getElem?_eq_getElem hk)).mpr hre⟩

theorem init_ok (W : Nat) : (System.init W).Ok where
  shipped := rfl
  positive _ _ _ h := by cases h
  expected := rfl

theorem run_ok (hok : s.Ok) (hrun : s.run ops truthy rounds = .ok (outs, s')) : s'.Ok := by
  induction rounds generalizing s outs with
  | nil =>
    obtain ⟨-, rfl⟩ := pair_inj hrun
    exact hok
  | cons rd rounds ih =>
    obtain ⟨⟨out, s₁⟩, hr, hrun⟩ := of_bind hrun
    obtain ⟨⟨outs', s₂⟩, hrs, hrun⟩ := of_bind hrun
    obtain ⟨-, rfl⟩ := pair_inj hrun
    refine ih ?_ hrs
    obtain ⟨m, hm, -⟩ := of_bind hr
    rw [hok.shipped] at hm
    obtain ⟨hb, heq⟩ := round_eq ops hok hm
    obtain ⟨out', s₁', hre, hok₁, -⟩ := report_counts ops hb rd.steps rd.rank
    obtain ⟨-, rfl⟩ := Prod.mk.inj (Except.ok.inj (hr.symm.trans (heq.trans hre)))
    exact hok₁

/-- Nothing of the request is under way. -/
structure System.Clean (s : System W) (r : RequestId) : Prop where
  saves : ∀ w, (s.workers w).extraAsyncSaves r = none
  send : s.aggregator.sendRemainingCount r = none
  recv : s.aggregator.recvRemainingCount r = none

/-- The request finishes in the first round, once, and every child that answers with an asynchronous
    save reports it at most once on every worker, the others never. -/
structure Sends (r : RequestId) (f : Finish ν C) (first : Round σ ε μ ν W C)
    (rest : List (Round σ ε μ ν W C)) : Prop where
  request : f.request = r
  finish : ∃ earlier later, first.finishes = earlier ++ f :: later ∧
    ∀ g ∈ earlier ++ later, g.request ≠ r
  once : ∀ rd ∈ rest, ∀ g ∈ rd.finishes, g.request ≠ r
  reports : ∀ w c, told Report.sends w c r (first :: rest) ≤ (f.answers c).asyncSave.toNat

omit [DecidableEq ν] in
theorem System.Clean.sending {f : Finish ν C} (h : s.Clean r)
    (hs : m.extraAsyncSaves r = pendingSaves f.saves 0) :
    (s.bind m.extraAsyncSaves).Sending r f.saves fun _ => 0 where
  saves w := by
    show (m.extraAsyncSaves r).or ((s.workers w).extraAsyncSaves r) = _
    rw [h.saves w, or_none, hs]
  remaining := by
    have hn : finished f.saves (fun _ : Fin W => 0) = 0 := by
      rw [finished, card_eq_zero, filter_eq_empty_iff]
      intro w _ hw
      omega
    rw [hn]
    exact h.send

/-- **Finished transfers fan in exactly once.** From any reachable state with nothing of the request
    under way, no round raises, and the request is reported in the round of the last of the `n * W`
    reports of the children that save it, and in no other; so it is with the loads. -/
theorem finished_reported_once {before : List (Round σ ε μ ν W C)}
    {outs₀ : List (Option (KVConnectorOutput σ ε μ))}
    (hbefore : (System.init W).run ops truthy before = .ok (outs₀, s)) (hclean : s.Clean r)
    (first : Round σ ε μ ν W C) (rest : List (Round σ ε μ ν W C))
    (hanswered : ∀ rd ∈ first :: rest, rd.Answered truthy) :
    (∀ f, Sends r f first rest → ∃ outs s', s.run ops truthy (first :: rest) = .ok (outs, s') ∧
      outs.length = (first :: rest).length ∧
      ReportedAt sentOf r outs (fun k => toldAll Report.sends r ((first :: rest).take k))
        (f.saves * W)) ∧
    (∀ child, (∀ w c, told Report.recvs w c r (first :: rest) ≤ if c = child then 1 else 0) →
      ∃ outs s', s.run ops truthy (first :: rest) = .ok (outs, s') ∧
      outs.length = (first :: rest).length ∧
      ReportedAt recvdOf r outs (fun k => toldAll Report.recvs r ((first :: rest).take k)) W) := by
  have hok : s.Ok := run_ok (init_ok W) hbefore
  rw [forall_mem_cons] at hanswered
  obtain ⟨⟨m, hm⟩, hanswered⟩ := hanswered
  constructor
  · rintro f ⟨rfl, ⟨e, later, hf, ho⟩, hon, hre⟩
    have hp : m.extraAsyncSaves f.request = pendingSaves f.saves 0 := by
      rw [hf] at hm
      exact foldlM_finish_self hm ho rfl
    have hb : ∀ rd ∈ rest, ∀ (s : System W) (ns : Fin W → Nat) m,
        rd.finishes.foldlM (Finish.exec truthy) .init = .ok m →
        s.Sending f.request f.saves ns →
          (s.bind m.extraAsyncSaves).Sending f.request f.saves ns := by
      intro rd hrd s ns m hm hs
      have hn : m.extraAsyncSaves f.request = none := (foldlM_finish hm).2 (hon rd hrd)
      refine ⟨fun w => ?_, hs.remaining⟩
      show (m.extraAsyncSaves f.request).or ((s.workers w).extraAsyncSaves f.request) = _
      rw [hn]
      exact hs.saves w
    obtain ⟨outs, s', hrun, hr⟩ := run_reported tracks_sending hb hok hm
      (hclean.sending hp) hanswered fun w => by
        rw [zero_add]
        exact Finset.sum_le_sum fun c _ => hre w c
    exact ⟨outs, s', hrun, hr.1, hr.reportedAt⟩
  · intro child hre
    have hrc : (s.bind m.extraAsyncSaves).Receiving r fun _ => 0 := by
      have hn : finished 1 (fun _ : Fin W => 0) = 0 := by simp [finished]
      rw [System.Receiving, hn]
      exact hclean.recv
    obtain ⟨outs, s', hrun, hr⟩ := run_reported tracks_receiving (fun _ _ _ _ _ _ h => h) hok hm
      hrc hanswered fun w => by
        rw [zero_add]
        refine (Finset.sum_le_sum fun c _ => hre w c).trans ?_
        simp
    refine ⟨outs, s', hrun, hr.1, ?_⟩
    simpa only [one_mul] using hr.reportedAt

end Runs

/-- A child's report that names the request `"r"`, or nothing. -/
def reportIf (sends recvs : Bool) : Report where
  sending := if sends then some {"r"} else none
  recving := if recvs then some {"r"} else none

local instance neZero_two : NeZero 2 := ⟨two_ne_zero⟩

/-- A round of two workers with two children each; `sends` says who reports `"r"` as sent, and the
    second child reports it as received with the second worker's report. -/
def testRound (finishes : List (Finish Unit 2)) (sends recvs : Fin 2 → Fin 2 → Bool) :
    Round Unit Unit Unit Unit 2 2 where
  finishes := finishes
  steps w := ⟨⟨fun c => reportIf (sends w c) (recvs w c), {}⟩, none, w = 1⟩
  rank := 0

def testFinish : Finish Unit 2 := ⟨"r", none, fun _ => ⟨false, true, none⟩⟩

def testAggregates : Aggregates Unit Unit Unit :=
  ⟨fun _ _ => (), fun _ _ => (), fun _ _ => (), fun _ _ => ()⟩

def testRounds : List (Round Unit Unit Unit Unit 2 2) :=
  [testRound [] (fun _ _ => false) (fun _ c => c = 1),
    testRound [] (fun w c => w = 0 && c = 1) (fun _ _ => false)]

def testFirst : Round Unit Unit Unit Unit 2 2 :=
  testRound [testFinish] (fun w c => w = 1 || c = 0) (fun _ _ => false)

theorem testRounds_reported : ∃ outs s',
    (System.init 2).run testAggregates (fun _ => true) (testFirst :: testRounds) = .ok (outs, s') ∧
      (∃ out ∈ outs[2]?, "r" ∈ sentOf out) ∧ ∃ out ∈ outs[1]?, "r" ∈ recvdOf out := by
  have hb : (System.init 2).run testAggregates (fun _ => true)
      ([] : List (Round Unit Unit Unit Unit 2 2)) = .ok ([], System.init 2) := rfl
  have hc : (System.init 2).Clean "r" := ⟨fun _ => rfl, rfl, rfl⟩
  have ha : ∀ rd ∈ testFirst :: testRounds, rd.Answered fun _ => true := by
    simp only [testRounds, forall_mem_cons]
    exact ⟨⟨_, rfl⟩, ⟨_, rfl⟩, ⟨_, rfl⟩, by simp⟩
  obtain ⟨hse, hr⟩ := finished_reported_once hb hc testFirst testRounds ha
  obtain ⟨outs, s', hrun, hl, hs, -⟩ :=
    hse testFinish ⟨rfl, ⟨[], [], rfl, by simp⟩, by decide, by decide⟩
  obtain ⟨outs', s'', hrun', -, hs', -⟩ := hr 1 (by decide)
  obtain ⟨rfl, -⟩ := pair_inj (hrun.symm.trans hrun')
  have hl : outs.length = 3 := hl
  refine ⟨outs, s', hrun, ⟨outs[2], getElem?_eq_getElem _, ?_⟩, outs[1], getElem?_eq_getElem _, ?_⟩
  · exact (hs 2 _ (getElem?_eq_getElem _)).mpr (by decide)
  · exact (hs' 1 _ (getElem?_eq_getElem _)).mpr (by decide)

end VllmDual.Connector
