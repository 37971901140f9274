/-
  Subject:   WHEN A PUSHED REQUEST IS COMPLETE (`KVCacheSendingLayerThread._transfer_kv_cache` and
             `KVCacheRecvingLayerThread.update_task`).

  After the last layer of its last chunk a prefill rank tells the decode rank that it is done, and
  how many such signals are to come. The decode rank counts them:

  * `tracks_run`, `push_completes` -- the request is marked done once, by the last signal.
-/
import VllmDual.Connector.TaskTracker
import VllmDual.Push.Prefill

namespace VllmDual.Push

open Outcome RoundRobin List Worker Function Nat
open VllmDual.Connector (RequestId)
open VllmDual.Pull (Layout KvHeads Rank numGroups)

/-! ## 1. The signals -/

/-- `pd_head_ratio`, as the configuration computes it. -/
def pdHeadRatio (m : KvHeads) (prefillTpSize decodeTpSize : Nat) : Except PushError Nat :=
  if m.latent then
    .ok 1
  else do
    ensure (prefillTpSize % decodeTpSize = 0)
      (.assertion "Prefill TP size must be divisible by Decode TP size.")
    if 1 < prefillTpSize / decodeTpSize then
      return min prefillTpSize m.numKeyValueHeads / min decodeTpSize m.numKeyValueHeads
    else if prefillTpSize / decodeTpSize = 0 then
      .error (.assertion "Only support P node tp size lagger then D node tp size")
    else
      return 1

def runTasks (w : Worker) (steps : List (ReqMeta × Nat)) :
    Except PushError (List (Rank × SendTask)) := do
  let tasks ← steps.mapM fun e => stepTasks w e.1 e.2
  return tasks.flatten

/-- `DONE_SENDING_MSG` of a rank to the decode rank on a port. -/
structure Signal where
  sender : Rank
  port : Nat
  transCount : Nat

/-- The end of `_transfer_kv_cache` in the last layer, when the transfers succeed. -/
def signals (tasks : List (Rank × SendTask)) : List Signal :=
  tasks.flatMap fun e => if e.2.chunkFinish then [⟨e.1, e.2.port, e.2.transfer.transCount⟩] else []

/-! ## 2. The receiver -/

/-- `KVCacheRecvingLayerThread`. -/
structure Receiver where
  taskTracker : RequestId → Option Nat
  doneRequests : Finset RequestId

variable (t : Receiver)

def Receiver.updateTask (r : RequestId) (transCount : Nat) : Receiver :=
  let count := (t.taskTracker r).getD 0 + 1
  if count = transCount then
    { taskTracker := Function.update t.taskTracker r none, doneRequests := insert r t.doneRequests }
  else
    { t with taskTracker := Function.update t.taskTracker r (some count) }

def Receiver.getAndClearFinishedRequests : Finset RequestId × Receiver :=
  (t.doneRequests, { t with doneRequests := ∅ })

/-- What the decode rank does, under its lock: take a signal of a request, or a poll. -/
inductive Event where
  | doneSending (r : RequestId) (transCount : Nat)
  | poll

def Receiver.exec : Event → Finset RequestId × Receiver
  | .doneSending r transCount => (∅, t.updateTask r transCount)
  | .poll => t.getAndClearFinishedRequests

def Receiver.run (events : List Event) : Receiver := events.foldl (fun t e => (t.exec e).2) t

def Receiver.reports (t : Receiver) (r : RequestId) : List Event → Nat
  | [] => 0
  | e :: events => (if r ∈ (t.exec e).1 then 1 else 0) + (t.exec e).2.reports r events

def messages (r : RequestId) (events : List Event) : List Nat :=
  events.filterMap fun
    | .doneSending r' transCount => if r' = r then some transCount else none
    | .poll => none

/-- `k` of the `n` signals of the request have come, and polls have returned it `returned` times: it
    is returned or waiting to be exactly when all signals have come. -/
structure Tracks (r : RequestId) (n k returned : Nat) (t : Receiver) : Prop where
  count : t.taskTracker r = if k = 0 ∨ n ≤ k then none else some k
  marks : returned + (if r ∈ t.doneRequests then 1 else 0) = if k = n then 1 else 0

section

variable {r : RequestId} {n k returned : Nat} {t : Receiver}

theorem taskTracker_updateTask (t : Receiver) (r : RequestId) (c : Nat) :
    (t.updateTask r c).taskTracker = update t.taskTracker r
      (if (t.taskTracker r).getD 0 + 1 = c then none else some ((t.taskTracker r).getD 0 + 1)) := by
  simp only [Receiver.updateTask]
  split <;> rfl

theorem doneRequests_updateTask (t : Receiver) (r : RequestId) (c : Nat) :
    (t.updateTask r c).doneRequests
    = if (t.taskTracker r).getD 0 + 1 = c then insert r t.doneRequests else t.doneRequests := by
  simp only [Receiver.updateTask]
  split <;> rfl

variable (h : Tracks r n k returned t)
include h

theorem Tracks.signal (hk : k < n) : Tracks r n (k + 1) returned (t.updateTask r n) := by
  have hc : (t.taskTracker r).getD 0 = k := by
    rw [h.count]
    by_cases h0 : k = 0
    · simp [h0]
    · rw [if_neg (by omega)]
      rfl
  have hm := h.marks
  rw [if_neg hk.ne, Nat.add_eq_zero_iff] at hm
  refine ⟨?_, ?_⟩
  · rw [taskTracker_updateTask, update_self, hc]
    exact if_congr (by omega) rfl rfl
  · rw [doneRequests_updateTask, hc, hm.1, zero_add]
    by_cases hl : k + 1 = n
    · rw [if_pos hl, if_pos hl, if_pos (Finset.mem_insert_self ..)]
    · rw [if_neg hl, if_neg hl, hm.2]

theorem Tracks.other {r' : RequestId} (hr : r' ≠ r) (tc : Nat) :
    Tracks r n k returned (t.updateTask r' tc) := by
  refine ⟨by rw [taskTracker_updateTask, update_of_ne hr.symm, h.count], ?_⟩
  have hm : r ∈ (t.updateTask r' tc).doneRequests ↔ r ∈ t.doneRequests := by
    rw [doneRequests_updateTask]
    split
    · simp [hr.symm]
    · rfl
  rw [← h.marks]
  exact congrArg (returned + ·) (if_congr hm rfl rfl)

theorem Tracks.poll :
    Tracks r n k (returned + if r ∈ t.doneRequests then 1 else 0) t.getAndClearFinishedRequests.2 :=
  ⟨h.count, by simpa [Receiver.getAndClearFinishedRequests] using h.marks⟩

theorem tracks_run {es : List Event} (ha : ∀ c ∈ messages r es, c = n)
    (hle : k + (messages r es).length ≤ n) :
    Tracks r n (k + (messages r es).length) (returned + t.reports r es) (t.run es) := by
  induction es generalizing t k returned with
  | nil => exact h
  | cons e es ih =>
    cases e with
    | poll =>
      have hre := ih h.poll ha hle
      rw [add_assoc returned] at hre
      exact hre
    | doneSending r' transCount =>
      by_cases hr : r' = r
      · subst hr
        have hm : messages r' (.doneSending r' transCount :: es)
            = transCount :: messages r' es := by
          simp [messages]
        rw [hm] at ha hle ⊢
        have hn : transCount = n := ha _ mem_cons_self
        rw [length_cons] at hle ⊢
        have hre := ih (h.signal (by omega)) (fun c hc => ha c (mem_cons_of_mem _ hc)) (by omega)
        rw [show k + ((messages r' es).length + 1) = k + 1 + (messages r' es).length by omega]
        simpa [Receiver.reports, Receiver.exec, Receiver.run, hn] using hre
      · have hm : messages r (.doneSending r' transCount :: es) = messages r es := by
          simp [messages, hr]
        rw [hm] at ha hle ⊢
        simpa [Receiver.reports, Receiver.exec, Receiver.run] using ih
          (h.other hr transCount) ha hle

end

/-! ## 3. The step that finishes a part -/

/-- The rank for part `x` has no more blocks to come after the step. -/
def Worker.partFinish (w : Worker) (req : ReqMeta) (x : Nat) : Bool :=
  req.chunkFinish || decide (share w.layout.cpSize (w.promptBlocks req) x
    = share w.layout.cpSize (w.toTransIdx req) x)

/-- The position of a step in which the rank for part `x` signals. -/
def Worker.finishAt (w : Worker) (x : Nat) (e : ReqMeta × Nat) : List Nat :=
  if hand w.layout.cpSize (w.transedIdx e.1) (w.toTransIdx e.1) x = [] then []
  else if w.partFinish e.1 x then [e.2] else []

section

variable {w : Worker} {req : Request} {ss : List Scheduled}

variable {x : Nat}

theorem share_eq_iff {k lo hi : Nat} (hx : x < k) (h : lo ≤ hi) :
    share k hi x = share k lo x ↔ hand k lo hi x = [] := by
  have hm := share_mono hx h
  rw [← length_eq_zero_iff, length_hand hx]
  omega

theorem partFinish_update {i : SendReqInfo} {s : Scheduled} (hbs : 0 < w.blockSize)
    (hlt : s.computed < req.numTokens) (hx : x < w.layout.cpSize) :
    w.partFinish (addTransferTask req (i.update w.blockSize s)) x
      = decide (hand w.layout.cpSize (s.computed / w.blockSize)
        (req.numTokens ⌈/⌉ w.blockSize) x = []) := by
  have hm : (addTransferTask req (i.update w.blockSize s)).chunkFinish = false :=
    decide_eq_false (not_le.mpr hlt)
  have he : s.computed / w.blockSize ≤ req.numTokens ⌈/⌉ w.blockSize := div_le_ceilDiv hbs hlt.le
  rw [partFinish, hm, Bool.false_or, toTransIdx_update, if_neg (not_le.mpr hlt), decide_eq_decide,
    ← share_eq_iff hx he]
  rfl

theorem finishAt_metas {c : Nat} (i : SendReqInfo) (hbs : 0 < w.blockSize)
    (hc : req.remoteCachedTokens = c * w.blockSize)
    (h : Division req.numTokens i.localComputedTokens ss) (hx : x < w.layout.cpSize) : ∃ re,
      (metas req w.blockSize (some i) ss).flatMap (w.finishAt x)
        = if hand w.layout.cpSize (max c (i.localComputedTokens / w.blockSize))
          (req.numTokens ⌈/⌉ w.blockSize) x = [] then [] else [re] := by
  generalize hco : i.localComputedTokens = computed at h
  induction h generalizing i with
  | @last _ s _ ha =>
    have hf : w.partFinish (addTransferTask req (i.update w.blockSize s)) x = true :=
      Bool.or_eq_true_iff.mpr (.inl (decide_eq_true ha.ge))
    refine ⟨s.reqIdx, ?_⟩
    rw [metas_last _ ha.ge, flatMap_singleton, finishAt, transedIdx_update hbs hc,
      toTransIdx_update, if_pos ha.ge, ha, hco, if_pos hf]
  | @step computed s ss hle hlt _ ih =>
    obtain ⟨re, hr⟩ := ih (i.update w.blockSize s) rfl
    have hd : computed / w.blockSize ≤ s.computed / w.blockSize := Nat.div_le_div_right hle
    have he : s.computed / w.blockSize ≤ req.numTokens ⌈/⌉ w.blockSize := div_le_ceilDiv hbs hlt.le
    rw [metas_step _ hlt, flatMap_cons, hr, finishAt, transedIdx_update hbs hc, hco,
      toTransIdx_update, if_neg (not_le.mpr hlt)]
    rcases le_total (max c (computed / w.blockSize)) (s.computed / w.blockSize) with hw | hw
    · have hs := hand_append (k := w.layout.cpSize) (r := x) hw he
      rw [max_eq_right ((le_max_left _ _).trans hw), ← hs]
      rw [partFinish_update hbs hlt hx]
      by_cases hl : hand w.layout.cpSize (s.computed / w.blockSize)
        (req.numTokens ⌈/⌉ w.blockSize) x = []
      · -- this step is the last one with blocks of the part, if any is
        refine ⟨s.reqIdx, ?_⟩
        simp [hl]
      · refine ⟨re, ?_⟩
        simp [hl]
    · -- all of the step's blocks are cached
      have hca : max c (s.computed / w.blockSize) = max c (computed / w.blockSize) := by omega
      have hn : hand w.layout.cpSize (max c (computed / w.blockSize)) (s.computed / w.blockSize) x
          = [] := by
        rw [hand, Nat.sub_eq_zero_of_le hw, range'_zero, filter_nil]
      rw [if_pos hn, nil_append, hca]
      exact ⟨re, rfl⟩

end

/-! ## 4. The signals of a prefill -/

/-- The signal of the rank for head group `g` and part `x` that serves decode copy `u` in a step. -/
def signalAt (w : Worker) (req : Request) (g u x reqIdx : Nat) : Signal where
  sender := w.layout.rankAt w.heads g (firstCopy w.heads w.layout req.decode reqIdx + u) x
  port := (req.decode.rankAt w.heads (g / groupRatio w.heads w.layout req.decode) u
    (x % req.decode.cpSize)).port req.decode req.remotePort
  transCount := transCount w.layout req.decode (req.numTokens ⌈/⌉ w.blockSize)
    (req.remoteCachedTokens ⌈/⌉ w.blockSize) 0 (x % req.decode.cpSize) * w.pdHeadRatio

section

variable {w : Worker} {req : Request} {steps : List Scheduled}

variable {g u x c base : Nat} {l : Layout} {r : Rank} {m : KvHeads}

theorem signals_sentAt {tb : List Nat} {e : ReqMeta × Nat} (hm : StepMeta w req tb e.1)
    (h : Connected w.heads w.layout req.decode) (hu : u < req.decode.repeats w.heads) :
    signals (sentAt w e.1 e.2 g u x) = (w.finishAt x e).map (signalAt w req g u x) := by
  have hc : Connected w.heads w.layout e.1.decode := hm.decode ▸ h
  have hu' : u < e.1.decode.repeats w.heads := hm.decode ▸ hu
  have hf : (w.onRank (senderAt w e.1 e.2 g u x)).chunkFinish e.1 = w.partFinish e.1 x := by
    simp only [chunkFinish, partFinish, onRank_layout, onRank_rank, onRank_promptBlocks,
      onRank_toTransIdx, senderAt_cpRank hc]
  rw [sentAt, task_senderAt hc hu', finishAt, hf]
  by_cases hn : hand w.layout.cpSize (w.transedIdx e.1) (w.toTransIdx e.1) x = []
  · rw [if_pos hn, if_pos hn]
    rfl
  · rw [if_neg hn, if_neg hn]
    cases hp : w.partFinish e.1 x
    · rfl
    · simp only [signals, Option.toList_some, map_cons, map_nil, flatMap_cons, flatMap_nil, if_true,
        append_nil, signalAt, senderAt, hm.decode, hm.remotePort, hm.remoteCacheTokens,
          promptBlocks,
        hm.promptLen]

/-- All signals of a prefill, when the rank for part `x` signals at position `reqIdx x` of a
    step. -/
def signalsOf (w : Worker) (req : Request) (c : Nat) (reqIdx : Nat → Nat) : List Signal :=
  (range (numGroups w.heads w.layout.tpSize)).flatMap fun g =>
    (range (req.decode.repeats w.heads)).flatMap fun u =>
      (range w.layout.cpSize).flatMap fun x =>
        if hand w.layout.cpSize c (req.numTokens ⌈/⌉ w.blockSize) x = [] then []
        else [signalAt w req g u x (reqIdx x)]

/-- **The signals of a prefill**: for every head group and decode copy, one for each part that has
    blocks. -/
theorem perm_signals {bi : List Nat} (h : Connected w.heads w.layout req.decode)
    (hbs : 0 < w.blockSize)
    (hc : req.remoteCachedTokens = c * w.blockSize) (hd : Division req.numTokens 0 steps)
    (ha : ∀ e ∈ metas req w.blockSize (some (updateStateAfterAlloc req bi)) steps,
      e.1.localComputedTokens ⌈/⌉ (w.blockSize * w.layout.cpSize) ≤ e.1.localBlockIds.length)
    (hr : req.numTokens ⌈/⌉ w.blockSize ⌈/⌉ req.decode.cpSize ≤ req.remoteBlockIds.length) :
    ∃ ts, runTasks w (metas req w.blockSize (some (updateStateAfterAlloc req bi)) steps) = .ok ts ∧
      ∃ re, (signals ts).Perm (signalsOf w req c re) := by
  generalize hrun : metas req w.blockSize (some (updateStateAfterAlloc req bi)) steps = run at ha ⊢
  have hm : ∀ e ∈ run, StepMeta w req (finalTable bi steps) e.1 := fun e he =>
    metas_stepMeta (w := w) (updateStateAfterAlloc req bi) hd e (hrun ▸ he)
  -- the tasks of every step
  have hs : ∀ e : ReqMeta × Nat, ∃ ts, e ∈ run → stepTasks w e.1 e.2 = .ok ts ∧
      ts.Perm (sending w e.1 e.2) := by
    intro e
    by_cases he : e ∈ run
    · have hf := (hm e he).fits hbs h.prefillEven.cpSize_pos h.decodeEven.cpSize_pos (ha e he) hr
      obtain ⟨ts, ht⟩ := perm_stepTasks ((hm e he).decode ▸ h) hf.1 hf.2 e.2
      exact ⟨ts, fun _ => ht⟩
    · exact ⟨[], fun he' => absurd he' he⟩
  choose ts ht using hs
  -- the step that finishes a part
  have hp : ∀ x, ∃ re, x < w.layout.cpSize → run.flatMap (w.finishAt x)
      = if hand w.layout.cpSize c (req.numTokens ⌈/⌉ w.blockSize) x = [] then [] else [re] := by
    intro x
    by_cases hx : x < w.layout.cpSize
    · obtain ⟨re, hi⟩ := finishAt_metas (updateStateAfterAlloc req bi) hbs hc hd hx
      simp only [updateStateAfterAlloc, Nat.zero_div, Nat.max_zero] at hi
      exact ⟨re, fun _ => hrun ▸ hi⟩
    · exact ⟨0, fun hx' => absurd hx' hx⟩
  choose re hri using hp
  refine ⟨(run.map ts).flatten,
    by rw [runTasks, mapM_ok fun e he => (ht e he).1, ok_bind]; rfl, re, ?_⟩
  rw [← flatMap_def]
  have hse : (run.flatMap ts).Perm (run.flatMap fun e => sending w e.1 e.2) :=
    Perm.flatMap_left _ fun e he => (ht e he).2
  refine (hse.flatMap_right _).trans ?_
  rw [flatMap_assoc]
  -- steps inside, ranks outside
  have hra : ∀ e ∈ run, ((sending w e.1 e.2).flatMap fun e => if e.2.chunkFinish then
      [(⟨e.1, e.2.port, e.2.transfer.transCount⟩ : Signal)] else [])
      = (range (numGroups w.heads w.layout.tpSize)).flatMap fun g =>
        (range (req.decode.repeats w.heads)).flatMap fun u =>
          (range w.layout.cpSize).flatMap fun x => (w.finishAt x e).map (signalAt w req g u x) := by
    intro e he
    unfold sending
    rw [(hm e he).decode]
    simp only [flatMap_assoc]
    refine flatMap_congr fun g _ => flatMap_congr fun u hu => flatMap_congr fun x _ => ?_
    exact signals_sentAt (hm e he) h (mem_range.mp hu)
  rw [flatMap_congr hra]
  refine (Align.flatMap_swap_perm ..).trans (Perm.flatMap_left _ fun g _ => ?_)
  refine (Align.flatMap_swap_perm ..).trans (Perm.flatMap_left _ fun u _ => ?_)
  refine (Align.flatMap_swap_perm ..).trans (Perm.flatMap_left _ fun x hx => Perm.of_eq ?_)
  rw [← map_flatMap, hri x (mem_range.mp hx)]
  split <;> rfl

/-! ## 5. The signals to one decode rank -/

theorem port_rankAt_eq_iff (h : l.Even m) (hr : r.In l) (hg : g < numGroups m l.tpSize)
    (hu : u < l.repeats m) (hx : x < l.cpSize) :
    (l.rankAt m g u x).port l base = r.port l base ↔ g = r.group l m ∧ u = r.replica l m ∧
      x = r.cpRank l := by
  constructor
  · intro heq
    have hra := Rank.port_inj (h.in_rankAt hg hu hx) hr heq
    exact ⟨hra ▸ (h.group_rankAt hu).symm, hra ▸ (h.replica_rankAt hu).symm,
      hra ▸ h.cpRank_rankAt.symm⟩
  · rintro ⟨rfl, rfl, rfl⟩
    rw [(h.eq_rankAt hr).2.2.2]

theorem flatMap_ite_singleton {α β : Type} (p : α → Prop) [DecidablePred p] (f : α → β)
    (l : List α) : (l.flatMap fun a => if p a then [f a] else []) = (l.filter (p ·)).map f := by
  induction l with
  | nil => rfl
  | cons a l ih => by_cases ha : p a <;> simp [ha, ih]

/-- The signals to a decode rank: from every prefill head group of its heads and every part of its
    part that has blocks. -/
def signalsTo (w : Worker) (req : Request) (c : Nat) (reqIdx : Nat → Nat) (r : Rank) :
    List Signal :=
  (range (groupRatio w.heads w.layout req.decode)).flatMap fun i =>
    (givers w.layout.cpSize req.decode.cpSize c (req.numTokens ⌈/⌉ w.blockSize)
      (r.cpRank req.decode)).map fun x =>
      signalAt w req (r.group req.decode w.heads * groupRatio w.heads w.layout req.decode + i)
        (r.replica req.decode w.heads) x (reqIdx x)

theorem filter_signalsOf (h : Connected w.heads w.layout req.decode) (re : Nat → Nat)
    (hr : r.In req.decode) :
    (signalsOf w req c re).filter (·.port = r.port req.decode req.remotePort)
      = signalsTo w req c re r := by
  obtain ⟨hgr, hre, hcp, -⟩ := h.decodeEven.eq_rankAt (m := w.heads) hr
  have hra := h.ratio_pos
  have hD := h.decodeEven.cpSize_pos
  have hpo : ∀ g < numGroups w.heads w.layout.tpSize, ∀ u < req.decode.repeats w.heads, ∀ x re,
      ((signalAt w req g u x re).port = r.port req.decode req.remotePort ↔
        g / groupRatio w.heads w.layout req.decode = r.group req.decode w.heads ∧
          u = r.replica req.decode w.heads ∧ x % req.decode.cpSize = r.cpRank req.decode) := by
    intro g hg u hu x re
    refine port_rankAt_eq_iff h.decodeEven hr ?_ hu (mod_lt _ hD)
    rw [div_lt_iff_lt_mul hra, mul_comm, h.groups_eq]
    exact hg
  have hp : ∀ g < numGroups w.heads w.layout.tpSize, ∀ u < req.decode.repeats w.heads, ∀ x,
      (if hand w.layout.cpSize c (req.numTokens ⌈/⌉ w.blockSize) x = [] then []
        else [signalAt w req g u x (re x)]).filter (·.port = r.port req.decode req.remotePort)
      = if (g / groupRatio w.heads w.layout req.decode = r.group req.decode w.heads ∧
        u = r.replica req.decode w.heads) ∧
          x % req.decode.cpSize = r.cpRank req.decode ∧
            hand w.layout.cpSize c (req.numTokens ⌈/⌉ w.blockSize) x ≠ []
        then [signalAt w req g u x (re x)] else [] := by
    intro g hg u hu x
    by_cases hn : hand w.layout.cpSize c (req.numTokens ⌈/⌉ w.blockSize) x = []
    · simp [hn]
    · simp [hn, filter_cons, hpo g hg u hu, and_assoc]
  have hf : r.group req.decode w.heads * groupRatio w.heads w.layout req.decode
      + groupRatio w.heads w.layout req.decode ≤ numGroups w.heads w.layout.tpSize := by
    have hm := mul_le_mul_right (groupRatio w.heads w.layout req.decode) (succ_le_of_lt hgr)
    rw [mul_comm (numGroups w.heads req.decode.tpSize), h.groups_eq, succ_mul] at hm
    exact hm
  have hqu : ∀ g, g / groupRatio w.heads w.layout req.decode = r.group req.decode w.heads ↔
      r.group req.decode w.heads * groupRatio w.heads w.layout req.decode ≤ g ∧
        g < r.group req.decode w.heads * groupRatio w.heads w.layout req.decode
          + groupRatio w.heads w.layout req.decode := by
    intro g
    rw [Nat.div_eq_iff hra]
    omega
  unfold signalsOf signalsTo
  simp only [filter_flatMap]
  rw [flatMap_range_window hf]
  · refine flatMap_congr fun i hi => ?_
    have hi := mem_range.mp hi
    have hg : r.group req.decode w.heads * groupRatio w.heads w.layout req.decode + i
        < numGroups w.heads w.layout.tpSize := by omega
    have hq := (hqu (r.group req.decode w.heads * groupRatio w.heads w.layout req.decode + i)).mpr
        (by omega)
    rw [flatMap_range_window (a := r.replica req.decode w.heads) (b := 1) hre, range_one,
      flatMap_singleton, add_zero]
    · simp only [hp _ hg _ hre, hq, true_and]
      exact flatMap_ite_singleton ..
    · intro u hu ho
      refine flatMap_eq_nil_iff.mpr fun x _ => ?_
      rw [hp _ hg u hu, if_neg (by omega)]
  · intro g hg ho
    refine flatMap_eq_nil_iff.mpr fun u hu => flatMap_eq_nil_iff.mpr fun x _ => ?_
    rw [hp g hg u (mem_range.mp hu), if_neg fun hc => ho ((hqu g).mp hc.1.1)]

theorem pdHeadRatio_eq {pre dec : Layout} {ra : Nat} (h : Connected m pre dec)
    (hr : pdHeadRatio m pre.tpSize dec.tpSize = .ok ra) : ra = groupRatio m pre dec := by
  have hP := h.prefillEven.tp_pos
  have hD := h.decodeEven.tp_pos
  unfold pdHeadRatio at hr
  unfold groupRatio numGroups KvHeads.count
  by_cases hl : m.latent = true
  · rw [if_pos hl] at hr
    cases hr
    rw [if_pos hl, min_eq_right hP, min_eq_right hD]
  · rw [if_neg hl] at hr
    obtain ⟨hm, hr⟩ := ensure_bind_eq_ok.mp hr
    rw [if_neg hl]
    split at hr
    · cases hr
      rfl
    · next hle =>
      split at hr
      · cases hr
      · next hne =>
        cases hr
        have ho : pre.tpSize / dec.tpSize = 1 :=
          le_antisymm (not_lt.mp hle) (pos_of_ne_zero hne)
        have heq := div_add_mod pre.tpSize dec.tpSize
        rw [ho, hm, mul_one, add_zero] at heq
        rw [heq, Nat.div_self (lt_min hP h.prefillEven.heads_pos)]

variable {ri : Nat → Nat}

theorem length_signalsTo : (signalsTo w req c ri r).length
    = (givers w.layout.cpSize req.decode.cpSize c (req.numTokens ⌈/⌉ w.blockSize)
      (r.cpRank req.decode)).length * groupRatio w.heads w.layout req.decode := by
  simp [signalsTo, mul_comm]

theorem nodup_senders (h : Connected w.heads w.layout req.decode) (hr : r.In req.decode) :
    ((signalsTo w req c ri r).map (·.sender)).Nodup := by
  have hre := (h.decodeEven.eq_rankAt (m := w.heads) hr).2.1
  have hc : ∀ idx, firstCopy w.heads w.layout req.decode idx + r.replica req.decode w.heads
      < w.layout.repeats w.heads :=
    fun idx => (Nat.add_lt_add_left hre _).trans_le (h.firstCopy_le idx)
  have hgr : ∀ g x idx, ((signalAt w req g (r.replica req.decode w.heads) x idx).sender).group
      w.layout w.heads = g :=
    fun g x idx => h.prefillEven.group_rankAt (hc idx)
  have hpa : ∀ g x idx, ((signalAt w req g (r.replica req.decode w.heads) x idx).sender).cpRank
      w.layout = x :=
    fun g x idx => h.prefillEven.cpRank_rankAt
  simp only [signalsTo, map_flatMap, map_map]
  refine nodup_flatMap.mpr ⟨fun i _ => ?_, nodup_range.imp fun {i i'} hne s hs hs' => hne ?_⟩
  · refine (nodup_range.filter _).map fun x y hxy => ?_
    have hp := congrArg (Rank.cpRank · w.layout) hxy
    simpa only [comp_apply, hpa] using hp
  · obtain ⟨x, -, rfl⟩ := mem_map.mp hs
    obtain ⟨y, -, heq⟩ := mem_map.mp hs'
    have hg := congrArg (Rank.group · w.layout w.heads) heq
    simp only [comp_apply, hgr] at hg
    omega

theorem transCount_of_mem (hbs : 0 < w.blockSize) (hc : req.remoteCachedTokens = c * w.blockSize)
    {s : Signal} (hs : s ∈ signalsTo w req c ri r) : s.transCount
      = (if w.layout.cpSize ≤ req.numTokens ⌈/⌉ w.blockSize then w.layout.cpSize / req.decode.cpSize
        else share req.decode.cpSize (c + req.numTokens ⌈/⌉ w.blockSize) (r.cpRank req.decode)
          - share req.decode.cpSize c (r.cpRank req.decode)) * w.pdHeadRatio := by
  obtain ⟨i, -, hs⟩ := mem_flatMap.mp hs
  obtain ⟨x, hx, rfl⟩ := mem_map.mp hs
  have hca : req.remoteCachedTokens ⌈/⌉ w.blockSize = c := by
    rw [hc]
    exact eq_of_forall_lt_iff fun j => by rw [lt_ceilDiv_iff hbs, Nat.mul_lt_mul_right hbs]
  simp only [signalAt, transCount, hca, (mem_givers.mp hx).2.1, zero_mul, zero_add]

/-! ## 6. Completion -/

def signalsAt (tasks : List (Rank × SendTask)) (port : Nat) : List Signal :=
  (signals tasks).filter (·.port = port)

/-- **Done once, on the last signal**: whenever a receiver that does not know the request takes
    signals with these counts, in any order and among any others and polls, a poll returns the
    request or the next one will, once, from the last signal on. -/
def DoneOnLast (counts : List Nat) : Prop :=
  ∀ (t : Receiver) (r : RequestId) (events before : List Event), t.taskTracker r = none →
    r ∉ t.doneRequests → (messages r events).Perm counts → before <+: events →
      t.reports r before + (if r ∈ (t.run before).doneRequests then 1 else 0)
        = if (messages r before).length = counts.length then 1 else 0

theorem doneOnLast {ns : List Nat} (hne : ns ≠ []) (ha : ∀ n ∈ ns, n = ns.length) :
    DoneOnLast ns := by
  intro t r events bf hno hnot hp hb
  have hpos := length_pos_iff.mpr hne
  have hst : Tracks r ns.length 0 0 t :=
    ⟨by rw [hno, if_pos (.inl rfl)], by rw [if_neg hnot, if_neg hpos.ne]⟩
  have hs : messages r bf <+: messages r events := hb.filterMap _
  have hm : ∀ n ∈ messages r bf, n = ns.length := fun n hn =>
    ha n (hp.mem_iff.mp (hs.subset hn))
  have hl : (messages r bf).length ≤ ns.length := hp.length_eq ▸ hs.length_le
  have hr := tracks_run hst hm (by rw [zero_add]; exact hl)
  rw [zero_add, zero_add] at hr
  exact hr.marks

/-- **The push completes exactly when everything has been sent.** -/
theorem push_completes (w : Worker) (req : Request) (blockIds : List Nat) (steps : List Scheduled)
    {c : Nat} (h : Connected w.heads w.layout req.decode) (hbs : 0 < w.blockSize)
    (hratio : pdHeadRatio w.heads w.layout.tpSize req.decode.tpSize = .ok w.pdHeadRatio)
    (hc : req.remoteCachedTokens = c * w.blockSize) (hlt : req.remoteCachedTokens < req.numTokens)
    (hdiv : Division req.numTokens 0 steps)
    (halloc : ∀ e ∈ metas req w.blockSize (some (updateStateAfterAlloc req blockIds)) steps,
      e.1.localComputedTokens ⌈/⌉ (w.blockSize * w.layout.cpSize) ≤ e.1.localBlockIds.length)
    (hremote : req.numTokens ⌈/⌉ w.blockSize ⌈/⌉ req.decode.cpSize ≤ req.remoteBlockIds.length)
    (hcount : c = 0 ∨ w.layout.cpSize = req.decode.cpSize ∨
      w.layout.cpSize + c ≤ req.numTokens ⌈/⌉ w.blockSize ∨
      req.numTokens ⌈/⌉ w.blockSize ≤ req.decode.cpSize) :
    ∃ tasks, runTasks w (metas req w.blockSize (some (updateStateAfterAlloc req blockIds)) steps)
      = .ok tasks ∧ ∀ r : Rank, r.In req.decode →
        hand req.decode.cpSize c (req.numTokens ⌈/⌉ w.blockSize) (r.cpRank req.decode) ≠ [] →
        ((signalsAt tasks (r.port req.decode req.remotePort)).map (·.sender)).Nodup ∧
        (∀ s ∈ signalsAt tasks (r.port req.decode req.remotePort),
          s.transCount = (signalsAt tasks (r.port req.decode req.remotePort)).length) ∧
        DoneOnLast ((signalsAt tasks (r.port req.decode req.remotePort)).map (·.transCount)) := by
  obtain ⟨tasks, hrun, ri, hp⟩ := perm_signals h hbs hc hdiv halloc hremote
  refine ⟨tasks, hrun, fun r hr hre => ?_⟩
  have hR := h.prefillEven.cpSize_pos
  have hD := h.decodeEven.cpSize_pos
  have hat : (signalsAt tasks (r.port req.decode req.remotePort)).Perm
      (signalsTo w req c ri r) := by
    rw [← filter_signalsOf h ri hr]
    exact hp.filter _
  have hw : c < req.numTokens ⌈/⌉ w.blockSize := (lt_ceilDiv_iff hbs).mpr (hc ▸ hlt)
  have he := (length_givers_eq_iff hD hR h.dvd hw).mpr hcount (r.cpRank req.decode)
    (h.decodeEven.eq_rankAt (m := w.heads) hr).2.2.1 hre
  have ha : ∀ s ∈ signalsAt tasks (r.port req.decode req.remotePort),
      s.transCount = (signalsAt tasks (r.port req.decode req.remotePort)).length := by
    intro s hs
    rw [transCount_of_mem hbs hc (hat.mem_iff.mp hs), hat.length_eq, length_signalsTo, he,
      pdHeadRatio_eq h hratio]
  refine ⟨(hat.map _).nodup_iff.mpr (nodup_senders h hr), ha, doneOnLast ?_ ?_⟩
  · have hpos : 0 < (signalsTo w req c ri r).length := by
      rw [length_signalsTo]
      exact mul_pos (length_pos_iff.mpr (givers_ne_nil hR h.dvd hre)) h.ratio_pos
    refine ne_nil_of_length_pos ?_
    rwa [length_map, hat.length_eq]
  · rw [length_map]
    intro n hn
    obtain ⟨s, hs, rfl⟩ := mem_map.mp hn
    exact ha s hs

end

theorem push_completes_tenTokens : ∃ tasks,
    runTasks (fourTokenWorker ⟨true, 1⟩ ⟨2, 1, 2⟩ 1)
      (metas (tenTokens ⟨1, 1, 1⟩ 4) 4 (some (updateStateAfterAlloc (tenTokens ⟨1, 1, 1⟩ 4) [3]))
        twoSteps) = .ok tasks ∧
    ∀ r : Rank, r.In ⟨1, 1, 1⟩ → hand 1 1 3 (r.cpRank ⟨1, 1, 1⟩) ≠ [] →
      ((signalsAt tasks (r.port ⟨1, 1, 1⟩ 200)).map (·.sender)).Nodup ∧
      (∀ s ∈ signalsAt tasks (r.port ⟨1, 1, 1⟩ 200),
        s.transCount = (signalsAt tasks (r.port ⟨1, 1, 1⟩ 200)).length) ∧
      DoneOnLast ((signalsAt tasks (r.port ⟨1, 1, 1⟩ 200)).map (·.transCount)) :=
  push_completes (fourTokenWorker ⟨true, 1⟩ ⟨2, 1, 2⟩ 1) (tenTokens ⟨1, 1, 1⟩ 4) [3]
    twoSteps (c := 1) latent_connected
    (by decide) rfl rfl (by decide) twoSteps_division (by decide) (by decide) (by decide)

def pushedInOneStep (heads : KvHeads) (prefill : Layout) (req : Request) :
    Except PushError (List (Rank × SendTask)) :=
  runTasks (fourTokenWorker heads prefill 1)
    (metas req 4 (some (updateStateAfterAlloc req [3, 4, 5])) [⟨none, 0, req.numTokens, 0, 0⟩])

/-- **Not every prefill completes.** One prefill rank for two decode ranks with the same heads
    passes the check and is refused when it pushes. And of two prefill ranks that share two blocks,
    one cached, only one signals, and says two. -/
theorem push_incomplete :
    (contextParallelParametersCheck ⟨true, 1⟩ ⟨1, 1, 1⟩ ⟨2, 1, 1⟩ ∧
      pushedInOneStep ⟨true, 1⟩ ⟨1, 1, 1⟩ (tenTokens ⟨2, 1, 1⟩ 0)
        = .error (.assertion "len(selected_p_cp_groups) == len(selected_d_cp_groups)")) ∧
    (contextParallelParametersCheck ⟨true, 1⟩ ⟨2, 1, 2⟩ ⟨1, 1, 1⟩ ∧
      (pushedInOneStep ⟨true, 1⟩ ⟨2, 1, 2⟩ ⟨8, [5, 6], 200, 1, 1, 1, 4⟩).map
        (fun tasks => (signalsAt tasks 200).map (·.transCount)) = .ok [2]) := by
  decide

end VllmDual.Push
