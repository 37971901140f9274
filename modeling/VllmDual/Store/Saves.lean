/-
  Subject:   WHAT THE STORE'S SCHEDULER ORDERS TO SAVE (`KVPoolScheduler.build_connector_meta`,
             `vllm/distributed/kv_transfer/ascend/kv_pool/ascend_store/pool_scheduler.py`;
             `ReqMeta.from_request_tracker`, `config_data.py`).

  A tracker follows how many tokens of a request have been scheduled and how many saved; each call
  orders the save of the chunks that have become full.
-/
import VllmDual.Lib.OrderedDict
import VllmDual.Lib.Outcome
import VllmDual.Store.Keys

namespace VllmDual.Store

open OrderedDict List Option Outcome Nat

variable {ρ : Type} [DecidableEq ρ]

/-! ## 1. Trackers and metadata -/

structure LoadSpec where
  vllmCachedTokens : Nat
  kvpoolCachedTokens : Nat
  canLoad : Bool

/-- What the scheduler reads of a request at a call: the lengths of `prompt_token_ids` and
    `all_token_ids`, and the hashes of its blocks. -/
structure PoolRequest where
  promptLen : Nat
  numTokens : Nat
  numComputedTokens : Nat
  blockHashes : List BlockHash

structure RequestTracker (ρ : Type) where
  reqId : ρ
  tokenLen : Nat
  allocatedBlockIds : List Nat
  numSavedTokens : Nat

structure ReqMeta (ρ : Type) where
  reqId : ρ
  tokenLenChunk : Nat
  blockIds : List Nat
  blockHashes : List BlockHash
  canSave : Bool
  loadSpec : Option LoadSpec
  isLastChunk : Option Bool

/-- `from_request_tracker`, with the tracker after it. -/
def fromRequestTracker (tracker : RequestTracker ρ) (blockSize : Nat) (loadSpec : Option LoadSpec)
    (skipSave : Bool) (blockHashes : List BlockHash) (isLastChunk : Option Bool)
    (discardPartialChunks : Bool) : Option (ReqMeta ρ) × RequestTracker ρ :=
  let inputTokenLen := tracker.tokenLen
  let chunkBoundary :=
    if discardPartialChunks then (tracker.numSavedTokens + 1) ⌈/⌉ blockSize * blockSize else 0
  let numTokensToSave :=
    if discardPartialChunks then inputTokenLen / blockSize * blockSize else inputTokenLen
  let skipSave := skipSave || decide (numTokensToSave < chunkBoundary)
  if skipSave && loadSpec.isNone then
    (none, tracker)
  else
    (some ⟨tracker.reqId, numTokensToSave, tracker.allocatedBlockIds, blockHashes, !skipSave,
        loadSpec.filter (·.canLoad), isLastChunk⟩,
      if skipSave then tracker else { tracker with numSavedTokens := numTokensToSave })

/-! ## 2. The scheduler's calls -/

structure NewRequestData (ρ : Type) where
  reqId : ρ
  promptLen : Nat
  numComputedTokens : Nat
  blockIds : List Nat

/-- A request of `scheduled_cached_reqs`. The new block ids are those of the first cache group. -/
structure CachedRequest (ρ : Type) where
  reqId : ρ
  newBlockIds : Option (List Nat)
  numComputedTokens : Nat

structure SchedulerOutput (ρ : Type) where
  finishedReqIds : List ρ
  preemptedReqIds : List ρ
  scheduledNewReqs : List (NewRequestData ρ)
  scheduledCachedReqs : List (CachedRequest ρ)
  numScheduledTokens : ρ → Option Nat

structure PoolConfig where
  blockSize : Nat
  discardPartialChunks : Bool
  kvConsumer : Bool
  consumerIsToPut : Bool

namespace PoolConfig

def forceSkipSave (cfg : PoolConfig) : Bool := cfg.kvConsumer && !cfg.consumerIsToPut

def lastChunkTokensNum (cfg : PoolConfig) (promptLen : Nat) : Nat :=
  if cfg.discardPartialChunks then promptLen / cfg.blockSize * cfg.blockSize else promptLen

end PoolConfig

structure PoolScheduler (ρ : Type) [DecidableEq ρ] where
  loadSpecs : OrderedDict ρ LoadSpec
  requestTrackers : OrderedDict ρ (RequestTracker ρ)
  preemptedReqIds : Finset ρ
  unfinishedRequests : OrderedDict ρ (List Nat)
  unfinishedRequestIds : Finset ρ

inductive PoolError where
  | assertionError
  | keyError
  | typeError
  | valueError

namespace PoolScheduler

variable (cfg : PoolConfig) (requests : ρ → PoolRequest) (out : SchedulerOutput ρ)

def init : PoolScheduler ρ := ⟨.empty, .empty, ∅, .empty, ∅⟩

def updateStateAfterAlloc (st : PoolScheduler ρ) (reqId : ρ) (blockIds : List Nat)
    (numExternalTokens : Nat) : Except PoolError (PoolScheduler ρ) :=
  let localBlockIds := if 0 < numExternalTokens then blockIds else []
  let st := { st with
    unfinishedRequests := st.unfinishedRequests.set reqId localBlockIds
    unfinishedRequestIds := insert reqId st.unfinishedRequestIds }
  match st.loadSpecs.get reqId with
  | none => .ok st
  | some spec =>
    if numExternalTokens = 0 then
      .ok { st with loadSpecs := st.loadSpecs.set reqId { spec with canLoad := false } }
    else if numExternalTokens + spec.vllmCachedTokens = spec.kvpoolCachedTokens then
      .ok { st with loadSpecs := st.loadSpecs.set reqId { spec with canLoad := true } }
    else
      .error .assertionError

def forget (st : PoolScheduler ρ) : PoolScheduler ρ where
  loadSpecs := st.loadSpecs
  requestTrackers :=
    (out.finishedReqIds ++ out.preemptedReqIds).foldl (fun d r => d.pop r) st.requestTrackers
  preemptedReqIds := (st.preemptedReqIds \ out.finishedReqIds.toFinset)
    ∪ out.preemptedReqIds.toFinset
  unfinishedRequests :=
    (out.finishedReqIds ++ out.preemptedReqIds).foldl (fun d r => d.pop r) st.unfinishedRequests
  unfinishedRequestIds := st.unfinishedRequestIds \ out.finishedReqIds.toFinset

variable (acc : PoolScheduler ρ × List (ReqMeta ρ))

def order (tracker : RequestTracker ρ) (loadSpec : Option LoadSpec) (skipSave : Bool)
    (blockHashes : List BlockHash) (isLastChunk : Option Bool) :
    PoolScheduler ρ × List (ReqMeta ρ) :=
  let (reqMeta, tracker) := fromRequestTracker tracker cfg.blockSize loadSpec skipSave blockHashes
    isLastChunk cfg.discardPartialChunks
  ({ acc.1 with requestTrackers := acc.1.requestTrackers.set tracker.reqId tracker }, acc.2 ++
    reqMeta.toList)

def orderNew (request : NewRequestData ρ) :
    Except PoolError (PoolScheduler ρ × List (ReqMeta ρ)) := do
  let loadSpec := acc.1.loadSpecs.get request.reqId
  let acc := ({ acc.1 with loadSpecs := acc.1.loadSpecs.pop request.reqId }, acc.2)
  let scheduled ← (out.numScheduledTokens request.reqId).elim (.error .keyError) .ok
  let numTokensToCompute := request.numComputedTokens + scheduled
  let _ ← (acc.1.unfinishedRequests.get request.reqId).elim (.error .typeError) .ok
  pure (order cfg acc ⟨request.reqId, numTokensToCompute, request.blockIds, 0⟩ loadSpec
    cfg.forceSkipSave (requests request.reqId).blockHashes
    (some (cfg.lastChunkTokensNum request.promptLen ≤ numTokensToCompute)))

def orderResumed (reqId : ρ) (newBlockIds : List Nat) :
    Except PoolError (PoolScheduler ρ × List (ReqMeta ρ)) := do
  let loadSpec := acc.1.loadSpecs.get reqId
  let acc := ({ acc.1 with
    preemptedReqIds := acc.1.preemptedReqIds.erase reqId
    loadSpecs := acc.1.loadSpecs.pop reqId }, acc.2)
  let _ ← (acc.1.unfinishedRequests.get reqId).elim (.error .typeError) .ok
  let scheduled ← (out.numScheduledTokens reqId).elim (.error .keyError) .ok
  let numTokensToCompute := (requests reqId).numComputedTokens + scheduled
  pure (order cfg acc ⟨reqId, numTokensToCompute, newBlockIds, 0⟩ loadSpec cfg.forceSkipSave
    (requests reqId).blockHashes
    (some (cfg.lastChunkTokensNum (requests reqId).promptLen ≤ numTokensToCompute)))

def orderRunning (request : CachedRequest ρ) (newBlockIds : List Nat) :
    Except PoolError (PoolScheduler ρ × List (ReqMeta ρ)) := do
  let tracker ← (acc.1.requestTrackers.get request.reqId).elim (.error .keyError) .ok
  let numNewTokens ← (out.numScheduledTokens request.reqId).elim (.error .keyError) .ok
  let _ ← (acc.1.unfinishedRequests.get request.reqId).elim (.error .valueError) .ok
  let real := requests request.reqId
  let numCurrentTokens := tracker.tokenLen
  -- the slice of `all_token_ids` ends where the tokens end
  let newTokens := min (numCurrentTokens + numNewTokens) real.numTokens - numCurrentTokens
  let tracker := { tracker with tokenLen := numCurrentTokens + newTokens }
  if real.promptLen ≤ request.numComputedTokens then
    pure ({ acc.1 with requestTrackers := acc.1.requestTrackers.set request.reqId tracker }, acc.2)
  else
    let tracker := { tracker with allocatedBlockIds := tracker.allocatedBlockIds ++ newBlockIds }
    pure (order cfg acc tracker none cfg.forceSkipSave real.blockHashes
      (some (cfg.lastChunkTokensNum real.promptLen ≤ tracker.tokenLen)))

def orderCached (request : CachedRequest ρ) :
    Except PoolError (PoolScheduler ρ × List (ReqMeta ρ)) :=
  match request.newBlockIds with
  | none => .ok acc
  | some newBlockIds =>
    if request.reqId ∈ acc.1.preemptedReqIds then
      orderResumed cfg requests out acc request.reqId newBlockIds
    else
      orderRunning cfg requests out acc request newBlockIds

def orderLoading (entry : ρ × List Nat) : PoolScheduler ρ × List (ReqMeta ρ) :=
  if entry.1 ∈ out.scheduledNewReqs.map (·.reqId) ∨
    entry.1 ∈ out.scheduledCachedReqs.map (·.reqId) then
    acc
  else
    match acc.1.loadSpecs.get entry.1 with
    | none => acc
    | some loadSpec =>
      let acc := ({ acc.1 with loadSpecs := acc.1.loadSpecs.pop entry.1 }, acc.2)
      let real := requests entry.1
      let cached := loadSpec.kvpoolCachedTokens
      let numTokensToCompute :=
        if cached % cfg.blockSize ≠ 0 ∧ cached + 1 = real.promptLen then cached + 1 else cached
      order cfg acc ⟨entry.1, numTokensToCompute, entry.2, 0⟩ (some loadSpec)
        false real.blockHashes none

/-- `build_connector_meta`, with the requests of the metadata. -/
def buildConnectorMeta (st : PoolScheduler ρ) :
    Except PoolError (PoolScheduler ρ × List (ReqMeta ρ)) := do
  let acc ← out.scheduledNewReqs.foldlM (orderNew cfg requests out) (st.forget out, [])
  let acc ← if cfg.forceSkipSave then pure acc
    else out.scheduledCachedReqs.foldlM (orderCached cfg requests out) acc
  pure (acc.1.unfinishedRequests.entries.foldl (orderLoading cfg requests out) acc)

end PoolScheduler

/-! ## 3. The calls for one request -/

open PoolScheduler

/-- A call that schedules the request: its tokens and new blocks, how many tokens it has by then,
    and the hashes of its blocks beyond those of the prompt. -/
structure Part where
  tokens : Nat
  newBlockIds : Option (List Nat)
  numTokens : Nat
  moreHashes : List BlockHash

/-- The calls from the first that schedules the request on; in some it is not scheduled. It starts
    with `numComputedTokens` that the local cache has. -/
structure Schedule where
  promptLen : Nat
  blockHashes : List BlockHash
  numComputedTokens : Nat
  tokens : Nat
  blockIds : List Nat
  parts : List (Option Part)

namespace Schedule

def tokensOf (part : Option Part) : Nat := part.elim 0 Part.tokens

def blocksOf (part : Option Part) : List Nat := part.elim [] fun p => p.newBlockIds.getD []

variable (cfg : PoolConfig) (r : ρ) (s : Schedule)

def firstOutput : SchedulerOutput ρ :=
  ⟨[], [], [⟨r, s.promptLen, s.numComputedTokens, s.blockIds⟩], [],
    fun q => if q = r then some s.tokens else none⟩

def firstRequest : PoolRequest := ⟨s.promptLen, s.promptLen, s.numComputedTokens, s.blockHashes⟩

def output (computed : Nat) : Option Part → SchedulerOutput ρ
  | none => ⟨[], [], [], [], fun _ => none⟩
  | some part => ⟨[], [], [], [⟨r, part.newBlockIds, computed⟩],
      fun q => if q = r then some part.tokens else none⟩

def request (computed : Nat) : Option Part → PoolRequest
  | none => ⟨s.promptLen, s.promptLen, computed, s.blockHashes⟩
  | some part => ⟨s.promptLen, part.numTokens, computed, s.blockHashes ++ part.moreHashes⟩

def runParts : Nat → PoolScheduler ρ → List (Option Part) → Except PoolError (List (ReqMeta ρ))
  | _, _, [] => .ok []
  | computed, st, part :: parts => do
    let (st, metas) ← st.buildConnectorMeta cfg (fun _ => s.request computed part)
      (output r computed part)
    let more ← runParts (computed + tokensOf part) st parts
    pure (metas ++ more)

def run : Except PoolError (List (ReqMeta ρ)) := do
  let st ← PoolScheduler.init.updateStateAfterAlloc r s.blockIds 0
  let (st, metas) ← st.buildConnectorMeta cfg (fun _ => s.firstRequest) (s.firstOutput r)
  let more ← runParts cfg r s (s.numComputedTokens + s.tokens) st s.parts
  pure (metas ++ more)

def skippedFrom (promptLen : Nat) : Nat → List (Option Part) → Nat
  | _, [] => 0
  | computed, part :: parts =>
    (part.elim 0 fun p => if computed < promptLen ∧ p.newBlockIds = none then p.tokens else 0)
      + skippedFrom promptLen (computed + tokensOf part) parts

def skipped : Nat := skippedFrom s.promptLen (s.numComputedTokens + s.tokens) s.parts

/-- The calls go through the prompt, and have blocks for what they schedule of it. -/
def FitsFrom (promptLen blockSize : Nat) : Nat → Nat → List (Option Part) → Prop
  | computed, _, [] => promptLen ≤ computed
  | computed, blocks, part :: parts =>
    (∀ p, part = some p → computed < promptLen → computed + p.tokens ≤ promptLen ∧
      computed + p.tokens ≤ (blocks + (blocksOf part).length) * blockSize ∧
      promptLen ≤ p.numTokens) ∧
    FitsFrom promptLen blockSize (computed + tokensOf part) (blocks + (blocksOf part).length) parts

structure Fits (blockSize : Nat) : Prop where
  prompt : s.numComputedTokens + s.tokens ≤ s.promptLen
  blocks : s.numComputedTokens + s.tokens ≤ s.blockIds.length * blockSize
  parts : FitsFrom s.promptLen blockSize (s.numComputedTokens + s.tokens) s.blockIds.length s.parts

def table : List Nat := s.blockIds ++ s.parts.flatMap blocksOf

end Schedule

/-! ## 4. The orders in closed form -/

open Schedule

section Emitted

variable {cfg : PoolConfig} {r : ρ} {s : Schedule} {st : PoolScheduler ρ} {L pl computed : Nat}
  {bl new : List Nat} {t : RequestTracker ρ} {rs : ρ → PoolRequest} {out : SchedulerOutput ρ}
  {acc : PoolScheduler ρ × List (ReqMeta ρ)} {bh : List BlockHash} {part : Part}
  {parts : List (Option Part)}

/-- The metadata for a tracked length, if a chunk has become full since the length before. -/
def orderOf (cfg : PoolConfig) (r : ρ) (promptLen old L : Nat) (blocks : List Nat)
    (hashes : List BlockHash) : List (ReqMeta ρ) :=
  if old / cfg.blockSize < L / cfg.blockSize then
    [⟨r, L / cfg.blockSize * cfg.blockSize, blocks, hashes, true, none,
      some (promptLen / cfg.blockSize * cfg.blockSize ≤ L)⟩]
  else []

/-- The metadata of the calls from a tracked length on: only a call with a new block is tracked. -/
def emittedFrom (cfg : PoolConfig) (r : ρ) (s : Schedule) :
    Nat → Nat → List Nat → List (Option Part) → List (ReqMeta ρ)
  | _, _, _, [] => []
  | computed, L, bl, none :: parts => emittedFrom cfg r s computed L bl parts
  | computed, L, bl, some part :: parts =>
    if s.promptLen ≤ computed then []
    else match part.newBlockIds with
      | none => emittedFrom cfg r s (computed + part.tokens) L bl parts
      | some new =>
        orderOf cfg r s.promptLen L (L + part.tokens) (bl ++ new) (s.blockHashes ++ part.moreHashes)
          ++ emittedFrom cfg r s (computed + part.tokens) (L + part.tokens) (bl ++ new) parts

def emitted (cfg : PoolConfig) (r : ρ) (s : Schedule) : List (ReqMeta ρ) :=
  orderOf cfg r s.promptLen 0 (s.numComputedTokens + s.tokens) s.blockIds s.blockHashes
    ++ emittedFrom cfg r s (s.numComputedTokens + s.tokens) (s.numComputedTokens + s.tokens)
      s.blockIds s.parts

/-- Saving is enabled, by full chunks. -/
structure PoolConfig.Saves (cfg : PoolConfig) : Prop where
  blockSize_pos : 0 < cfg.blockSize
  discard : cfg.discardPartialChunks = true
  save : cfg.forceSkipSave = false

omit [DecidableEq ρ] in
theorem fromRequestTracker_eq {bs k : Nat} (hbs : 0 < bs) (hk : k ≤ L / bs) (bh : List BlockHash)
    (l : Option Bool) : fromRequestTracker ⟨r, L, bl, k * bs⟩ bs none false bh l true
      = (if k < L / bs then some ⟨r, L / bs * bs, bl, bh, true, none, l⟩ else none,
        ⟨r, L, bl, L / bs * bs⟩) := by
  have hc : (k * bs + 1) ⌈/⌉ bs = k + 1 := by
    rw [ceilDiv_eq_add_pred_div, show k * bs + 1 + bs - 1 = bs * (k + 1) by ring_nf; omega,
      Nat.mul_div_cancel_left _ hbs]
  have hco : L / bs * bs < (k + 1) * bs ↔ ¬ k < L / bs := by
    rw [Nat.mul_lt_mul_right hbs]
    omega
  simp only [fromRequestTracker, if_true, hc, hco]
  by_cases hlt : k < L / bs
  · simp [hlt]
  · have heq : k = L / bs := by omega
    simp [heq]

structure Follows (st : PoolScheduler ρ) (r : ρ) (tracker : RequestTracker ρ) : Prop where
  loadSpecs : ∀ q, st.loadSpecs.get q = none
  tracker : st.requestTrackers.get r = some tracker
  preempted : r ∉ st.preemptedReqIds
  unfinished : st.unfinishedRequests.get r = some []

theorem Follows.set {tr' : RequestTracker ρ} (h : Follows st r t) :
    Follows { st with requestTrackers := st.requestTrackers.set r tr' } r tr' :=
  ⟨h.loadSpecs, get_set.trans (if_pos rfl), h.preempted, h.unfinished⟩

theorem foldl_orderLoading_eq (h : ∀ q, acc.1.loadSpecs.get q = none) (es : List (ρ × List Nat)) :
    es.foldl (orderLoading cfg rs out) acc = acc := by
  induction es with
  | nil => rfl
  | cons e es ih =>
    have hs : orderLoading cfg rs out acc e = acc := by
      simp [orderLoading, h e.1]
    rw [foldl_cons, hs, ih]

theorem forget_eq (hf : out.finishedReqIds = []) (hp : out.preemptedReqIds = []) :
    st.forget out = st := by
  simp [forget, hf, hp]

variable (hcfg : cfg.Saves)
include hcfg

theorem order_eq {old : Nat} (hold : old ≤ L) :
    order cfg acc ⟨r, L, bl, old / cfg.blockSize * cfg.blockSize⟩
      none false bh (some (cfg.lastChunkTokensNum pl ≤ L)) = ({ acc.1 with
            requestTrackers := acc.1.requestTrackers.set r
              (RequestTracker.mk r L bl (L / cfg.blockSize * cfg.blockSize)) },
        acc.2 ++ orderOf cfg r pl old L bl bh) := by
  have hl : cfg.lastChunkTokensNum pl = pl / cfg.blockSize * cfg.blockSize :=
    if_pos hcfg.discard
  rw [order, hcfg.discard, fromRequestTracker_eq hcfg.blockSize_pos (Nat.div_le_div_right hold), hl]
  unfold orderOf
  split_ifs <;> rfl

theorem order_zero :
    order cfg acc ⟨r, L, bl, 0⟩ none false bh (some (cfg.lastChunkTokensNum pl ≤ L))
      = ({ acc.1 with
            requestTrackers := acc.1.requestTrackers.set r
              (RequestTracker.mk r L bl (L / cfg.blockSize * cfg.blockSize)) },
        acc.2 ++ orderOf cfg r pl 0 L bl bh) := by
  have hs : (⟨r, L, bl, 0⟩ : RequestTracker ρ)
      = ⟨r, L, bl, 0 / cfg.blockSize * cfg.blockSize⟩ := by rw [Nat.zero_div, Nat.zero_mul]
  rw [hs]
  exact order_eq hcfg (zero_le L)

theorem build_of_orderCached (ha : ∀ q, acc.1.loadSpecs.get q = none)
    (ho : orderCached cfg rs (output r computed (some part)) (st, [])
      ⟨r, part.newBlockIds, computed⟩ = .ok acc) :
    st.buildConnectorMeta cfg rs (output r computed (some part)) = .ok acc := by
  unfold buildConnectorMeta
  rw [forget_eq rfl rfl]
  have hc : (output r computed (some part)).scheduledCachedReqs.foldlM
      (orderCached cfg rs (output r computed (some part))) (st, []) = .ok acc := by
    exact (foldlM_cons ..).trans (by rw [ho]; rfl)
  have hn : (output r computed (some part)).scheduledNewReqs.foldlM
      (orderNew cfg rs (output r computed (some part))) (st, []) = .ok (st, []) := rfl
  simp only [hn, ok_bind, hcfg.save, Bool.false_eq_true, if_false, hc]
  rw [foldl_orderLoading_eq ha]
  rfl

omit hcfg in
theorem build_idle (h : Follows st r t) :
    st.buildConnectorMeta cfg rs (output r computed none) = .ok (st, []) := by
  unfold buildConnectorMeta
  rw [forget_eq rfl rfl]
  simp only [output, foldlM_nil, ite_self, pure_bind]
  rw [foldl_orderLoading_eq h.loadSpecs]
  rfl

theorem build_skip (h : Follows st r t) (hn : part.newBlockIds = none) :
    st.buildConnectorMeta cfg rs (output r computed (some part)) = .ok (st, []) :=
  build_of_orderCached hcfg h.loadSpecs (by simp only [orderCached, hn])

theorem build_decode (h : Follows st r t) (hn : part.newBlockIds = some new)
    (hle : s.promptLen ≤ computed) :
    ∃ st' tr', st.buildConnectorMeta cfg (fun _ => s.request computed (some part))
        (output r computed (some part)) = .ok (st', []) ∧ Follows st' r tr' := by
  refine ⟨_, { t with tokenLen :=
    t.tokenLen + (min (t.tokenLen + part.tokens) part.numTokens - t.tokenLen) },
    ?_, h.set⟩
  refine build_of_orderCached hcfg h.loadSpecs ?_
  simp only [orderCached, hn, h.preempted, if_false, orderRunning, h.tracker,
    elim_some, output, h.unfinished, ok_bind, request, hle, if_true]
  rfl

theorem build_prompt (h : Follows st r ⟨r, L, bl, L / cfg.blockSize * cfg.blockSize⟩)
    (hn : part.newBlockIds = some new) (hlt : computed < s.promptLen)
    (hf : L + part.tokens ≤ part.numTokens) :
    ∃ st', st.buildConnectorMeta cfg (fun _ => s.request computed (some part))
      (output r computed (some part))
      = .ok (st', orderOf cfg r s.promptLen L (L + part.tokens) (bl ++ new) (s.blockHashes ++
        part.moreHashes)) ∧
      Follows st' r ⟨r, L + part.tokens, bl ++
        new, (L + part.tokens) / cfg.blockSize * cfg.blockSize⟩ := by
  refine ⟨_, ?_, h.set⟩
  refine build_of_orderCached hcfg h.loadSpecs ?_
  have hl : L + (min (L + part.tokens) part.numTokens - L) = L + part.tokens := by
    rw [min_eq_left hf]
    omega
  simp only [orderCached, hn, h.preempted, if_false, orderRunning, h.tracker,
    elim_some, output, h.unfinished, ok_bind, request,
    if_neg (not_le.mpr hlt), if_true, hl, hcfg.save]
  rw [order_eq hcfg (le_add_right L part.tokens)]
  rfl

theorem build_first : ∃ st st', init.updateStateAfterAlloc r s.blockIds 0 = .ok st ∧
      st.buildConnectorMeta cfg (fun _ => s.firstRequest) (s.firstOutput r)
        = .ok (st', orderOf cfg r s.promptLen 0 (s.numComputedTokens + s.tokens)
          s.blockIds s.blockHashes) ∧
      Follows st' r ⟨r, s.numComputedTokens + s.tokens, s.blockIds,
        (s.numComputedTokens + s.tokens) / cfg.blockSize * cfg.blockSize⟩ := by
  have hu : (empty.set r [] : OrderedDict ρ (List Nat)).get r = some [] :=
    get_set.trans (if_pos rfl)
  have hn : ∀ q, ((empty : OrderedDict ρ LoadSpec).pop r).get q = none := by
    intro q
    rw [get_pop, get_empty, ite_self]
  refine ⟨⟨.empty, .empty, ∅, empty.set r [], {r}⟩,
    ⟨empty.pop r, empty.set r ⟨r, s.numComputedTokens + s.tokens, s.blockIds,
      (s.numComputedTokens + s.tokens) / cfg.blockSize * cfg.blockSize⟩, ∅,
      empty.set r [], {r}⟩, rfl, ?_,
    ⟨hn, get_set.trans (if_pos rfl), Finset.notMem_empty r, hu⟩⟩
  unfold buildConnectorMeta
  rw [forget_eq rfl rfl]
  simp only [firstOutput, firstRequest, foldlM_cons, foldlM_nil, orderNew, get_empty, if_true,
    elim_some, hu, ok_bind, pure_bind, hcfg.save, Bool.false_eq_true, ite_self]
  rw [order_zero hcfg, foldl_orderLoading_eq hn]
  rfl

theorem runParts_decode (h : Follows st r t) (hle : s.promptLen ≤ computed) :
    s.runParts cfg r computed st parts = .ok [] := by
  induction parts generalizing st computed t with
  | nil => rfl
  | cons part parts ih =>
    have hle' : s.promptLen ≤ computed + tokensOf part := by omega
    have hs : ∃ st' tr', st.buildConnectorMeta cfg (fun _ => s.request computed part)
        (output r computed part) = .ok (st', []) ∧ Follows st' r tr' := by
      cases part with
      | none => exact ⟨st, t, build_idle h, h⟩
      | some part =>
        cases hn : part.newBlockIds with
        | none => exact ⟨st, t, build_skip hcfg h hn, h⟩
        | some new => exact build_decode hcfg h hn hle
    obtain ⟨st', tr', hb, h'⟩ := hs
    rw [runParts, hb, ok_bind]
    dsimp only
    rw [ih h' hle']
    rfl

theorem runParts_eq {n : Nat} (h : Follows st r ⟨r, L, bl, L / cfg.blockSize * cfg.blockSize⟩)
    (hL : L ≤ computed) (hf : Schedule.FitsFrom s.promptLen cfg.blockSize computed n parts) :
    s.runParts cfg r computed st parts = .ok (emittedFrom cfg r s computed L bl parts) := by
  induction parts generalizing st computed n L bl with
  | nil => rfl
  | cons part parts ih =>
    obtain ⟨hp, hf⟩ := hf
    cases part with
    | none =>
      rw [runParts, build_idle h, ok_bind]
      dsimp only
      rw [ih h (le_add_right_of_le hL) hf]
      rfl
    | some part =>
      rcases lt_or_ge computed s.promptLen with hlt | hge
      · obtain ⟨hpr, -, ht⟩ := hp part rfl hlt
        rw [emittedFrom, if_neg (not_le.mpr hlt)]
        cases hn : part.newBlockIds with
        | none =>
          rw [runParts, build_skip hcfg h hn, ok_bind]
          dsimp only
          rw [ih h (le_add_right_of_le hL) hf]
          rfl
        | some new =>
          obtain ⟨st', hb, h'⟩ := build_prompt hcfg h hn hlt (by omega)
          rw [runParts, hb, ok_bind]
          dsimp only
          rw [ih h' (show L + part.tokens ≤ computed
            + tokensOf (some part) from Nat.add_le_add_right hL _) hf]
          rfl
      · rw [runParts_decode hcfg h hge, emittedFrom, if_pos hge]

theorem run_eq (hf : s.Fits cfg.blockSize) : s.run cfg r = .ok (emitted cfg r s) := by
  obtain ⟨st, st', hu, hb, h⟩ := build_first (r := r) (s := s) hcfg
  rw [run, hu, ok_bind, hb, ok_bind]
  dsimp only
  rw [runParts_eq hcfg h le_rfl hf.parts]
  rfl

end Emitted

/-! ## 5. What is ordered -/

section Orders

variable {cfg : PoolConfig} {r : ρ} {s : Schedule} {lo mid hi computed n : Nat}
  {bl table : List Nat} {parts : List (Option Part)} {metas more : List (ReqMeta ρ)}

omit [DecidableEq ρ]

/-- An order for the full chunks of a length, from blocks of the table that hold them. -/
structure Ordered (cfg : PoolConfig) (s : Schedule) (table : List Nat) (lo hi : Nat)
    (m : ReqMeta ρ) : Prop where
  canSave : m.canSave = true
  full : cfg.blockSize ∣ m.tokenLenChunk
  above : lo / cfg.blockSize * cfg.blockSize < m.tokenLenChunk
  upTo : m.tokenLenChunk ≤ hi / cfg.blockSize * cfg.blockSize
  last : m.isLastChunk
    = some (decide (s.promptLen / cfg.blockSize * cfg.blockSize ≤ m.tokenLenChunk))
  hashes : s.blockHashes <+: m.blockHashes
  blocks : m.blockIds <+: table
  held : m.tokenLenChunk ≤ m.blockIds.length * cfg.blockSize

structure Emitted (cfg : PoolConfig) (s : Schedule) (table : List Nat) (lo hi : Nat)
    (metas : List (ReqMeta ρ)) : Prop where
  le : lo ≤ hi
  ordered : ∀ m ∈ metas, Ordered cfg s table lo hi m
  sorted : metas.Pairwise fun a b => a.tokenLenChunk < b.tokenLenChunk
  ends : lo / cfg.blockSize < hi / cfg.blockSize →
    ∃ m ∈ metas, m.tokenLenChunk = hi / cfg.blockSize * cfg.blockSize

theorem Emitted.nil (hle : lo ≤ hi) (h : ¬ lo / cfg.blockSize < hi / cfg.blockSize) :
    Emitted cfg s table lo hi ([] : List (ReqMeta ρ)) :=
  ⟨hle, fun _ hm => absurd hm not_mem_nil, Pairwise.nil, fun hlt => absurd hlt h⟩

theorem Emitted.append (h : Emitted cfg s table lo mid metas)
    (h' : Emitted cfg s table mid hi more) : Emitted cfg s table lo hi (metas ++ more) := by
  have hmo : ∀ {a b : Nat}, a ≤ b →
      a / cfg.blockSize * cfg.blockSize ≤ b / cfg.blockSize * cfg.blockSize :=
    fun hab => Nat.mul_le_mul_right _ (Nat.div_le_div_right hab)
  refine ⟨h.le.trans h'.le, fun m hm => ?_, ?_, fun hlt => ?_⟩
  · rcases mem_append.mp hm with hm | hm
    · have ho := h.ordered m hm
      exact { ho with upTo := ho.upTo.trans (hmo h'.le) }
    · have ho := h'.ordered m hm
      exact { ho with above := (hmo h.le).trans_lt ho.above }
  · refine pairwise_append.mpr ⟨h.sorted, h'.sorted, fun a ha b hb => ?_⟩
    exact (h.ordered a ha).upTo.trans_lt (h'.ordered b hb).above
  · rcases lt_or_ge (mid / cfg.blockSize) (hi / cfg.blockSize) with hmid | hmid
    · obtain ⟨m, hm, heq⟩ := h'.ends hmid
      exact ⟨m, mem_append_right _ hm, heq⟩
    · have hs : mid / cfg.blockSize = hi / cfg.blockSize :=
        le_antisymm (Nat.div_le_div_right h'.le) hmid
      obtain ⟨m, hm, heq⟩ := h.ends (hs ▸ hlt)
      exact ⟨m, mem_append_left _ hm, hs ▸ heq⟩

theorem emitted_orderOf {bh : List BlockHash} (hbs : 0 < cfg.blockSize) (hle : lo ≤ hi)
    (hh : s.blockHashes <+: bh) (hb : bl <+: table)
    (hhe : hi ≤ bl.length * cfg.blockSize) :
    Emitted cfg s table lo hi (orderOf cfg r s.promptLen lo hi bl bh) := by
  unfold orderOf
  split_ifs with hlt
  · have hl : s.promptLen / cfg.blockSize * cfg.blockSize ≤ hi ↔
        s.promptLen / cfg.blockSize * cfg.blockSize ≤ hi / cfg.blockSize * cfg.blockSize := by
      rw [Nat.mul_le_mul_right_iff hbs, Nat.le_div_iff_mul_le hbs]
    refine ⟨hle, fun m hm => ?_, pairwise_singleton _ _, fun _ => ⟨_, mem_singleton_self _, rfl⟩⟩
    rw [mem_singleton.mp hm]
    exact {
      canSave := rfl
      full := dvd_mul_left _ _
      above := mul_lt_mul_of_pos_right hlt hbs
      upTo := le_rfl
      last := congrArg some (decide_eq_decide.mpr hl)
      hashes := hh
      blocks := hb
      held := (div_mul_le_self _ _).trans hhe }
  · exact Emitted.nil hle hlt

theorem skippedFrom_decode (hle : s.promptLen ≤ computed) :
    skippedFrom s.promptLen computed parts = 0 := by
  induction parts generalizing computed with
  | nil => rfl
  | cons pa parts ih =>
    rw [skippedFrom, ih (by omega)]
    cases pa with
    | none => rfl
    | some pa => simp [not_lt.mpr hle]

theorem emitted_emittedFrom (hbs : 0 < cfg.blockSize) (hlo : lo ≤ computed)
    (hc : computed ≤ s.promptLen) (hh : computed ≤ bl.length * cfg.blockSize)
    (hf : Schedule.FitsFrom s.promptLen cfg.blockSize computed bl.length parts) :
    ∃ hi, hi + skippedFrom s.promptLen computed parts + computed = lo + s.promptLen ∧
      Emitted cfg s (bl ++ parts.flatMap blocksOf)
        lo hi (emittedFrom cfg r s computed lo bl parts) := by
  induction parts generalizing computed lo bl with
  | nil =>
    have hle : s.promptLen ≤ computed := hf
    exact ⟨lo, by rw [skippedFrom]; omega, Emitted.nil le_rfl (lt_irrefl _)⟩
  | cons pa parts ih =>
    obtain ⟨hpa, hf⟩ := hf
    cases pa with
    | none =>
      obtain ⟨hi, hs, he⟩ := ih hlo hc hh hf
      refine ⟨hi, ?_, he⟩
      rw [skippedFrom]
      simpa [tokensOf] using hs
    | some pa =>
      rw [emittedFrom]
      rcases lt_or_ge computed s.promptLen with hlt | hge
      · obtain ⟨hp, hr, -⟩ := hpa pa rfl hlt
        rw [if_neg (not_le.mpr hlt)]
        cases hn : pa.newBlockIds with
        | none =>
          have hb : blocksOf (some pa) = [] := by simp [blocksOf, hn]
          rw [hb] at hf hr
          obtain ⟨hi, hs, he⟩ := ih (le_add_right_of_le hlo) hp hr hf
          refine ⟨hi, ?_, ?_⟩
          · rw [skippedFrom]
            simp only [elim_some, hlt, hn, and_self, if_true]
            change hi + (pa.tokens + skippedFrom _ (computed + pa.tokens) _) + computed = _
            omega
          · rwa [flatMap_cons, hb, nil_append]
        | some new =>
          have hb : blocksOf (some pa) = new := by simp [blocksOf, hn]
          rw [hb] at hf hr
          rw [← length_append] at hf hr
          obtain ⟨hi, hs, he⟩ :=
            ih (show lo + pa.tokens ≤ computed + pa.tokens from Nat.add_le_add_right hlo _) hp hr hf
          refine ⟨hi, ?_, ?_⟩
          · rw [skippedFrom]
            simp only [elim_some, hn, reduceCtorEq, and_false, if_false]
            change hi + (0 + skippedFrom _ (computed + pa.tokens) _) + computed = _
            omega
          · rw [flatMap_cons, hb, ← append_assoc]
            refine Emitted.append (emitted_orderOf hbs (le_add_right _ _) (prefix_append _ _)
              (prefix_append _ _) ?_) he
            omega
      · rw [if_pos hge]
        refine ⟨lo, ?_, Emitted.nil le_rfl (lt_irrefl _)⟩
        rw [skippedFrom_decode hge]
        omega

theorem emitted_emitted (hbs : 0 < cfg.blockSize) (hf : s.Fits cfg.blockSize) :
    Emitted cfg s s.table 0 (s.promptLen - s.skipped) (emitted cfg r s) ∧
      s.skipped ≤ s.promptLen := by
  obtain ⟨hi, hs, he⟩ := emitted_emittedFrom (r := r) hbs le_rfl hf.prompt hf.blocks hf.parts
  have hs' : hi + s.skipped + (s.numComputedTokens + s.tokens) = s.numComputedTokens + s.tokens
      + s.promptLen := hs
  have hhi : s.promptLen - s.skipped = hi := by omega
  refine ⟨?_, by omega⟩
  rw [hhi]
  exact (emitted_orderOf hbs (zero_le _) prefix_rfl (prefix_append _ _) hf.blocks).append he

end Orders

end VllmDual.Store
