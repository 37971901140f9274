/-
  Subject:   WHICH CHILD LOADS A REQUEST (`AscendMultiConnector.get_num_new_matched_tokens`,
             `update_state_after_alloc`, `ascend/ascend_multi_connector.py`).

  A lookup asks every child how many tokens it can load; the first that answers with some is chosen.
  The choice is kept until the request has finished, and the allocation hands the blocks to the
  chosen child. A lookup may be repeated before an allocation succeeds:

  * `load_reaches_match` -- in a run without a lookup over an old choice, the blocks reach the child
    that matched; `stale_choice` -- a run with one.
-/
import VllmDual.Connector.Aggregator
import VllmDual.Split.Wire

namespace VllmDual.Connector

open Outcome Split Function Prod

/-! ## 1. The methods -/

/-- What the choice asks of a child: `supports_dsa_compact_external_load`, and whether it is a
    `MooncakeLayerwiseConnector`, a `MooncakeDSAIndexConnector` and a `SupportsHMA`. -/
structure MatchChild where
  supportsDsaCompactLoad : Bool
  isLayerwise : Bool
  isDsaIndex : Bool
  supportsHma : Bool

def MatchChild.shouldReceiveAllocUpdate (c : MatchChild) : Bool := c.isLayerwise || c.isDsaIndex

/-- A request as the connector sees it. -/
structure MatchRequest where
  requestId : RequestId
  numComputedTokens : Nat
  kvTransferParams : PyVal

variable (children : List MatchChild) (m : MatchState) (request : MatchRequest)

def hasRemotePrefillBlocks : Bool :=
  match request.kvTransferParams with
  | .dict params =>
    ((lookup params "do_remote_prefill").getD .none).truthy &&
      ((lookup params "remote_block_ids").getD .none).truthy
      && ["remote_engine_id", "remote_host", "remote_port", "remote_request_id"].all
        fun key => !((lookup params key).getD .none).isNone
  | _ => false

/-- `KVCacheBlocks`: the blocks of each group. -/
abbrev GroupBlocks := List (List Nat)

def GroupBlocks.newEmpty (blocks : GroupBlocks) : GroupBlocks := blocks.map fun _ => []

def blocksForConnector (c : MatchChild) (blocks : GroupBlocks) :
    Except ConnectorError GroupBlocks :=
  if c.supportsHma then .ok blocks
  else
    match blocks with
    | group :: _ => .ok [group]
    | [] => .error (.runtimeError "Expected KV cache group 0, but only 0 groups exist.")

/-- `_requests_to_connector`, `_index_load_async_req_ids` and
    `_selected_supports_dsa_compact_load`. -/
structure MatchState where
  requestsToConnector : RequestId → Option Nat
  indexLoadAsyncReqIds : Finset RequestId
  selectedSupportsDsaCompactLoad : Bool

def MatchState.init : MatchState := ⟨fun _ => none, ∅, false⟩

/-- What each child answers in a lookup: a number of tokens, or that it cannot say yet, and whether
    it loads asynchronously. -/
abbrev MatchAnswers := Nat → Option Nat × Bool

def matchChildren (r : RequestId) (answers : MatchAnswers) :
    List (MatchChild × Nat) → MatchState → Nat × Bool → Bool × MatchState × (Nat × Bool)
  | [], m, toReturn => (true, m, toReturn)
  | (child, i) :: rest, m, toReturn =>
    match answers i with
    | (none, _) => (false, m, toReturn)
    | (some tokens, loadAsync) =>
      if toReturn.1 = 0 ∧ 0 < tokens then
        matchChildren r answers rest
          { m with
            requestsToConnector := update m.requestsToConnector r (some i)
            selectedSupportsDsaCompactLoad := child.supportsDsaCompactLoad }
          (tokens, loadAsync)
      else
        matchChildren r answers rest m toReturn

def getNumNewMatchedTokens (answers : MatchAnswers) : (Option Nat × Bool) × MatchState :=
  let m := { m with selectedSupportsDsaCompactLoad := false }
  match matchChildren request.requestId answers children.zipIdx m (0, false) with
  | (false, m, _) => ((none, false), m)
  | (true, m, tokens, loadAsync) =>
    if 0 < tokens ∧ !loadAsync ∧ children.any (·.isDsaIndex) ∧ hasRemotePrefillBlocks request then
      ((some tokens, true),
        { m with indexLoadAsyncReqIds := insert request.requestId m.indexLoadAsyncReqIds })
    else
      ((some tokens, loadAsync), m)

/-- A call of a child's `update_state_after_alloc`: the child, its blocks and its tokens. -/
abbrev AllocCall := Nat × GroupBlocks × Nat

/-- The call of one child: the chosen one and those that always receive the update get the blocks
    and the tokens, the others nothing. -/
def allocCall (chosen : Option Nat) (blocks : GroupBlocks) (numExternalTokens : Nat)
    (e : MatchChild × Nat) : Except ConnectorError AllocCall := do
  let shouldUpdate : Bool := chosen = some e.2 || e.1.shouldReceiveAllocUpdate
  let targetBlocks ← blocksForConnector e.1 (if shouldUpdate then blocks else blocks.newEmpty)
  return (e.2, targetBlocks, if shouldUpdate then numExternalTokens else 0)

def updateStateAfterAlloc (blocks : GroupBlocks) (numExternalTokens : Nat) :
    Except ConnectorError (List AllocCall × MatchState) := do
  let chosen := m.requestsToConnector request.requestId
  let skipChosenZeroUpdate : Bool := numExternalTokens = 0
    ∧ request.requestId ∈ m.indexLoadAsyncReqIds ∧ 0 < request.numComputedTokens ∧ chosen.isSome
  let targets := children.zipIdx.filter fun e => !(skipChosenZeroUpdate && chosen = some e.2)
  let calls ← targets.mapM (allocCall chosen blocks numExternalTokens)
  return (calls, if skipChosenZeroUpdate then
      { m with indexLoadAsyncReqIds := m.indexLoadAsyncReqIds.erase request.requestId }
    else m)

/-- What `request_finished_all_groups` does to the choice. -/
def MatchState.requestFinished (r : RequestId) : MatchState :=
  { m with
    requestsToConnector := update m.requestsToConnector r none
    indexLoadAsyncReqIds := m.indexLoadAsyncReqIds.erase r }

/-! ## 2. What a lookup chooses -/

/-- The first of the children asked that answers with some tokens. No child is asked after one that
    cannot say. -/
def firstMatchOf (answers : MatchAnswers) : List (MatchChild × Nat) → Option (MatchChild × Nat)
  | [] => none
  | (child, i) :: rest =>
    match (answers i).1 with
    | none => none
    | some tokens => if 0 < tokens then some (child, i) else firstMatchOf answers rest

def firstMatch (answers : MatchAnswers) : Option (MatchChild × Nat) :=
  firstMatchOf answers children.zipIdx

section Lookup

variable {children : List MatchChild} {m : MatchState} {request : MatchRequest}
  {answers : MatchAnswers} {r : RequestId} {rest : List (MatchChild × Nat)} {tr : Nat × Bool}

theorem matchChildren_of_pos (hp : 0 < tr.1) : (matchChildren r answers rest m tr).2 = (m, tr) := by
  induction rest with
  | nil => rfl
  | cons e rest ih =>
    unfold matchChildren
    split
    · rfl
    · rw [if_neg fun h => absurd h.1 hp.ne']
      exact ih

theorem matchChildren_state (la : Bool) :
    (matchChildren r answers rest m (0, la)).2.1
      = match firstMatchOf answers rest with
        | none => m
        | some (c, i) =>
          { m with
            requestsToConnector := update m.requestsToConnector r (some i)
            selectedSupportsDsaCompactLoad := c.supportsDsaCompactLoad } := by
  induction rest with
  | nil => rfl
  | cons e rest ih =>
    obtain ⟨c, i⟩ := e
    unfold matchChildren firstMatchOf
    split
    · rename_i ha
      rw [ha]
    · rename_i ts la' ha
      rw [ha]
      by_cases ht : 0 < ts
      · rw [if_pos ⟨rfl, ht⟩, matchChildren_of_pos ht]
        simp only [ht, if_true]
      · rw [if_neg fun h => ht h.2, ih]
        simp only [ht, if_false]

theorem getNumNewMatchedTokens_loop (ch : List MatchChild) (m : MatchState) (req : MatchRequest)
    (an : MatchAnswers) : (getNumNewMatchedTokens ch m req an).2.requestsToConnector
        = (matchChildren req.requestId an ch.zipIdx
            { m with selectedSupportsDsaCompactLoad := false } (0, false)).2.1.requestsToConnector ∧
      (getNumNewMatchedTokens ch m req an).2.selectedSupportsDsaCompactLoad
        = (matchChildren req.requestId an ch.zipIdx
          { m with selectedSupportsDsaCompactLoad := false }
            (0, false)).2.1.selectedSupportsDsaCompactLoad := by
  unfold getNumNewMatchedTokens
  dsimp only
  split
  · rename_i hl
    rw [hl]
    exact ⟨rfl, rfl⟩
  · rename_i hl
    rw [hl]
    split <;> exact ⟨rfl, rfl⟩

theorem getNumNewMatchedTokens_chosen :
    (getNumNewMatchedTokens children m request answers).2.requestsToConnector
      = match firstMatch children answers with
        | none => m.requestsToConnector
        | some (_, i) => update m.requestsToConnector request.requestId (some i) := by
  rw [(getNumNewMatchedTokens_loop children m request answers).1, matchChildren_state, firstMatch]
  cases firstMatchOf answers children.zipIdx <;> rfl

theorem getNumNewMatchedTokens_selected :
    (getNumNewMatchedTokens children m request answers).2.selectedSupportsDsaCompactLoad
      = (firstMatch children answers).any fun e => e.1.supportsDsaCompactLoad := by
  rw [(getNumNewMatchedTokens_loop children m request answers).2, matchChildren_state, firstMatch]
  cases firstMatchOf answers children.zipIdx <;> rfl

theorem updateStateAfterAlloc_of_pos {bs : GroupBlocks} {n : Nat} (hn : 0 < n) :
    updateStateAfterAlloc children m request bs n
      = (fun cs => (cs, m)) <$> children.zipIdx.mapM
        (allocCall (m.requestsToConnector request.requestId) bs n) := by
  have hz : ¬ n = 0 := hn.ne'
  simp only [updateStateAfterAlloc, hz, false_and, decide_false, Bool.false_and, Bool.not_false,
    List.filter_true, Bool.false_eq_true, if_false]
  rfl

end Lookup

/-! ## 3. Runs -/

inductive MatchEvent where
  | lookup (request : MatchRequest) (answers : MatchAnswers)
  | alloc (request : MatchRequest) (blocks : GroupBlocks) (numExternalTokens : Nat)
  | finished (r : RequestId)

def matchStep (children : List MatchChild) (m : MatchState) : MatchEvent → MatchState
  | .lookup request answers => (getNumNewMatchedTokens children m request answers).2
  | .alloc request blocks n =>
    match updateStateAfterAlloc children m request blocks n with
    | .ok (_, m') => m'
    | .error _ => m
  | .finished r => m.requestFinished r

def matchRun (children : List MatchChild) (events : List MatchEvent) : MatchState :=
  events.foldl (matchStep children) .init

def noteLookup (r : RequestId) (latest : Option MatchAnswers) : MatchEvent → Option MatchAnswers
  | .lookup request answers => if request.requestId = r then some answers else latest
  | .alloc .. => latest
  | .finished r' => if r' = r then none else latest

/-- The answers of the latest lookup of a request that has not finished since. -/
def latestLookup (r : RequestId) (events : List MatchEvent) : Option MatchAnswers :=
  events.foldl (noteLookup r) none

def lastLookup (events : List MatchEvent) : Option MatchAnswers :=
  events.foldl (fun last event =>
    match event with
    | .lookup _ answers => some answers
    | _ => last) none

/-- A lookup without a match comes only when the request has no choice. -/
def NoStale (children : List MatchChild) (m : MatchState) : MatchEvent → Prop
  | .lookup request answers =>
    firstMatch children answers = none → m.requestsToConnector request.requestId = none
  | _ => True

/-- Every call of a run from `m` meets `NoStale`. -/
def RunsFresh (children : List MatchChild) : MatchState → List MatchEvent → Prop
  | _, [] => True
  | m, event :: events =>
    NoStale children m event ∧ RunsFresh children (matchStep children m event) events

section Runs

variable {children : List MatchChild} {m : MatchState} {ev : MatchEvent}
  {events : List MatchEvent} {r : RequestId} {l : Option MatchAnswers}

theorem matchStep_alloc (ch : List MatchChild) (m : MatchState) (req : MatchRequest)
    (bs : GroupBlocks) (n : Nat) :
    (matchStep ch m (.alloc req bs n)).requestsToConnector = m.requestsToConnector ∧
      (matchStep ch m (.alloc req bs n)).selectedSupportsDsaCompactLoad
        = m.selectedSupportsDsaCompactLoad := by
  unfold matchStep
  dsimp only
  split
  · rename_i hok
    unfold updateStateAfterAlloc at hok
    obtain ⟨cs, -, hs⟩ := of_bind hok
    cases pure_eq_ok.mp hs
    split <;> exact ⟨rfl, rfl⟩
  · exact ⟨rfl, rfl⟩

theorem matchStep_chosen (hf : NoStale children m ev)
    (hm : m.requestsToConnector r = (l.bind (firstMatch children)).map snd) :
    (matchStep children m ev).requestsToConnector r
      = ((noteLookup r l ev).bind (firstMatch children)).map snd := by
  cases ev with
  | lookup request an =>
    simp only [matchStep, getNumNewMatchedTokens_chosen, noteLookup]
    by_cases hr : request.requestId = r
    · rw [if_pos hr, Option.bind_some]
      cases hfi : firstMatch children an with
      | none => exact hr ▸ hf hfi
      | some e => simp [hr]
    · rw [if_neg hr, ← hm]
      cases firstMatch children an with
      | none => rfl
      | some e => exact update_of_ne (Ne.symm hr) _ _
  | alloc request blocks n => rw [(matchStep_alloc children m request blocks n).1, hm]; rfl
  | finished r' =>
    simp only [matchStep, MatchState.requestFinished, noteLookup]
    by_cases hr : r' = r
    · simp [hr]
    · rw [if_neg hr, ← hm]
      exact update_of_ne (Ne.symm hr) _ _

theorem foldl_chosen (hf : RunsFresh children m events)
    (hm : m.requestsToConnector r = (l.bind (firstMatch children)).map snd) :
    (events.foldl (matchStep children) m).requestsToConnector r
      = ((events.foldl (noteLookup r) l).bind (firstMatch children)).map snd := by
  induction events generalizing m l with
  | nil => exact hm
  | cons ev events ih => exact ih hf.2 (matchStep_chosen hf.1 hm)

theorem selected_run (ch : List MatchChild) (es : List MatchEvent) :
    (matchRun ch es).selectedSupportsDsaCompactLoad
      = ((lastLookup es).bind (firstMatch ch)).any fun e => e.1.supportsDsaCompactLoad := by
  induction es using List.reverseRecOn with
  | nil => rfl
  | append_singleton es ev ih =>
    rw [matchRun, lastLookup, List.foldl_concat, List.foldl_concat]
    cases ev with
    | lookup request an => exact getNumNewMatchedTokens_selected
    | alloc request blocks n => exact (matchStep_alloc ch _ request blocks n).2.trans ih
    | finished r => exact ih

/-- **The load reaches the child that matched**, in every run in which no lookup without a match
    meets an old choice: the choice is the first match of the latest lookup; an allocation with
    external tokens hands the blocks to that child and to those that always receive them, and
    nothing to the others. -/
theorem load_reaches_match (children : List MatchChild) (events : List MatchEvent)
    (hfresh : RunsFresh children .init events) (r : RequestId) :
    (matchRun children events).requestsToConnector r
      = ((latestLookup r events).bind (firstMatch children)).map snd ∧
      (∀ request blocks n, request.requestId = r → 0 < n →
        updateStateAfterAlloc children (matchRun children events) request blocks n
          = (fun calls => (calls, matchRun children events)) <$>
            children.zipIdx.mapM (allocCall
              (((latestLookup r events).bind (firstMatch children)).map snd) blocks n)) ∧
      (matchRun children events).selectedSupportsDsaCompactLoad
        = ((lastLookup events).bind (firstMatch children)).any
            fun e => e.1.supportsDsaCompactLoad := by
  have hc : (matchRun children events).requestsToConnector r
      = ((latestLookup r events).bind (firstMatch children)).map snd := foldl_chosen hfresh rfl
  refine ⟨hc, fun request blocks n hr hn => ?_, selected_run children events⟩
  rw [updateStateAfterAlloc_of_pos hn, hr, hc]

def plainRequest : MatchRequest := ⟨"r", 0, .none⟩

def twoChildren : List MatchChild := [⟨true, false, false, true⟩, ⟨false, false, false, true⟩]

def answersOf (first second : Option Nat) : MatchAnswers :=
  fun i => (if i = 0 then first else second, true)

/-- A retried lookup that matches again, then the allocation. -/
theorem load_reaches_match_retried :
    RunsFresh twoChildren .init [.lookup plainRequest (answersOf (some 16) (some 0)),
        .lookup plainRequest (answersOf (some 32) (some 0))] ∧
      updateStateAfterAlloc twoChildren (matchRun twoChildren
          [.lookup plainRequest (answersOf (some 16) (some 0)),
            .lookup plainRequest (answersOf (some 32) (some 0))]) plainRequest [[7, 8]] 32
        = (fun calls => (calls, matchRun twoChildren
            [.lookup plainRequest (answersOf (some 16) (some 0)),
              .lookup plainRequest (answersOf (some 32) (some 0))])) <$>
          twoChildren.zipIdx.mapM (allocCall (some 0) [[7, 8]] 32) := by
  have hf : RunsFresh twoChildren .init [.lookup plainRequest (answersOf (some 16) (some 0)),
      .lookup plainRequest (answersOf (some 32) (some 0))] := by
    refine ⟨fun h => ?_, fun h => ?_, trivial⟩ <;> simp [firstMatch, firstMatchOf, twoChildren,
      answersOf] at h
  exact ⟨hf, (load_reaches_match twoChildren _ hf "r").2.1 plainRequest [[7, 8]] 32 rfl (by decide)⟩

/-- **A stale choice**: the first child matches, the allocation fails, and in the repeated lookup no
    child matches. The first child is still the choice, and an allocation without external tokens
    hands it the blocks. -/
theorem stale_choice :
    let retried := matchRun twoChildren [.lookup plainRequest (answersOf (some 16) (some 0)),
      .lookup plainRequest (answersOf (some 0) (some 0))]
    firstMatch twoChildren (answersOf (some 0) (some 0)) = none ∧
    retried.requestsToConnector "r" = some 0 ∧
      (updateStateAfterAlloc twoChildren retried plainRequest [[7, 8]] 0).map fst
        = .ok [(0, [[7, 8]], 0), (1, [[]], 0)] ∧
      (updateStateAfterAlloc twoChildren retried plainRequest [[7, 8]] 16).map fst
        = .ok [(0, [[7, 8]], 16), (1, [[]], 0)] := by
  refine ⟨by rfl, by rfl, by rfl, by rfl⟩

end Runs

end VllmDual.Connector
