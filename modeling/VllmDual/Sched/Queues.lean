/-
  Subject:   QUEUES OF WAITING REQUESTS (`v1/core/sched/request_queue.py`, `Request.__lt__`
             in `v1/request.py`, and the calls of the queues in `v1/core/sched/scheduler.py`).

  * `heaps_run`, `pops_are_minimal` -- the heaps stay heaps if no session in a queue gets another
    arrival time;
  * `late_chunk` -- a chunk for a session in the queue moves its arrival time, not the session;
  * `Fcfs`, `Fcfs.skips_keep_order` -- first come, first served: skipped requests keep their order.
-/
import VllmDual.Lib.Heapq

namespace VllmDual.Sched

open List Heapq

/-! ## 1. Requests and their order -/

/-- The identity of a request object, and what `id` gives for it. -/
abbrev Ref := Nat

/-- `RequestStatus`; nothing here tells the finished ones apart. -/
inductive RequestStatus where
  | waiting
  | waitingForFsm
  | waitingForRemoteKvs
  | waitingForStreamingReq
  | running
  | preempted
  | finished
deriving DecidableEq

/-- `_is_blocked_waiting_status`. -/
def RequestStatus.isBlocked (status : RequestStatus) : Bool :=
  status = waitingForFsm || status = waitingForRemoteKvs || status = waitingForStreamingReq

structure Request where
  priority : Int
  arrivalTime : ℚ
  requestId : String
  status : RequestStatus

/-- `(priority, arrival_time, request_id)`. -/
def Request.key (req : Request) : ℤ ×ₗ ℚ ×ₗ String :=
  toLex (req.priority, toLex (req.arrivalTime, req.requestId))

variable (os : Ref → Request)

/-- `Request.__lt__`, with the present fields of both objects. -/
def Request.lt (a b : Ref) : Bool :=
  if (os a).priority ≠ (os b).priority then (os a).priority < (os b).priority
  else if (os a).arrivalTime ≠ (os b).arrivalTime then (os a).arrivalTime < (os b).arrivalTime
  else if (os a).requestId ≠ (os b).requestId then (os a).requestId < (os b).requestId
  else a < b

theorem Request.lt_iff (a b : Ref) :
    lt os a b = true ↔ toLex ((os a).key, a) < toLex ((os b).key, b) := by
  unfold lt key
  simp only [Prod.Lex.toLex_lt_toLex, EmbeddingLike.apply_eq_iff_eq, Prod.mk.injEq]
  split_ifs <;> simp_all

theorem Request.lt_weakOrder : WeakOrder (lt os) where
  asymm h := by
    rw [Bool.eq_false_iff, ne_eq, lt_iff, not_lt]
    exact ((lt_iff os _ _).mp h).le
  trans h h' := by
    rw [Bool.eq_false_iff, ne_eq, lt_iff, not_lt] at *
    exact h.trans h'

theorem Request.key_le {os : Ref → Request} {a b : Ref} (h : lt os b a = false) :
    (os a).key ≤ (os b).key := by
  rw [Bool.eq_false_iff, ne_eq, lt_iff, not_lt] at h
  exact Prod.Lex.monotone_fst _ _ h

theorem Request.lt_congr {os o' : Ref → Request} {a b : Ref} (ha : (o' a).key = (os a).key)
    (hb : (o' b).key = (os b).key) : lt o' a b = lt os a b := by
  rw [Bool.eq_iff_iff, lt_iff, lt_iff, ha, hb]

/-! ## 2. The queues of the scheduler -/

/-- The queues of `Scheduler`, and the one that a call of `schedule` keeps. -/
inductive Which where
  | waiting
  | skippedWaiting
  | stepSkippedWaiting
deriving DecidableEq

structure Queues where
  objs : Ref → Request
  heap : Which → List Ref

/-- What happens to the queues. `skip` and `run` are about the front request of the selected queue,
    `requeue` puts the skipped ones back; a session gets a chunk while it waits, or stops, with or
    without one in its own queue. -/
inductive Call where
  | enqueue (r : Ref)
  | preempt (r : Ref)
  | setStatus (r : Ref) (status : RequestStatus)
  | skip
  | run
  | requeue
  | addChunk (r : Ref) (arrivalTime : ℚ)
  | stop (r : Ref) (next : Option ℚ)
  | removeRequest (w : Which) (r : Ref)
  | removeRequests (rs : List Ref)

namespace Queues

variable (s : Queues) (w : Which) (r : Ref)

def put (a : List Ref) : Queues := { s with heap := Function.update s.heap w a }

def setObj (req : Request) : Queues := { s with objs := Function.update s.objs r req }

/-- `add_request`, and `prepend_request`, which is the same. -/
def addRequest : Queues := s.put w (heappush (Request.lt s.objs) (s.heap w) r)

/-- `pop_request`; `none` where it raises. -/
def popRequest : Option (Ref × Queues) :=
  (heappop (Request.lt s.objs) (s.heap w)).map fun p => (p.1, s.put w p.2)

/-- `peek_request`; `none` where it raises. -/
def peekRequest : Option Ref := (s.heap w).head?

/-- `__iter__`: a copy of the heap is popped until it is empty. -/
def iter (lt : Ref → Ref → Bool) : Nat → List Ref → List Ref
  | 0, _ => []
  | n + 1, a => match heappop lt a with
    | none => []
    | some (r, b) => r :: iter lt n b

def prependRequests (rs : List Ref) : Queues := rs.foldl (fun s r => s.addRequest w r) s

def removeRequests (rs : List Ref) : Queues :=
  s.put w (heapify (Request.lt s.objs) ((s.heap w).filter (· ∉ rs)))

def enqueueWaitingRequest : Queues :=
  s.addRequest (if (s.objs r).status.isBlocked then .skippedWaiting else .waiting) r

/-- `_select_waiting_queue_for_scheduling`. -/
def selectWaitingQueue : Option Which :=
  match s.peekRequest .waiting, s.peekRequest .skippedWaiting with
  | some waitingReq, some skippedReq =>
    some (if Request.lt s.objs waitingReq skippedReq then .waiting else .skippedWaiting)
  | some _, none => some .waiting
  | none, some _ => some .skippedWaiting
  | none, none => none

/-- `_update_request_as_session`, as far as the queues are concerned. -/
def updateRequestAsSession (arrivalTime : ℚ) : Queues :=
  s.setObj r { s.objs r with arrivalTime := arrivalTime, status := .waiting }

def setStatus (status : RequestStatus) : Queues := s.setObj r { s.objs r with status := status }

def step : Call → Queues
  | .enqueue r => s.enqueueWaitingRequest r
  | .preempt r => (s.setStatus r .preempted).addRequest .waiting r
  | .setStatus r status => s.setStatus r status
  | .skip => match s.selectWaitingQueue.bind s.popRequest with
    | none => s
    | some (r, s) => s.addRequest .stepSkippedWaiting r
  | .run => match s.selectWaitingQueue.bind s.popRequest with
    | none => s
    | some (r, s) => s.setStatus r .running
  | .requeue =>
    let rs := iter (Request.lt s.objs)
      (s.heap .stepSkippedWaiting).length (s.heap .stepSkippedWaiting)
    (s.prependRequests .skippedWaiting rs).put .stepSkippedWaiting []
  | .addChunk r arrivalTime =>
    -- a session that is not waiting for it keeps the chunk in its `streaming_queue`
    if (s.objs r).status = .waitingForStreamingReq then
      s.updateRequestAsSession r arrivalTime else s
  | .stop r next =>
    (match next with
      | some arrivalTime => s.updateRequestAsSession r arrivalTime
      | none => s.setStatus r .waitingForStreamingReq).enqueueWaitingRequest r
  | .removeRequest w r =>
    if r ∈ s.heap w then s.put w (heapify (Request.lt s.objs) ((s.heap w).erase r)) else s
  | .removeRequests rs => (s.removeRequests .waiting rs).removeRequests .skippedWaiting rs

def run (calls : List Call) : Queues := calls.foldl (fun s c => s.step c) s

/-- No session that is in a queue gets another arrival time. -/
def Keeps : Call → Prop
  | .addChunk r arrivalTime => (s.objs r).status = .waitingForStreamingReq →
      ∀ w, r ∈ s.heap w → arrivalTime = (s.objs r).arrivalTime
  | .stop r (some arrivalTime) => ∀ w, r ∈ s.heap w → arrivalTime = (s.objs r).arrivalTime
  | _ => True

def KeepsAll : Queues → List Call → Prop
  | _, [] => True
  | s, c :: calls => s.Keeps c ∧ KeepsAll (s.step c) calls

def Heaps : Prop := ∀ w, IsHeap (Request.lt s.objs) (s.heap w)

variable {s w r}

section

variable (h : s.Heaps)
include h

theorem Heaps.put {a : List Ref} (ha : IsHeap (Request.lt s.objs) a) : (s.put w a).Heaps :=
  (Function.forall_update_iff s.heap fun _ a => IsHeap (Request.lt s.objs) a).mpr ⟨ha,
    fun w _ => h w⟩

theorem Heaps.setObj {req : Request} (hk : ∀ w, r ∈ s.heap w → req.key = (s.objs r).key) :
    (s.setObj r req).Heaps := by
  intro w j hj hs x hx y hy
  have hm : ∀ z ∈ s.heap w, ((s.setObj r req).objs z).key = (s.objs z).key := by
    intro z hz
    by_cases e : z = r
    · subst e
      simpa [Queues.setObj] using hk w hz
    · simp [Queues.setObj, e]
  rw [Request.lt_congr (hm y (mem_of_getElem? hy)) (hm x (mem_of_getElem? hx))]
  exact h w j hj hs x hx y hy

theorem Heaps.setStatus {st : RequestStatus} : (s.setStatus r st).Heaps :=
  h.setObj fun _ _ => rfl

theorem Heaps.addRequest : (s.addRequest w r).Heaps :=
  h.put (heappush_spec (Request.lt_weakOrder _) (h w) r).1

theorem Heaps.prependRequests {rs : List Ref} : (s.prependRequests w rs).Heaps := by
  induction rs generalizing s with
  | nil => exact h
  | cons r rs ih => exact ih h.addRequest

theorem Heaps.removeRequests {rs : List Ref} : (s.removeRequests w rs).Heaps :=
  h.put (heapify_spec (Request.lt_weakOrder _) _).1

theorem Heaps.update {t : ℚ} (ht : ∀ w, r ∈ s.heap w → t = (s.objs r).arrivalTime) :
    (s.updateRequestAsSession r t).Heaps :=
  h.setObj fun w hw => by rw [ht w hw]; rfl

theorem Heaps.popped {s' : Queues} (e : s.selectWaitingQueue.bind s.popRequest = some (r, s')) :
    s'.Heaps := by
  obtain ⟨w, -, e⟩ := Option.bind_eq_some_iff.mp e
  obtain ⟨⟨x, a⟩, hp, e⟩ := Option.map_eq_some_iff.mp e
  cases e
  exact h.put (heappop_spec (Request.lt_weakOrder _) (h w) hp).1

theorem heaps_step {c : Call} (hc : s.Keeps c) : (s.step c).Heaps := by
  cases c with
  | enqueue r => exact h.addRequest
  | preempt r => exact h.setStatus.addRequest
  | setStatus r st => exact h.setStatus
  | skip =>
    simp only [step]
    split
    · exact h
    · rename_i e
      exact (h.popped e).addRequest
  | run =>
    simp only [step]
    split
    · exact h
    · rename_i e
      exact (h.popped e).setStatus
  | requeue => exact h.prependRequests.put (by intro j _ _ x hx; simp at hx)
  | addChunk r t =>
    simp only [step]
    split
    · rename_i hs
      exact h.update (hc hs)
    · exact h
  | stop r next =>
    cases next with
    | none => exact h.setStatus.addRequest
    | some t => exact (h.update hc).addRequest
  | removeRequest w r =>
    simp only [step]
    split
    · exact h.put (heapify_spec (Request.lt_weakOrder _) _).1
    · exact h
  | removeRequests rs => exact h.removeRequests.removeRequests

end

theorem heaps_run {cs : List Call} (h : s.Heaps) (hc : s.KeepsAll cs) : (s.run cs).Heaps := by
  induction cs generalizing s with
  | nil => exact h
  | cons c cs ih => exact ih (heaps_step h hc.1) hc.2

def start (objs : Ref → Request) : Queues := ⟨objs, fun _ => []⟩

theorem pops_are_minimal (objs : Ref → Request) (calls : List Call)
    (hc : (start objs).KeepsAll calls) (w : Which) :
    let s := (start objs).run calls
    (s.heap w ≠ [] → (s.peekRequest w).isSome ∧ (s.popRequest w).isSome) ∧
      (∀ r, s.peekRequest w = some r ∨ (∃ s', s.popRequest w = some (r, s')) →
        r ∈ s.heap w ∧ ∀ r' ∈ s.heap w, (s.objs r).key ≤ (s.objs r').key) ∧
      ∀ r s', s.popRequest w = some (r, s') → (s.heap w).Perm (r :: s'.heap w) := by
  intro s
  have h : s.Heaps := heaps_run (fun w j _ _ x hx => by simp [start] at hx) hc
  have o := Request.lt_weakOrder s.objs
  refine ⟨fun hne => ?_, fun r hr => ?_, fun r s' hr => ?_⟩
  · exact ⟨by simpa [peekRequest] using hne, by simpa [popRequest] using heappop_isSome _ hne⟩
  · suffices hl : r ∈ s.heap w ∧ ∀ r' ∈ s.heap w, Request.lt s.objs r' r = false from
      ⟨hl.1, fun r' hr' => Request.key_le (hl.2 r' hr')⟩
    rcases hr with hr | ⟨s', hr⟩
    · rw [peekRequest, head?_eq_getElem?] at hr
      refine ⟨mem_of_getElem? hr, fun r' hr' => ?_⟩
      obtain ⟨i, hi⟩ := mem_iff_getElem?.mp hr'
      exact (h w).root_least o hr i hi
    · obtain ⟨⟨x, a⟩, hp, e⟩ := Option.map_eq_some_iff.mp hr
      cases e
      obtain ⟨-, hperm, hleast⟩ := heappop_spec o (h w) hp
      exact ⟨hperm.mem_iff.mpr mem_cons_self, hleast⟩
  · obtain ⟨⟨x, a⟩, hp, e⟩ := Option.map_eq_some_iff.mp hr
    cases e
    simpa [put] using (heappop_spec o (h w) hp).2.1

def sessions (r : Ref) : Request :=
  if r = 0 then ⟨0, 1, "a", .waiting⟩ else ⟨0, 2, "b", .waiting⟩

def bothStop : List Call := [.enqueue 0, .enqueue 1, .run, .run, .stop 0 none, .stop 1 none]

theorem older_session_first : let s := (start sessions).run bothStop
    s.peekRequest .skippedWaiting = some 0 ∧
      0 ∈ s.heap .skippedWaiting ∧ ∀ r' ∈ s.heap .skippedWaiting,
        (s.objs 0).key ≤ (s.objs r').key :=
  ⟨by decide, (pops_are_minimal sessions bothStop (by simp [bothStop, KeepsAll, Keeps])
    .skippedWaiting).2.1 0 (.inl (by decide))⟩

/-- The chunk for the first session arrives last, and the session still comes first. -/
theorem late_chunk : let s := (start sessions).run (bothStop ++ [.addChunk 0 3])
    s.peekRequest .skippedWaiting = some 0 ∧ 1 ∈ s.heap .skippedWaiting ∧
      (s.objs 1).key < (s.objs 0).key := by
  decide

end Queues

/-! ## 3. First come, first served -/

/-- The queues of `Scheduler` under FCFS, and the running requests. -/
structure Fcfs where
  waiting : List Ref
  skippedWaiting : List Ref
  running : List Ref

/-- What the waiting loop does with the front request: it goes to `step_skipped_waiting` (blocked,
    unresolved lookup, bootstrap deferral, asynchronous load), it runs, the loop stops, or a call
    raises. -/
inductive Verdict where
  | skip
  | run
  | stop
  | raise

/-- `deque.extendleft`: `appendleft` for one item after the other. -/
def extendleft (q rs : List Ref) : List Ref := rs.foldl (fun q r => r :: q) q

theorem extendleft_eq (q rs : List Ref) : extendleft q rs = rs.reverse ++ q :=
  foldl_flip_cons_eq_append' ..

namespace Fcfs

/-- The last `n` running requests are preempted, the last one first. -/
def preempt (n : Nat) (s : Fcfs) : Fcfs :=
  { s with
    running := s.running.take (s.running.length - n)
    waiting := extendleft s.waiting (s.running.reverse.take n) }

/-- `pop_request` of the queue that `_select_waiting_queue_for_scheduling` gives. -/
def popRequest (s : Fcfs) : Option (Ref × Fcfs) :=
  match s.skippedWaiting, s.waiting with
  | r :: q, _ => some (r, { s with skippedWaiting := q })
  | [], r :: q => some (r, { s with waiting := q })
  | [], [] => none

/-- `skipped_waiting.prepend_requests(step)`. -/
def prependRequests (s : Fcfs) (step : List Ref) : Fcfs :=
  { s with skippedWaiting := extendleft s.skippedWaiting step }

/-- The waiting loop; `step` is `step_skipped_waiting`. -/
def loop : List Verdict → List Ref → Fcfs → Fcfs
  | [], step, s => s.prependRequests step
  | v :: vs, step, s => match v, s.popRequest with
    | .skip, some (r, s) => loop vs (r :: step) s
    | .run, some (r, s) => loop vs step { s with running := s.running ++ [r] }
    -- nothing puts the skipped requests back
    | .raise, some _ => s
    | _, _ => s.prependRequests step

/-- `schedule()`, with `n` preemptions by the running requests. -/
def schedule (n : Nat) (unpaused : Bool) (vs : List Verdict) (s : Fcfs) : Fcfs :=
  if n = 0 ∧ unpaused then loop vs [] s else preempt n s

theorem popRequest_eq_some {s s' : Fcfs} {r : Ref} (h : s.popRequest = some (r, s')) :
    s.skippedWaiting ++ s.waiting = r :: (s'.skippedWaiting ++ s'.waiting) := by
  unfold popRequest at h
  split at h <;> cases h <;> simp_all

theorem prependRequests_queues (s : Fcfs) (st : List Ref) :
    (s.prependRequests st).skippedWaiting ++ s.waiting <+ st.reverse ++
      (s.skippedWaiting ++ s.waiting) := by
  rw [prependRequests, extendleft_eq, append_assoc]

theorem loop_sublist (vs : List Verdict) (st : List Ref) (s : Fcfs) :
    (loop vs st s).skippedWaiting ++ (loop vs st s).waiting <+ st.reverse ++
      (s.skippedWaiting ++ s.waiting) := by
  induction vs generalizing st s with
  | nil => exact prependRequests_queues s st
  | cons v vs ih =>
    unfold loop
    split
    · rename_i r s' hp
      rw [popRequest_eq_some hp]
      simpa using ih (r :: st) s'
    · rename_i r s' hp
      rw [popRequest_eq_some hp]
      exact (ih st _).trans ((sublist_cons_self r _).append_left _)
    · exact sublist_append_right ..
    · exact prependRequests_queues s st

theorem skips_keep_order (n : Nat) (unpaused : Bool) (vs : List Verdict) (s : Fcfs) :
    ∃ w, (s.schedule n unpaused vs).waiting = (s.running.reverse.take n).reverse ++ w ∧
      (s.schedule n unpaused vs).skippedWaiting ++ w <+ s.skippedWaiting ++ s.waiting := by
  unfold schedule
  split
  · rename_i h
    exact ⟨_, by simp [h.1], loop_sublist vs [] s⟩
  · exact ⟨s.waiting, extendleft_eq .., .refl _⟩

end Fcfs

end VllmDual.Sched
