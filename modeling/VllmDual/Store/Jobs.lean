/-
  Subject:   THE SAVE JOBS OF THE STORE CONNECTOR
             (`KVCacheStoreSendingThread`, `ascend/kv_pool/ascend_store/kv_transfer.py`;
             `KVPoolWorker.wait_for_save` and `get_finished`, `pool_worker.py`).

  The worker counts a save job and enqueues it; a thread takes the jobs and counts them down; when a
  request has finished and nothing of it is left, the worker reports it. The worker's calls and the
  thread's jobs are cut into the steps between which the other can run.
-/
import VllmDual.Lib.Books
import VllmDual.Lib.OrderedDict

namespace VllmDual.Store

open List Finset OrderedDict

variable {ρ : Type} [DecidableEq ρ]

/-! ## 1. The worker and the thread -/

/-- A save job: a `ReqMeta` in the queue. -/
structure Job (ρ : Type) where
  id : Nat
  reqId : ρ
deriving DecidableEq

/-- How far the thread is with a job: taken from the queue; past the check that the request is still
    counted; past the put. -/
inductive Phase where
  | taken
  | admitted
  | stored

/-- Where the worker is in its call. `counted` is a request whose job is counted and not enqueued
    yet, `deleting` one that is reported and whose counter is not deleted yet. -/
inductive Call (ρ : Type) where
  | idle
  | saving (counted : Option ρ) (rest : List ρ)
  | preempting (rest finished : List ρ)
  | scanning (rest : List ρ) (deleting : Option ρ) (finished : List ρ) (finishedSending : Finset ρ)
  | finishing (rest : List ρ) (deleting : Option ρ) (finishedSending : Finset ρ)

inductive Event (ρ : Type) where
  | enqueued (job : Job ρ)
  | put (job : Job ρ)
  | preempted (reqId : ρ)
  | finished (reqId : ρ)
  | reported (finishedSending : Finset ρ)
deriving DecidableEq

structure World (ρ : Type) [DecidableEq ρ] where
  requestQueue : List (Job ρ)
  running : Option (Job ρ × Phase)
  storedRequests : OrderedDict ρ Int
  finishedStoreReq : Finset ρ
  call : Call ρ
  nextId : Nat
  log : List (Event ρ)

def start : World ρ := ⟨[], none, .empty, ∅, .idle, 0, []⟩

/-- A call begins, the worker or the thread goes on. `skip` is a job with nothing to put, `fail` a
    put that raises; a lookup that raises finds nothing. -/
inductive Act (ρ : Type) where
  | waitForSave (requests : List (ρ × Option Bool))
  | getFinished (finishedReqIds preemptedReqIds : List ρ)
  | work
  | take
  | check
  | skip
  | put
  | fail
  | done

/-! ## 2. The steps -/

namespace World

variable (w : World ρ)

def addStoredRequest (r : ρ) : World ρ :=
  { w with storedRequests := w.storedRequests.set r ((w.storedRequests.get r).getD 0 + 1) }

def decStoredRequest (r : ρ) : World ρ :=
  match w.storedRequests.get r with
  | none => w
  | some n => { w with storedRequests := w.storedRequests.set r (n - 1) }

def deleteFinishedStoredRequest (r : ρ) : World ρ :=
  { w with storedRequests := w.storedRequests.pop r }

def addRequest (r : ρ) : World ρ :=
  { w with
    requestQueue := w.requestQueue ++ [⟨w.nextId, r⟩]
    nextId := w.nextId + 1
    log := w.log ++ [.enqueued ⟨w.nextId, r⟩] }

/-- One request of the copy: the read of a missing counter would create it. -/
def examine (r : ρ) (rest finished : List ρ) (sending : Finset ρ) : World ρ :=
  let w := match w.storedRequests.get r with
    | none => { w with storedRequests := w.storedRequests.set r 0 }
    | some _ => w
  if w.storedRequests.get r = some 0 ∧ r ∈ w.finishedStoreReq then
    { w with
      finishedStoreReq := w.finishedStoreReq.erase r
      call := .scanning rest (some r) finished (insert r sending) }
  else
    { w with call := .scanning rest none finished sending }

def finish (r : ρ) (rest : List ρ) (sending : Finset ρ) : World ρ :=
  let w : World ρ := { w with log := w.log ++ [.finished r] }
  match w.storedRequests.get r with
  | none => { w with call := .finishing rest none sending }
  | some n =>
    if n = 0 then
      { w with call := .finishing rest (some r) (insert r sending) }
    else
      { w with
        finishedStoreReq := insert r w.finishedStoreReq
        call := .finishing rest none sending }

def work : Option (World ρ) :=
  match w.call with
  | .idle => none
  | .saving (some r) rest => some { w.addRequest r with call := .saving none rest }
  | .saving none (r :: rest) => some { w.addStoredRequest r with call := .saving (some r) rest }
  | .saving none [] => some { w with call := .idle }
  | .preempting (r :: rest) finished => some { w.deleteFinishedStoredRequest r with
      call := .preempting rest finished
      log := w.log ++ [.preempted r] }
  | .preempting [] finished => some { w with
      call := .scanning w.storedRequests.keys none finished ∅ }
  | .scanning rest (some r) finished sending => some { w.deleteFinishedStoredRequest r with
      call := .scanning rest none finished sending }
  | .scanning (r :: rest) none finished sending => some (w.examine r rest finished sending)
  | .scanning [] none finished sending => some { w with call := .finishing finished none sending }
  | .finishing rest (some r) sending => some { w.deleteFinishedStoredRequest r with
      call := .finishing rest none sending }
  | .finishing (r :: rest) none sending => some (w.finish r rest sending)
  | .finishing [] none sending => some { w with call := .idle, log := w.log ++ [.reported sending] }

def step : Act ρ → Option (World ρ)
  | .waitForSave requests =>
    match w.call with
    | .idle =>
      let canSave := (requests.filter fun e => e.2 = some true).map Prod.fst
      some { w with call := .saving none canSave }
    | _ => none
  | .getFinished finishedReqIds preemptedReqIds =>
    match w.call with
    | .idle => some { w with call := .preempting preemptedReqIds finishedReqIds }
    | _ => none
  | .work => w.work
  | .take =>
    match w.running, w.requestQueue with
    | none, job :: queue => some { w with requestQueue := queue, running := some (job, .taken) }
    | _, _ => none
  | .check =>
    match w.running with
    | some (job, .taken) =>
      if w.storedRequests.get job.reqId = none then some { w with running := none }
      else some { w with running := some (job, .admitted) }
    | _ => none
  | .skip =>
    match w.running with
    | some (job, .admitted) => some { w.decStoredRequest job.reqId with running := none }
    | _ => none
  | .put =>
    match w.running with
    | some (job, .admitted) => some { w with
        running := some (job, .stored)
        log := w.log ++ [.put job] }
    | _ => none
  | .fail =>
    match w.running with
    | some (job, .admitted) => some { w with running := none, log := w.log ++ [.put job] }
    | _ => none
  | .done =>
    match w.running with
    | some (job, .stored) => some { w.decStoredRequest job.reqId with running := none }
    | _ => none

def exec : List (Act ρ) → World ρ → Option (World ρ)
  | [], w => some w
  | act :: acts, w => (w.step act).bind (exec acts)

/-! ## 3. What is wanted -/

def outstanding (r : ρ) : Nat :=
  w.requestQueue.countP (·.reqId = r) + w.running.toList.countP (·.1.reqId = r)

end World

namespace Call

def sending : Call ρ → Finset ρ
  | .scanning _ _ _ sending => sending
  | .finishing _ _ sending => sending
  | _ => ∅

def counted : Call ρ → Option ρ
  | .saving counted _ => counted
  | _ => none

def deleting : Call ρ → Option ρ
  | .scanning _ deleting _ _ => deleting
  | .finishing _ deleting _ => deleting
  | _ => none

def copy : Call ρ → List ρ
  | .scanning rest _ _ _ => rest
  | _ => []

end Call

def reports (r : ρ) (log : List (Event ρ)) : Nat :=
  log.countP fun
    | .reported sending => r ∈ sending
    | _ => false

def finishes (r : ρ) (log : List (Event ρ)) : Nat :=
  log.countP (· = .finished r)

/-- The job was enqueued before a preemption of its request. -/
def Stale (log : List (Event ρ)) (job : Job ρ) : Prop :=
  ∃ before after, log = before ++ .preempted job.reqId :: after ∧ .enqueued job ∈ before

/-- The four properties of a state. -/
structure World.Sound (w : World ρ) : Prop where
  sending : ∀ r ∈ w.call.sending, w.outstanding r = 0
  reports_le : ∀ r, reports r w.log ≤ finishes r w.log
  zero : w.requestQueue = [] → w.running = none → w.call.counted = none →
    ∀ r n, w.storedRequests.get r = some n → n = 0
  stale : ∀ job before after, w.log = before ++ .put job :: after → ¬ Stale before job

def Clean (w : World ρ) : Act ρ → Prop
  | .fail => False
  | .work =>
    match w.call with
    | .preempting (r :: _) _ => ∀ job, w.running = some (job, .admitted) → job.reqId ≠ r
    | .saving none (r :: _) => w.storedRequests.get r = none → w.outstanding r = 0
    | _ => True
  | _ => True

def RunsClean : List (Act ρ) → World ρ → Prop
  | [], _ => True
  | act :: acts, w => Clean w act ∧
    match w.step act with
    | none => True
    | some w' => RunsClean acts w'

/-! ## 4. The counters -/

open Function

namespace World

variable {w w' : World ρ} {act : Act ρ} {r : ρ} {job : Job ρ} {phase : Phase}

inductive Stepped (w : World ρ) : Act ρ → World ρ → Prop where
  | save : ∀ requests, w.call = .idle → Stepped w (.waitForSave requests)
      { w with call := .saving none ((requests.filter fun e => e.2 = some true).map Prod.fst) }
  | get : ∀ finished preempted, w.call = .idle →
      Stepped w (.getFinished finished preempted) { w with call := .preempting preempted finished }
  | work : ∀ v, w.work = some v → Stepped w .work v
  | take : ∀ job queue, w.running = none → w.requestQueue = job :: queue →
      Stepped w .take { w with requestQueue := queue, running := some (job, .taken) }
  | drop : ∀ job, w.running = some (job, .taken) → w.storedRequests.get job.reqId = none →
      Stepped w .check { w with running := none }
  | pass : ∀ job, w.running = some (job, .taken) → w.storedRequests.get job.reqId ≠ none →
      Stepped w .check { w with running := some (job, .admitted) }
  | put : ∀ job, w.running = some (job, .admitted) →
      Stepped w .put { w with running := some (job, .stored), log := w.log ++ [.put job] }
  | fail : ∀ job, w.running = some (job, .admitted) →
      Stepped w .fail { w with running := none, log := w.log ++ [.put job] }
  | finish : ∀ act job phase, w.running = some (job, phase) →
      Stepped w act { w.decStoredRequest job.reqId with running := none }

theorem stepped (h : w.step act = some w') : Stepped w act w' := by
  cases act <;> simp only [step] at h <;> grind [Stepped]

def admitted (w : World ρ) : Option ρ :=
  match w.running with
  | some (job, .admitted) => some job.reqId
  | _ => none

/-- The counters are right, what is to be reported has no jobs left, and the copy that is examined
    is of requests that have a counter. -/
structure Account (w : World ρ) : Prop where
  books : Books w.storedRequests.get w.outstanding w.call.counted w.admitted
  sending : ∀ r ∈ w.call.sending, w.outstanding r = 0
  deleting : ∀ r, w.call.deleting = some r → r ∈ w.call.sending
  nodup : w.call.copy.Nodup
  copy : ∀ r ∈ w.call.copy, w.storedRequests.get r ≠ none ∧ w.call.deleting ≠ some r

theorem get_addStoredRequest : (w.addStoredRequest r).storedRequests.get
    = update w.storedRequests.get r (some ((w.storedRequests.get r).getD 0 + 1)) := by
  funext s
  rw [update_apply]
  exact get_set

theorem get_deleteFinishedStoredRequest : (w.deleteFinishedStoredRequest r).storedRequests.get
    = update w.storedRequests.get r none := by
  funext s
  rw [update_apply]
  exact get_pop

theorem outstanding_addRequest :
    (w.addRequest r).outstanding = update w.outstanding r (w.outstanding r + 1) := by
  funext s
  by_cases hs : s = r
  · subst hs
    rw [update_self]
    simp only [outstanding, addRequest, countP_append, countP_singleton, decide_true, if_true]
    ring
  · have hne : r ≠ s := fun h => hs h.symm
    rw [update_of_ne hs]
    simp [outstanding, addRequest, hne]

theorem outstanding_running (h : w.running = some (job, phase)) :
    w.outstanding = update ({ w with running := none } : World ρ).outstanding job.reqId
      (({ w with running := none } : World ρ).outstanding job.reqId + 1) := by
  funext s
  by_cases hs : s = job.reqId
  · subst hs
    simp [outstanding, h]
  · have hne : job.reqId ≠ s := fun h => hs h.symm
    rw [update_of_ne hs]
    simp [outstanding, h, hne]

theorem outstanding_pos (h : w.running = some (job, phase)) : 0 < w.outstanding job.reqId := by
  rw [outstanding_running h, update_self]
  omega

theorem admitted_ne (h : w.outstanding r = 0) : w.admitted ≠ some r := by
  intro heq
  unfold admitted at heq
  split at heq
  · rename_i job hrun
    cases heq
    have hp := outstanding_pos hrun
    omega
  · cases heq

namespace Account

variable {c : Call ρ} {re : List ρ} {sn : Finset ρ}

variable (h : w.Account)
include h

theorem setCall (hc : c.counted = w.call.counted) (hs : ∀ r ∈ c.sending, w.outstanding r = 0)
    (hd : ∀ r, c.deleting = some r → r ∈ c.sending) (hn : c.copy.Nodup)
    (hco : ∀ r ∈ c.copy, w.storedRequests.get r ≠ none ∧ c.deleting ≠ some r) :
    ({ w with call := c } : World ρ).Account :=
  ⟨hc ▸ h.books, hs, hd, hn, hco⟩

theorem forget (hc : w.call.counted = none) (hr : w.admitted ≠ some r) (hca : c.counted = none)
    (hd : c.deleting = none) (hse : ∀ r ∈ c.sending, w.outstanding r = 0)
    (hn : c.copy.Nodup) (hco : ∀ s ∈ c.copy, w.storedRequests.get s ≠ none ∧ s ≠ r) :
    ({ w.deleteFinishedStoredRequest r with call := c } : World ρ).Account := by
  have hb := h.books
  rw [hc] at hb
  refine ⟨?_, hse, fun s hs => ?_, hn, fun s hs => ⟨?_, ?_⟩⟩
  · rw [hca]
    exact get_deleteFinishedStoredRequest (w := w) ▸ hb.forget hr
  · rw [hd] at hs
    cases hs
  · change (w.deleteFinishedStoredRequest r).storedRequests.get s ≠ none
    rw [get_deleteFinishedStoredRequest, update_of_ne (hco s hs).2]
    exact (hco s hs).1
  · rw [hd]
    nofun

theorem examine {f : List ρ} (hca : w.call = .scanning (r :: re) none f sn) :
    (w.examine r re f sn).Account := by
  have hco := h.copy
  have hno := h.nodup
  have hse := h.sending
  rw [hca] at hco hno hse
  have hno' : (r :: re).Nodup := hno
  rw [nodup_cons] at hno'
  have hc : w.call.counted = none := by rw [hca]; rfl
  have hb : Books w.storedRequests.get w.outstanding none w.admitted := hc ▸ h.books
  obtain ⟨n, hg⟩ := Option.ne_none_iff_exists'.mp (hco r mem_cons_self).1
  have hr : ∀ s ∈ re, w.storedRequests.get s ≠ none :=
    fun s hs => (hco s (mem_cons_of_mem _ hs)).1
  simp only [World.examine, hg]
  split_ifs with hcn
  · have hz : w.outstanding r = 0 := by
      have hn := hb.counter r 0 (hg.trans hcn.1)
      simpa using hn.symm
    refine ⟨hb, fun s hs => ?_, fun s hs => ?_, hno'.2, fun s hs => ?_⟩
    · rcases mem_insert.mp hs with rfl | hs
      · exact hz
      · exact hse s hs
    · cases hs
      exact mem_insert_self r sn
    · refine ⟨hr s hs, fun heq => hno'.1 ?_⟩
      cases heq
      exact hs
  · exact h.setCall hc.symm hse (fun _ hd => by cases hd) hno'.2 fun s hs =>
      ⟨hr s hs, (Option.some_ne_none s).symm⟩

theorem finish (hca : w.call = .finishing (r :: re) none sn) : (w.finish r re sn).Account := by
  have hse := h.sending
  rw [hca] at hse
  have hb : Books w.storedRequests.get w.outstanding none w.admitted := by
    have hb := h.books
    rwa [hca] at hb
  unfold World.finish
  dsimp only
  split
  · exact ⟨hb, hse, nofun, nodup_nil, nofun⟩
  · rename_i n hg
    split_ifs with hn
    · have hz : w.outstanding r = 0 := by
        have hc := hb.counter r n hg
        rw [hn] at hc
        simpa using hc.symm
      refine ⟨hb, fun s hs => ?_, fun s hs => ?_, nodup_nil, nofun⟩
      · rcases mem_insert.mp hs with rfl | hs
        · exact hz
        · exact hse s hs
      · cases hs
        exact mem_insert_self r sn
    · exact ⟨hb, hse, nofun, nodup_nil, nofun⟩

theorem work (hcl : Clean w .work) (hst : w.work = some w') : w'.Account := by
  dsimp only [Clean] at hcl
  unfold World.work at hst
  match hc : w.call with
  | .idle =>
    rw [hc] at hst
    cases hst
  | .saving (some _) _ =>
    rw [hc] at hst
    cases hst
    have hb := h.books
    rw [hc] at hb
    refine ⟨?_, nofun, nofun, nodup_nil, nofun⟩
    exact outstanding_addRequest (w := w) ▸ hb.enqueue
  | .saving none (_ :: _) =>
    rw [hc] at hst hcl
    cases hst
    have hb := h.books
    rw [hc] at hb
    refine ⟨?_, nofun, nofun, nodup_nil, nofun⟩
    exact get_addStoredRequest (w := w) ▸ hb.count hcl
  | .saving none [] =>
    rw [hc] at hst
    cases hst
    exact h.setCall (by rw [hc]; rfl) nofun nofun nodup_nil nofun
  | .preempting (r :: re) finished =>
    rw [hc] at hst hcl
    cases hst
    have ha : w.admitted ≠ some r := by
      intro heq
      unfold World.admitted at heq
      split at heq
      · rename_i job hrun
        cases heq
        exact hcl job hrun rfl
      · cases heq
    have hf : ({ w.deleteFinishedStoredRequest r with
        call := .preempting re finished } : World ρ).Account :=
      h.forget (by rw [hc]; rfl) ha rfl rfl nofun nodup_nil nofun
    exact ⟨hf.books, nofun, nofun, nodup_nil, nofun⟩
  | .preempting [] _ =>
    rw [hc] at hst
    cases hst
    refine h.setCall (by rw [hc]; rfl) (fun s hs => absurd hs (notMem_empty s)) nofun
      w.storedRequests.nodup fun s hs => ⟨?_, nofun⟩
    exact fun hno => get_eq_none.mp hno hs
  | .scanning _ (some r) _ _ =>
    have hco := h.copy
    have hn := h.nodup
    have hse := h.sending
    have hd := h.deleting
    rw [hc] at hst hco hn hse hd
    cases hst
    refine h.forget (by rw [hc]; rfl) (admitted_ne (hse r (hd r rfl))) rfl rfl
      hse hn fun s hs => ⟨(hco s hs).1, fun heq => (hco s hs).2 (by rw [heq]; rfl)⟩
  | .scanning (_ :: _) none _ _ =>
    rw [hc] at hst
    cases hst
    exact h.examine hc
  | .scanning [] none _ _ =>
    have hse := h.sending
    rw [hc] at hst hse
    cases hst
    exact h.setCall (by rw [hc]; rfl) hse nofun nodup_nil nofun
  | .finishing _ (some r) _ =>
    have hse := h.sending
    have hd := h.deleting
    rw [hc] at hst hse hd
    cases hst
    exact h.forget (by rw [hc]; rfl) (admitted_ne (hse r (hd r rfl))) rfl rfl hse nodup_nil nofun
  | .finishing (_ :: _) none _ =>
    rw [hc] at hst
    cases hst
    exact h.finish hc
  | .finishing [] none _ =>
    rw [hc] at hst
    cases hst
    exact ⟨by have hb := h.books; rw [hc] at hb; exact hb,
      fun s hs => absurd hs (notMem_empty s), nofun, nodup_nil, nofun⟩

variable (hrun : w.running = some (job, phase))
include hrun

theorem endJob {s : OrderedDict ρ Int}
    (hb : Books s.get ({ w with running := none } : World ρ).outstanding w.call.counted none)
    (hs : ∀ r, w.storedRequests.get r ≠ none → s.get r ≠ none) :
    ({ w with storedRequests := s, running := none } : World ρ).Account := by
  refine ⟨hb, fun r hr => ?_, h.deleting, h.nodup,
    fun r hr => ⟨hs r (h.copy r hr).1, (h.copy r hr).2⟩⟩
  have hz := h.sending r hr
  rw [outstanding_running hrun] at hz
  by_cases heq : r = job.reqId
  · rw [heq, update_self] at hz
    omega
  · rwa [update_of_ne heq] at hz

theorem decStoredRequest :
    ({ w.decStoredRequest job.reqId with running := none } : World ρ).Account := by
  have hb := h.books.release
  rw [outstanding_running hrun] at hb
  unfold World.decStoredRequest
  split
  · rename_i hg
    refine h.endJob hrun ?_ fun _ => id
    have hd := hb.drop hg (({ w with running := none } : World ρ).outstanding job.reqId)
    rwa [update_idem, update_eq_self] at hd
  · rename_i n hg
    have hs : (w.storedRequests.set job.reqId (n - 1)).get
        = update w.storedRequests.get job.reqId (some (n - 1)) := by
      funext s
      rw [update_apply]
      exact get_set
    refine h.endJob hrun ?_ fun r hr => ?_
    · rw [hs]
      exact hb.countDown hg
    · rw [hs, update_apply]
      split_ifs
      · exact Option.some_ne_none _
      · exact hr

theorem setRunning {q : Phase}
    (hb : Books w.storedRequests.get w.outstanding w.call.counted
      ({ w with running := some (job, q) } : World ρ).admitted) :
    ({ w with running := some (job, q) } : World ρ).Account := by
  have hs : ({ w with running := some (job, q) } : World ρ).outstanding = w.outstanding := by
    funext r
    simp [outstanding, hrun]
  exact ⟨hs ▸ hb, fun r hr => hs ▸ h.sending r hr, h.deleting, h.nodup, h.copy⟩

omit hrun

theorem step (hcl : Clean w act) (hs : w.step act = some w') : w'.Account := by
  have hi : w.call = .idle → Books w.storedRequests.get w.outstanding none w.admitted := by
    intro hc
    have hb := h.books
    rwa [hc] at hb
  cases stepped hs with
  | save _ hc => exact ⟨hi hc, nofun, nofun, nodup_nil, nofun⟩
  | get _ _ hc => exact ⟨hi hc, nofun, nofun, nodup_nil, nofun⟩
  | work _ hs => exact h.work hcl hs
  | take job qu hrun hq =>
    have hsa : ({ w with requestQueue := qu, running := some (job, .taken) } :
        World ρ).outstanding = w.outstanding := by
      funext r
      simp only [outstanding, hrun, hq, countP_cons, Option.toList_some, Option.toList_none,
        countP_nil]
      omega
    exact ⟨hsa ▸ h.books.release, fun r hr => hsa ▸ h.sending r hr, h.deleting, h.nodup, h.copy⟩
  | drop job hrun hg =>
    refine h.endJob hrun ?_ fun _ => id
    have hb := h.books.release
    rw [outstanding_running hrun] at hb
    have hd := hb.drop hg (({ w with running := none } : World ρ).outstanding job.reqId)
    rwa [update_idem, update_eq_self] at hd
  | pass _ hrun hg => exact h.setRunning hrun (h.books.release.allow hg)
  | put _ hrun =>
    have hset := h.setRunning (q := .stored) hrun h.books.release
    exact ⟨hset.books, hset.sending, hset.deleting, hset.nodup, hset.copy⟩
  | fail => exact hcl.elim
  | finish _ _ _ hrun => exact h.decStoredRequest hrun

end Account

end World

end VllmDual.Store
