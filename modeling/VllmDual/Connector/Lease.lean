/-
  Subject:   A SPLIT LEASE IS RELEASED EXACTLY ONCE.

  The tracker's six collections, seen from one request, are a small machine of their own:

  * `lease_released_once` -- a generation that is registered when the one before it is no longer in
    process (`Separated`) is reported at most once, only after its own acknowledgement, by the next
    poll;
  * `overlap_loses_report` -- without `Separated`, or without a poll between two generations, a
    report is lost.
-/
import VllmDual.Connector.TaskTracker

namespace VllmDual.Connector

open KVCacheTaskTracker OrderedDict Option Finset
open List hiding keys

/-! ## 1. The lease of one request -/

/-- What the tracker knows about one request. -/
@[ext]
structure Lease where
  busy : Bool
  finished : Bool
  delayed : Bool
  leased : Bool
  terminal : Bool
  id : Option TransferId
  early : Option TransferId → Bool

def lease (t : KVCacheTaskTracker) (r : RequestId) : Lease where
  busy := r ∈ t.reqsToProcess
  finished := r ∈ t.finishedRequests
  delayed := r ∈ t.delayedFreeRequests.keys
  leased := r ∈ t.splitLeases
  terminal := r ∈ t.splitTerminalRequests.keys
  id := t.splitTransferIds r
  early := fun id => (r, id) ∈ t.earlySplitResults.keys

namespace Lease

variable (l : Lease)

def register (id : TransferId) : Lease :=
  if l.busy then l
  else ⟨true, false, false, false, false, some id, fun j => l.early j && decide (j = some id)⟩

def release : Lease :=
  { l with
    busy := false, finished := true, delayed := false, leased := false, terminal := true, id := none }

def acknowledge (id : Option TransferId) : Lease :=
  match id, l.id with
  | none, some _ => l
  | none, none => if l.terminal then l else l.release
  | some i, none => { l with early := fun j => l.early j || decide (j = some i) }
  | some i, some c => if c = i then (if l.terminal then l else l.release) else l

def delay (id : TransferId) : Lease :=
  if l.busy then
    let l' := { l with
      delayed := true, leased := true, id := some id, early :=
        fun j => l.early j && decide (j ≠ some id) }
    if l.early (some id) then l'.release else l'
  else l

def step (r : RequestId) : Call → Lease
  | .addReqToProcess r' (some id) => if r' = r then l.register id else l
  | .addDelayedRequest r' _ true (some id) => if r' = r then l.delay id else l
  | .splitDone r' _ id => if r' = r then l.acknowledge id else l
  | .getAndClearFinishedRequests _ => { l with finished := false }
  | _ => l

def report : Call → Nat
  | .getAndClearFinishedRequests _ => if l.finished then 1 else 0
  | _ => 0

end Lease

open Lease (register step report)

/-! ## 2. The runs -/

/-- The id of the generation of `r` between its two registration calls. -/
def pending (r : RequestId) (calls : List Call) : Option TransferId :=
  calls.foldl (fun p c => match c with
    | .addReqToProcess r' id => if r' = r then id else p
    | .addDelayedRequest r' _ _ _ => if r' = r then none else p
    | _ => p) none

/-- The calls of split requests: a new id for each generation, its two registration calls one after
    the other, acknowledgements with any id, or with none once one is registered, and polls. -/
def Allowed (past : List Call) : Call → Prop
  | .addReqToProcess r id => id ≠ none ∧ pending r past = none ∧ .addReqToProcess r id ∉ past
  | .addDelayedRequest r _ split id => split = true ∧ id ≠ none ∧ pending r past = id
  | .splitDone r _ id => id = none → ∃ i, .addReqToProcess r (some i) ∈ past
  | .getAndClearFinishedRequests _ => True
  | .getAndClearSplitResults => True
  | .addNotTransferRequest _ => False
  | .updateDoneTaskCount _ => False

def Interleaving (calls : List Call) : Prop :=
  ∀ past c rest, calls = past ++ c :: rest → Allowed past c

def Call.pair : Call → Option (RequestId × TransferId)
  | .addReqToProcess r id => id.map (r, ·)
  | .addDelayedRequest r _ _ id => id.map (r, ·)
  | .splitDone r _ id => id.map (r, ·)
  | _ => none

def pairs (calls : List Call) : Finset (RequestId × TransferId) :=
  (calls.filterMap Call.pair).toFinset

/-- A generation is registered when no generation of the request is in process. -/
def Separated (timeout : Time) (calls : List Call) : Prop :=
  ∀ past r id rest, calls = past ++ .addReqToProcess r id :: rest →
    r ∉ (run timeout .init past).reqsToProcess

def Registered (r : RequestId) (past : List Call) : Prop :=
  ∃ i, Call.addReqToProcess r (some i) ∈ past

-- The conditions on a run can be evaluated.
section Decidable

variable {timeout : Time} {past calls : List Call} {r : RequestId}

theorem forall_split_iff {P : List Call → Call → Prop} :
    (∀ past c re, ca = past ++ c :: re → P past c) ↔
      ∀ k : Fin ca.length, P (ca.take k) (ca.get k) := by
  constructor
  · intro h k
    refine h _ _ (ca.drop (k + 1)) ?_
    rw [get_eq_getElem, getElem_cons_drop, take_append_drop]
  · intro h past c re heq
    have hlt : past.length < ca.length := by
      rw [heq, length_append, length_cons]
      omega
    simpa [heq] using h ⟨past.length, hlt⟩

instance : Decidable (Registered r past) :=
  decidable_of_iff (∃ c ∈ past, ∃ i ∈ c.pair.map Prod.snd, c = .addReqToProcess r (some i)) <| by
    constructor
    · intro ⟨c, hc, i, _, heq⟩
      exact ⟨i, heq ▸ hc⟩
    · intro ⟨i, hi⟩
      exact ⟨_, hi, i, rfl, rfl⟩

instance : (c : Call) → Decidable (Allowed past c)
  | .addReqToProcess _ _ => inferInstanceAs (Decidable (_ ∧ _ ∧ _))
  | .addDelayedRequest _ _ _ _ => inferInstanceAs (Decidable (_ ∧ _ ∧ _))
  | .splitDone r _ id => inferInstanceAs (Decidable (id = none → Registered r past))
  | .getAndClearFinishedRequests _ => .isTrue trivial
  | .getAndClearSplitResults => .isTrue trivial
  | .addNotTransferRequest _ => .isFalse id
  | .updateDoneTaskCount _ => .isFalse id

instance : Decidable (Interleaving calls) := decidable_of_iff _ forall_split_iff.symm

def FindsIdle (t : KVCacheTaskTracker) : Call → Prop
  | .addReqToProcess r _ => r ∉ t.reqsToProcess
  | _ => True

instance {t : KVCacheTaskTracker} (c : Call) : Decidable (FindsIdle t c) := by
  cases c <;> unfold FindsIdle <;> infer_instance

theorem separated_iff :
    Separated timeout calls ↔ ∀ k : Fin calls.length, FindsIdle (run timeout .init (calls.take k))
      (calls.get k) := by
  rw [← forall_split_iff (P := fun past c => FindsIdle (run timeout .init past) c)]
  constructor
  · intro h past c re heq
    cases c with
    | addReqToProcess r id => exact h past r id re heq
    | _ => trivial
  · intro h past r id re heq
    exact h past _ re heq

instance : Decidable (Separated timeout calls) := decidable_of_iff _ separated_iff.symm

end Decidable

/-! ## 3. The tracker is the product of the leases -/

section Product

variable {tm now : Time} {t : KVCacheTaskTracker} {past : List Call} {r r' : RequestId}

/-- Neither history is full, and only leases are delayed. -/
structure Roomy (t : KVCacheTaskTracker) : Prop where
  early : t.earlySplitResults.entries.length < maxTaskHistorySize
  terminal : t.splitTerminalRequests.entries.length < maxTaskHistorySize
  leased : ∀ r ∈ t.delayedFreeRequests.keys, r ∈ t.splitLeases

theorem remember_eq_set {κ ν : Type} [DecidableEq κ] {d : OrderedDict κ ν} {k : κ} {v : ν}
    (h : d.entries.length < maxTaskHistorySize) : remember d k v = d.set k v := by
  have hle : (d.set k v).entries.length ≤ d.entries.length + 1 := length_set_le
  rw [remember, if_neg (by omega)]

theorem retrieveExpiredRequests_leased {es : List (RequestId × Time)}
    (h : ∀ e ∈ es, e.1 ∈ t.splitLeases) : retrieveExpiredRequests tm now es t = (∅, t) := by
  induction es with
  | nil => rfl
  | cons e es ih =>
    rw [retrieveExpiredRequests]
    split
    · rfl
    · rw [if_pos (h e mem_cons_self)]
      exact ih fun e' he' => h e' (mem_cons_of_mem _ he')

theorem poll_eq (h : Roomy t) : t.getAndClearFinishedRequests tm now
    = (t.finishedRequests, { t with finishedRequests := ∅ }) := by
  have hn : retrieveExpiredRequests tm now t.delayedFreeRequests.entries t = (∅, t) :=
    retrieveExpiredRequests_leased fun e he => h.leased e.1 (mem_map_of_mem he)
  simp only [getAndClearFinishedRequests, hn, union_empty]

theorem lease_register (id : TransferId) : lease (t.addReqToProcess r' (some id)) r
    = if r' = r then (lease t r).register id else lease t r := by
  unfold addReqToProcess register
  by_cases hb : r' ∈ t.reqsToProcess
  · by_cases hr : r' = r
    · subst hr
      simp [hb, lease]
    · simp [hb, hr]
  · by_cases hr : r' = r
    · subst hr
      ext j <;> simp [lease, hb, mem_keys_pop, mem_keys_filter]
    · have hr' : r ≠ r' := Ne.symm hr
      ext j <;> simp [lease, hb, hr, hr', mem_keys_pop, mem_keys_filter]

theorem lease_terminate {st : SplitStatus} :
    lease (t.terminate r' st true (t.splitTerminalRequests.set r' ())) r
    = if r' = r then (lease t r).release else lease t r := by
  by_cases hr : r' = r
  · subst hr
    ext j <;> simp [lease, terminate, Lease.release, mem_keys_pop, mem_keys_set]
  · have hr' : r ≠ r' := Ne.symm hr
    ext j <;> simp [lease, terminate, hr, hr', mem_keys_pop, mem_keys_set]

theorem splitDone_cases (h : Roomy t) (st : String) (id : Option TransferId) :
    (t.splitDone r' st id).2 = t ∨ (t.splitDone r' st id).2 = { t with
      earlySplitResults := t.earlySplitResults.set (r', id) (.ofWire st) } ∨
    (t.splitDone r' st id).2 = t.terminate r' (.ofWire st)
      true (t.splitTerminalRequests.set r' ()) := by
  rw [splitDone, completeSplitRequest, remember_eq_set h.early, remember_eq_set h.terminal]
  split_ifs <;> simp

theorem lease_acknowledge (h : Roomy t) (st : String) (id : Option TransferId) :
    lease (t.splitDone r' st id).2 r
      = if r' = r then (lease t r).acknowledge id else lease t r := by
  have hd := @lease_terminate t r r' (SplitStatus.ofWire st)
  by_cases hr : r' = r
  · subst hr
    rw [splitDone, completeSplitRequest, remember_eq_set h.early, remember_eq_set h.terminal]
    rw [if_pos rfl] at hd ⊢
    by_cases ht : r' ∈ t.splitTerminalRequests.keys
    · cases id <;> cases hid : t.splitTransferIds r'
      · simp [Lease.acknowledge, lease, hid, ht]
      · simp [Lease.acknowledge, lease, hid]
      · ext j <;> simp [Lease.acknowledge, lease, hid, mem_keys_set, Bool.or_comm]
      · rename_i i c
        by_cases hc : c = i <;> simp [Lease.acknowledge, lease, hid, hc, ht]
    · cases id <;> cases hid : t.splitTransferIds r'
      · simpa [Lease.acknowledge, lease, hid, ht] using hd
      · simp [Lease.acknowledge, lease, hid]
      · ext j <;> simp [Lease.acknowledge, lease, hid, mem_keys_set, Bool.or_comm]
      · rename_i i c
        by_cases hc : c = i
        · simpa [Lease.acknowledge, lease, hid, hc, ht] using hd
        · simp [Lease.acknowledge, lease, hid, hc]
  · have hr' : r ≠ r' := Ne.symm hr
    rw [if_neg hr] at hd ⊢
    rcases splitDone_cases h st id with heq | heq | heq <;> rw [heq]
    · ext j <;> simp [lease, mem_keys_set, hr']
    · exact hd

theorem lease_delay (s : Time) (id : TransferId) :
    lease (t.addDelayedRequest r' s true (some id)) r
      = if r' = r then (lease t r).delay id else lease t r := by
  by_cases hb : r' ∈ t.reqsToProcess
  · -- the lease after the registration proper, before an early result is looked at
    have hreg : lease { t with
        delayedFreeRequests := t.delayedFreeRequests.set r' s
        splitTransferIds := Function.update t.splitTransferIds r' (some id)
        splitLeases := insert r' t.splitLeases
        earlySplitResults := t.earlySplitResults.pop (r', some id) } r
        = if r' = r then { lease t r with
            delayed := true, leased := true, id := some id
            early := fun j => (lease t r).early j && decide (j ≠ some id) } else lease t r := by
      by_cases hr : r' = r
      · subst hr
        ext j <;> simp [lease, mem_keys_set, mem_keys_pop]
      · have hr' : r ≠ r' := Ne.symm hr
        ext j <;> simp [lease, hr, hr', mem_keys_set, mem_keys_pop]
    rw [addDelayedRequest, if_pos hb]
    cases hg : t.earlySplitResults.get (r', some id) with
    | none =>
      have hn := get_eq_none.mp hg
      simp only [if_true, reduceCtorEq, if_false, hreg]
      by_cases hr : r' = r
      · subst hr
        simp [Lease.delay, lease, hb, hn]
      · simp [hr]
    | some st =>
      have hm : (r', some id) ∈ t.earlySplitResults.keys :=
        get_isSome.mp (by rw [hg]; rfl)
      have hd := @lease_terminate { t with
        delayedFreeRequests := t.delayedFreeRequests.set r' s
        splitTransferIds := Function.update t.splitTransferIds r' (some id)
        splitLeases := insert r' t.splitLeases
        earlySplitResults := t.earlySplitResults.pop (r', some id) } r r' st
      simp only [if_true, reduceCtorEq, if_false]
      refine hd.trans ?_
      rw [hreg]
      by_cases hr : r' = r
      · subst hr
        simp [Lease.delay, lease, hb, hm]
      · simp [hr]
  · rw [addDelayedRequest, if_neg hb]
    by_cases hr : r' = r
    · subst hr
      simp [Lease.delay, lease, hb]
    · simp [hr]

theorem lease_exec (h : Roomy t) {c : Call} (hc : Allowed past c) :
    lease (c.exec tm t).2 r = (lease t r).step r c := by
  cases c with
  | addReqToProcess r' id =>
    obtain ⟨i, rfl⟩ := ne_none_iff_exists'.mp hc.1
    exact lease_register i
  | addDelayedRequest r' start s id =>
    obtain ⟨rfl, hid, -⟩ := hc
    obtain ⟨i, rfl⟩ := ne_none_iff_exists'.mp hid
    exact lease_delay start i
  | splitDone r' st id => exact lease_acknowledge h st id
  | getAndClearFinishedRequests now =>
    show lease (t.getAndClearFinishedRequests tm now).2 r = _
    rw [poll_eq h]
    simp [lease, step]
  | getAndClearSplitResults => rfl
  | addNotTransferRequest r' => exact hc.elim
  | updateDoneTaskCount r' => exact hc.elim

end Product

/-! ## 4. A lease along a run -/

open Call

section Along

variable {tm : Time} {t : KVCacheTaskTracker} {past : List Call} {r : RequestId} {l : Lease}
  {c : Call}

/-- A lease after the calls `past`. -/
structure LeaseOk (r : RequestId) (past : List Call) (l : Lease) : Prop where
  idle : l.busy = false → l.id = none ∧ l.delayed = false ∧ l.leased = false
  busy : l.busy = true → Registered r past ∧ l.finished = false ∧ l.terminal = false ∧ l.id ≠ none
  leased : l.delayed = true → l.leased = true
  done : l.busy = false → Registered r past → l.terminal = true
  finished : l.finished = true → Registered r past
  terminal : l.terminal = true → Registered r past
  pending : ∀ i, pending r past = some i → l.busy = true → l.id = some i
  early : ∀ id, l.early id = true → ∃ i s, id = some i ∧ Call.splitDone r s (some i) ∈ past

theorem pending_concat (r : RequestId) (past : List Call) (c : Call) :
    pending r (past ++ [c]) = match c with
      | .addReqToProcess r' id => if r' = r then id else pending r past
      | .addDelayedRequest r' _ _ _ => if r' = r then none else pending r past
      | _ => pending r past := by
  rw [pending, foldl_append]
  rfl

theorem Registered.concat (h : Registered r past) (c : Call) : Registered r (past ++ [c]) := by
  obtain ⟨i, hi⟩ := h
  exact ⟨i, mem_append_left _ hi⟩

variable (h : LeaseOk r past l)
include h

theorem LeaseOk.other (hp : Connector.pending r (past ++ [c]) = Connector.pending r past)
    (hreg : Registered r (past ++ [c]) → Registered r past) : LeaseOk r (past ++ [c]) l where
  idle := h.idle
  busy hb := ⟨(h.busy hb).1.concat c, (h.busy hb).2⟩
  leased := h.leased
  done hb hr := h.done hb (hreg hr)
  finished hf := (h.finished hf).concat c
  terminal ht := (h.terminal ht).concat c
  pending i hi := h.pending i (hp ▸ hi)
  early id hid := by
    obtain ⟨i, s, rfl, hm⟩ := h.early id hid
    exact ⟨i, s, rfl, mem_append_left _ hm⟩

omit h in
theorem registered_concat (hc : ∀ i, c ≠ .addReqToProcess r (some i))
    (h : Registered r (past ++ [c])) : Registered r past := by
  obtain ⟨i, hi⟩ := h
  rcases mem_append.mp hi with hi | hi
  · exact ⟨i, hi⟩
  · exact absurd (List.mem_singleton.mp hi).symm (hc i)

theorem LeaseOk.release (hr : Registered r past) : LeaseOk r past l.release where
  idle _ := ⟨rfl, rfl, rfl⟩
  busy hb := absurd hb (by simp [Lease.release])
  leased hd := absurd hd (by simp [Lease.release])
  done _ _ := rfl
  finished _ := hr
  terminal _ := hr
  pending _ _ hb := absurd hb (by simp [Lease.release])
  early := h.early

theorem LeaseOk.delay {st : Time} {i : TransferId} :
    LeaseOk r (past ++ [addDelayedRequest r st true (some i)]) (l.delay i) := by
  have hp' : Connector.pending r (past ++ [addDelayedRequest r st true (some i)]) = none := by
    simp [pending_concat]
  have hm : ∀ id, l.early id = true → ∃ j s, id = some j ∧
      splitDone r s (some j) ∈ past ++ [addDelayedRequest r st true (some i)] := by
    intro id hid
    obtain ⟨j, s, rfl, hm⟩ := h.early id hid
    exact ⟨j, s, rfl, mem_append_left _ hm⟩
  unfold Lease.delay
  split
  · rename_i hb
    obtain ⟨hreg, hfin, hte, -⟩ := h.busy hb
    have hh : LeaseOk r (past ++ [addDelayedRequest r st true (some i)]) { l with
        delayed := true, leased := true, id := some i
        early := fun j => l.early j && decide (j ≠ some i) } :=
      { idle := fun hb' => absurd (hb.symm.trans hb') (by simp)
        busy := fun _ => ⟨hreg.concat _, hfin, hte, by simp⟩
        leased := fun _ => rfl
        done := fun hb' => absurd (hb.symm.trans hb') (by simp)
        finished := fun hf => (h.finished hf).concat _
        terminal := fun ht => (h.terminal ht).concat _
        pending := fun j hj => absurd (hp'.symm.trans hj) (by simp)
        early := fun id hid => hm id (Bool.and_eq_true_iff.mp hid).1 }
    simp only
    split
    · exact hh.release (hreg.concat _)
    · exact hh
  · rename_i hb
    exact { h with
      busy := fun hb' => absurd hb' hb
      done := fun hb' hr => h.done hb' (registered_concat (fun j => by simp) hr)
      finished := fun hf => (h.finished hf).concat _
      terminal := fun ht => (h.terminal ht).concat _
      pending := fun j hj => absurd (hp'.symm.trans hj) (by simp)
      early := hm }

theorem LeaseOk.acknowledge {st : String} {id : Option TransferId}
    (hid : id = none → Registered r past) :
    LeaseOk r (past ++ [splitDone r st id]) (l.acknowledge id) := by
  have hk : LeaseOk r (past ++ [splitDone r st id]) l :=
    h.other (by simp [pending_concat]) (registered_concat fun j => by simp)
  -- a current id has been registered
  have hr : l.id ≠ none → Registered r past := by
    intro hne
    by_cases hb : l.busy = true
    · exact (h.busy hb).1
    · exact absurd (h.idle (by simpa using hb)).1 hne
  unfold Lease.acknowledge
  split
  · exact hk
  · split
    · exact hk
    · exact hk.release ((hid rfl).concat _)
  · rename_i i hn
    exact { hk with
      early := fun j hj => by
        rcases Bool.or_eq_true_iff.mp hj with hj | hj
        · exact hk.early j hj
        · exact ⟨i, st, of_decide_eq_true hj, by simp⟩ }
  · rename_i i c hs
    split
    · split
      · exact hk
      · exact hk.release ((hr (by simp [hs])).concat _)
    · exact hk

theorem LeaseOk.step (hc : Allowed past c) (hi : ∀ id, c = addReqToProcess r id → l.busy = false) :
    LeaseOk r (past ++ [c]) (l.step r c) := by
  cases c with
  | addReqToProcess r' id =>
    obtain ⟨i, rfl⟩ := ne_none_iff_exists'.mp hc.1
    by_cases hr : r' = r
    · subst hr
      have hreg : Registered r' (past ++ [addReqToProcess r' (some i)]) := ⟨i, by simp⟩
      simp only [step, if_true, register, hi _ rfl, Bool.false_eq_true, if_false]
      refine ⟨by simp, by simp [hreg], by simp, by simp, by simp, by simp, fun j hj _ => ?_,
        fun id hid => ?_⟩
      · rw [pending_concat] at hj
        simpa using hj
      · obtain ⟨j, s, rfl, hm⟩ := h.early id (Bool.and_eq_true_iff.mp hid).1
        exact ⟨j, s, rfl, mem_append_left _ hm⟩
    · simp only [step, if_neg hr]
      exact h.other (by simp [pending_concat, hr]) (registered_concat fun j => by simp [hr])
  | addDelayedRequest r' start sp id =>
    obtain ⟨rfl, hid, hp⟩ := hc
    obtain ⟨i, rfl⟩ := ne_none_iff_exists'.mp hid
    by_cases hr : r' = r
    · subst hr
      simp only [step, if_true]
      exact h.delay
    · simp only [step, if_neg hr]
      exact h.other (by simp [pending_concat, hr]) (registered_concat fun j => by simp)
  | splitDone r' st id =>
    by_cases hr : r' = r
    · subst hr
      simp only [step, if_true]
      exact h.acknowledge hc
    · simp only [step, if_neg hr]
      exact h.other (by simp [pending_concat]) (registered_concat fun j => by simp)
  | getAndClearFinishedRequests now =>
    have ho := h.other (c := getAndClearFinishedRequests now) (by simp [pending_concat])
      (registered_concat fun j => by simp)
    exact { ho with
      busy := fun hb => ⟨(ho.busy hb).1, rfl, (ho.busy hb).2.2⟩
      finished := fun hf => absurd hf (by simp [step]) }
  | getAndClearSplitResults =>
    exact h.other (by simp [pending_concat]) (registered_concat fun j => by simp)
  | addNotTransferRequest r' => exact hc.elim
  | updateDoneTaskCount r' => exact hc.elim

omit h

theorem roomy_of_leases (h : ∀ r, LeaseOk r past (lease t r))
    (hca : (pairs past).card < maxTaskHistorySize) : Roomy t := by
  have hpa : ∀ c ∈ past, ∀ p, c.pair = some p → p ∈ pairs past := fun c hc p hp =>
    mem_toFinset.mpr (mem_filterMap.mpr ⟨c, hc, hp⟩)
  refine ⟨?_, ?_, fun r hr => ?_⟩
  · have hke : ∀ k ∈ t.earlySplitResults.keys, k ∈ (pairs past).image fun p => (p.1, some p.2) := by
      intro k hk
      obtain ⟨i, s, hid, hm⟩ := (h k.1).early k.2 (decide_eq_true hk)
      exact mem_image.mpr ⟨(k.1, i), hpa _ hm _ rfl, by simp [← hid]⟩
    exact ((length_le_card hke).trans card_image_le).trans_lt hca
  · have hke : ∀ r ∈ t.splitTerminalRequests.keys, r ∈ (pairs past).image Prod.fst := by
      intro r hr
      obtain ⟨i, hm⟩ := (h r).terminal (decide_eq_true hr)
      exact mem_image.mpr ⟨(r, i), hpa _ hm _ rfl, rfl⟩
    exact ((length_le_card hke).trans card_image_le).trans_lt hca
  · exact of_decide_eq_true ((h r).leased (decide_eq_true hr))

end Along

/-- A run of split requests whose generations do not overlap, with few (request, id) pairs. -/
structure SplitRun (timeout : Time) (calls : List Call) : Prop where
  interleaving : Interleaving calls
  separated : Separated timeout calls
  few : (pairs calls).card < maxTaskHistorySize

section Runs

variable {timeout : Time} {past before gen cs : List Call} {c : Call} {r : RequestId}
  {i : TransferId}

theorem SplitRun.of_append (h : SplitRun timeout (past ++ cs)) : SplitRun timeout past where
  interleaving p c rest heq := h.interleaving p c (rest ++ cs) (by simp [heq])
  separated p r id rest heq := h.separated p r id (rest ++ cs) (by simp [heq])
  few := by
    refine (card_le_card fun p hp => ?_).trans_lt h.few
    simp only [pairs, List.mem_toFinset, List.filterMap_append, List.mem_append] at hp ⊢
    exact .inl hp

theorem SplitRun.leases (h : SplitRun timeout cs) :
    ∀ r, LeaseOk r cs (lease (run timeout .init cs) r) := by
  induction cs using List.reverseRecOn with
  | nil =>
    intro r
    refine ⟨fun _ => ⟨rfl, rfl, rfl⟩, ?_, ?_, ?_, ?_, ?_, ?_, ?_⟩
    all_goals simp [lease, KVCacheTaskTracker.init, Registered, keys, empty, run]
  | append_singleton past c ih =>
    intro r
    have hr := roomy_of_leases (ih h.of_append) h.of_append.few
    have hc := h.interleaving past c [] rfl
    rw [run_append, run_cons, run_nil, lease_exec hr hc]
    refine (ih h.of_append r).step hc fun id heq => ?_
    exact decide_eq_false (h.separated past r id [] (by rw [heq]))

theorem SplitRun.roomy (h : SplitRun timeout cs) : Roomy (run timeout .init cs) :=
  roomy_of_leases h.leases h.few

theorem SplitRun.lease_concat (h : SplitRun timeout (past ++ [c])) :
    lease (run timeout .init (past ++ [c])) r = (lease (run timeout .init past) r).step r c := by
  rw [run_append, run_cons, run_nil]
  exact lease_exec h.of_append.roomy (h.interleaving past c [] rfl)

theorem SplitRun.reports_concat (h : SplitRun timeout (past ++ gen ++ [c])) :
    reports timeout r (run timeout .init past) (gen ++ [c])
      = reports timeout r (run timeout .init past) gen
        + (lease (run timeout .init (past ++ gen)) r).report c := by
  rw [reports_append, ← run_append, reports, reports]
  cases c with
  | getAndClearFinishedRequests now =>
    have hp : (getAndClearFinishedRequests now).exec timeout (run timeout .init (past ++ gen))
        = (run timeout .init (past ++ gen)).getAndClearFinishedRequests timeout now := rfl
    rw [hp, poll_eq h.of_append.roomy]
    simp [lease, report]
  | _ => simp [exec, report]

/-! ## 5. One generation -/

/-- The generation `i` of `r` is registered and not released. `gen` are the calls since, `e` says
    whether an acknowledgement was waiting, `k` how often it has been reported. -/
structure Holding (r : RequestId) (i : TransferId) (e : Bool) (gen : List Call) (l : Lease)
    (k : Nat) : Prop where
  busy : l.busy = true
  id : l.id = some i
  early : l.early (some i) = e
  unacked : ∀ s, Call.splitDone r s (some i) ∉ gen
  undelayed : e = true → ∀ start, Call.addDelayedRequest r start true (some i) ∉ gen
  unreported : k = 0

/-- The generation has been released: it waits for a poll, or has been reported once. -/
structure Released (r : RequestId) (i : TransferId) (e : Bool) (gen : List Call) (l : Lease)
    (k : Nat) : Prop where
  idle : l.busy = false
  acked : (∃ s, Call.splitDone r s (some i) ∈ gen) ∨
    e = true ∧ ∃ start, Call.addDelayedRequest r start true (some i) ∈ gen
  count : l.finished = true ∧ k = 0 ∨ l.finished = false ∧ k = 1

variable {e : Bool} {l : Lease} {k : Nat}

theorem Released.step (h : Released r i e gen l k) (hl : LeaseOk r past l) (hc : Allowed past c)
    (hreg : ∀ id, c ≠ .addReqToProcess r id) :
    Released r i e (gen ++ [c]) (l.step r c) (k + l.report c) := by
  have ha : (∃ s, splitDone r s (some i) ∈ gen ++ [c]) ∨
      e = true ∧ ∃ start, addDelayedRequest r start true (some i) ∈ gen ++ [c] := by
    rcases h.acked with ⟨s, hs⟩ | ⟨he, start, hsr⟩
    · exact .inl ⟨s, mem_append_left _ hs⟩
    · exact .inr ⟨he, start, mem_append_left _ hsr⟩
  -- unless the call is a poll, the lease may only remember another early acknowledgement
  have hq : l.report c = 0 → (l.step r c).busy = false → (l.step r c).finished = l.finished →
      Released r i e (gen ++ [c]) (l.step r c) (k + l.report c) := by
    intro hp hb hf
    rw [hp, Nat.add_zero]
    exact ⟨hb, ha, hf ▸ h.count⟩
  cases c with
  | addReqToProcess r' id =>
    have hr : r' ≠ r := fun hr => hreg id (hr ▸ rfl)
    cases id <;> exact hq rfl (by simp [step, hr, h.idle]) (by simp [step, hr])
  | addDelayedRequest r' start sp id =>
    have hst : l.step r (addDelayedRequest r' start sp id) = l := by
      cases sp <;> cases id <;> simp [step, Lease.delay, h.idle]
    exact hq rfl (by rw [hst, h.idle]) (by rw [hst])
  | splitDone r' st id =>
    have hst : (l.step r (splitDone r' st id)).busy = false ∧
        (l.step r (splitDone r' st id)).finished = l.finished := by
      by_cases hr : r' = r
      · subst hr
        have hn := (hl.idle h.idle).1
        cases id with
        | none =>
          have ht := hl.done h.idle (hc rfl)
          simp [step, Lease.acknowledge, hn, ht, h.idle]
        | some j => simp [step, Lease.acknowledge, hn, h.idle]
      · simp [step, hr, h.idle]
    exact hq rfl hst.1 hst.2
  | getAndClearFinishedRequests now =>
    refine ⟨h.idle, ha, .inr ⟨rfl, ?_⟩⟩
    rcases h.count with ⟨hf, hk⟩ | ⟨hf, hk⟩ <;> simp [report, hf, hk]
  | getAndClearSplitResults => exact hq rfl h.idle rfl
  | addNotTransferRequest r' => exact hc.elim
  | updateDoneTaskCount r' => exact hc.elim

theorem Holding.step (h : Holding r i e gen l k) (hl : LeaseOk r past l) (hc : Allowed past c)
    (hreg : ∀ id, c ≠ .addReqToProcess r id) :
    l.report c = 0 ∧ (Holding r i e (gen ++ [c]) (l.step r c) k ∨
      Released r i e (gen ++ [c]) (l.step r c) k) := by
  obtain ⟨-, hf, ht, -⟩ := hl.busy h.busy
  refine ⟨by cases c <;> simp [report, hf], ?_⟩
  -- a call that leaves the lease alone and is not one of the two that could release it
  have hq : (∀ s, c ≠ .splitDone r s (some i)) →
      (e = true → ∀ start, c ≠ .addDelayedRequest r start true (some i)) →
      (l.step r c).busy = true → (l.step r c).id = some i → (l.step r c).early (some i) = e →
      Holding r i e (gen ++ [c]) (l.step r c) k := by
    intro hdo hd hb hid hea
    refine ⟨hb, hid, hea, fun s hs => ?_, fun he start hst => ?_, h.unreported⟩
    · rcases mem_append.mp hs with hs | hs
      · exact h.unacked s hs
      · exact hdo s (List.mem_singleton.mp hs).symm
    · rcases mem_append.mp hst with hst | hst
      · exact h.undelayed he start hst
      · exact hd he start (List.mem_singleton.mp hst).symm
  cases c with
  | addReqToProcess r' id =>
    have hr : r' ≠ r := fun hr => hreg id (hr ▸ rfl)
    cases id <;> exact .inl (hq (by simp) (by simp) (by simp [step, hr, h.busy])
      (by simp [step, hr, h.id]) (by simp [step, hr, h.early]))
  | addDelayedRequest r' start sp id =>
    obtain ⟨rfl, hne, hp⟩ := hc
    obtain ⟨j, rfl⟩ := ne_none_iff_exists'.mp hne
    by_cases hr : r' = r
    · subst hr
      have hj : j = i := by simpa [h.id] using (hl.pending j hp h.busy).symm
      subst hj
      cases he : e with
      | false =>
        have hea := h.early.trans he
        subst he
        exact .inl (hq (by simp) (by simp) (by simp [step, Lease.delay, h.busy, hea])
          (by simp [step, Lease.delay, h.busy, hea])
          (by simp [step, Lease.delay, h.busy, hea]))
      | true =>
        have hea := h.early.trans he
        refine .inr ⟨?_, .inr ⟨rfl, start, by simp⟩, .inl ⟨?_, h.unreported⟩⟩
        all_goals simp [step, Lease.delay, h.busy, hea, Lease.release]
    · exact .inl (hq (by simp) (by simp [hr]) (by simp [step, hr, h.busy])
        (by simp [step, hr, h.id]) (by simp [step, hr, h.early]))
  | splitDone r' st id =>
    by_cases hr : r' = r
    · subst hr
      by_cases hid : id = some i
      · subst hid
        refine .inr ⟨?_, .inl ⟨st, by simp⟩, .inl ⟨?_, h.unreported⟩⟩
        all_goals simp [step, Lease.acknowledge, h.id, ht, Lease.release]
      · have hsp : l.step r' (splitDone r' st id) = l := by
          cases id with
          | none => simp [step, Lease.acknowledge, h.id]
          | some j =>
            have hji : i ≠ j := fun hij => hid (by rw [hij])
            simp [step, Lease.acknowledge, h.id, hji]
        exact .inl (hq (by simp [hid]) (by simp) (by rw [hsp, h.busy]) (by rw [hsp, h.id])
          (by rw [hsp, h.early]))
    · exact .inl (hq (by simp [hr]) (by simp) (by simp [step, hr, h.busy])
        (by simp [step, hr, h.id]) (by simp [step, hr, h.early]))
  | getAndClearFinishedRequests now =>
    exact .inl (hq (by simp) (by simp) h.busy h.id h.early)
  | getAndClearSplitResults => exact .inl (hq (by simp) (by simp) h.busy h.id h.early)
  | addNotTransferRequest r' => exact hc.elim
  | updateDoneTaskCount r' => exact hc.elim

theorem Holding.le_one (h : Holding r i e gen l k) : k ≤ 1 := by
  have hk := h.unreported
  omega

theorem Released.le_one (h : Released r i e gen l k) : k ≤ 1 := by
  rcases h.count with ⟨-, hk⟩ | ⟨-, hk⟩ <;> omega

theorem Released.polled (h : Released r i e gen l k) (now : Time) :
    k + l.report (getAndClearFinishedRequests now) = 1 := by
  rcases h.count with ⟨hf, hk⟩ | ⟨hf, hk⟩ <;> simp [report, hf, hk]

/-- **A generation is held or released** throughout the calls after its registration. -/
theorem generation_stage (h : SplitRun timeout (before ++ [addReqToProcess r (some i)] ++ gen))
    (hg : ∀ id, addReqToProcess r id ∉ gen)
    (he : (lease (run timeout .init before) r).early (some i) = e) :
    Holding r i e gen (lease (run timeout .init (before ++ [addReqToProcess r (some i)] ++ gen)) r)
        (reports timeout r (run timeout .init (before ++ [addReqToProcess r (some i)])) gen) ∨
      Released r i e gen (lease (run timeout .init (before ++
        [addReqToProcess r (some i)] ++ gen)) r)
        (reports timeout r (run timeout .init (before ++ [addReqToProcess r (some i)])) gen) := by
  induction gen using reverseRecOn with
  | nil =>
    have hs : SplitRun timeout (before ++ [addReqToProcess r (some i)]) := h.of_append
    have hi : (lease (run timeout .init before) r).busy = false :=
      decide_eq_false (hs.separated before r (some i) [] rfl)
    have hl : lease (run timeout .init (before ++ [addReqToProcess r (some i)] ++ [])) r
        = (lease (run timeout .init before) r).register i := by
      rw [append_nil, hs.lease_concat]
      simp [step]
    rw [hl]
    left
    refine ⟨?_, ?_, ?_, by simp, by simp, rfl⟩
    all_goals simp [register, hi, he]
  | append_singleton gen c ih =>
    rw [← append_assoc] at h ⊢
    have hp : SplitRun timeout (before ++ [addReqToProcess r (some i)] ++ gen) := h.of_append
    have hc := h.interleaving _ c [] rfl
    have hne : ∀ id, c ≠ addReqToProcess r id := fun id heq => hg id (by simp [heq])
    rw [h.reports_concat, h.lease_concat]
    rcases ih hp fun id hid => hg id (mem_append_left _ hid) with hold | hr
    · obtain ⟨hz, hn⟩ := hold.step (hp.leases r) hc hne
      rw [hz, Nat.add_zero]
      exact hn
    · exact .inr (hr.step (hp.leases r) hc hne)

theorem early_of_idle {il : List Call} {s : String} (h : SplitRun timeout (before ++ il))
    (hbe : r ∉ (run timeout .init before).reqsToProcess)
    (hi : ∀ id, addReqToProcess r id ∉ il) :
    (lease (run timeout .init (before ++ il)) r).busy = false ∧
      (splitDone r s (some i) ∈ il →
        (lease (run timeout .init (before ++ il)) r).early (some i) = true) := by
  induction il using reverseRecOn with
  | nil => exact ⟨by rw [append_nil]; exact decide_eq_false hbe, by simp⟩
  | append_singleton il c ih =>
    rw [← append_assoc] at h ⊢
    have hp : SplitRun timeout (before ++ il) := h.of_append
    obtain ⟨hb, he⟩ := ih hp fun id hid => hi id (mem_append_left _ hid)
    have hn := ((hp.leases r).idle hb).1
    rw [h.lease_concat]
    rw [List.mem_append, List.mem_singleton]
    cases c with
    | addReqToProcess r' id =>
      have hr : r' ≠ r := fun hr => hi id (by simp [hr])
      cases id <;> simpa [step, hr, hb] using he
    | addDelayedRequest r' start sp id =>
      cases sp <;> cases id <;> simpa [step, Lease.delay, hb] using he
    | splitDone r' st id =>
      by_cases hr : r' = r
      · subst hr
        cases id with
        | none =>
          by_cases ht : (lease (run timeout .init (before ++ il)) r').terminal = true
          all_goals simpa [step, Lease.acknowledge, hn, ht, hb, Lease.release] using he
        | some j =>
          refine ⟨by simp [step, Lease.acknowledge, hn, hb], fun hm => ?_⟩
          rcases hm with hm | hm
          · simp [step, Lease.acknowledge, hn, he hm]
          · obtain ⟨-, -, hij⟩ := splitDone.inj hm
            simp [step, Lease.acknowledge, hn, hij]
      · simpa [step, hr, hb, Ne.symm hr] using he
    | _ => simpa [step, hb] using he

theorem reports_unregistered (h : SplitRun timeout before)
    (hn : ∀ id, addReqToProcess r id ∉ before) : reports timeout r .init before = 0 := by
  induction before using reverseRecOn with
  | nil => rfl
  | append_singleton past c ih =>
    have hp := ih h.of_append fun id hid => hn id (mem_append_left _ hid)
    have hf : (lease (run timeout .init past) r).finished = false := by
      by_contra hne
      obtain ⟨i, hi⟩ := (h.of_append.leases r).finished (by simpa using hne)
      exact hn _ (mem_append_left _ hi)
    have hc : reports timeout r .init (past ++ [c]) = reports timeout r .init past
        + (lease (run timeout .init past) r).report c :=
          @SplitRun.reports_concat timeout [] past c r h
    rw [hc, hp]
    cases c <;> simp [report, hf]

/-- An acknowledgement of the generation `i` has arrived: since its first registration call, or
    before it, while nothing was in process, and then the second call has been made. -/
def Acknowledged (timeout : Time) (r : RequestId) (i : TransferId)
    (before gen : List Call) : Prop :=
  (∃ s, Call.splitDone r s (some i) ∈ gen) ∨
    (∃ start, Call.addDelayedRequest r start true (some i) ∈ gen) ∧
      ∃ past idle s, before = past ++ idle ∧ r ∉ (run timeout .init past).reqsToProcess ∧
        (∀ id, Call.addReqToProcess r id ∉ idle) ∧ Call.splitDone r s (some i) ∈ idle

/-- **A split lease is released exactly once.** In a run whose generations do not overlap, the polls
    report a generation at most once, only after an acknowledgement with its own id, never while its
    lease is held, and exactly once when a poll comes after the acknowledgement; before its first
    generation a request is not reported. -/
theorem lease_released_once (hrun : Interleaving (before ++ Call.addReqToProcess r (some i) :: gen))
    (hsep : Separated timeout (before ++ Call.addReqToProcess r (some i) :: gen))
    (hfew : (pairs (before ++ Call.addReqToProcess r (some i) :: gen)).card < maxTaskHistorySize)
    (hgen : ∀ id, Call.addReqToProcess r id ∉ gen) :
    let t := run timeout .init (before ++ [addReqToProcess r (some i)])
    reports timeout r t gen ≤ 1 ∧
    (0 < reports timeout r t gen → ∃ s, Call.splitDone r s (some i) ∈ before ++ gen) ∧
    (r ∈ (run timeout t gen).splitLeases →
      ∀ now, r ∉ ((run timeout t gen).getAndClearFinishedRequests timeout now).1) ∧
    (∀ gen₁ now gen₂, gen = gen₁ ++ Call.getAndClearFinishedRequests now :: gen₂ →
      Acknowledged timeout r i before gen₁ → reports timeout r t gen = 1) ∧
    ((∀ id, Call.addReqToProcess r id ∉ before) → reports timeout r .init before = 0) := by
  intro t
  rw [append_cons] at hrun hsep hfew
  have h : SplitRun timeout (before ++ [addReqToProcess r (some i)] ++ gen) := ⟨hrun, hsep, hfew⟩
  have hb : SplitRun timeout before := (h.of_append).of_append
  have hst := generation_stage h hgen rfl
  have hle : reports timeout r t gen ≤ 1 := hst.elim Holding.le_one Released.le_one
  refine ⟨?_, fun hpos => ?_, fun hh now => ?_, fun gen₁ now gen₂ heq ha => ?_,
    reports_unregistered hb⟩
  · exact hle
  · rcases hst with hold | hr
    · exact absurd hold.unreported hpos.ne'
    · rcases hr.acked with ⟨s, hs⟩ | ⟨he, -⟩
      · exact ⟨s, mem_append_right _ hs⟩
      · obtain ⟨j, s, hj, hs⟩ := (hb.leases r).early _ he
        exact ⟨s, mem_append_left _ (Option.some.inj hj ▸ hs)⟩
  · -- a lease is held only in process, and then the request is not finished
    rw [show run timeout t gen = run timeout .init _ from (run_append _ _ _ _).symm] at hh ⊢
    have hbu : (lease (run timeout .init (before ++ [addReqToProcess r (some i)] ++ gen)) r).busy
        = true := by
      by_contra hi
      exact absurd hh (of_decide_eq_false ((h.leases r).idle (by simpa using hi)).2.2)
    rw [poll_eq h.roomy]
    exact of_decide_eq_false ((h.leases r).busy hbu).2.1
  · -- at the poll the generation has been released
    subst heq
    have hp : SplitRun timeout (before ++ [addReqToProcess r (some i)] ++ gen₁
        ++ [getAndClearFinishedRequests now]) := by
      refine SplitRun.of_append (?_ : SplitRun timeout (_ ++ gen₂))
      simpa using h
    have hr := (generation_stage hp.of_append
      (fun id hid => hgen id (mem_append_left _ hid)) rfl).resolve_left fun hold => ?_
    · have hsp := reports_append timeout r t (gen₁ ++ [getAndClearFinishedRequests now]) gen₂
      rw [hp.reports_concat, hr.polled, ← append_cons] at hsp
      omega
    · rcases ha with ⟨s, hs⟩ | ⟨⟨start, hsr⟩, past, idle, s, rfl, ho, hi, hs⟩
      · exact hold.unacked s hs
      · exact hold.undelayed ((early_of_idle hb ho hi).2 hs) start hsr

end Runs

/-- A generation that is acknowledged before, between and after its registration calls. -/
def acknowledgedThrice : List Call :=
  [.addDelayedRequest "r" 0 true (some "a"), .splitDone "r" "success" (some "a"),
    .getAndClearFinishedRequests 1, .splitDone "r" "success" none, .getAndClearFinishedRequests 2]

theorem acknowledgedThrice_reported : reports 480 "r"
    (run 480 .init [.splitDone "r" "success" (some "a"), .addReqToProcess "r" (some "a")])
    acknowledgedThrice = 1 :=
  have ha : Call.splitDone "r" "success" (some "a") ∈ acknowledgedThrice.take 2 := by decide
  (@lease_released_once 480 [.splitDone "r" "success" (some "a")] acknowledgedThrice "r" "a"
    (by decide) (by decide) (by decide) (by simp [acknowledgedThrice])).2.2.2.1
    (acknowledgedThrice.take 2) 1 (acknowledgedThrice.drop 3) rfl (.inl ⟨"success", ha⟩)

def registration (r : RequestId) (i : TransferId) : List Call :=
  [.addReqToProcess r (some i), .addDelayedRequest r 0 true (some i)]

/-- Three interleavings: two generations are acknowledged and nothing polls between them; a
    generation is registered while the one before it is in process; the same, with an
    acknowledgement that races ahead. -/
def unpolled : List Call :=
  registration "r" "a" ++ [.splitDone "r" "success" (some "a")] ++ registration "r" "b"
    ++ [.splitDone "r" "success" (some "b"), .getAndClearFinishedRequests 1,
      .getAndClearFinishedRequests 2]

@[inherit_doc unpolled]
def overlapping : List Call :=
  registration "r" "a" ++ [.addReqToProcess "r" (some "b"), .splitDone "r" "success" (some "a"),
    .addDelayedRequest "r" 0 true (some "b"), .getAndClearFinishedRequests 1]

@[inherit_doc unpolled]
def racedAhead : List Call :=
  registration "r" "a" ++ [.splitDone "r" "success" (some "b"), .splitDone "r" "success" (some "a"),
    .getAndClearFinishedRequests 1] ++ registration "r" "b" ++ [.getAndClearFinishedRequests 2]

/-- **Generations that are not kept apart lose reports, or get another's.** Two acknowledged
    generations have one report; a generation is reported though only its predecessor is
    acknowledged; and one whose acknowledgement races ahead is never reported. -/
theorem overlap_loses_report :
    (Interleaving unpolled ∧ (pairs unpolled).card = 2 ∧ reports 480 "r" .init unpolled = 1) ∧
    (Interleaving overlapping ∧ (∀ s, Call.splitDone "r" s (some "b") ∉ overlapping) ∧
      reports 480 "r" (run 480 .init (overlapping.take 3)) (overlapping.drop 3) = 1) ∧
    Interleaving racedAhead ∧ Call.splitDone "r" "success" (some "b") ∈ racedAhead ∧
      reports 480 "r" (run 480 .init (racedAhead.take 5)) (racedAhead.drop 5) = 0 := by
  refine ⟨by decide, ⟨by decide, ?_, by decide⟩, by decide⟩
  intro s
  simp [overlapping, registration]

end VllmDual.Connector
