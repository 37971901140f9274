/-
  Subject:   A PREFILL IN STEPS (`MooncakeLayerwiseConnectorScheduler.build_connector_meta`).

  The prefill scheduler computes a prompt in chunks. After every step it tells all prefill ranks how
  far the request has come, and each rank pushes its blocks:

  * `windows_metas`, `push_covers` -- the steps' blocks follow one another, and every block of the
    prompt that is not cached is sent once to every decode rank that is to have it.
-/
import VllmDual.Push.Sender

namespace VllmDual.Push

open Outcome RoundRobin List Worker Nat
open VllmDual.Pull (Layout KvHeads Rank numGroups)

/-! ## 1. The scheduler's side -/

/-- What the scheduler knows of a request: its tokens and `kv_transfer_params`. -/
structure Request where
  numTokens : Nat
  remoteBlockIds : List Nat
  remotePort : Nat
  remoteTpSize : Nat
  remotePcpSize : Nat
  remoteDcpSize : Nat
  remoteCachedTokens : Nat

variable (req : Request)

def Request.decode : Layout := ⟨req.remoteTpSize, req.remotePcpSize, req.remoteDcpSize⟩

structure SendReqInfo where
  localBlockIds : List Nat
  localTransferredTokens : Nat
  localComputedTokens : Nat

/-- What a scheduler output says about the request, and its position in the step's metadata. -/
structure Scheduled where
  newBlockIds : Option (List Nat)
  numComputedTokens : Nat
  numScheduledTokens : Nat
  numSpecTokens : Nat
  reqIdx : Nat

def Scheduled.computed (s : Scheduled) : Nat :=
  s.numComputedTokens + s.numScheduledTokens - s.numSpecTokens

def roundDown (x b : Nat) : Nat := x / b * b

/-- `update_state_after_alloc` on the prefill side. -/
def updateStateAfterAlloc (blockIds : List Nat) : SendReqInfo :=
  ⟨blockIds, req.remoteCachedTokens, 0⟩

def SendReqInfo.update (info : SendReqInfo) (blockSize : Nat) (s : Scheduled) : SendReqInfo where
  localBlockIds := info.localBlockIds ++ s.newBlockIds.getD []
  localTransferredTokens := roundDown info.localComputedTokens blockSize
  localComputedTokens := s.computed

def addTransferTask (info : SendReqInfo) : ReqMeta where
  localBlockIds := info.localBlockIds
  remoteBlockIds := req.remoteBlockIds
  remotePort := req.remotePort
  remoteTpSize := req.remoteTpSize
  remotePcpSize := req.remotePcpSize
  remoteDcpSize := req.remoteDcpSize
  chunkFinish := decide (req.numTokens ≤ info.localComputedTokens)
  promptLen := req.numTokens
  remoteCacheTokens := req.remoteCachedTokens
  localComputedTokens := info.localComputedTokens
  localTransedTokens := info.localTransferredTokens

/-- `build_connector_meta` for one request, which is dropped when the prompt has been computed. -/
def buildConnectorMeta (blockSize : Nat) :
    Option SendReqInfo → Scheduled → Option ReqMeta × Option SendReqInfo
  | none, _ => (none, none)
  | some info, s =>
    let info := info.update blockSize s
    let reqMeta := addTransferTask req info
    (some reqMeta, if reqMeta.chunkFinish then none else some info)

def metas (req : Request) (blockSize : Nat) :
    Option SendReqInfo → List Scheduled → List (ReqMeta × Nat)
  | _, [] => []
  | info, s :: steps =>
    let (reqMeta, info) := buildConnectorMeta req blockSize info s
    (reqMeta.toList.map (·, s.reqIdx)) ++ metas req blockSize info steps

/-! ## 2. All ranks in one step -/

def Worker.onRank (w : Worker) (r : Rank) : Worker := { w with rank := r }

section

variable (w : Worker) (r : Rank) (req : ReqMeta)

@[simp] theorem onRank_heads : (w.onRank r).heads = w.heads := rfl

@[simp] theorem onRank_layout : (w.onRank r).layout = w.layout := rfl

@[simp] theorem onRank_rank : (w.onRank r).rank = r := rfl

@[simp] theorem onRank_pdHeadRatio : (w.onRank r).pdHeadRatio = w.pdHeadRatio := rfl

@[simp] theorem onRank_blockSize : (w.onRank r).blockSize = w.blockSize := rfl

@[simp] theorem onRank_transedIdx : (w.onRank r).transedIdx req = w.transedIdx req := rfl

@[simp] theorem onRank_toTransIdx : (w.onRank r).toTransIdx req = w.toTransIdx req := rfl

@[simp] theorem onRank_promptBlocks : (w.onRank r).promptBlocks req = w.promptBlocks req := rfl

end

def ranks (l : Layout) : List Rank :=
  (range l.pcpSize).flatMap fun pcpRank => (range l.tpSize).map fun tpRank => ⟨pcpRank, tpRank⟩

def stepTasks (w : Worker) (req : ReqMeta) (reqIdx : Nat) :
    Except PushError (List (Rank × SendTask)) := do
  let tasks ← (ranks w.layout).mapM fun r => startLoadKv (w.onRank r) req reqIdx
  return ((ranks w.layout).zip tasks).flatMap fun e => e.2.toList.map (e.1, ·)

/-- A block that is sent: by a rank for a head group and a part, from one of its blocks to a block
    of the decode rank on the port. -/
structure Sent where
  group : Nat
  part : Nat
  port : Nat
  localBlock : Nat
  remoteBlock : Nat

def sentBlocks (w : Worker) (e : Rank × SendTask) : List Sent :=
  (e.2.transfer.localBlockIds.zip e.2.transfer.remoteBlockIds).map fun b =>
    ⟨e.1.group w.layout w.heads, e.1.cpRank w.layout, e.2.port, b.1, b.2⟩

/-! ## 3. Divisions -/

/-- **A prefill without preemption**: after every step at least as many tokens are computed as
    before, and all of them after the last one. -/
inductive Division (numTokens : Nat) : Nat → List Scheduled → Prop where
  | last {computed : Nat} {s : Scheduled} (hle : computed ≤ s.computed)
      (hall : s.computed = numTokens) : Division numTokens computed [s]
  | step {computed : Nat} {s : Scheduled} {steps : List Scheduled} (hle : computed ≤ s.computed)
      (hlt : s.computed < numTokens) (hrest : Division numTokens s.computed steps) :
      Division numTokens computed (s :: steps)

def finalTable (blockIds : List Nat) (steps : List Scheduled) : List Nat :=
  blockIds ++ steps.flatMap fun s => s.newBlockIds.getD []

/-! ## 4. The ranks that send in a step -/

section

variable {m : KvHeads} {l : Layout}

theorem mem_ranks {r : Rank} : r ∈ ranks l ↔ r.In l := by
  simp only [ranks, mem_flatMap, mem_map, mem_range, Rank.In]
  constructor
  · rintro ⟨p, hp, t, ht, rfl⟩
    exact ⟨hp, ht⟩
  · exact fun h => ⟨_, h.1, _, h.2, rfl⟩

theorem nodup_ranks : (ranks l).Nodup := by
  refine nodup_flatMap.mpr ⟨fun p _ => nodup_range.map fun a b hab => (Rank.mk.inj hab).2, ?_⟩
  refine nodup_range.imp fun {p q} hpq r hp hq => hpq ?_
  obtain ⟨t, -, rfl⟩ := mem_map.mp hp
  obtain ⟨t', -, heq⟩ := mem_map.mp hq
  exact (Rank.mk.inj heq).1.symm

theorem perm_ranks (h : l.Even m) : (ranks l).Perm ((range (numGroups m l.tpSize)).flatMap fun g =>
    (range (l.repeats m)).flatMap fun t => (range l.cpSize).map fun x => l.rankAt m g t x) := by
  have hn : ((range (numGroups m l.tpSize)).flatMap fun g =>
      (range (l.repeats m)).flatMap fun t => (range l.cpSize).map fun x =>
        l.rankAt m g t x).Nodup := by
    refine nodup_flatMap.mpr ⟨fun g _ => nodup_flatMap.mpr ⟨fun t _ => ?_, ?_⟩, ?_⟩
    · refine nodup_range.map fun x y hxy => ?_
      have hp := congrArg (Rank.cpRank · l) hxy
      simpa only [h.cpRank_rankAt] using hp
    · refine nodup_range.imp_of_mem fun {t u} ht hu htu r hr hr' => htu ?_
      obtain ⟨x, -, rfl⟩ := mem_map.mp hr
      obtain ⟨y, -, heq⟩ := mem_map.mp hr'
      have hc := congrArg (Rank.replica · l m) heq
      simpa only [h.replica_rankAt (mem_range.mp ht),
        h.replica_rankAt (mem_range.mp hu)] using hc.symm
    · refine nodup_range.imp fun {g d} hgd r hr hr' => hgd ?_
      obtain ⟨t, ht, hr⟩ := mem_flatMap.mp hr
      obtain ⟨u, hu, hr'⟩ := mem_flatMap.mp hr'
      obtain ⟨x, -, rfl⟩ := mem_map.mp hr
      obtain ⟨y, -, heq⟩ := mem_map.mp hr'
      have hgr := congrArg (Rank.group · l m) heq
      simpa only [h.group_rankAt (mem_range.mp ht), h.group_rankAt (mem_range.mp hu)] using hgr.symm
  refine (perm_ext_iff_of_nodup nodup_ranks hn).mpr fun r => ?_
  simp only [mem_ranks, mem_flatMap, mem_map, mem_range]
  constructor
  · intro hr
    have hat := h.eq_rankAt hr
    exact ⟨_, hat.1, _, hat.2.1, _, hat.2.2.1, hat.2.2.2⟩
  · rintro ⟨g, hg, t, ht, x, hx, rfl⟩
    exact h.in_rankAt hg ht hx

end

theorem flatMap_range_window {α : Type} {a b n : Nat} (hab : a + b ≤ n) {f : Nat → List α}
    (hf : ∀ t < n, ¬(a ≤ t ∧ t < a + b) → f t = []) :
    (range n).flatMap f = (range b).flatMap fun u => f (a + u) := by
  have hs : range n = range a ++
      ((range b).map (a + ·) ++ (range (n - (a + b))).map (a + b + ·)) := by
    rw [← append_assoc, ← range_add, ← range_add, Nat.add_sub_cancel' hab]
  have hb : (range a).flatMap f = [] :=
    flatMap_eq_nil_iff.mpr fun t ht => by
      have := mem_range.mp ht
      exact hf t (by omega) (by omega)
  have ha : ((range (n - (a + b))).map (a + b + ·)).flatMap f = [] :=
    flatMap_eq_nil_iff.mpr fun t ht => by
      obtain ⟨i, hi, rfl⟩ := mem_map.mp ht
      have := mem_range.mp hi
      exact hf _ (by omega) (by omega)
  rw [hs, flatMap_append, flatMap_append, hb, ha, nil_append, append_nil, flatMap_map]

section

variable {w : Worker} {req : ReqMeta}

/-- The rank for head group `g`, decode copy `u` and part `x` that sends in a step. -/
def senderAt (w : Worker) (req : ReqMeta) (reqIdx g u x : Nat) : Rank :=
  w.layout.rankAt w.heads g (firstCopy w.heads w.layout req.decode reqIdx + u) x

def sentAt (w : Worker) (req : ReqMeta) (reqIdx g u x : Nat) : List (Rank × SendTask) :=
  ((w.onRank (senderAt w req reqIdx g u x)).task req reqIdx).toList.map
    (senderAt w req reqIdx g u x, ·)

def sending (w : Worker) (req : ReqMeta) (reqIdx : Nat) : List (Rank × SendTask) :=
  (range (numGroups w.heads w.layout.tpSize)).flatMap fun g =>
    (range (req.decode.repeats w.heads)).flatMap fun u =>
      (range w.layout.cpSize).flatMap fun x => sentAt w req reqIdx g u x

/-- **What the ranks send in a step**: for every head group and every decode copy, each part
    once. -/
theorem perm_stepTasks (h : Connected w.heads w.layout req.decode)
    (hl : w.toTransIdx req ⌈/⌉ w.layout.cpSize ≤ req.localBlockIds.length)
    (hrm : w.toTransIdx req ⌈/⌉ req.decode.cpSize ≤ req.remoteBlockIds.length) (re : Nat) :
    ∃ ts, stepTasks w req re = .ok ts ∧ ts.Perm (sending w req re) := by
  have hc : ∀ r ∈ ranks w.layout, startLoadKv (w.onRank r) req re
      = .ok (if (w.onRank r).Serves req re then (w.onRank r).task req re else none) := fun r hr =>
    startLoadKv_eq (w := w.onRank r) h (mem_ranks.mp hr) hl hrm re
  refine ⟨_, by rw [stepTasks, mapM_ok hc, ok_bind]; rfl, ?_⟩
  have hz : (ranks w.layout).zip ((ranks w.layout).map fun r =>
      if (w.onRank r).Serves req re then (w.onRank r).task req re else none)
      = (ranks w.layout).map fun r =>
        (r, if (w.onRank r).Serves req re then (w.onRank r).task req re else none) := by
    conv_lhs => rw [← map_id (ranks w.layout), map_map]
    rw [zip_map']
    rfl
  rw [hz, flatMap_map]
  refine ((perm_ranks h.prefillEven).flatMap_right _).trans (Perm.of_eq ?_)
  rw [flatMap_assoc]
  refine flatMap_congr fun g _ => ?_
  rw [flatMap_assoc]
  have hre : ∀ t < w.layout.repeats w.heads, ∀ x,
      ((w.onRank (w.layout.rankAt w.heads g t x)).Serves req re ↔
      firstCopy w.heads w.layout req.decode re ≤ t ∧
        t < firstCopy w.heads w.layout req.decode re + req.decode.repeats w.heads) := by
    intro t ht x
    have hco : (w.layout.rankAt w.heads g t x).replica w.layout w.heads = t :=
      h.prefillEven.replica_rankAt ht
    simp only [Worker.Serves, onRank_heads, onRank_layout, onRank_rank, hco]
  have hle := h.firstCopy_le re
  rw [flatMap_range_window hle]
  · refine flatMap_congr fun u hu => ?_
    have hu := mem_range.mp hu
    rw [flatMap_map]
    refine flatMap_congr fun x _ => ?_
    rw [if_pos ((hre _ (by omega) x).mpr (by omega))]
    rfl
  · intro t ht ho
    rw [flatMap_map]
    refine flatMap_eq_nil_iff.mpr fun x _ => ?_
    rw [if_neg fun hs => ho ((hre t ht x).mp hs)]
    rfl

/-- Block `j` for prefill head group `g` and decode copy `u`: from a rank that holds both, to the
    decode rank that is to have it. -/
def copyOf (m : KvHeads) (prefill decode : Layout) (port : Nat) (table remoteBlockIds : List Nat)
    (g u j : Nat) : Sent where
  group := g
  part := j % prefill.cpSize
  port := (decode.rankAt m (g / groupRatio m prefill decode) u (j % decode.cpSize)).port decode port
  localBlock := table.getD (j / prefill.cpSize) 0
  remoteBlock := remoteBlockIds.getD (j / decode.cpSize) 0

/-- **The copies of a block**: one for every prefill head group and every decode copy. -/
def copiesOf (m : KvHeads) (prefill decode : Layout) (port : Nat) (table remoteBlockIds : List Nat)
    (j : Nat) : List Sent :=
  (range (numGroups m prefill.tpSize)).flatMap fun g => (range (decode.repeats m)).map fun u =>
    copyOf m prefill decode port table remoteBlockIds g u j

section

variable (h : Connected w.heads w.layout req.decode) {g u x ri : Nat}
  (hu : u < req.decode.repeats w.heads)

include h hu

theorem senderAt_group : (senderAt w req ri g u x).group w.layout w.heads = g :=
  h.prefillEven.group_rankAt ((Nat.add_lt_add_left hu _).trans_le (h.firstCopy_le ri))

theorem senderAt_replica : (senderAt w req ri g u x).replica w.layout w.heads
    = firstCopy w.heads w.layout req.decode ri + u :=
  h.prefillEven.replica_rankAt ((Nat.add_lt_add_left hu _).trans_le (h.firstCopy_le ri))

omit hu in
theorem senderAt_cpRank : (senderAt w req ri g u x).cpRank w.layout = x :=
    h.prefillEven.cpRank_rankAt

theorem task_senderAt : (w.onRank (senderAt w req ri g u x)).task req ri
    = if hand w.layout.cpSize (w.transedIdx req) (w.toTransIdx req) x = [] then none else some
      { port := (req.decode.rankAt w.heads (g / groupRatio w.heads w.layout req.decode) u
          (x % req.decode.cpSize)).port req.decode req.remotePort
        transfer :=
          { localBlockIds :=
              (hand w.layout.cpSize (w.transedIdx req) (w.toTransIdx req) x).map fun j =>
                req.localBlockIds.getD (j / w.layout.cpSize) 0
            remoteBlockIds :=
              (hand w.layout.cpSize (w.transedIdx req) (w.toTransIdx req) x).map fun j =>
              req.remoteBlockIds.getD (j / req.decode.cpSize) 0
            transCount := transCount w.layout req.decode (w.promptBlocks req)
              (req.remoteCacheTokens ⌈/⌉ w.blockSize) 0 (x % req.decode.cpSize) * w.pdHeadRatio }
        chunkFinish := (w.onRank (senderAt w req ri g u x)).chunkFinish req } := by
  unfold task
  simp only [blocks, target, onRank_heads, onRank_layout, onRank_rank, onRank_transedIdx,
    onRank_toTransIdx, onRank_promptBlocks, onRank_blockSize, onRank_pdHeadRatio,
      senderAt_group h hu,
    senderAt_replica h hu, senderAt_cpRank h, Nat.add_sub_cancel_left]

theorem sentBlocks_sentAt : (sentAt w req ri g u x).flatMap (sentBlocks w)
    = (hand w.layout.cpSize (w.transedIdx req) (w.toTransIdx req) x).map
      (copyOf w.heads w.layout req.decode req.remotePort
        req.localBlockIds req.remoteBlockIds g u) := by
  rw [sentAt, task_senderAt h hu]
  by_cases hn : hand w.layout.cpSize (w.transedIdx req) (w.toTransIdx req) x = []
  · rw [if_pos hn, hn]
    rfl
  · simp only [if_neg hn, Option.toList_some, map_cons, map_nil, flatMap_cons, flatMap_nil,
      append_nil, sentBlocks, senderAt_group h hu, senderAt_cpRank h, zip_map', map_map]
    refine map_congr_left fun j hj => ?_
    have hp := (mem_hand.mp hj).2.2
    have ht : j % req.decode.cpSize = x % req.decode.cpSize := by rw [← hp, mod_mod_of_dvd _ h.dvd]
    simp only [Function.comp_apply, copyOf, hp, ht]

end

theorem perm_sentBlocks (h : Connected w.heads w.layout req.decode) (re : Nat) :
    ((sending w req re).flatMap (sentBlocks w)).Perm
      ((range' (w.transedIdx req) (w.toTransIdx req - w.transedIdx req)).flatMap
        (copiesOf w.heads w.layout req.decode req.remotePort req.localBlockIds
          req.remoteBlockIds)) := by
  have hp : ∀ g, ∀ u ∈ range (req.decode.repeats w.heads),
      ((range w.layout.cpSize).flatMap fun x => (sentAt w req re g u x).flatMap (sentBlocks w)).Perm
        ((range' (w.transedIdx req) (w.toTransIdx req - w.transedIdx req)).flatMap fun j =>
          [copyOf w.heads w.layout req.decode req.remotePort
            req.localBlockIds req.remoteBlockIds g u j]) := by
    intro g u hu
    rw [flatMap_congr fun x _ => sentBlocks_sentAt h (mem_range.mp hu), ← map_flatMap,
      ← map_eq_flatMap]
    exact (perm_flatMap_hand_all h.prefillEven.cpSize_pos _ _).map _
  have hc : copiesOf w.heads w.layout req.decode req.remotePort req.localBlockIds req.remoteBlockIds
      = fun j => (range (numGroups w.heads w.layout.tpSize)).flatMap fun g =>
        (range (req.decode.repeats w.heads)).flatMap fun u =>
          [copyOf w.heads w.layout req.decode req.remotePort
            req.localBlockIds req.remoteBlockIds g u j] := by
    funext j
    exact flatMap_congr fun g _ => map_eq_flatMap
  rw [hc]
  refine Perm.trans ?_ (Align.flatMap_swap_perm ..)
  unfold sending
  rw [flatMap_assoc]
  refine Perm.flatMap_left _ fun g _ => ?_
  refine Perm.trans ?_ (Align.flatMap_swap_perm ..)
  rw [flatMap_assoc]
  refine Perm.flatMap_left _ fun u hu => ?_
  rw [flatMap_assoc]
  exact hp g u hu

end

/-! ## 5. Runs -/

structure StepMeta (w : Worker) (req : Request) (table : List Nat) (e : ReqMeta) : Prop where
  decode : e.decode = req.decode
  remoteBlockIds : e.remoteBlockIds = req.remoteBlockIds
  remotePort : e.remotePort = req.remotePort
  promptLen : e.promptLen = req.numTokens
  remoteCacheTokens : e.remoteCacheTokens = req.remoteCachedTokens
  chunkFinish : e.chunkFinish = decide (req.numTokens ≤ e.localComputedTokens)
  computed_le : e.localComputedTokens ≤ req.numTokens
  table : e.localBlockIds <+: table

section

variable {w : Worker} {req : Request} {io : SendReqInfo} {ss : List Scheduled}

theorem metas_none (bs : Nat) (ss : List Scheduled) : metas req bs none ss = [] := by
  induction ss with
  | nil => rfl
  | cons s ss ih => simpa [metas, buildConnectorMeta] using ih

variable {s : Scheduled} {c : Nat}

theorem metas_last (bs : Nat) (ha : req.numTokens ≤ s.computed) :
    metas req bs (some io) (s :: ss) = [(addTransferTask req (io.update bs s), s.reqIdx)] := by
  have hf : (addTransferTask req (io.update bs s)).chunkFinish = true := decide_eq_true ha
  simp [metas, buildConnectorMeta, hf, metas_none]

theorem metas_step (bs : Nat) (hlt : s.computed < req.numTokens) : metas req bs (some io) (s :: ss)
      = (addTransferTask req (io.update bs s), s.reqIdx)
        :: metas req bs (some (io.update bs s)) ss := by
  have hf : (addTransferTask req (io.update bs s)).chunkFinish = false :=
    decide_eq_false (not_le.mpr hlt)
  simp [metas, buildConnectorMeta, hf]

theorem stepMeta_addTransferTask {t : List Nat} (hle : s.computed ≤ req.numTokens)
    (ht : io.localBlockIds ++ s.newBlockIds.getD [] <+: t) :
    StepMeta w req t (addTransferTask req (io.update w.blockSize s)) :=
  ⟨rfl, rfl, rfl, rfl, rfl, rfl, hle, ht⟩

theorem metas_stepMeta (io : SendReqInfo) (h : Division req.numTokens io.localComputedTokens ss) :
    ∀ e ∈ metas req w.blockSize (some io) ss, StepMeta w req (finalTable io.localBlockIds ss)
      e.1 := by
  generalize hc : io.localComputedTokens = computed at h
  induction h generalizing io with
  | last _ ha =>
    rw [metas_last _ ha.ge]
    intro e he
    rw [mem_singleton.mp he]
    exact stepMeta_addTransferTask ha.le (by simp [finalTable])
  | @step _ s ss _ hlt _ ih =>
    rw [metas_step _ hlt]
    have ht : finalTable (io.update w.blockSize s).localBlockIds ss
        = finalTable io.localBlockIds (s :: ss) := by
      simp [finalTable, SendReqInfo.update]
    intro e he
    rcases mem_cons.mp he with rfl | he
    · exact stepMeta_addTransferTask hlt.le (by simp [finalTable])
    · exact ht ▸ ih _ rfl e he

theorem transedIdx_update (hbs : 0 < w.blockSize) (hc : req.remoteCachedTokens = c * w.blockSize)
    (s : Scheduled) : w.transedIdx (addTransferTask req (io.update w.blockSize s))
      = max c (io.localComputedTokens / w.blockSize) := by
  simp only [transedIdx, addTransferTask, SendReqInfo.update, roundDown, hc]
  rw [← max_mul_of_nonneg _ _ (Nat.zero_le _), Nat.mul_div_cancel _ hbs]

theorem toTransIdx_update (s : Scheduled) :
    w.toTransIdx (addTransferTask req (io.update w.blockSize s))
    = if req.numTokens ≤ s.computed then s.computed ⌈/⌉ w.blockSize
      else s.computed / w.blockSize := by
  by_cases ha : req.numTokens ≤ s.computed
  · rw [if_pos ha]
    exact if_pos (decide_eq_true ha)
  · rw [if_neg ha]
    exact if_neg (ne_true_of_eq_false (decide_eq_false ha))

/-- **The windows of a run follow one another**, from the cached blocks to the end of the prompt. -/
theorem windows_metas (io : SendReqInfo) (hbs : 0 < w.blockSize)
    (hc : req.remoteCachedTokens = c * w.blockSize)
    (h : Division req.numTokens io.localComputedTokens ss) :
    (metas req w.blockSize (some io) ss).flatMap (fun e =>
        range' (w.transedIdx e.1) (w.toTransIdx e.1 - w.transedIdx e.1))
      = range' (max c (io.localComputedTokens / w.blockSize))
        (req.numTokens ⌈/⌉ w.blockSize - max c (io.localComputedTokens / w.blockSize)) := by
  generalize hco : io.localComputedTokens = computed at h
  induction h generalizing io with
  | last _ ha =>
    rw [metas_last _ ha.ge, flatMap_cons, flatMap_nil, append_nil, transedIdx_update hbs hc, hco,
      toTransIdx_update, if_pos ha.ge, ha]
  | @step computed s ss hle hlt _ ih =>
    have hd : computed / w.blockSize ≤ s.computed / w.blockSize := Nat.div_le_div_right hle
    have he : s.computed / w.blockSize ≤ req.numTokens ⌈/⌉ w.blockSize := div_le_ceilDiv hbs hlt.le
    rw [metas_step _ hlt, flatMap_cons, transedIdx_update hbs hc, hco, toTransIdx_update,
      if_neg (not_le.mpr hlt), ih _ rfl]
    rcases le_total (max c (computed / w.blockSize)) (s.computed / w.blockSize) with hw | hw
    · rw [max_eq_right ((le_max_left _ _).trans hw)]
      exact range'_append_window hw he
    · -- all of the step's blocks are cached
      have hca : max c (s.computed / w.blockSize) = max c (computed / w.blockSize) := by omega
      rw [Nat.sub_eq_zero_of_le hw, range'_zero, nil_append, hca]

theorem toTransIdx_le (hbs : 0 < w.blockSize) (e : ReqMeta) :
    w.toTransIdx e ≤ e.localComputedTokens ⌈/⌉ w.blockSize := by
  unfold toTransIdx
  split
  · exact le_rfl
  · exact div_le_ceilDiv hbs le_rfl

namespace StepMeta

variable {tb : List Nat} {e : ReqMeta} (h : StepMeta w req tb e)

include h

theorem computed_of_lt {j : Nat} (hbs : 0 < w.blockSize) (hj : j < w.toTransIdx e) :
    min ((j + 1) * w.blockSize) req.numTokens ≤ e.localComputedTokens := by
  unfold toTransIdx at hj
  split at hj
  · next hf =>
    rw [h.chunkFinish, decide_eq_true_eq] at hf
    exact (min_le_right _ _).trans hf
  · exact (min_le_left _ _).trans ((le_div_iff_mul_le hbs).mp hj)

theorem fits (hbs : 0 < w.blockSize) (hR : 0 < w.layout.cpSize) (hD : 0 < req.decode.cpSize)
    (ha : e.localComputedTokens ⌈/⌉ (w.blockSize * w.layout.cpSize) ≤ e.localBlockIds.length)
    (hr : req.numTokens ⌈/⌉ w.blockSize ⌈/⌉ req.decode.cpSize ≤ req.remoteBlockIds.length) :
    w.toTransIdx e ⌈/⌉ w.layout.cpSize ≤ e.localBlockIds.length ∧
      w.toTransIdx e ⌈/⌉ e.decode.cpSize ≤ e.remoteBlockIds.length := by
  have hto := toTransIdx_le (w := w) hbs e
  rw [h.decode, h.remoteBlockIds]
  constructor
  · rw [← ceilDiv_ceilDiv hbs hR] at ha
    exact ((gc_mul_ceilDiv hR).monotone_l hto).trans ha
  · exact ((gc_mul_ceilDiv hD).monotone_l
      (hto.trans ((gc_mul_ceilDiv hbs).monotone_l h.computed_le))).trans hr

theorem getD_table {i : Nat} (hi : i < e.localBlockIds.length) :
    e.localBlockIds.getD i 0 = tb.getD i 0 := by
  obtain ⟨re, hr⟩ := h.table
  rw [← hr, getD_append _ _ _ _ hi]

end StepMeta

/-- **The push covers the prompt exactly once**: the windows of the steps are together the blocks of
    the prompt from the first that is not cached, each once. A step sends the copies of its window's
    blocks, whose tokens have been computed by then, and nothing else. -/
theorem push_covers (w : Worker) (req : Request) (blockIds : List Nat) (steps : List Scheduled)
    {c : Nat} (h : Connected w.heads w.layout req.decode) (hbs : 0 < w.blockSize)
    (hc : req.remoteCachedTokens = c * w.blockSize) (hdiv : Division req.numTokens 0 steps)
    (halloc : ∀ e ∈ metas req w.blockSize (some (updateStateAfterAlloc req blockIds)) steps,
      e.1.localComputedTokens ⌈/⌉ (w.blockSize * w.layout.cpSize) ≤ e.1.localBlockIds.length)
    (hremote : req.numTokens ⌈/⌉ w.blockSize ⌈/⌉ req.decode.cpSize ≤ req.remoteBlockIds.length) :
    ∃ windows : List (List Nat), windows.flatten = range' c (req.numTokens ⌈/⌉ w.blockSize - c) ∧
      Forall₂ (fun e window => ∃ tasks, stepTasks w e.1 e.2 = .ok tasks ∧
        (tasks.flatMap (sentBlocks w)).Perm (window.flatMap
          (copiesOf w.heads w.layout req.decode req.remotePort (finalTable blockIds steps)
            req.remoteBlockIds)) ∧
        ∀ j ∈ window, min ((j + 1) * w.blockSize) req.numTokens ≤ e.1.localComputedTokens)
        (metas req w.blockSize (some (updateStateAfterAlloc req blockIds)) steps) windows := by
  have hR := h.prefillEven.cpSize_pos
  refine ⟨(metas req w.blockSize (some (updateStateAfterAlloc req blockIds)) steps).map fun e =>
    range' (w.transedIdx e.1) (w.toTransIdx e.1 - w.transedIdx e.1), ?_, ?_⟩
  · have hw := windows_metas (updateStateAfterAlloc req blockIds) hbs hc hdiv
    simp only [updateStateAfterAlloc, Nat.zero_div, Nat.max_zero] at hw
    rw [← flatMap_def]
    exact hw
  · rw [forall₂_map_right_iff, forall₂_same]
    intro e he
    have hm := metas_stepMeta (w := w) (updateStateAfterAlloc req blockIds) hdiv e he
    have hf := hm.fits hbs hR h.decodeEven.cpSize_pos (halloc e he) hremote
    have hco : Connected w.heads w.layout e.1.decode := hm.decode ▸ h
    obtain ⟨tasks, hr, ht⟩ := perm_stepTasks hco hf.1 hf.2 e.2
    refine ⟨tasks, hr, ?_, fun j hj => hm.computed_of_lt hbs ?_⟩
    · refine (ht.flatMap_right _).trans ((perm_sentBlocks hco e.2).trans (Perm.of_eq ?_))
      refine flatMap_congr fun j hj => ?_
      have hlt : j / w.layout.cpSize < e.1.localBlockIds.length := by
        refine lt_of_lt_of_le ((lt_ceilDiv_iff hR).mpr ?_) hf.1
        have := mem_range'_1.mp hj
        exact (div_mul_le_self j _).trans_lt (by omega)
      simp only [copiesOf, copyOf, hm.decode, hm.remoteBlockIds, hm.remotePort, hm.getD_table hlt]
      rfl
    · have := mem_range'_1.mp hj
      omega

end

def fourTokenWorker (heads : KvHeads) (layout : Layout) (pdHeadRatio : Nat) : Worker :=
  ⟨heads, layout, ⟨0, 0⟩, pdHeadRatio, 4⟩

def tenTokens (decode : Layout) (remoteCachedTokens : Nat) : Request :=
  ⟨10, [5, 6, 7], 200, decode.tpSize, decode.pcpSize, decode.dcpSize, remoteCachedTokens⟩

def twoSteps : List Scheduled := [⟨none, 0, 6, 0, 0⟩, ⟨some [4], 6, 4, 0, 3⟩]

theorem twoSteps_division : Division 10 0 twoSteps :=
  .step (by decide) (by decide) (.last (by decide) rfl)

theorem latent_connected : Connected ⟨true, 1⟩ ⟨2, 1, 2⟩ ⟨1, 1, 1⟩ where
  prefillEven := ⟨by decide, by decide, by decide, by decide, by decide⟩
  decodeEven := ⟨by decide, by decide, by decide, by decide, by decide⟩
  check := by decide
  pcp := rfl
  heads := by decide
  copies := by decide

theorem push_covers_tenTokens : ∃ windows : List (List Nat), windows.flatten = range' 1 2 ∧
    Forall₂ (fun e window => ∃ tasks, stepTasks (fourTokenWorker ⟨true, 1⟩ ⟨2, 1, 2⟩ 1) e.1 e.2
      = .ok tasks ∧ (tasks.flatMap (sentBlocks (fourTokenWorker ⟨true, 1⟩ ⟨2, 1, 2⟩ 1))).Perm
        (window.flatMap (copiesOf ⟨true, 1⟩ ⟨2, 1, 2⟩ ⟨1, 1, 1⟩ 200 [3, 4] [5, 6, 7])) ∧
      ∀ j ∈ window, min ((j + 1) * 4) 10 ≤ e.1.localComputedTokens)
      (metas (tenTokens ⟨1, 1, 1⟩ 4) 4 (some (updateStateAfterAlloc (tenTokens ⟨1, 1, 1⟩ 4) [3]))
        twoSteps) windows :=
  push_covers (fourTokenWorker ⟨true, 1⟩ ⟨2, 1, 2⟩ 1) (tenTokens ⟨1, 1, 1⟩ 4) [3] twoSteps (c := 1)
    latent_connected (by decide) rfl twoSteps_division (by decide) (by decide)

def pushedAtOnce (heads : KvHeads) (prefill decode : Layout) :
    Except PushError (List (Rank × SendTask)) :=
  stepTasks (fourTokenWorker heads prefill 1)
    (addTransferTask (tenTokens decode 0) ⟨[3, 4, 5], 0, 10⟩) 0

/-- **Not every layout that passes the check is served.** In turn: the prefill side has fewer copies
    of the heads; a prefill rank has heads of two decode ranks; four heads over three ranks; and a
    group of four ranks that spans two heads. At last, two prefill head groups send every block to
    the one decode rank. -/
theorem push_refused :
    (contextParallelParametersCheck ⟨true, 1⟩ ⟨1, 1, 1⟩ ⟨2, 1, 1⟩ ∧
      pushedAtOnce ⟨true, 1⟩ ⟨1, 1, 1⟩ ⟨2, 1, 1⟩
        = .error (.assertion "len(selected_p_cp_groups) == len(selected_d_cp_groups)")) ∧
    (contextParallelParametersCheck ⟨false, 4⟩ ⟨1, 1, 1⟩ ⟨2, 1, 1⟩ ∧
      pushedAtOnce ⟨false, 4⟩ ⟨1, 1, 1⟩ ⟨2, 1, 1⟩
        = .error (.assertion "Not support add mutil transfer task")) ∧
    (contextParallelParametersCheck ⟨false, 4⟩ ⟨3, 1, 1⟩ ⟨1, 1, 1⟩ ∧
      pushedAtOnce ⟨false, 4⟩ ⟨3, 1, 1⟩ ⟨1, 1, 1⟩
        = .error (.valueError "Number of heads cannot be evenly divided by TP")) ∧
    (contextParallelParametersCheck ⟨false, 2⟩ ⟨12, 1, 4⟩ ⟨2, 1, 1⟩ ∧
      pushedAtOnce ⟨false, 2⟩ ⟨12, 1, 4⟩ ⟨2, 1, 1⟩
        = .error (.assertion "Not support add mutil transfer task")) ∧
    (contextParallelParametersCheck ⟨false, 2⟩ ⟨2, 1, 1⟩ ⟨1, 1, 1⟩ ∧
      stepTasks (fourTokenWorker ⟨false, 2⟩ ⟨2, 1, 1⟩ 2)
          (addTransferTask (tenTokens ⟨1, 1, 1⟩ 0) ⟨[3, 4, 5], 0, 10⟩) 0
        = .ok ([⟨0, 0⟩, ⟨0, 1⟩].map fun rank =>
          (rank, ⟨200, ⟨[3, 4, 5], [5, 6, 7], 2⟩, true⟩))) := by
  decide

end VllmDual.Push
