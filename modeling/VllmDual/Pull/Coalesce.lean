/-
  Subject:   COALESCED TRANSFERS COPY WHAT TRANSFERS BLOCK BY BLOCK DO
             (`group_concurrent_contiguous` and `KVCacheRecvingThread._transfer_kv_cache`,
             `ascend/kv_p2p/mooncake_connector.py`).

  Where the local and the remote block ids both go up by one, blocks are read in one transfer:

  * `coalesced_transfers` -- the triples copy every block, with as few runs as the order allows;
  * `reversed_runs` -- in another order there may be fewer.
-/
import VllmDual.Lib.Slices
import VllmDual.Pull.SplitMetadata

namespace VllmDual.Pull

open Outcome List Slices

def Follows (p p' : Nat × Nat) : Bool := p'.1 = p.1 + 1 ∧ p'.2 = p.2 + 1

/-- `group_concurrent_contiguous` of equally long lists: both are split where the difference of one
    of them is not one. -/
def groupConcurrentContiguous (src dst : List Nat) : List (List Nat) × List (List Nat) :=
  let groups := (src.zip dst).splitBy Follows
  (groups.map (·.map Prod.fst), groups.map (·.map Prod.snd))

/-- The base addresses of the layers that are transferred, and `self.block_len`. -/
structure TransferCaches where
  localBases : List Nat
  remoteBases : List Nat
  blockLen : List Nat
  measured : 0 < blockLen.length

variable (c : TransferCaches)

def TransferCaches.layers : List (Nat × Nat × Nat) :=
  (c.localBases.zip c.remoteBases).zipIdx.map fun e =>
    (e.1.1, e.1.2, c.blockLen.get ⟨e.2 % c.blockLen.length, Nat.mod_lt _ c.measured⟩)

/-- The address triples that `_transfer_kv_cache` builds for at least one pull: local address,
    remote address, length. -/
def transferKvCache (remoteBlockIds localBlockIds : List Nat) (offset tpNumNeedPulls : Nat) :
    Except PullError (List (Nat × Nat × Nat)) :=
  if localBlockIds = [] then
    .ok []
  else do
    ensure (localBlockIds.length ≤ remoteBlockIds.length)
      (.assertion "num_local_blocks <= num_remote_blocks")
    let remoteBlockIds := remoteBlockIds.drop (remoteBlockIds.length - localBlockIds.length)
    let (groupedRemote, groupedLocal) :=
      if tpNumNeedPulls = 1 then groupConcurrentContiguous remoteBlockIds localBlockIds
      else (remoteBlockIds.map ([·]), localBlockIds.map ([·]))
    return c.layers.flatMap fun layer =>
      let innerBlockLen := layer.2.2 / tpNumNeedPulls
      (groupedRemote.zip groupedLocal).map fun g =>
        (layer.1 + g.2.headD 0 * layer.2.2 + offset % tpNumNeedPulls * innerBlockLen,
          layer.2.1 + g.1.headD 0 * innerBlockLen, innerBlockLen * g.2.length)

def copied (t : Nat × Nat × Nat) : List (Nat × Nat) :=
  (range t.2.2).map fun i => (t.1 + i, t.2.1 + i)

variable (layer : Nat × Nat × Nat)

def blockCopy (p : Nat × Nat) : Nat × Nat × Nat :=
  (layer.1 + p.2 * layer.2.2, layer.2.1 + p.1 * layer.2.2, layer.2.2)

def runCopy (run : List (Nat × Nat)) : Nat × Nat × Nat :=
  (layer.1 + (run.headD (0, 0)).2 * layer.2.2, layer.2.1 + (run.headD (0, 0)).1 * layer.2.2,
    layer.2.2 * run.length)

theorem run_bytes {run : List (Nat × Nat)} (h : run.IsChain fun p p' => Follows p p' = true) :
    copied (runCopy layer run) = run.flatMap fun p => copied (blockCopy layer p) := by
  induction run with
  | nil => rfl
  | cons p run ih =>
    rw [flatMap_cons, ← ih h.tail, copied, runCopy, length_cons, Nat.mul_succ,
      Nat.add_comm (layer.2.2 * _), range_add, map_append, map_map]
    refine congrArg₂ _ rfl ?_
    cases run with
    | nil => rfl
    | cons p' run =>
      obtain ⟨hf, hs⟩ := of_decide_eq_true (isChain_cons_cons.mp h).1
      refine map_congr_left fun i _ => ?_
      simp only [Function.comp, runCopy, headD_cons, hf, hs, Prod.mk.injEq]
      constructor <;> ring

theorem transferKvCache_eq {rbi lbi : List Nat} (hl : rbi.length = lbi.length) (off : Nat) :
    transferKvCache c rbi lbi off 1 = .ok (c.layers.flatMap fun layer =>
      ((rbi.zip lbi).splitBy Follows).map (runCopy layer)) := by
  unfold transferKvCache
  split
  · rename_i hn
    simp [hn]
  · rw [ensure_pos hl.ge, ok_bind, hl, Nat.sub_self, drop_zero]
    refine congrArg Except.ok (flatMap_congr fun layer _ => ?_)
    simp only [zip_map', map_map, Nat.div_one, Nat.mod_one]
    refine map_congr_left fun run hr => ?_
    cases run with
    | nil => exact absurd hr (nil_notMem_splitBy _ _)
    | cons p run => simp [runCopy]

/-- A way to cut two lists of ids into runs that go up by one on both sides. -/
def Cut (remoteBlockIds localBlockIds : List Nat) (runs : List (List (Nat × Nat))) : Prop :=
  runs.flatten = remoteBlockIds.zip localBlockIds ∧
    ∀ run ∈ runs, run.IsChain fun p p' => Follows p p' = true

/-- **Coalesced transfers equal transfers block by block.** In every layer the triples copy, byte
    for byte and in order, what copying each remote block to its local block does, with one triple
    for each run of a cut, and no cut has fewer runs. -/
theorem coalesced_transfers (c : TransferCaches) (remoteBlockIds localBlockIds : List Nat)
    (hlen : remoteBlockIds.length = localBlockIds.length) (offset : Nat) :
    ∃ triples cut, transferKvCache c remoteBlockIds localBlockIds offset 1 = .ok triples ∧
      triples.flatMap copied = c.layers.flatMap (fun layer =>
        (remoteBlockIds.zip localBlockIds).flatMap fun p => copied (blockCopy layer p)) ∧
      triples.length = c.layers.length * cut.length ∧ Cut remoteBlockIds localBlockIds cut ∧
      ∀ runs, Cut remoteBlockIds localBlockIds runs → cut.length ≤ runs.length := by
  refine ⟨_, (remoteBlockIds.zip localBlockIds).splitBy Follows,
    transferKvCache_eq c hlen offset, ?_, Slices.length_flatMap fun layer _ => length_map _,
    ⟨flatten_splitBy _ _, fun run => isChain_of_mem_splitBy⟩, ?_⟩
  · rw [flatMap_assoc]
    refine flatMap_congr fun layer _ => ?_
    conv_rhs => rw [← flatten_splitBy Follows (remoteBlockIds.zip localBlockIds), ← flatMap_id]
    rw [flatMap_map, flatMap_assoc]
    exact flatMap_congr fun run hrun => run_bytes layer (isChain_of_mem_splitBy hrun)
  · rintro runs ⟨hf, hr⟩
    rw [← hf]
    exact length_splitBy_le hr

theorem coalesced_pair : ∃ triples cut,
    transferKvCache ⟨[100], [200], [4], Nat.one_pos⟩ [5, 6] [8, 9] 0 1 = .ok triples ∧
      triples.length = cut.length ∧ Cut [5, 6] [8, 9] cut := by
  obtain ⟨triples, cut, hr, -, hl, hc, -⟩ :=
    coalesced_transfers ⟨[100], [200], [4], Nat.one_pos⟩ [5, 6] [8, 9] rfl 0
  exact ⟨triples, cut, hr, hl.trans (Nat.one_mul _), hc⟩

/-- Blocks 2 and 1 are read to blocks 2 and 1 in two transfers; one, of blocks 1 and 2, would copy
    the same. -/
theorem reversed_runs :
    ∃ triples, transferKvCache ⟨[0], [0], [1], Nat.one_pos⟩ [2, 1] [2, 1] 0 1 = .ok triples ∧
      triples.length = 2 ∧ (copied (1, 1, 2)).Perm (triples.flatMap copied) :=
  ⟨[(2, 2, 1), (1, 1, 1)], rfl, rfl, by decide⟩

end VllmDual.Pull
