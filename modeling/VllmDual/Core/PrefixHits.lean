/-
  Subject:   A PREFIX-CACHE HIT HOLDS THE REQUEST'S OWN TOKENS.

  * `hits_hold_prefix` -- in every run, in every pool mode and for every kind of attention, the
    block at row `i` of a hit was cached for a request with the same tokens up to the end of that
    row.
-/
import VllmDual.Core.Salt

namespace VllmDual.Core

open Outcome Chain Hashing Hasher List

/-! ## 1. Requests that share a key -/

theorem blockHashAt_last {hashes hash : List BlockHash} {fa i : Nat} (hp : 0 < fa)
    (h : blockHashAt hashes fa i = some hash) :
    ∃ x, hash.getLast? = some x ∧ hashes[(i + 1) * fa - 1]? = some x := by
  unfold blockHashAt at h
  split at h
  · rename_i hle
    cases h
    rw [Nat.succ_mul] at hle ⊢
    refine ⟨hashes[i * fa + fa - 1], ?_, getElem?_eq_getElem (by omega)⟩
    rw [getLast?_eq_getElem?, length_take, length_drop, Nat.min_eq_left (by omega),
      getElem?_take_of_lt (by omega), getElem?_drop, ← Nat.add_sub_assoc hp, getElem?_eq_getElem]
  · cases h

section Meet

variable {h : Hasher} {r r' : Hashing.Request} {hash : List BlockHash}

theorem take_items {n k : Nat} (hle : k ≤ n) : (h.items r n).take k = h.items r k := by
  rw [items, items, ← map_take, take_range, Nat.min_eq_left hle]

theorem tokens_of_key (hinj : Function.Injective h.cachingHashFn)
    (hroot : ∀ x, h.cachingHashFn x ≠ h.noneHash)
    (hd : Described h r) (hd' : Described h r') {fa i : Nat} (hp : 0 < fa)
    (hk : blockHashAt r.blockHashes fa i = some hash) (hk' : KeyOf r'.blockHashes hash) :
    (i + 1) * fa * h.blockSize ≤ r.numTokens ∧
      r'.allTokenIds.take ((i + 1) * fa * h.blockSize)
        = r.allTokenIds.take ((i + 1) * fa * h.blockSize) := by
  obtain ⟨fa', j, hp', hk'⟩ := hk'
  obtain ⟨x, hx, hi⟩ := blockHashAt_last hp hk
  obtain ⟨x', hx', hj⟩ := blockHashAt_last hp' hk'
  obtain rfl := Option.some.inj (hx.symm.trans hx')
  have hpos : 0 < (i + 1) * fa := Nat.mul_pos (Nat.succ_pos i) hp
  have hl := (List.getElem?_eq_some_iff.mp hi).1
  rw [described_iff.mp hd] at hi
  rw [described_iff.mp hd'] at hj
  have heq := (chain_meet (digest_injective hinj) (fun q b => hroot (q, b)) hi hj).1
  have hl' := (List.getElem?_eq_some_iff.mp (heq ▸ hj)).1
  rw [length_chain, length_items] at hl'
  have ht := take_of_chain_meet (digest_injective hinj) (fun q b => hroot (q, b)) hi (heq ▸ hj)
  rw [Nat.sub_add_cancel hpos, take_items (by rw [← hd.length]; omega), take_items (by omega)] at ht
  refine ⟨(Nat.le_div_iff_mul_le h.blockSize_pos).mp (by rw [← hd.length]; omega), ?_⟩
  refine (slices_eq_iff _).mp fun k hk => ?_
  exact (congrArg BlockItem.tokenIds (map_inj_left.mp ht k (mem_range.mpr hk))).symm

end Meet

/-! ## 2. Runs -/

/-- The world with the requests as the engine has them, and for every pool, key and block that is
    cached under it the request, as it was then, for which it was cached. -/
structure PrefixWorld where
  world : World
  tokens : RequestId → Hashing.Request
  cachedFor : Nat → BlockKey → BlockId → Hashing.Request

def Op.request : Op → Option RequestId
  | allocateSlots r _ | cacheBlocks r _ | removeSkippedBlocks r _
  | removeSavedDecodeWindowBlocks r _ | free r => some r
  | newStepStarts | setRequest .. => none

namespace PrefixWorld

def cachedIn (w : PrefixWorld) (g : Nat) (key : BlockKey) : List BlockId :=
  w.world.state.pools.cachedIn g key

/-- The manager sees the hashes of the engine's requests, no session update of which changed a
    hashed token. -/
def Hashed (h : Hasher) (w : PrefixWorld) : Prop :=
  ∀ r, Hashing.Reached h (fun r call => call.KeepsHashed h r) (w.tokens r) ∧
    (w.world.requests r).blockHashes = (w.tokens r).blockHashes

/-- A block that was not cached under a key is cached for the request of the operation. -/
def next (w : PrefixWorld) (op : Op) (world : World) (tokens : RequestId → Hashing.Request) :
    PrefixWorld where
  world := world
  tokens := tokens
  cachedFor g key b := if b ∈ w.cachedIn g key then w.cachedFor g key b else
    (op.request.map w.tokens).getD (w.cachedFor g key b)

inductive Run (c : Config) (h : Hasher) : PrefixWorld → Prop
  | start {w : PrefixWorld} : (∃ pools, Pools.Start c pools ∧
    w.world.state = State.init pools) → w.Hashed h → Run c h w
  | step {w : PrefixWorld} (op : Op) {n : World} {ts : RequestId → Hashing.Request} : Run c h w →
      op.run c w.world = .ok n → (w.next op n ts).Hashed h → Run c h (w.next op n ts)

/-- Every cached block is cached for a request of the engine, under a key of it. -/
structure Ok (h : Hasher) (w : PrefixWorld) : Prop where
  hashed : w.Hashed h
  cached : ∀ g key b, b ∈ w.cachedIn g key → Described h (w.cachedFor g key b) ∧
    KeyOf (w.cachedFor g key b).blockHashes key.hash

variable {c : Config} {h : Hasher} {w : PrefixWorld}

theorem Ok.step (hw : w.Ok h) {op : Op} {n : World} {ts : RequestId → Hashing.Request}
    (hrun : op.run c w.world = .ok n) (hh : (w.next op n ts).Hashed h) : (w.next op n ts).Ok h := by
  refine ⟨hh, fun g key b hb => ?_⟩
  by_cases hold : b ∈ w.cachedIn g key
  · rw [show (w.next op n ts).cachedFor g key b = w.cachedFor g key b from if_pos hold]
    exact hw.cached g key b hold
  · rw [show (w.next op n ts).cachedFor g key b = _ from if_neg hold]
    have hk := ((op.run_steps hrun).registers.cached g key b hb).resolve_left hold
    have hof (r : RequestId) (hk : KeyOf (w.world.requests r).blockHashes key.hash) :
        Described h (w.tokens r) ∧ KeyOf (w.tokens r).blockHashes key.hash :=
      ⟨(hw.hashed r).1.described, (hw.hashed r).2 ▸ hk⟩
    have hno : ¬ KeyOf [] key.hash := fun hn => by
      obtain ⟨i, x, -, hx⟩ := hn.first
      cases hx
    cases op with
    | newStepStarts => exact absurd hk hno
    | setRequest r request => exact absurd hk hno
    | allocateSlots r a => exact hof r hk
    | cacheBlocks r n => exact hof r hk
    | removeSkippedBlocks r n => exact hof r hk
    | removeSavedDecodeWindowBlocks r n => exact hof r hk
    | free r => exact hof r hk

theorem Run.ok (hr : Run c h w) : w.Ok h := by
  induction hr with
  | @start w hst hh =>
    obtain ⟨pl, hp, hs⟩ := hst
    refine ⟨hh, fun g key b hb => ?_⟩
    rw [cachedIn, hs, show (State.init pl).pools.cachedIn g key
      = [] from hp.cachedIn_eq g key] at hb
    cases hb
  | step op _ hrun hh ih => exact ih.step hrun hh

end PrefixWorld

theorem Config.getComputedBlocks_cached {c : Config} {s : State} {req : Request}
    {hits : HitQuery.Hits} {n : Nat}
    (h : c.getComputedBlocks s req = .ok (hits, n)) (g : Nat) :
    hits g = [] ∨ c.enableCaching = true ∧
      ∃ m ∈ c.managers, m.group = g ∧ HitQuery.CachedBlocks (c.query s req) m g (hits g) := by
  refine Config.getComputedBlocks_forall (P := fun g blocks => blocks = [] ∨
    c.enableCaching = true ∧
    ∃ m ∈ c.managers, m.group = g ∧ HitQuery.CachedBlocks (c.query s req) m g blocks)
      (fun _ => .inl rfl) ?_ ?_ h g
  · rintro g blocks n (rfl | ⟨hc, m, hm, hgr, hb⟩)
    · exact .inl take_nil
    · refine .inr ⟨hc, m, hm, hgr, fun i b hi => ?_⟩
      rw [getElem?_take] at hi
      split at hi
      · exact hb i b hi
      · cases hi
  · intro hc a _ _ rows hs hr g hg
    obtain ⟨m, hm, hgr, hsa⟩ := hs.2 g hg
    have hb := (HitQuery.managerHit_ok hr).cachedBlocks hg
    rw [HitQuery.CachedBlocks, Config.blockSize_eq hc hs.1 hm hsa] at hb
    exact .inr ⟨hc, m, hm, hgr, hb⟩

/-- **A hit holds the request's own tokens.** -/
theorem hits_hold_prefix (c : Config) (h : Hasher) (hsize : h.blockSize = c.hashBlockSize)
    (hinj : Function.Injective h.cachingHashFn) (hroot : ∀ x, h.cachingHashFn x ≠ h.noneHash)
    {w : PrefixWorld}
    (hw : PrefixWorld.Run c h w) {r : RequestId} {hits : HitQuery.Hits} {n : Nat}
    (hg : c.getComputedBlocks w.world.state (w.world.requests r) = .ok (hits, n)) {g i b : Nat}
    (hb : (hits g)[i]? = some b) (hb0 : b ≠ 0) :
    ∃ m ∈ c.managers, m.group = g ∧ (i + 1) * m.blockSize ≤ (w.tokens r).numTokens ∧
      ∃ key, b ∈ w.cachedIn 0 key ∧
      (w.cachedFor 0 key b).allTokenIds.take ((i + 1) * m.blockSize)
        = (w.tokens r).allTokenIds.take ((i + 1) * m.blockSize) := by
  rcases Config.getComputedBlocks_cached hg g with hn | ⟨hc, m, hm, hgr, hca⟩
  · rw [hn] at hb
    cases hb
  obtain ⟨hash, hat, ho⟩ := hca i b hb hb0
  change blockHashAt (w.world.requests r).blockHashes _ i = some hash at hat
  have hok := hw.ok
  have hmem : b ∈ w.cachedIn 0 ⟨hash, g⟩ := mem_of_mem_head? (Pools.getOneBlock_eq _ _ ▸ ho)
  obtain ⟨hd, hk⟩ := hok.cached 0 _ b hmem
  rw [(hok.hashed r).2] at hat
  have hme := tokens_of_key hinj hroot (hok.hashed r).1.described hd
      (Config.factor_pos hc hm) hat hk
  rw [hsize, Nat.mul_assoc, Nat.div_mul_cancel (c.hash_dvd hc m hm)] at hme
  exact ⟨m, hm, hgr, hme.1, _, hmem, hme.2⟩

def prefixStart :
    PrefixWorld := ⟨(freshWorld twoSalts).world, (freshWorld twoSalts).tokens,
      fun _ _ _ => saltedRequest none⟩

def prefixWorld : PrefixWorld :=
  prefixStart.next (.allocateSlots 0 ⟨2, 0, fun _ => [], 0, 0, false, 0, false⟩)
    (cachedWorld twoSalts).world prefixStart.tokens

theorem prefixWorld_run : PrefixWorld.Run saltConfig (pairHasher numbered) prefixWorld :=
  have hr (r : RequestId) : Hashing.Reached (pairHasher numbered)
      (fun r call => call.KeepsHashed (pairHasher numbered) r)
      (prefixStart.tokens r) :=
        .new (a := { promptTokenIds := some [1, 2, 3], cacheSalt := twoSalts r }) rfl
  .step _ (.start ⟨_, .one 9 0, rfl⟩ fun r => ⟨hr r, rfl⟩) (Op.run_eq_next rfl) fun r => ⟨hr r, rfl⟩

/-- Request 2, with the same tokens and salt, hits it. -/
theorem hits_hold_prefix_two : ∃ m ∈ saltConfig.managers, m.group = 0 ∧
    (0 + 1) * m.blockSize ≤ (prefixWorld.tokens 2).numTokens ∧
    ∃ key, 1 ∈ prefixWorld.cachedIn 0 key ∧
      (prefixWorld.cachedFor 0 key 1).allTokenIds.take ((0 + 1) * m.blockSize) =
        (prefixWorld.tokens 2).allTokenIds.take ((0 + 1) * m.blockSize) :=
  have hg : saltConfig.getComputedBlocks prefixWorld.world.state (prefixWorld.world.requests 2) =
      .ok (fun g => if g = 0 then [1] else [], 2) := rfl
  hits_hold_prefix saltConfig (pairHasher numbered)
    rfl numbered_injective (fun _ => Nat.succ_ne_zero _) prefixWorld_run hg
    rfl Nat.one_ne_zero

end VllmDual.Core
