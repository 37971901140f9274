/-
  Subject:   PREFIX-CACHE HITS STAY WITHIN ONE CACHE SALT.

  The salt is a key of the first block only. It reaches every later hash through the chain, and
  every coarser block through the hashes it joins:

  * `salt_isolation` -- a lookup returns only blocks cached for the salt of its request; and without
    evictions its length depends only on what was cached for that salt;
  * `emptySalt_shared` -- an empty salt is no salt.
-/
import VllmDual.Core.BlockHasher
import VllmDual.Core.Modes
import VllmDual.Core.Presence

namespace VllmDual.Core

open Outcome Chain Hashing BlockPool Function List

/-! ## 1. Salted chains -/

def effectiveSalt (salt : Option String) : Option String := salt.filter (· ≠ "")

/-- The hashes are a chain whose first block has the salt among its keys. -/
def SaltedChain (h : Hasher) (salt : Option String) (hashes : List BlockHash) : Prop :=
  ∃ items, hashes = chain h.digest h.noneHash items ∧
    ∀ b, items[0]? = some b → b.extraKeys = (effectiveSalt salt).map fun s => [.str s]

theorem saltKeys_zero (r : Hashing.Request) :
    r.saltKeys 0 = (effectiveSalt r.cacheSalt).map fun s => [.str s] := by
  unfold Hashing.Request.saltKeys effectiveSalt
  cases r.cacheSalt with
  | none => rfl
  | some salt => by_cases he : salt = "" <;> simp [he]

section Chains

variable {h : Hasher} {r : Hashing.Request} {bh hash : List BlockHash}

theorem SaltedChain.extended {r' : Hashing.Request} (hold : SaltedChain h r.cacheSalt r.blockHashes)
    (hs : r'.cacheSalt = r.cacheSalt) (he : Extends h r r') :
    SaltedChain h r'.cacheSalt r'.blockHashes := by
  obtain ⟨items, hc, hf⟩ := hold
  obtain ⟨m, heq, hm⟩ := he
  refine ⟨items ++ m, ?_, fun b hb => ?_⟩
  · rw [heq, hc, chain_append]
  · rw [hs]
    cases items with
    | nil =>
      rw [← saltKeys_zero]
      exact hm hc b hb
    | cons a items => exact hf b hb

/-- **Every request has a salted chain**, whatever has happened to its tokens. -/
theorem reached_salted {ok : Hashing.Request → Hashing.Call → Prop} (hr : Hashing.Reached h ok r) :
    SaltedChain h r.cacheSalt r.blockHashes := by
  induction hr with
  | new hn =>
    have hd := newRequest_described hn
    refine ⟨_, described_iff.mp hd.2, fun b hb => ?_⟩
    rw [getElem?_items] at hb
    split at hb
    · cases hb
      rw [hd.1.item, Nat.zero_mul]
      exact saltKeys_zero _
    · cases hb
  | step call hbe ha _ hrun ih =>
    have hs := (Call.run_spec hbe.plain ha hrun).1
    exact ih.extended hs.2.1 hs.2.2

theorem KeyOf.first (hk : KeyOf bh hash) :
    ∃ (i : Nat) (x : BlockHash), hash[0]? = some x ∧ bh[i]? = some x := by
  obtain ⟨fa, i, hp, hat⟩ := hk
  unfold blockHashAt at hat
  split at hat
  · rename_i hf
    cases hat
    have hlt : i * fa < bh.length := by
      rw [Nat.succ_mul] at hf
      omega
    refine ⟨i * fa, bh[i * fa], ?_, getElem?_eq_getElem hlt⟩
    rw [getElem?_take_of_lt hp, getElem?_drop, Nat.add_zero, getElem?_eq_getElem hlt]
  · cases hat

theorem SaltedChain.meet (hinj : Function.Injective h.cachingHashFn)
    (hr : ∀ x, h.cachingHashFn x ≠ h.noneHash) {s s' : Option String} {ha' : List BlockHash}
    (hs : SaltedChain h s bh) (hs' : SaltedChain h s' ha') (hkey : KeyOf bh hash)
    (hkey' : KeyOf ha' hash) : effectiveSalt s = effectiveSalt s' := by
  obtain ⟨items, rfl, hf⟩ := hs
  obtain ⟨items', rfl, hf'⟩ := hs'
  obtain ⟨i, x, hx, hi⟩ := hkey.first
  obtain ⟨j, x', hx', hj⟩ := hkey'.first
  obtain rfl := Option.some.inj (hx.symm.trans hx')
  have hsa := (chain_meet (Hasher.digest_injective hinj) (fun q b => hr (q, b)) hi hj).2
  cases items with
  | nil => cases hi
  | cons b items =>
    have hk := (hf b rfl).symm.trans (hf' b hsa.symm)
    exact Option.map_injective (fun a b hab => by cases hab; rfl) hk

end Chains

/-! ## 2. What a request registers -/

def Pools.cachedIn : Pools → Nat → BlockKey → List BlockId
  | one p, _, key => p.cached key
  | perGroup ps, g, key => (ps g).cached key
  | shared .., _, _ => []

theorem Pools.getOneBlock_eq (pl : Pools) (key : BlockKey) :
    pl.getOneBlock key = (pl.cachedIn 0 key).head? := by
  cases pl <;> rfl

namespace BlockPool

/-- A block is cached under its own hash, once. -/
structure Synced (p : BlockPool) : Prop where
  hash : ∀ key b, b ∈ p.cached key → p.blockHash b = some key
  nodup : ∀ key, (p.cached key).Nodup

/-- The second pool is synced with the first, and what it has more is under keys of the hashes. -/
structure Registers (hashes : List BlockHash) (p p' : BlockPool) : Prop where
  synced : p.Synced → p'.Synced
  cached : ∀ key b, b ∈ p'.cached key → b ∈ p.cached key ∨ KeyOf hashes key.hash

section

variable {bh : List BlockHash} {p p' p₁ : BlockPool}

theorem Registers.trans (ho : Registers bh p p₁) (hr : Registers bh p₁ p') : Registers bh p p' :=
  ⟨fun hs => hr.synced (ho.synced hs), fun key b hb =>
    (hr.cached key b hb).elim (ho.cached key b) .inr⟩

theorem registers_of_eq (hh : p'.blockHash = p.blockHash) (hc : p'.cached = p.cached) :
    Registers bh p p' :=
  ⟨fun hs => ⟨by rw [hh, hc]; exact hs.hash, by rw [hc]; exact hs.nodup⟩,
    fun key b hb => .inl (by rwa [hc] at hb)⟩

theorem registers_maybeEvict (b : BlockId) : Registers bh p (p.maybeEvictCachedBlock b) := by
  unfold maybeEvictCachedBlock
  split
  · exact registers_of_eq rfl rfl
  · rename_i key hh
    split
    · have hsub : ∀ key', (update p.cached key ((p.cached key).erase b) key').Sublist
        (p.cached key') := by
        intro key'
        by_cases hk : key' = key
        · subst hk
          rw [update_self]
          exact erase_sublist
        · rw [update_of_ne hk]
      refine ⟨fun hs => ⟨fun key' b' hb' => ?_, fun key' => (hs.nodup key').sublist (hsub key')⟩,
        fun key' b' hb' => .inl ((hsub key').subset hb')⟩
      have hold := hs.hash key' b' ((hsub key').subset hb')
      -- the evicted block is in no list any more
      have hne : b' ≠ b := by
        rintro rfl
        obtain rfl := Option.some.inj (hh.symm.trans hold)
        dsimp only at hb'
        rw [update_self] at hb'
        exact (hs.nodup key).not_mem_erase hb'
      exact (update_of_ne hne _ _).trans hold
    · exact registers_of_eq rfl rfl

theorem registers_getNewBlocks {n : Int} {ids : List BlockId}
    (hg : p.getNewBlocks n = .ok (ids, p')) : Registers bh p p' := by
  have ht : ∀ {q q' : BlockPool} {b : BlockId}, q.takeBlock b = .ok q' → Registers bh q q' := by
    intro q q' b ho
    replace ho := of_ensure ho
    cases ho
    split
    · exact (registers_maybeEvict b).trans (registers_of_eq rfl rfl)
    · exact registers_of_eq rfl rfl
  have hl : ∀ {q q' : BlockPool} (l : List BlockId), l.foldlM takeBlock q = .ok q' →
      Registers bh q q' := by
    intro q q' l
    induction l generalizing q with
    | nil =>
      intro hrun
      cases hrun
      exact registers_of_eq rfl rfl
    | cons b l ih =>
      intro hrun
      rw [foldlM_cons] at hrun
      obtain ⟨q₁, ho, hr⟩ := of_bind hrun
      exact (ht ho).trans (ih hr)
  replace hg := of_ensure hg
  obtain ⟨⟨ret, qu⟩, -, hg⟩ := of_bind hg
  obtain ⟨p₁, hrun, hret⟩ := of_bind hg
  cases hret
  have hq : Registers bh p { p with queue := qu } := registers_of_eq rfl rfl
  exact hq.trans (hl _ hrun)

variable {bs : List BlockId}

theorem registers_touch (ht : p.touch bs = .ok p') : Registers bh p p' := by
  unfold touch at ht
  induction bs generalizing p with
  | nil =>
    cases ht
    exact registers_of_eq rfl rfl
  | cons b bs ih =>
    rw [foldlM_cons] at ht
    obtain ⟨p₁, ho, hr⟩ := of_bind ht
    refine Registers.trans ?_ (ih hr)
    unfold touchBlock at ho
    split at ho
    · obtain ⟨q, -, ho⟩ := of_bind ho
      cases ho
      exact registers_of_eq rfl rfl
    · cases ho
      exact registers_of_eq rfl rfl

theorem registers_cacheBlock {fa gr i : Nat} {b : BlockId} (hp : 0 < fa)
    (ho : p.cacheBlock bh fa gr i b = .ok p') : Registers bh p p' := by
  unfold cacheBlock at ho
  split at ho
  · cases ho
    exact registers_of_eq rfl rfl
  · obtain ⟨hf, ho⟩ := ensure_bind_eq_ok.mp ho
    split at ho
    · cases ho
    · rename_i hash hat
      cases ho
      have hk : ∀ key b', key ≠ ⟨hash, gr⟩ → b' ∈ update p.cached ⟨hash, gr⟩
          (if b ∈ p.cached ⟨hash, gr⟩ then p.cached ⟨hash, gr⟩
            else p.cached ⟨hash, gr⟩ ++ [b]) key →
          b' ∈ p.cached key := fun key b' hne hb' => by rwa [update_of_ne hne] at hb'
      refine ⟨fun hs => ?_, fun key b' hb' => ?_⟩
      · -- the block had no hash, so it was in no list
        have hout : ∀ key, b ∉ p.cached key := fun key hb => by
          rw [hs.hash key b hb] at hf
          cases hf
        have hold : ∀ key b', b' ∈ p.cached key →
            update p.blockHash b (some ⟨hash, gr⟩) b' = some key := fun key b' hb' => by
          have hne : b' ≠ b := fun heq => hout key (heq ▸ hb')
          rw [update_of_ne hne, hs.hash key b' hb']
        rw [if_neg (hout _)] at hk
        refine ⟨fun key b' hb' => ?_, fun key => ?_⟩
        · dsimp only at hb' ⊢
          rw [if_neg (hout _)] at hb'
          by_cases hkey : key = ⟨hash, gr⟩
          · subst hkey
            rw [update_self, mem_append, mem_singleton] at hb'
            rcases hb' with hb' | rfl
            · exact hold _ b' hb'
            · exact update_self ..
          · exact hold key b' (hk key b' hkey hb')
        · dsimp only
          rw [if_neg (hout _)]
          by_cases hkey : key = ⟨hash, gr⟩
          · subst hkey
            rw [update_self]
            exact (hs.nodup _).append (nodup_singleton b) (disjoint_singleton.mpr (hout _))
          · rw [update_of_ne hkey]
            exact hs.nodup key
      · by_cases hkey : key = ⟨hash, gr⟩
        · exact .inr (hkey ▸ ⟨fa, i, hp, hat⟩)
        · exact .inl (hk key b' hkey hb')

theorem registers_cacheFullBlocks {ncb nfb bz gr : Nat} (hp : 0 < bz)
    (hc : p.cacheFullBlocks bh bs ncb nfb bz gr = .ok p') :
    Registers bh p p' := by
  have hl : ∀ {q q' : BlockPool} (fa i : Nat) (l : List BlockId), 0 < fa →
      cacheBlocksFrom bh fa gr q i l = .ok q' → Registers bh q q' := by
    intro q q' fa i l hf
    induction l generalizing q i with
    | nil =>
      intro hrun
      cases hrun
      exact registers_of_eq rfl rfl
    | cons b l ih =>
      intro hrun
      obtain ⟨q₁, ho, hr⟩ := of_bind hrun
      exact (registers_cacheBlock hf ho).trans (ih (i + 1) hr)
  unfold cacheFullBlocks at hc
  split at hc
  · cases hc
    exact registers_of_eq rfl rfl
  · replace hc := of_ensure hc
    obtain ⟨hm, hc⟩ := ensure_bind_eq_ok.mp hc
    have hd := Nat.dvd_of_mod_eq_zero hm
    exact hl _ _ _ (Nat.div_pos (Nat.le_of_dvd hp hd) (Nat.pos_of_dvd_of_pos hd hp)) hc

end

end BlockPool

namespace Pools

def Synced : Pools → Prop
  | one p => p.Synced
  | perGroup ps => ∀ g, (ps g).Synced
  | shared .. => True

/-- The same of all pools. -/
structure Registers (hashes : List BlockHash) (pools pools' : Pools) : Prop where
  synced : pools.Synced → pools'.Synced
  cached : ∀ g key b, b ∈ pools'.cachedIn g key → b ∈ pools.cachedIn g key ∨ KeyOf hashes key.hash

section

variable {bh : List BlockHash} {po po' : Pools}

variable {p' : BlockPool} {g : Nat}

theorem Registers.one {p : BlockPool} (h : BlockPool.Registers bh p p') :
    Registers bh (.one p) (.one p') := ⟨h.synced, fun _ => h.cached⟩

theorem Registers.update {ps : Nat → BlockPool} (h : BlockPool.Registers bh (ps g) p') :
    Registers bh (.perGroup ps) (.perGroup (Function.update ps g p')) := by
  have hat : ∀ g', BlockPool.Registers bh (ps g') (Function.update ps g p' g') := by
    intro g'
    by_cases hg : g' = g
    · subst hg
      rwa [update_self]
    · rw [update_of_ne hg]
      exact registers_of_eq rfl rfl
  exact ⟨fun hs g' => (hat g').synced (hs g'), fun g' => (hat g').cached⟩

theorem Registers.shared {ow : Nat → Dsa.DSASharedBlockOwner} {o : Dsa.SetOrder}
    {s s' : Dsa.SharedPools} : Registers bh (.shared ow o s) (.shared ow o s') :=
  ⟨fun _ => trivial, fun _ _ _ hb => by cases hb⟩

theorem Registers.trans {pl₁ : Pools} (h : Registers bh po pl₁) (h' : Registers bh pl₁ po') :
    Registers bh po po' :=
  ⟨fun hs => h'.synced (h.synced hs), fun g key b hb =>
    (h'.cached g key b hb).elim (h.cached g key b) .inr⟩

/-- **Whatever a request does to the pools, it registers blocks under its own keys only.** -/
theorem Steps.registers (h : Steps bh po po') : Registers bh po po' := by
  induction h with
  | refl => exact ⟨id, fun _ _ _ => .inl⟩
  | get hg _ ih =>
    refine Registers.trans ?_ ih
    unfold getNewBlocks at hg
    split at hg
    · obtain ⟨x, ho, hr⟩ := of_bind hg
      cases hr
      exact .one (registers_getNewBlocks ho)
    · obtain ⟨x, ho, hr⟩ := of_bind hg
      cases hr
      exact .update (registers_getNewBlocks ho)
    · split at hg
      · cases hg
      · cases hg
        exact .shared
  | touch ht _ ih =>
    refine Registers.trans ?_ ih
    unfold Pools.touch at ht
    split at ht
    · obtain ⟨p', ho, hr⟩ := of_bind ht
      cases hr
      exact .one (registers_touch ho)
    · obtain ⟨p', ho, hr⟩ := of_bind ht
      cases hr
      exact .update (registers_touch ho)
    · cases ht
  | free hf _ ih =>
    refine Registers.trans ?_ ih
    unfold freeBlocks at hf
    split at hf
    · cases hf
      exact .one (registers_of_eq rfl rfl)
    · cases hf
      exact .update (registers_of_eq rfl rfl)
    · split at hf
      · cases hf
      · cases hf
        exact .shared
  | cache hp hc _ ih =>
    refine Registers.trans ?_ ih
    unfold cacheFullBlocks at hc
    split at hc
    · obtain ⟨p', ho, hr⟩ := of_bind hc
      cases hr
      exact .one (registers_cacheFullBlocks hp ho)
    · obtain ⟨p', ho, hr⟩ := of_bind hc
      cases hr
      exact .update (registers_cacheFullBlocks hp ho)
    · cases hc

theorem Synced.key_unique (hs : po.Synced) {key key' : BlockKey} {b : BlockId}
    (hb : b ∈ po.cachedIn g key) (hb' : b ∈ po.cachedIn g key') : key = key' := by
  have hpo : ∀ {p : BlockPool}, p.Synced → b ∈ p.cached key → b ∈ p.cached key' → key = key' :=
    fun hp h h' => Option.some.inj ((hp.hash key b h).symm.trans (hp.hash key' b h'))
  cases po with
  | one p => exact hpo hs hb hb'
  | perGroup ps => exact hpo (hs g) hb hb'
  | shared ow order s => cases hb

end

variable {c : Config} {ps : Pools}

theorem Start.cachedIn_eq (h : Start c ps) (g : Nat) (key : BlockKey) : ps.cachedIn g key = [] := by
  cases h <;> rfl

theorem Start.synced (h : Start c ps) : ps.Synced := by
  have hp : ∀ n k : Nat, (start n k c).Synced := fun n k =>
    ⟨fun key b hb => (by cases hb), fun key => nodup_nil⟩
  cases h with
  | one n k => exact hp n k
  | perGroup n k => exact fun g => hp (n g) (k g)
  | shared ow order lo => trivial

end Pools

/-! ## 3. Runs -/

/-- The world with the requests as the engine has them; the salt for which a block was last cached;
    and all that was ever cached, by pool, key and salt. -/
structure SaltWorld where
  world : World
  tokens : RequestId → Hashing.Request
  cachedFor : Nat → BlockId → Option String
  log : Nat → BlockKey → Option String → Prop

def SaltWorld.cachedIn (w : SaltWorld) (g : Nat) (key : BlockKey) : List BlockId :=
  w.world.state.pools.cachedIn g key

def Op.salt (tokens : RequestId → Hashing.Request) : Op → Option String
  | allocateSlots r _ | cacheBlocks r _ | removeSkippedBlocks r _
  | removeSavedDecodeWindowBlocks r _ | free r =>
    (tokens r).cacheSalt
  | newStepStarts | setRequest .. => none

/-- Blocks that an operation caches are cached for its request. -/
structure Recorded (op : Op) (w w' : SaltWorld) : Prop where
  new : ∀ g key b, b ∈ w'.cachedIn g key → b ∉ w.cachedIn g key →
    w'.cachedFor g b = op.salt w.tokens
  old : ∀ g key b, b ∈ w'.cachedIn g key → b ∈ w.cachedIn g key → w'.cachedFor g b = w.cachedFor g b
  log : ∀ g key salt, w'.log g key salt ↔ w.log g key salt ∨
    salt = op.salt w.tokens ∧ ∃ b, b ∈ w'.cachedIn g key ∧ b ∉ w.cachedIn g key

/-- The hashes that the manager sees are those of a request of the engine. -/
def SaltWorld.Hashed (h : Hasher) (w : SaltWorld) : Prop :=
  ∀ r, Hashing.Reached h (fun _ _ => True) (w.tokens r) ∧
    (w.world.requests r).blockHashes = (w.tokens r).blockHashes

inductive SaltRun (c : Config) (h : Hasher) (ok : SaltWorld → SaltWorld → Prop) : SaltWorld → Prop
  | start {w : SaltWorld} : (∃ pools, Pools.Start c pools ∧ w.world.state = State.init pools) →
      w.Hashed h → (∀ g key salt, ¬ w.log g key salt) → SaltRun c h ok w
  | step {w w' : SaltWorld} (op : Op) :
    SaltRun c h ok w → op.run c w.world = .ok w'.world → w'.Hashed h →
      Recorded op w w' → ok w w' → SaltRun c h ok w'

def SaltWorld.Keeps (w w' : SaltWorld) : Prop :=
  ∀ g key b, b ∈ w.cachedIn g key → b ∈ w'.cachedIn g key

def SaltedKey (h : Hasher) (salt : Option String) (hash : List BlockHash) : Prop :=
  ∃ hashes, SaltedChain h salt hashes ∧ KeyOf hashes hash

/-- What holds in every run. -/
structure SaltWorld.Ok (h : Hasher) (w : SaltWorld) : Prop where
  hashed : w.Hashed h
  synced : w.world.state.pools.Synced
  cached : ∀ g key b, b ∈ w.cachedIn g key → SaltedKey h (w.cachedFor g b) key.hash
  logged : ∀ g key salt, w.log g key salt → SaltedKey h salt key.hash
  present : ∀ g key b, b ∈ w.cachedIn g key → ∃ salt, w.log g key salt

section Runs

variable {c : Config} {h : Hasher} {w w' : SaltWorld} {op : Op}

theorem SaltWorld.Hashed.key (hw : w.Hashed h) {hash : List BlockHash}
    (hk : KeyOf (op.hashes w.world) hash) : SaltedKey h (op.salt w.tokens) hash := by
  have hre : ∀ r, KeyOf (w.world.requests r).blockHashes hash →
      SaltedKey h (w.tokens r).cacheSalt hash := by
    intro r hr
    obtain ⟨hrc, heq⟩ := hw r
    exact ⟨_, reached_salted hrc, heq ▸ hr⟩
  have he : ¬ KeyOf [] hash := fun hn => by
    obtain ⟨i, x, -, hx⟩ := hn.first
    cases hx
  cases op with
  | allocateSlots r a => exact hre r hk
  | cacheBlocks r n => exact hre r hk
  | removeSkippedBlocks r n => exact hre r hk
  | removeSavedDecodeWindowBlocks r n => exact hre r hk
  | free r => exact hre r hk
  | newStepStarts => exact absurd hk he
  | setRequest r request => exact absurd hk he

theorem SaltWorld.Ok.step (hw : w.Ok h) (hrun : op.run c w.world = .ok w'.world) (ha : w'.Hashed h)
    (hr : Recorded op w w') : w'.Ok h := by
  have hreg := (op.run_steps hrun).registers
  have hn : ∀ g key b, b ∈ w'.cachedIn g key → b ∉ w.cachedIn g key →
      SaltedKey h (op.salt w.tokens) key.hash :=
    fun g key b hb ho => hw.hashed.key ((hreg.cached g key b hb).resolve_left ho)
  refine ⟨ha, hreg.synced hw.synced, fun g key b hb => ?_, fun g key salt hl => ?_,
    fun g key b hb => ?_⟩
  · by_cases hold : b ∈ w.cachedIn g key
    · exact hr.old g key b hb hold ▸ hw.cached g key b hold
    · exact hr.new g key b hb hold ▸ hn g key b hb hold
  · rcases (hr.log g key salt).mp hl with hl | ⟨rfl, b, hb, ho⟩
    · exact hw.logged g key salt hl
    · exact hn g key b hb ho
  · by_cases hold : b ∈ w.cachedIn g key
    · obtain ⟨salt, hl⟩ := hw.present g key b hold
      exact ⟨salt, (hr.log g key salt).mpr (.inl hl)⟩
    · exact ⟨_, (hr.log g key _).mpr (.inr ⟨rfl, b, hb, hold⟩)⟩

theorem SaltRun.ok {ok : SaltWorld → SaltWorld → Prop} (hr : SaltRun c h ok w) : w.Ok h := by
  induction hr with
  | @start w hst hashed hlog =>
    obtain ⟨pl, hp, hs⟩ := hst
    have hn : ∀ g key b, b ∉ w.cachedIn g key := by
      intro g key b hb
      rw [SaltWorld.cachedIn, hs] at hb
      have hnil : (State.init pl).pools.cachedIn g key = [] := hp.cachedIn_eq g key
      rw [hnil] at hb
      cases hb
    exact ⟨hashed, by rw [hs]; exact hp.synced, fun g key b hb => absurd hb (hn g key b),
      fun g key salt hl => absurd hl (hlog g key salt), fun g key b hb => absurd hb (hn g key b)⟩
  | step op _ ho hashed hrec _ ih => exact ih.step ho hashed hrec

theorem SaltRun.kept (hr : SaltRun c h SaltWorld.Keeps w) {g : Nat} {key : BlockKey}
    {s : Option String} (hl : w.log g key s) : ∃ b, b ∈ w.cachedIn g key := by
  induction hr with
  | start _ _ hn => exact absurd hl (hn g key s)
  | step op _ _ _ hrec hk ih =>
    rcases (hrec.log g key s).mp hl with hold | ⟨-, b, hb, -⟩
    · obtain ⟨b, hb⟩ := ih hold
      exact ⟨b, hk g key b hb⟩
    · exact ⟨b, hb⟩

theorem SaltWorld.Ok.record (hw : w.Ok h) {n : World} (hr : op.run c w.world = .ok n)
    (ts : RequestId → Hashing.Request) :
    ∃ w', w'.world = n ∧ w'.tokens = ts ∧ Recorded op w w' := by
  classical
  have hs := (op.run_steps hr).registers.synced hw.synced
  let new := fun g b => ∃ key, b ∈ n.state.pools.cachedIn g key ∧ b ∉ w.cachedIn g key
  refine ⟨⟨n, ts, fun g b => if new g b then op.salt w.tokens else w.cachedFor g b,
    fun g key salt => w.log g key salt ∨ salt = op.salt w.tokens ∧
      ∃ b, b ∈ n.state.pools.cachedIn g key ∧ b ∉ w.cachedIn g key⟩, rfl, rfl, ?_, ?_,
        fun _ _ _ => Iff.rfl⟩
  · intro g key b hb ho
    exact if_pos ⟨key, hb, ho⟩
  · intro g key b hb hold
    refine if_neg fun ⟨key', hb', ho⟩ => ho ?_
    rwa [hs.key_unique hb' hb]

end Runs

/-- **Hits stay within one salt.** A lookup returns only blocks cached for the salt of its request.
    And in two runs without evictions in which the same was cached for that salt, both lookups raise
    the same error or report the same length. -/
theorem salt_isolation (c : Config) (h : Hasher) (hinj : Function.Injective h.cachingHashFn)
    (hroot : ∀ x, h.cachingHashFn x ≠ h.noneHash) :
    (∀ w, SaltRun c h (fun _ _ => True) w → ∀ r hits n,
      c.getComputedBlocks w.world.state (w.world.requests r) = .ok (hits, n) →
      ∀ g, ∀ b ∈ hits g, b ≠ 0 → effectiveSalt (w.cachedFor 0 b)
        = effectiveSalt (w.tokens r).cacheSalt) ∧
    (∀ w w', SaltRun c h SaltWorld.Keeps w → SaltRun c h SaltWorld.Keeps w' →
      ∀ r, w'.world.requests r = w.world.requests r →
      (∀ key salt, effectiveSalt salt = effectiveSalt (w.tokens r).cacheSalt →
        (w'.log 0 key salt ↔ w.log 0 key salt)) →
      Agree (fun x x' => x'.2 = x.2) (c.getComputedBlocks w.world.state (w.world.requests r))
        (c.getComputedBlocks w'.world.state (w'.world.requests r))) := by
  have hm : ∀ {salt salt' : Option String} {hashes hash : List BlockHash},
      SaltedChain h salt hashes →
      KeyOf hashes hash → SaltedKey h salt' hash → effectiveSalt salt' = effectiveSalt salt := by
    intro salt salt' hashes hash hc hk ⟨hashes', hc', hk'⟩
    exact SaltedChain.meet hinj hroot hc' hc hk' hk
  constructor
  · intro w hr r hits n hg g b hb hb0
    have hw := hr.ok
    obtain ⟨hash, hk, ho⟩ := Config.getComputedBlocks_found hg g b hb hb0
    rw [Pools.getOneBlock_eq] at ho
    have hca := hw.cached 0 ⟨hash, g⟩ b (mem_of_mem_head? ho)
    rw [(hw.hashed r).2] at hk
    exact hm (reached_salted (hw.hashed r).1) hk hca
  · intro w w' hr hr' r hsa hl
    have hc := reached_salted (hr.ok.hashed r).1
    -- a key of the request is cached iff it was ever cached for the request's salt
    have hi : ∀ {w₁ : SaltWorld} {hash : List BlockHash} (g : Nat), SaltRun c h SaltWorld.Keeps w₁ →
        KeyOf (w.tokens r).blockHashes hash →
        ((w₁.world.state.pools.getOneBlock ⟨hash, g⟩).isSome = true ↔
          ∃ salt, effectiveSalt salt = effectiveSalt (w.tokens r).cacheSalt ∧
            w₁.log 0 ⟨hash, g⟩ salt) := by
      intro w₁ hash g hrun₁ hk
      rw [Pools.getOneBlock_eq, isSome_head?]
      constructor
      · intro hne
        obtain ⟨b, hb⟩ := exists_mem_of_ne_nil _ hne
        obtain ⟨salt, hs⟩ := hrun₁.ok.present 0 ⟨hash, g⟩ b hb
        exact ⟨salt, hm hc hk (hrun₁.ok.logged 0 ⟨hash, g⟩ salt hs), hs⟩
      · rintro ⟨salt, -, hs⟩
        obtain ⟨b, hb⟩ := hrun₁.kept hs
        exact ne_nil_of_mem hb
    rw [hsa]
    refine Config.getComputedBlocks_agree fun hash g hk => ?_
    rw [(hr.ok.hashed r).2] at hk
    rw [Bool.eq_iff_iff, hi g hr' hk, hi g hr hk]
    exact exists_congr fun salt => and_congr_right fun heq => hl ⟨hash, g⟩ salt heq

/-! ## 4. Three requests with the same tokens -/

def saltConfig : Config where
  managers := [⟨0, .full, 2, 0, 1, true, Nat.two_pos, Nat.one_pos⟩]
  maxModelLen := 64
  enableCaching := true
  useEagle := false
  hashBlockSize := 2
  hashBlockSize_pos := Nat.two_pos
  managers_group := rfl
  managers_caching := by simp
  hash_dvd := by simp [Manager.blockSize]
  unitary := by simp [Manager.blockSize]
  hybrid := by simp

def saltedRequest (salt : Option String) : Hashing.Request :=
  match (pairHasher numbered).newRequest
      { promptTokenIds := some [1, 2, 3], cacheSalt := salt } with
  | .ok r => r
  | .error _ => startOf numbered

theorem saltedRequest_reached (s : Option String) :
    Hashing.Reached (pairHasher numbered) (fun _ _ => True) (saltedRequest s) :=
  .new (a := { promptTokenIds := some [1, 2, 3], cacheSalt := s }) rfl

variable (salts : RequestId → Option String)

def freshWorld : SaltWorld where
  world := ⟨State.init (.one (.start 9 0 saltConfig)), fun r =>
    ⟨r, 3, 0, (saltedRequest (salts r)).blockHashes, false, Nat.succ_pos _, List.nodup_singleton _⟩⟩
  tokens := fun r => saltedRequest (salts r)
  cachedFor := fun _ _ => salts 0
  log := fun _ _ _ => False

def cachedWorld : SaltWorld :=
  let w := freshWorld salts
  let next := (Op.allocateSlots 0 ⟨2, 0, fun _ => [], 0, 0, false, 0, false⟩).next
    saltConfig w.world
  { w with
    world := next
    log := fun g key salt => w.log g key salt ∨
      salt = salts 0 ∧ ∃ b, b ∈ next.state.pools.cachedIn g key ∧ b ∉ w.cachedIn g key }

theorem freshWorld_run (ok : SaltWorld → SaltWorld → Prop) :
    SaltRun saltConfig (pairHasher numbered) ok (freshWorld salts) :=
  .start ⟨_, .one 9 0, rfl⟩ (fun r => ⟨saltedRequest_reached (salts r), rfl⟩) fun _ _ _ => id

theorem cachedWorld_run {ss : RequestId → Option String} {ok : SaltWorld → SaltWorld → Prop}
    (hr : ((Op.allocateSlots 0 ⟨2, 0, fun _ => [], 0, 0, false, 0, false⟩).run saltConfig
      (freshWorld ss).world).toBool = true) (hok : ok (freshWorld ss) (cachedWorld ss))
    (hs : (cachedWorld ss).world.requests = (freshWorld ss).world.requests) :
    SaltRun saltConfig (pairHasher numbered) ok (cachedWorld ss) := by
  refine (freshWorld_run ss ok).step _ (Op.run_eq_next hr) (fun r => ?_) ⟨fun _ _ _ _ _ => rfl,
    fun _ _ _ _ _ => rfl, fun _ _ _ => Iff.rfl⟩ hok
  rw [hs]
  exact ⟨saltedRequest_reached (ss r), rfl⟩

def twoSalts : RequestId → Option String
  | 1 => some "b"
  | _ => some "a"

/-- Request 2 hits the block of request 0; request 1 hits nothing, as if it had not been cached. -/
theorem twoSalts_isolated :
    (∃ hits, saltConfig.getComputedBlocks (cachedWorld twoSalts).world.state
        ((cachedWorld twoSalts).world.requests 2) = .ok (hits, 2) ∧ hits 0 = [1] ∧
      effectiveSalt ((cachedWorld twoSalts).cachedFor 0 1) = some "a") ∧
    Agree (fun x x' => x'.2 = x.2)
      (saltConfig.getComputedBlocks (cachedWorld twoSalts).world.state
        ((cachedWorld twoSalts).world.requests 1))
      (saltConfig.getComputedBlocks (freshWorld twoSalts).world.state
        ((freshWorld twoSalts).world.requests 1)) := by
  have hr : ∀ x, (pairHasher numbered).cachingHashFn x ≠ (pairHasher numbered).noneHash :=
    fun x => Nat.succ_ne_zero _
  obtain ⟨hw, ha⟩ := salt_isolation saltConfig (pairHasher numbered) numbered_injective hr
  constructor
  · have hrun : SaltRun saltConfig (pairHasher numbered) (fun _ _ => True) (cachedWorld twoSalts) :=
      cachedWorld_run rfl trivial rfl
    have hg : saltConfig.getComputedBlocks (cachedWorld twoSalts).world.state
        ((cachedWorld twoSalts).world.requests 2)
        = .ok (fun g => if g = 0 then [1] else [], 2) := rfl
    exact ⟨_, hg, rfl, hw _ hrun 2 _ 2 hg 0 1 mem_cons_self (by decide)⟩
  · have hrun : SaltRun saltConfig (pairHasher numbered) SaltWorld.Keeps (cachedWorld twoSalts) :=
      cachedWorld_run rfl (fun g key b hb => by cases hb) rfl
    refine ha _ _ hrun (freshWorld_run twoSalts _) 1 rfl fun key salt heq => ?_
    refine ⟨fun hl => .inl hl, fun hl => hl.elim id fun hn => ?_⟩
    rw [hn.1] at heq
    exact absurd heq (by decide)

def emptySalts : RequestId → Option String
  | 0 => some ""
  | _ => none

/-- **An empty salt is no salt**: request 1 hits the block that was cached for request 0. -/
theorem emptySalt_shared :
    (cachedWorld emptySalts).cachedFor 0 1 = some "" ∧
    ((cachedWorld emptySalts).tokens 1).cacheSalt = none ∧
    SaltRun saltConfig (pairHasher numbered) (fun _ _ => True) (cachedWorld emptySalts) ∧
    saltConfig.getComputedBlocks (cachedWorld emptySalts).world.state
      ((cachedWorld emptySalts).world.requests 1) = .ok (fun g => if g = 0 then [1] else [], 2) :=
  ⟨rfl, rfl, cachedWorld_run rfl trivial rfl, rfl⟩

end VllmDual.Core
