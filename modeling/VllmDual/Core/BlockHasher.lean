/-
  Subject:   THE BLOCK HASHES OF A REQUEST (`get_request_block_hasher`, `Request`,
             `Scheduler._update_request_as_session`).

  A request hashes its tokens in blocks, each hash made from the one before it, and extends the list
  from wherever it ended:

  * `hashes_describe_tokens` -- the hashes describe the tokens as long as no session update changes
    a token that is hashed; with an injective hash function, only that long;
  * `staleHash_kept` -- a session update drops the last sampled token, whose block is hashed.
-/
import VllmDual.Lib.Chain
import VllmDual.Core.BlockPool

namespace VllmDual.Hashing

open Outcome Chain Nat
open List hiding chain_cons
open VllmDual.Core (BlockHash blockHashAt)

/-! ## 1. The hash of a block -/

abbrev Token := Nat

/-- An extra key of a block: a LoRA name, the identifier of a media input or a salt; or the digest
    of embeddings. -/
inductive ExtraKey where
  | str (text : String)
  | bytes (digest : BlockHash)
deriving DecidableEq

structure BlockItem where
  tokenIds : List Token
  extraKeys : Option (List ExtraKey)
deriving DecidableEq

/-- What `get_request_block_hasher` closes over, `NONE_HASH`, and the digest of embeddings. -/
structure Hasher where
  blockSize : Nat
  blockSize_pos : 0 < blockSize
  cachingHashFn : BlockHash × BlockItem → BlockHash
  noneHash : BlockHash
  embedsHash : List Nat → BlockHash

/-- `MultiModalFeatureSpec`, with its `mm_position`. -/
structure MMFeature where
  identifier : String
  offset : Nat
  length : Nat
deriving DecidableEq

structure Request where
  promptTokenIds : List Token
  numPromptTokens : Nat
  outputTokenIds : List Token
  allTokenIds : List Token
  numComputedTokens : Nat
  cacheSalt : Option String
  loraName : Option String
  mmFeatures : List MMFeature
  promptEmbeds : Option (List Nat)
  resumable : Bool
  blockHashes : List BlockHash

def Request.numTokens (r : Request) : Nat := r.allTokenIds.length

inductive RequestError where
  | value (text : String)
  | assertion (text : String)

def slice {α : Type} (tokens : List α) (start stop : Nat) : List α := (tokens.take stop).drop start

/-- The loop over the media inputs from index `i` on: the keys, and the index where it stops. -/
def mmKeysFrom (start stop : Nat) : List MMFeature → Nat → List ExtraKey × Nat
  | [], i => ([], i)
  | f :: rest, i =>
    if f.offset < stop then
      if f.offset + f.length < start then
        -- the block has passed this input
        mmKeysFrom start stop rest (i + 1)
      else if f.offset + f.length ≤ stop then
        let (keys, i') := mmKeysFrom start stop rest (i + 1)
        (.str f.identifier :: keys, i')
      else
        ([.str f.identifier], i)
    else
      ([], i)

/-- `_gen_mm_extra_hash_keys`. A negative index counts from the end. -/
def genMmExtraHashKeys (features : List MMFeature) (start stop : Nat) (startMmIdx : Int) :
    Except RequestError (List ExtraKey × Int) :=
  match features.getLast? with
  | none => .ok ([], startMmIdx)
  | some last =>
    if last.offset + last.length < start then
      .ok ([], startMmIdx)
    else if startMmIdx < 0 then do
      ensure (-startMmIdx ≤ features.length) (.assertion "-start_mm_idx <= len(mm_features)")
      let i := (features.length + startMmIdx).toNat
      let (keys, next) := mmKeysFrom start stop (features.drop i) i
      return (keys, (next : Int))
    else
      let (keys, next) := mmKeysFrom start stop (features.drop startMmIdx.toNat) startMmIdx.toNat
      .ok (keys, (next : Int))

namespace Hasher

variable (h : Hasher) (r : Request)

/-- `generate_block_hash_extra_keys`. An empty salt is no key. -/
def generateBlockHashExtraKeys (start stop : Nat) (startMmIdx : Int) :
    Except RequestError (Option (List ExtraKey) × Int) := do
  let (mmExtraKeys, next) ← genMmExtraHashKeys r.mmFeatures start stop startMmIdx
  let loraExtraKeys := r.loraName.toList.map ExtraKey.str
  let cacheSaltKeys :=
    (r.cacheSalt.toList.filter fun salt => start = 0 ∧ salt ≠ "").map ExtraKey.str
  let promptEmbedsKeys := r.promptEmbeds.toList.map fun e =>
    ExtraKey.bytes (h.embedsHash (slice e start stop))
  let extraKeys := loraExtraKeys ++ mmExtraKeys ++ cacheSaltKeys ++ promptEmbedsKeys
  return (if extraKeys = [] then none else some extraKeys, next)

def hashBlockTokens (parentBlockHash : Option BlockHash) (tokenIds : List Token)
    (extraKeys : Option (List ExtraKey)) : BlockHash :=
  h.cachingHashFn (parentBlockHash.getD h.noneHash, ⟨tokenIds, extraKeys⟩)

/-- The loop of the hasher. Every round hashes a block, so as many rounds as tokens are enough. -/
def hashFrom (r : Request) :
    Nat → Nat → Int → Option BlockHash → Except RequestError (List BlockHash)
  | 0, _, _, _ => .ok []
  | fuel + 1, start, currMmIdx, prev =>
    if r.numTokens < start + h.blockSize then
      .ok []
    else do
      let (extraKeys, currMmIdx) ← h.generateBlockHashExtraKeys r start (start + h.blockSize)
        currMmIdx
      let blockHash := h.hashBlockTokens prev (slice r.allTokenIds start (start + h.blockSize))
        extraKeys
      let rest ← hashFrom r fuel (start + h.blockSize) currMmIdx (some blockHash)
      return blockHash :: rest

def requestBlockHasher : Except RequestError (List BlockHash) :=
  let start := r.blockHashes.length * h.blockSize
  if r.numTokens < start + h.blockSize then
    .ok []
  else
    h.hashFrom r r.numTokens start (if 0 < start then -1 else 0) r.blockHashes.getLast?

/-! ## 2. The calls -/

def updateBlockHashes : Except RequestError Request := do
  let new ← h.requestBlockHasher r
  return { r with blockHashes := r.blockHashes ++ new }

/-- The arguments of `Request(...)` that its tokens and hashes depend on. -/
structure NewRequest where
  promptTokenIds : Option (List Token)
  promptEmbeds : Option (List Nat) := none
  mmFeatures : List MMFeature := []
  poolingParams : Bool := false
  loraName : Option String := none
  cacheSalt : Option String := none
  resumable : Bool := false

/-- `Request.__init__`. -/
def newRequest (a : NewRequest) : Except RequestError Request := do
  ensure (a.mmFeatures = [] ∧ a.promptEmbeds = none ∧ a.poolingParams = false ∧ a.loraName = none)
    (.value "Ascend P4 requests must be native text generation without media/pooling/LoRA")
  match a.promptTokenIds with
  | none => .error (.value "Neither prompt_token_ids nor prompt_embeds were defined.")
  | some prompt =>
    h.updateBlockHashes
      { promptTokenIds := prompt, numPromptTokens := prompt.length, outputTokenIds := [],
        allTokenIds := prompt
        numComputedTokens := 0, cacheSalt := a.cacheSalt, loraName := a.loraName
        mmFeatures := a.mmFeatures, promptEmbeds := a.promptEmbeds, resumable := a.resumable
        blockHashes := [] }

def appendOutputTokenIds (tokenIds : List Token) : Except RequestError Request :=
  h.updateBlockHashes
    { r with
      outputTokenIds := r.outputTokenIds ++ tokenIds, allTokenIds := r.allTokenIds ++ tokenIds }

/-- `StreamingUpdate`, as far as the tokens depend on it. -/
structure StreamingUpdate where
  mmFeatures : List MMFeature
  promptTokenIds : Option (List Token)
deriving DecidableEq

/-- `StreamingUpdate.from_request`. -/
def StreamingUpdate.fromRequest : Option StreamingUpdate :=
  if r.resumable then some ⟨r.mmFeatures, some r.promptTokenIds⟩ else none

/-- The tokens after a session update: the computed ones, and the new input. -/
def sessionTokens (session : Request) (update : StreamingUpdate) : List Token :=
  session.allTokenIds.take session.numComputedTokens ++ update.promptTokenIds.getD []

def updateRequestAsSession (session : Request) (update : StreamingUpdate) :
    Except RequestError Request := do
  let keptOutputTokens := slice session.allTokenIds session.numPromptTokens
    session.numComputedTokens
  let base := (session.allTokenIds.take session.numComputedTokens).length
  let updated ← h.updateBlockHashes
    { session with
      allTokenIds := sessionTokens session update
      outputTokenIds := []
      promptTokenIds := session.promptTokenIds ++ keptOutputTokens ++ update.promptTokenIds.getD []
      mmFeatures := session.mmFeatures ++
        update.mmFeatures.map fun f => { f with offset := f.offset + base } }
  return { updated with numPromptTokens := updated.promptTokenIds.length }

end Hasher

/-- What happens to a request. Between the two calls the scheduler sets `num_computed_tokens`. -/
inductive Call where
  | append (tokenIds : List Token)
  | session (update : Hasher.StreamingUpdate)
  | computed (numComputedTokens : Nat)

def Call.run (h : Hasher) (r : Request) : Call → Except RequestError Request
  | append tokenIds => h.appendOutputTokenIds r tokenIds
  | session update => h.updateRequestAsSession r update
  | computed n => .ok { r with numComputedTokens := n }

def Call.Allowed (h : Hasher) : Call → Prop
  | session update => ∃ a request, h.newRequest a = .ok request ∧
    Hasher.StreamingUpdate.fromRequest request = some update
  | _ => True

/-- The requests reached by calls that all meet `ok`. -/
inductive Reached (h : Hasher) (ok : Request → Call → Prop) : Request → Prop
  | new {a : Hasher.NewRequest} {r : Request} : h.newRequest a = .ok r → Reached h ok r
  | step {r r' : Request} (call : Call) : Reached h ok r → call.Allowed h → ok r call →
    call.run h r = .ok r' → Reached h ok r'

/-! ## 3. Hashes that describe the tokens -/

open Hasher

section Described

variable (h : Hasher) (r : Request)

def Hasher.extraKeysOf (start stop : Nat) : Option (List ExtraKey) :=
  match h.generateBlockHashExtraKeys r start stop 0 with
  | .ok (keys, _) => keys
  | .error _ => none

/-- The tokens of the block at index `i`, with their extra keys. -/
def Hasher.item (i : Nat) : BlockItem where
  tokenIds := slice r.allTokenIds (i * h.blockSize) ((i + 1) * h.blockSize)
  extraKeys := h.extraKeysOf r (i * h.blockSize) ((i + 1) * h.blockSize)

/-- The hash of the block at index `i`, from the entry before it. -/
def Hasher.entry (i : Nat) : BlockHash :=
  h.cachingHashFn (parentAt h.noneHash r.blockHashes i, h.item r i)

/-- **The hashes describe the tokens**: one for each full block, made from the one before it and the
    current tokens; and a block at a coarser size is registered under the hashes of its own tokens.
    -/
structure Described : Prop where
  length : r.blockHashes.length = r.numTokens / h.blockSize
  entries : ∀ i < r.numTokens / h.blockSize, r.blockHashes[i]? = some (h.entry r i)
  registered : ∀ factor i key, blockHashAt r.blockHashes factor i = some key →
    key = (range' (i * factor) factor).map (h.entry r)

def Hasher.digest (p : BlockHash) (b : BlockItem) : BlockHash := h.cachingHashFn (p, b)

def Hasher.items (n : Nat) : List BlockItem := (range n).map (h.item r)

variable {h r}

theorem Hasher.digest_injective (hi : Function.Injective h.cachingHashFn) (p : BlockHash)
    (b : BlockItem)
    (p' : BlockHash) (b' : BlockItem) (heq : h.digest p b = h.digest p' b') : p = p' ∧ b = b' :=
  Prod.mk.inj (hi heq)

theorem getElem?_items (n i : Nat) :
    (h.items r n)[i]? = if i < n then some (h.item r i) else none := by
  rw [items, getElem?_map]
  split
  · rename_i hi
    rw [getElem?_range hi]
    rfl
  · rename_i hi
    rw [getElem?_eq_none (by rw [length_range]; exact not_lt.mp hi)]
    rfl

theorem length_items (n : Nat) : (h.items r n).length = n := by
  rw [items, length_map, length_range]

theorem described_iff :
    Described h r ↔
      r.blockHashes = chain h.digest h.noneHash (h.items r (r.numTokens / h.blockSize)) := by
  rw [eq_chain_iff, length_items]
  constructor
  · intro hd
    refine ⟨hd.length, fun i => ?_⟩
    rw [getElem?_items]
    split
    · rename_i hi
      exact hd.entries i hi
    · rename_i hi
      rw [getElem?_eq_none (hd.length ▸ not_lt.mp hi)]
      rfl
  · intro ⟨hl, hen⟩
    have he : ∀ i < r.numTokens / h.blockSize, r.blockHashes[i]? = some (h.entry r i) := by
      intro i hi
      rw [hen i, getElem?_items, if_pos hi]
      rfl
    refine ⟨hl, he, fun fa i key hk => ?_⟩
    unfold blockHashAt at hk
    split at hk
    · rename_i hf
      cases hk
      refine ext_getElem? fun j => ?_
      by_cases hj : j < fa
      · have hlt : i * fa + j < r.blockHashes.length := by
          rw [succ_mul] at hf
          omega
        rw [getElem?_take_of_lt hj, getElem?_drop, he _ (hl ▸ hlt), getElem?_map,
          getElem?_range' hj, Nat.one_mul]
        rfl
      · rw [getElem?_eq_none (by rw [length_take]; omega),
          getElem?_eq_none (by rw [length_map, length_range']; omega)]
    · cases hk

end Described

/-! ## 4. Requests without media, LoRA and embeddings -/

/-- What the constructor refuses stays away. -/
structure Plain (r : Request) : Prop where
  media : r.mmFeatures = []
  lora : r.loraName = none
  embeds : r.promptEmbeds = none

def Request.saltKeys (r : Request) (start : Nat) : Option (List ExtraKey) :=
  match r.cacheSalt with
  | some salt => if start = 0 ∧ salt ≠ "" then some [.str salt] else none
  | none => none

section Update

variable {h : Hasher} {r r' : Request}

theorem Plain.extraKeys (hr : Plain r) (s st : Nat) (i : Int) :
    h.generateBlockHashExtraKeys r s st i = .ok (r.saltKeys s, i) := by
  unfold generateBlockHashExtraKeys genMmExtraHashKeys Request.saltKeys
  rw [hr.media, hr.lora, hr.embeds]
  cases r.cacheSalt with
  | none => rfl
  | some salt =>
    by_cases hk : s = 0 ∧ salt ≠ ""
    · simp [hk]
    · simp [hk]

theorem Plain.item (hr : Plain r) (i : Nat) :
    h.item r i = ⟨slice r.allTokenIds (i * h.blockSize) ((i + 1) * h.blockSize),
      r.saltKeys (i * h.blockSize)⟩ := by
  rw [Hasher.item, Hasher.extraKeysOf, hr.extraKeys]

theorem Plain.hashFrom_eq (hr : Plain r) (fu k : Nat) (i : Int) (p : Option BlockHash)
    (hfu : r.numTokens / h.blockSize ≤ k + fu) :
    h.hashFrom r fu (k * h.blockSize) i p = .ok (chain h.digest (p.getD h.noneHash)
      ((range' k (r.numTokens / h.blockSize - k)).map (h.item r))) := by
  induction fu generalizing k i p with
  | zero =>
    rw [show r.numTokens / h.blockSize - k = 0 from Nat.sub_eq_zero_of_le hfu]
    rfl
  | succ fu ih =>
    unfold hashFrom
    rw [← succ_mul]
    by_cases hf : r.numTokens < k.succ * h.blockSize
    · have hd : r.numTokens / h.blockSize - k = 0 :=
        Nat.sub_eq_zero_of_le (Nat.lt_succ_iff.mp ((Nat.div_lt_iff_lt_mul h.blockSize_pos).mpr hf))
      rw [if_pos hf, hd]
      rfl
    · have hm : k.succ ≤ r.numTokens / h.blockSize :=
        (Nat.le_div_iff_mul_le h.blockSize_pos).mpr (not_lt.mp hf)
      have hc : r.numTokens / h.blockSize - k = (r.numTokens / h.blockSize - k.succ) + 1 := by omega
      rw [if_neg hf, hr.extraKeys, ok_bind]
      dsimp only
      rw [ih k.succ _ _ (by omega), ok_bind, hc, range'_succ, map_cons, chain_cons, hr.item]
      rfl

theorem Plain.updateBlockHashes_eq (hr : Plain r) :
    h.updateBlockHashes r = .ok { r with
      blockHashes := r.blockHashes ++ chain h.digest (r.blockHashes.getLastD h.noneHash)
        ((range' r.blockHashes.length (r.numTokens / h.blockSize - r.blockHashes.length)).map
          (h.item r)) } := by
  have hnew : h.requestBlockHasher r = .ok (chain h.digest (r.blockHashes.getLastD h.noneHash)
      ((range' r.blockHashes.length (r.numTokens / h.blockSize - r.blockHashes.length)).map
        (h.item r))) := by
    unfold requestBlockHasher
    dsimp only
    rw [getLastD_eq_getLast?]
    split
    · rename_i hn
      rw [← succ_mul] at hn
      rw [Nat.sub_eq_zero_of_le (Nat.lt_succ_iff.mp
        ((Nat.div_lt_iff_lt_mul h.blockSize_pos).mpr hn))]
      rfl
    · exact hr.hashFrom_eq _ _ _ _ ((Nat.div_le_self _ _).trans (Nat.le_add_left _ _))
  rw [updateBlockHashes, hnew]
  rfl

theorem Plain.described (hr : Plain r) (hl : r.blockHashes.length ≤ r.numTokens / h.blockSize)
    (hold : r.blockHashes = chain h.digest h.noneHash (h.items r r.blockHashes.length))
    (hrun : h.updateBlockHashes r = .ok r') : Described h r' := by
  rw [hr.updateBlockHashes_eq] at hrun
  cases hrun
  rw [described_iff]
  have hs : h.items r (r.numTokens / h.blockSize) = h.items r r.blockHashes.length ++
      (range' r.blockHashes.length (r.numTokens / h.blockSize - r.blockHashes.length)).map
        (h.item r) := by
    have hra :=
      @range'_append_1 0 r.blockHashes.length (r.numTokens / h.blockSize - r.blockHashes.length)
    rw [Nat.zero_add, Nat.add_sub_cancel' hl] at hra
    rw [items, items, ← map_append, range_eq_range', range_eq_range', hra]
  show _ = chain h.digest h.noneHash (h.items r (r.numTokens / h.blockSize))
  rw [hs, chain_append, ← hold]

/-! ## 5. One call -/

theorem slice_take {ts : List Token} {s st n : Nat} (hs : st ≤ n) :
    slice (ts.take n) s st = slice ts s st := by
  rw [slice, slice, take_take, Nat.min_eq_left hs]

theorem slices_eq_iff {ts ts' : List Token} {s : Nat} (n : Nat) :
    (∀ i < n, slice ts (i * s) ((i + 1) * s) = slice ts' (i * s) ((i + 1) * s)) ↔
      ts.take (n * s) = ts'.take (n * s) := by
  constructor
  · intro ha
    induction n with
    | zero => rw [Nat.zero_mul, take_zero, take_zero]
    | succ n ih =>
      have hc : ∀ l : List Token, l.take ((n + 1) * s) = l.take (n * s) ++
          slice l (n * s) ((n + 1) * s) := by
        intro l
        have hcat := take_append_drop (n * s) (l.take ((n + 1) * s))
        rw [take_take, Nat.min_eq_left (Nat.mul_le_mul_right _ (le_succ n))] at hcat
        exact hcat.symm
      rw [hc ts, hc ts', ih fun i hi => ha i (hi.trans (lt_succ_self n)), ha n (lt_succ_self n)]
  · intro heq i hi
    have hs : (i + 1) * s ≤ n * s := Nat.mul_le_mul_right _ hi
    rw [← slice_take hs, heq, slice_take hs]

theorem Plain.items_eq_iff (hr : Plain r) (hr' : Plain r') (hs : r'.cacheSalt = r.cacheSalt)
    (n : Nat) :
    h.items r' n = h.items r n ↔ r'.allTokenIds.take (n * h.blockSize)
      = r.allTokenIds.take (n * h.blockSize) := by
  have hk : ∀ start, r'.saltKeys start = r.saltKeys start := fun start => by
    rw [Request.saltKeys, Request.saltKeys, hs]
  rw [← slices_eq_iff, items, items, map_inj_left]
  refine forall_congr' fun i => ?_
  rw [mem_range, hr.item, hr'.item, hk, BlockItem.mk.injEq, and_iff_left rfl]

theorem Described.carried (hd : Described h r) (hr : Plain r) (hr' : Plain r')
    (hs : r'.cacheSalt = r.cacheSalt)
    (ht : r'.allTokenIds.take (r.blockHashes.length * h.blockSize) =
      r.allTokenIds.take (r.blockHashes.length * h.blockSize)) :
    r.blockHashes.length ≤ r'.numTokens / h.blockSize ∧
      r.blockHashes = chain h.digest h.noneHash (h.items r' r.blockHashes.length) := by
  constructor
  · have hf : r.blockHashes.length * h.blockSize ≤ r.numTokens := by
      rw [hd.length]
      exact div_mul_le_self _ _
    have hl := congrArg List.length ht
    rw [length_take, length_take, Nat.min_eq_left (b := r.allTokenIds.length) hf] at hl
    exact (Nat.le_div_iff_mul_le h.blockSize_pos).mpr (hl ▸ Nat.min_le_right _ _)
  · have ha := described_iff.mp hd
    rw [← hd.length] at ha
    rwa [(hr.items_eq_iff hr' hs _).mpr ht]

theorem Described.determines (hi : Function.Injective h.cachingHashFn) (hd : Described h r)
    (hd' : Described h r') (hr : Plain r) (hr' : Plain r') (hs : r'.cacheSalt = r.cacheSalt)
    (hk : r.blockHashes <+: r'.blockHashes) :
    r'.allTokenIds.take (r.blockHashes.length * h.blockSize) =
      r.allTokenIds.take (r.blockHashes.length * h.blockSize) := by
  have hle : r.blockHashes.length ≤ r'.numTokens / h.blockSize := hd'.length ▸ hk.length_le
  have hf : (h.items r' (r'.numTokens / h.blockSize)).take r.blockHashes.length
      = h.items r' r.blockHashes.length := by
    rw [items, items, ← map_take, take_range, Nat.min_eq_left hle]
  have hc : chain h.digest h.noneHash (h.items r' r.blockHashes.length) =
      chain h.digest h.noneHash (h.items r r.blockHashes.length) :=
    calc chain h.digest h.noneHash (h.items r' r.blockHashes.length)
        = r'.blockHashes.take r.blockHashes.length := by
          rw [← hf, ← take_chain, ← described_iff.mp hd']
      _ = r.blockHashes := (prefix_iff_eq_take.mp hk).symm
      _ = chain h.digest h.noneHash (h.items r r.blockHashes.length) := by
          nth_rewrite 1 [described_iff.mp hd]
          rw [hd.length]
  exact (hr.items_eq_iff hr' hs _).mp (chain_injective (digest_injective hi) _ hc)

def Call.KeepsHashed (h : Hasher) (r : Request) : Call → Prop
  | session update => (Hasher.sessionTokens r update).take (r.blockHashes.length * h.blockSize) =
      r.allTokenIds.take (r.blockHashes.length * h.blockSize)
  | _ => True

/-- The hashes go on from the last one; the first of all has the salt among its keys. -/
def Extends (h : Hasher) (r r' : Request) : Prop :=
  ∃ items, r'.blockHashes = r.blockHashes ++
    chain h.digest (r.blockHashes.getLastD h.noneHash) items ∧
    (r.blockHashes = [] → ∀ b, items[0]? = some b → b.extraKeys = r.saltKeys 0)

theorem Extends.refl : Extends h r r :=
  ⟨[], (append_nil _).symm, fun _ b hb => by cases hb⟩

theorem Extends.kept (he : Extends h r r') : r.blockHashes <+: r'.blockHashes := by
  obtain ⟨items, heq, -⟩ := he
  exact heq ▸ prefix_append _ _

theorem Plain.updated (hr : Plain r) (hrun : h.updateBlockHashes r = .ok r') :
    Plain r' ∧ r'.cacheSalt = r.cacheSalt ∧ r'.allTokenIds = r.allTokenIds ∧ Extends h r r' := by
  rw [hr.updateBlockHashes_eq] at hrun
  cases hrun
  refine ⟨⟨hr.media, hr.lora, hr.embeds⟩, rfl, rfl, _, rfl, fun hn b hb => ?_⟩
  rw [hn, length_nil, getElem?_map, Option.map_eq_some_iff] at hb
  obtain ⟨i, hi, rfl⟩ := hb
  obtain ⟨hlt, hz⟩ := List.getElem?_eq_some_iff.mp hi
  rw [getElem_range'] at hz
  rw [hr.item, ← hz, Nat.zero_add, Nat.mul_zero, Nat.zero_mul]

theorem newRequest_described {a : Hasher.NewRequest} (hn : h.newRequest a = .ok r) :
    Plain r ∧ Described h r := by
  obtain ⟨⟨hm, he, -, hl⟩, hn⟩ := ensure_bind_eq_ok.mp hn
  cases hp : a.promptTokenIds with
  | none => rw [hp] at hn; cases hn
  | some p =>
    rw [hp] at hn
    have hpl : Plain (Request.mk p p.length [] p 0 a.cacheSalt a.loraName a.mmFeatures
      a.promptEmbeds a.resumable []) := ⟨hm, hl, he⟩
    exact ⟨(hpl.updated hn).1, hpl.described (Nat.zero_le _) rfl hn⟩

theorem Call.Allowed.media {u : Hasher.StreamingUpdate} (ha : (Call.session u).Allowed h) :
    u.mmFeatures = [] := by
  obtain ⟨a, request, hn, hu⟩ := ha
  unfold Hasher.StreamingUpdate.fromRequest at hu
  split at hu
  · cases hu
    exact (newRequest_described hn).1.media
  · cases hu

/-- **One call**: the request stays plain, keeps its salt and goes on from its hashes. If the hashes
    describe the tokens, they do so after a call that changes no hashed token; with an injective
    hash function, only then. -/
theorem Call.run_spec {c : Call} (hr : Plain r) (ha : c.Allowed h) (hrun : c.run h r = .ok r') :
    (Plain r' ∧ r'.cacheSalt = r.cacheSalt ∧ Extends h r r') ∧
    (Described h r → c.KeepsHashed h r → Described h r') ∧
    (Function.Injective h.cachingHashFn → Described h r → Described h r' → c.KeepsHashed h r) := by
  cases c with
  | append ti =>
    have hs : Plain { r with
        outputTokenIds := r.outputTokenIds ++ ti, allTokenIds := r.allTokenIds ++ ti } :=
      ⟨hr.media, hr.lora, hr.embeds⟩
    obtain ⟨hp, hsa, -, he⟩ := hs.updated hrun
    refine ⟨⟨hp, hsa, he⟩, fun hd _ => ?_, fun _ _ _ => trivial⟩
    have hf : r.blockHashes.length * h.blockSize ≤ r.allTokenIds.length := by
      rw [hd.length]
      exact div_mul_le_self _ _
    have hold := hd.carried hr hs rfl (take_append_of_le_length hf)
    exact hs.described hold.1 hold.2 hrun
  | session update =>
    obtain ⟨updated, hu, hl⟩ := of_bind hrun
    cases hl
    rw [Call.Allowed.media ha, map_nil, append_nil] at hu
    have hs : Plain { r with
        allTokenIds := sessionTokens r update
        outputTokenIds := []
        promptTokenIds := r.promptTokenIds ++
          slice r.allTokenIds r.numPromptTokens r.numComputedTokens ++
          update.promptTokenIds.getD [] } := ⟨hr.media, hr.lora, hr.embeds⟩
    obtain ⟨hp, hsa, ht, he⟩ := hs.updated hu
    refine ⟨⟨⟨hp.media, hp.lora, hp.embeds⟩, hsa, he⟩, fun hd hk => ?_, fun hi hd hd' => ?_⟩
    · have hold := hd.carried hr hs rfl hk
      have hn := hs.described hold.1 hold.2 hu
      exact ⟨hn.length, hn.entries, hn.registered⟩
    · have hd'' : Described h updated := ⟨hd'.length, hd'.entries, hd'.registered⟩
      have hsm := Described.determines hi hd hd'' hr hp hsa (Extends.kept he)
      rwa [ht] at hsm
  | computed n =>
    cases hrun
    exact ⟨⟨⟨hr.media, hr.lora, hr.embeds⟩, rfl, .refl⟩,
      fun hd _ => ⟨hd.length, hd.entries, hd.registered⟩, fun _ _ _ => trivial⟩

/-! ## 6. Runs -/

variable {ok : Request → Call → Prop}

theorem Reached.plain (hr : Reached h ok r) : Plain r := by
  induction hr with
  | new hn => exact (newRequest_described hn).1
  | step call _ ha _ hrun ih => exact (Call.run_spec ih ha hrun).1.1

theorem Reached.described (hr : Reached h (fun r call => call.KeepsHashed h r) r) :
    Described h r := by
  induction hr with
  | new hn => exact (newRequest_described hn).2
  | step call hb ha hk hrun ih =>
    exact (Call.run_spec hb.plain ha hrun).2.1 ih hk

end Update

/-- **The hashes describe the tokens** in every run in which no session update changes a hashed
    token. With an injective hash function, no other update keeps them so. -/
theorem hashes_describe_tokens (h : Hasher) :
    (∀ r, Reached h (fun r call => call.KeepsHashed h r) r → Described h r) ∧
    (Function.Injective h.cachingHashFn → ∀ r (call : Call) r', Reached h (fun _ _ => True) r →
      Described h r → call.Allowed h → call.run h r = .ok r' → Described h r' →
        call.KeepsHashed h r) := by
  refine ⟨fun r hr => hr.described, fun hi r call r' hr hd ha hrun hd' => ?_⟩
  exact (Call.run_spec hr.plain ha hrun).2.2 hi hd hd'

/-! ## 7. Blocks of two tokens -/

def ExtraKey.numbers : ExtraKey → List Nat
  | .str text => 0 :: text.toList.map Char.toNat
  | .bytes digest => [1, digest]

theorem ExtraKey.numbers_injective : Function.Injective ExtraKey.numbers := by
  intro a b hab
  cases a with
  | str text =>
    cases b with
    | str text' =>
      have hc : Function.Injective Char.toNat := fun x y hxy => Char.ext (UInt32.toNat.inj hxy)
      exact congrArg ExtraKey.str (String.ext (map_injective_iff.mpr hc (tail_eq_of_cons_eq hab)))
    | bytes digest => cases hab
  | bytes digest =>
    cases b with
    | str text' => cases hab
    | bytes digest' => cases hab; rfl

/-- Items can be numbered, so there is an injective hash function, and one that leaves zero out. -/
def numbered (x : BlockHash × BlockItem) : BlockHash :=
  Encodable.encode (x.1, x.2.tokenIds, x.2.extraKeys.map (·.map ExtraKey.numbers)) + 1

theorem numbered_injective : Function.Injective numbered := by
  intro x y hxy
  have hc := Encodable.encode_injective (Nat.succ.inj hxy)
  obtain ⟨hp, hr⟩ := Prod.mk.inj hc
  obtain ⟨ht, hk⟩ := Prod.mk.inj hr
  have hk := Option.map_injective (map_injective_iff.mpr ExtraKey.numbers_injective) hk
  obtain ⟨p, ts, keys⟩ := x
  obtain ⟨p', ts', keys'⟩ := y
  simp_all

variable (f : BlockHash × BlockItem → BlockHash)

def pairHasher : Hasher := ⟨2, by decide, f, 0, fun _ => 0⟩

def startOf : Request :=
  ⟨[1, 2, 3], 3, [], [1, 2, 3], 0, none, none, [], none, true, [f (0, ⟨[1, 2], none⟩)]⟩

/-- The session after its update, with the output kept, the new input and the second hash. -/
def continued (kept input hashed : List Token) : Request :=
  let tokens := [1, 2, 3] ++ kept ++ input
  ⟨tokens, tokens.length, [], tokens, 3 + kept.length, none, none, [], none, true,
    [f (0, ⟨[1, 2], none⟩), f (f (0, ⟨[1, 2], none⟩), ⟨hashed, none⟩)]⟩

def nextInput : Call := .session ⟨[], some [9]⟩

theorem nextInput_allowed : nextInput.Allowed (pairHasher f) :=
  ⟨{ promptTokenIds := some [9], resumable := true }, _, rfl, rfl⟩

/-- Of five tokens the update drops the last one, which is not hashed. -/
theorem oddSession_described :
    ∃ f, Function.Injective f ∧ Described (pairHasher f) (continued f [4] [9] [3, 4]) := by
  obtain ⟨f, hf⟩ : ∃ f, Function.Injective f := ⟨numbered, numbered_injective⟩
  have hnew : Reached (pairHasher f) (fun r call => call.KeepsHashed (pairHasher f) r)
      (startOf f) :=
    .new (a := { promptTokenIds := some [1, 2, 3], resumable := true }) rfl
  have ha := hnew.step (.append [4, 5]) trivial trivial rfl
  have hc := ha.step (.computed 4) trivial trivial rfl
  have hn := hc.step nextInput (nextInput_allowed f) rfl rfl
  exact ⟨f, hf, (hashes_describe_tokens (pairHasher f)).1 (continued f [4] [9] [3, 4]) hn⟩

/-- **A hash of other tokens**: of four tokens the update drops the last one, whose block is hashed,
    and the hash stays when another token takes its place. -/
theorem staleHash_kept : ∃ f, Function.Injective f ∧
    Reached (pairHasher f) (fun _ _ => True) (continued f [] [9] [3, 4]) ∧
    (continued f [] [9] [3, 4]).allTokenIds = [1, 2, 3, 9] ∧
    ¬ Described (pairHasher f) (continued f [] [9] [3, 4]) := by
  obtain ⟨f, hf⟩ : ∃ f, Function.Injective f := ⟨numbered, numbered_injective⟩
  have hnew : Reached (pairHasher f) (fun _ _ => True) (startOf f) :=
    .new (a := { promptTokenIds := some [1, 2, 3], resumable := true }) rfl
  have ha := hnew.step (.append [4]) trivial trivial rfl
  have hc := ha.step (.computed 3) trivial trivial rfl
  have hn := hc.step nextInput (nextInput_allowed f) trivial rfl
  refine ⟨f, hf, hn, rfl, fun hd => ?_⟩
  have he := hd.entries 1 (show 1 < 4 / 2 by decide)
  have heq : f (f (0, ⟨[1, 2], none⟩), ⟨[3, 4], none⟩)
      = f (f (0, ⟨[1, 2], none⟩), ⟨[3, 9], none⟩) :=
    Option.some.inj he
  exact absurd (Prod.mk.inj (hf heq)).2 (by decide)

end VllmDual.Hashing
