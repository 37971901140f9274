/-
  Subject:   THE KEYS OF THE STORE (`KeyMetadata`, `PoolKey`, `LayerPoolKey`,
             `ChunkedTokenDatabase.process_tokens`,
             `vllm/distributed/kv_transfer/ascend/kv_pool/ascend_store/config_data.py`).

  A chunk of a prompt is stored under the hash of its tokens and the coordinates of the worker, as
  one text.
-/
import VllmDual.Lib.Text

namespace VllmDual.Store

open Text List

/-! ## 1. The keys -/

abbrev BlockHash := List UInt8

structure KeyMetadata where
  modelName : List Char
  headOrTpRank : Nat
  pcpRank : Nat
  dcpRank : Nat
  ppRank : Nat

def field (name : String) (n : Nat) : List Char := '@' :: (name.toList ++ decimal n)

structure PoolKey where
  keyMetadata : KeyMetadata
  chunkHash : List Char

def PoolKey.toString (k : PoolKey) : List Char :=
  k.keyMetadata.modelName ++ (field "pcp" k.keyMetadata.pcpRank ++
    (field "dcp" k.keyMetadata.dcpRank ++ (field "head_or_tp_rank:" k.keyMetadata.headOrTpRank ++
    (field "pp_rank:" k.keyMetadata.ppRank ++ '@' :: k.chunkHash))))

structure LayerPoolKey extends PoolKey where
  layerId : Nat

def LayerPoolKey.toString (k : LayerPoolKey) : List Char :=
  k.keyMetadata.modelName ++ (field "pcp" k.keyMetadata.pcpRank ++
    (field "dcp" k.keyMetadata.dcpRank ++ (field "head_or_tp_rank:" k.keyMetadata.headOrTpRank ++
    ('@' :: (k.chunkHash ++ field "" k.layerId)))))

def PoolKey.splitLayers (k : PoolKey) (numLayers : Nat) : List LayerPoolKey :=
  (range numLayers).map (LayerPoolKey.mk k)

/-! ## 2. What a key shows -/

section Inj

variable {m m' : KeyMetadata} {h h' : List Char} {l l' n n' : Nat} {s t : List Char} {na : String}

theorem notMem_field_body (hname : '@' ∉ na.toList) : '@' ∉ na.toList ++ decimal n := by
  rw [mem_append]
  rintro (hm | hm)
  · exact hname hm
  · exact notMem_decimal (by decide) hm

theorem field_append_inj (hname : '@' ∉ na.toList) :
    field na n ++ '@' :: s = field na n' ++ '@' :: t ↔ n = n' ∧ s = t := by
  simp only [field, cons_append, List.cons.injEq, true_and]
  rw [field_inj (notMem_field_body hname) (notMem_field_body hname), append_cancel_left_eq,
    decimal_inj]

theorem field_append_field_inj {name' : String} {k k' : Nat} (hname : '@' ∉ na.toList) :
    field na n ++ (field name' k ++ s) = field na n' ++ (field name' k' ++ t) ↔
      n = n' ∧ field name' k ++ s = field name' k' ++ t := by
  refine (field_append_inj hname).trans (and_congr_right fun _ => ?_)
  simp [field]

theorem PoolKey.toString_inj (hname : m.modelName = m'.modelName)
    (heq : (PoolKey.mk m h).toString = (PoolKey.mk m' h').toString) :
    m.headOrTpRank = m'.headOrTpRank ∧ m.pcpRank = m'.pcpRank ∧ m.dcpRank = m'.dcpRank ∧
      m.ppRank = m'.ppRank ∧ h = h' := by
  simp only [PoolKey.toString, hname, append_cancel_left_eq] at heq
  obtain ⟨hp, heq⟩ := (field_append_field_inj (by decide)).mp heq
  obtain ⟨hd, heq⟩ := (field_append_field_inj (by decide)).mp heq
  obtain ⟨hhe, heq⟩ := (field_append_field_inj (by decide)).mp heq
  obtain ⟨hpp, hh⟩ := (field_append_inj (by decide)).mp heq
  exact ⟨hhe, hp, hd, hpp, hh⟩

theorem LayerPoolKey.toString_inj (hname : m.modelName = m'.modelName) (hh : '@' ∉ h)
    (hh' : '@' ∉ h')
    (heq : (LayerPoolKey.mk ⟨m, h⟩ l).toString = (LayerPoolKey.mk ⟨m', h'⟩ l').toString) :
    m.headOrTpRank = m'.headOrTpRank ∧ m.pcpRank = m'.pcpRank ∧ m.dcpRank = m'.dcpRank ∧ h = h' ∧
      l = l' := by
  simp only [LayerPoolKey.toString, hname, append_cancel_left_eq] at heq
  obtain ⟨hp, heq⟩ := (field_append_field_inj (by decide)).mp heq
  obtain ⟨hd, heq⟩ := (field_append_field_inj (by decide)).mp heq
  obtain ⟨hhe, heq⟩ := (field_append_inj (by decide)).mp heq
  obtain ⟨hha, hl⟩ := (field_inj hh hh').mp heq
  refine ⟨hhe, hp, hd, hha, ?_⟩
  rwa [append_cancel_left_eq, decimal_inj] at hl

end Inj

/-! ## 3. Replacements -/

section Replace

variable {m : KeyMetadata} {h : List Char} {l n : Nat} {s new : List Char}

theorem replaceFirst_field {p : List Char} {na : String} (hname : '@' ∉ na.toList)
    (hp : ¬ p <+: na.toList ++ (decimal n ++ s)) :
    replaceFirst ('@' :: p) new (field na n ++ s) = field na n ++
      replaceFirst ('@' :: p) new s := by
  refine replaceFirst_skip (notMem_field_body hname) ?_
  rwa [append_assoc]

variable (hname : '@' ∉ m.modelName)
include hname

theorem replaceFirst_front {p : List Char} {k : Nat} (hp : ∀ u, ¬ p <+: 'p' :: 'c' :: u)
    (hd : ∀ u, ¬ p <+: 'd' :: u) :
    replaceFirst ('@' :: p) new (m.modelName ++ (field "pcp" n ++ (field "dcp" k ++ s)))
      = m.modelName ++ (field "pcp" n ++ (field "dcp" k ++ replaceFirst ('@' :: p) new s)) := by
  rw [replaceFirst_append hname, replaceFirst_field (by decide) (hp _),
    replaceFirst_field (by decide) (hd _)]

theorem replaceFirst_head (i : Nat) :
    replaceFirst (field "head_or_tp_rank:" 0) (field "head_or_tp_rank:" i)
        (m.modelName ++ (field "pcp" m.pcpRank ++
          (field "dcp" m.dcpRank ++ (field "head_or_tp_rank:" 0 ++ s))))
      = m.modelName ++ (field "pcp" m.pcpRank ++
        (field "dcp" m.dcpRank ++ (field "head_or_tp_rank:" i ++ s))) :=
  (replaceFirst_front hname (by rintro u ⟨v, hv⟩; cases hv) (by rintro u ⟨v, hv⟩; cases hv)).trans
    (congrArg (fun s => _ ++ (_ ++ (_ ++ s))) replaceFirst_match)

theorem replaceFirst_pp_front :
    replaceFirst (field "pp_rank:" 0) new (m.modelName ++ (field "pcp" m.pcpRank ++
        (field "dcp" m.dcpRank ++ (field "head_or_tp_rank:" m.headOrTpRank ++ s))))
      = m.modelName ++ (field "pcp" m.pcpRank ++ (field "dcp" m.dcpRank ++
        (field "head_or_tp_rank:" m.headOrTpRank ++ replaceFirst (field "pp_rank:" 0) new s))) :=
  (replaceFirst_front hname (by rintro u ⟨v, hv⟩; cases hv) (by rintro u ⟨v, hv⟩; cases hv)).trans
    (congrArg (fun s => _ ++ (_ ++ (_ ++ s)))
      (replaceFirst_field (by decide) (by rintro ⟨v, hv⟩; cases hv)))

theorem replaceFirst_pp (hpp : m.ppRank = 0) (i : Nat) :
    replaceFirst (field "pp_rank:" 0) (field "pp_rank:" i) (PoolKey.mk m h).toString
      = (PoolKey.mk { m with ppRank := i } h).toString := by
  simp only [PoolKey.toString, hpp, replaceFirst_pp_front hname]
  exact congrArg (fun s => _ ++ (_ ++ (_ ++ (_ ++ s)))) replaceFirst_match

theorem replaceFirst_pp_of_ne (hpp : m.ppRank ≠ 0) (hh : 'p' ∉ h) (hh' : '@' ∉ h) (i : Nat) :
    replaceFirst (field "pp_rank:" 0) (field "pp_rank:" i) (PoolKey.mk m h).toString
      = (PoolKey.mk m h).toString := by
  have hr : ¬ "pp_rank:".toList ++ decimal 0 <+: "pp_rank:".toList ++
      (decimal m.ppRank ++ '@' :: h) := by
    rw [prefix_append_right_inj]
    exact decimal_not_zero_first hpp
  have hha : ¬ "pp_rank:".toList ++ decimal 0 <+: h ++ [] := by
    rintro ⟨u, hu⟩
    rw [append_nil] at hu
    exact hh (hu ▸ mem_cons_self)
  have hl : replaceFirst (field "pp_rank:" 0) (field "pp_rank:" i) ('@' :: (h ++ []))
      = '@' :: (h ++ []) := replaceFirst_skip hh' hha
  rw [append_nil] at hl
  rw [PoolKey.toString, replaceFirst_pp_front hname]
  exact congrArg (fun s => _ ++ (_ ++ (_ ++ (_ ++ s))))
    ((replaceFirst_field (by decide) hr).trans (congrArg (_ ++ ·) hl))

theorem exists_replaceFirst_pp (hash : BlockHash) (i : Nat) :
    ∃ pp, replaceFirst (field "pp_rank:" 0) (field "pp_rank:" i) (PoolKey.mk m (hex hash)).toString
      = (PoolKey.mk { m with ppRank := pp } (hex hash)).toString := by
  by_cases hpp : m.ppRank = 0
  · exact ⟨i, replaceFirst_pp hname hpp i⟩
  · exact ⟨m.ppRank, replaceFirst_pp_of_ne hname hpp (notMem_hex (by decide))
      (notMem_hex (by decide)) i⟩

theorem replaceFirst_pp_layer (hh : 'p' ∉ h) (hh' : '@' ∉ h) (i : Nat) :
    replaceFirst (field "pp_rank:" 0) (field "pp_rank:" i) (LayerPoolKey.mk ⟨m, h⟩ l).toString
      = (LayerPoolKey.mk ⟨m, h⟩ l).toString := by
  -- neither the hash nor the layer begins with a p
  have hha : ¬ "pp_rank:".toList ++ decimal 0 <+: h ++ field "" l := by
    rintro ⟨u, hu⟩
    cases h with
    | nil => cases hu
    | cons c h =>
      obtain ⟨hc, -⟩ := List.cons.inj hu
      exact hh (hc ▸ mem_cons_self)
  have hla : ¬ "pp_rank:".toList ++ decimal 0 <+: "".toList ++ (decimal l ++ []) := by
    rintro ⟨u, hu⟩
    rw [append_nil] at hu
    have hm : 'p' ∈ "".toList ++ decimal l := hu ▸ mem_cons_self
    exact notMem_decimal (n := l) (by decide) hm
  have hl : replaceFirst (field "pp_rank:" 0) (field "pp_rank:" i) (field "" l ++ [])
      = field "" l ++ replaceFirst (field "pp_rank:" 0) (field "pp_rank:" i) [] :=
    replaceFirst_field (by decide) hla
  have hn : replaceFirst (field "pp_rank:" 0) (field "pp_rank:" i) [] = [] := rfl
  rw [hn, append_nil] at hl
  rw [LayerPoolKey.toString, replaceFirst_pp_front hname]
  exact congrArg (fun s => _ ++ (_ ++ (_ ++ (_ ++ s))))
    ((replaceFirst_skip hh' hha).trans (congrArg (fun s => '@' :: (h ++ s)) hl))

end Replace

/-! ## 4. The chunks of a prompt -/

/-- The loop of `process_tokens` from a chunk on. -/
def processTokensFrom (blockSize : Nat) (metadata : KeyMetadata) (tokenLen maskNum : Nat) :
    Nat → List BlockHash → List (Nat × Nat × PoolKey)
  | _, [] => []
  | chunkId, hashVal :: hashes =>
    let startIdx := chunkId * blockSize
    if tokenLen ≤ startIdx then
      []
    else
      let rest := processTokensFrom blockSize metadata tokenLen maskNum (chunkId + 1) hashes
      let endIdx := min (startIdx + blockSize) tokenLen
      if startIdx < maskNum then rest
      else (startIdx, endIdx, ⟨metadata, hex hashVal⟩) :: rest

def processTokens (blockSize : Nat) (metadata : KeyMetadata) (tokenLen : Nat)
    (blockHashes : List BlockHash) (maskNum : Nat) : List (Nat × Nat × PoolKey) :=
  processTokensFrom blockSize metadata tokenLen maskNum 0 blockHashes

section Chunks

variable {bz tl i : Nat} {md : KeyMetadata} {bh : List BlockHash}

theorem getElem?_processTokensFrom (k : Nat) :
    (processTokensFrom bz md tl 0 k bh)[i]?
      = if (k + i) * bz < tl then (bh[i]?).map fun hv =>
          ((k + i) * bz, min ((k + i) * bz + bz) tl, ⟨md, hex hv⟩)
        else none := by
  induction bh generalizing k i with
  | nil => simp [processTokensFrom]
  | cons hv bh ih =>
    by_cases hk : tl ≤ k * bz
    · have hle : k * bz ≤ (k + i) * bz := Nat.mul_le_mul_right _ (Nat.le_add_right k i)
      rw [processTokensFrom, if_pos hk, if_neg (by omega)]
      rfl
    · rw [processTokensFrom, if_neg hk, if_neg (Nat.not_lt_zero _)]
      cases i with
      | zero => exact (if_pos (Nat.lt_of_not_le hk)).symm
      | succ i =>
        rw [getElem?_cons_succ, ih, getElem?_cons_succ]
        have ha : k + 1 + i = k + (i + 1) := by omega
        rw [ha]

theorem getElem?_processTokens :
    (processTokens bz md tl bh 0)[i]?
      = if i * bz < tl then (bh[i]?).map fun hv =>
          (i * bz, min (i * bz + bz) tl, ⟨md, hex hv⟩)
        else none := by
  refine (getElem?_processTokensFrom 0).trans ?_
  rw [Nat.zero_add]

end Chunks

end VllmDual.Store
