/-
  Subject:   THE ADDRESSES OF A CHUNK, WHOLE AND LAYER BY LAYER
             (`ChunkedTokenDatabase.prepare_value`, `prepare_value_layer`,
             `ascend_store/config_data.py`).

  * `layers_eq_whole_iff` -- they agree exactly if all tensors of a layer start at one address;
  * `value_tensor_missed` -- so not if a layer has a key tensor and a value tensor.
-/
import VllmDual.Lib.Align
import VllmDual.Lib.Slices

namespace VllmDual.Store

open List

/-- What both functions read: the first addresses of the tensors, layer after layer, and the bytes
    of a block in each tensor of a layer. -/
structure ChunkedTokenDatabase where
  blockSize : Nat
  blockSize_pos : 0 < blockSize
  numLayers : Nat
  kvCachesBaseAddr : List Nat
  blockLen : List Nat
  length_eq : kvCachesBaseAddr.length = numLayers * blockLen.length

namespace ChunkedTokenDatabase

-- `size` is `int(block_len / block_size * (end - start))`, which is computed with floats
variable (db : ChunkedTokenDatabase) (size : Nat → Nat → Nat → Nat) (start stop : Nat)

def part (blockId base len : Nat) : Nat × Nat :=
  (base + blockId * len, size len db.blockSize (stop - start))

variable (blockIds : List Nat)

/-- `prepare_value`: the parts in all tensors, and the block. -/
def prepareValue : Option (List (Nat × Nat) × Nat) :=
  (blockIds[start / db.blockSize]?).map fun blockId =>
    (db.kvCachesBaseAddr.mapIdx fun index base =>
      db.part size start stop blockId base
        (db.blockLen.getD (index % db.blockLen.length) 0), blockId)

def prepareValueLayer (layerId : Nat) : Option (List (Nat × Nat)) :=
  (blockIds[start / db.blockSize]?).map fun blockId =>
    db.blockLen.map (db.part size start stop blockId
      (db.kvCachesBaseAddr.getD (layerId * db.blockLen.length) 0))

variable {db size start stop blockIds}

/-- **The layers make up the whole chunk exactly if the tensors of a layer start at one
    address.** -/
theorem layers_eq_whole_iff (h : start / db.blockSize < blockIds.length) :
    ((range db.numLayers).mapM (db.prepareValueLayer size start stop blockIds)).map flatten
        = (db.prepareValue size start stop blockIds).map Prod.fst ↔
      ∀ layer < db.numLayers, ∀ i < db.blockLen.length,
        db.kvCachesBaseAddr.getD (layer * db.blockLen.length + i) 0
          = db.kvCachesBaseAddr.getD (layer * db.blockLen.length) 0 := by
  let n := db.blockLen.length
  let f := db.part size start stop blockIds[start / db.blockSize]
  let base := fun i => db.kvCachesBaseAddr.getD i 0
  let len := fun i => db.blockLen.getD i 0
  have hb := getElem?_eq_getElem h
  -- both lists, layer after layer and tensor after tensor
  have hl : (range db.numLayers).mapM (db.prepareValueLayer size start stop blockIds)
      = some ((range db.numLayers).map fun j =>
        (range n).map fun i => f (base (j * n)) (len i)) := by
    have hj : ∀ j, db.prepareValueLayer size start stop blockIds j
        = pure ((range n).map fun i => f (base (j * n)) (len i)) := by
      intro j
      rw [prepareValueLayer, hb]
      exact congrArg some (ext_getElem (by simp [n]) fun i hi _ => by
        rw [length_map] at hi
        simp [len, hi, f, base, n])
    rw [funext hj]
    exact mapM_pure ..
  have hw : (db.prepareValue size start stop blockIds).map Prod.fst
      = some ((range db.numLayers).flatMap
      fun j => (range n).map fun i => f (base (j * n + i)) (len i)) := by
    have hi : db.kvCachesBaseAddr.mapIdx (fun i b => f b (len (i % n)))
        = (range (db.numLayers * n)).map fun i => f (base i) (len (i % n)) :=
      ext_getElem (by simp [n, db.length_eq]) fun i hi _ => by
        rw [length_mapIdx] at hi
        simp [base, hi]
    rw [prepareValue, hb]
    show some (db.kvCachesBaseAddr.mapIdx fun i b => f b (len (i % n))) = _
    rw [hi, Align.range_mul_map]
    refine congrArg some (flatMap_congr fun j _ => map_congr_left fun i hi => ?_)
    rw [Nat.mul_add_mod_self_right, Nat.mod_eq_of_lt (mem_range.mp hi)]
  rw [hl, hw]
  show some (flatMap _ _) = some _ ↔ _
  rw [Option.some_inj]
  constructor
  · intro heq j hj i hi
    have hs := congrArg (Slices.slices n (range db.numLayers).length) heq
    rw [Slices.slices_flatMap (by simp), Slices.slices_flatMap (by simp)] at hs
    have hp := map_inj_left.mp (map_inj_left.mp hs j (mem_range.mpr hj)) i (mem_range.mpr hi)
    exact (Nat.add_right_cancel (Prod.mk.inj hp).1).symm
  · intro hall
    refine flatMap_congr fun j hj => map_congr_left fun i hi => ?_
    exact congrArg (f · (len i)) (hall j (mem_range.mp hj) i (mem_range.mp hi)).symm

theorem layers_eq_whole_latent :
    ((range 2).mapM (prepareValueLayer ⟨4, by decide, 2, [100, 200], [8], rfl⟩
      (fun len _ _ => len) 0 4 [1])).map flatten = some [(108, 8), (208, 8)] :=
  (layers_eq_whole_iff (by decide)).mpr (by decide)

/-- One layer with two tensors: the second one is read behind the start of the first. -/
theorem value_tensor_missed :
    let db : ChunkedTokenDatabase := ⟨4, by decide, 1, [100, 200], [8, 8], rfl⟩
    db.prepareValue (fun len _ _ => len) 0 4 [1] = some ([(108, 8), (208, 8)], 1) ∧
      db.prepareValueLayer (fun len _ _ => len) 0 4 [1] 0 = some [(108, 8), (108, 8)] := by
  decide

end ChunkedTokenDatabase

end VllmDual.Store
