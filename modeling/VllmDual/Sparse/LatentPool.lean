/-
  Subject:   THE PAGED LATENT POOL IS A MEMORY OF EACH REQUEST
             (`distributed/kv_transfer/ascend/sparse_offload/paged_latent_pool.py`).

  * `pool_is_memory` -- reads that the reservations cover return the cells, also in a batch with
    others;
  * `padding_reads_foreign_rows` -- a batched read behind the blocks of a request reads block 0.
-/
import VllmDual.Lib.Outcome
import VllmDual.Lib.Scatter

namespace VllmDual.Sparse

open Function Scatter List Outcome

/-! ## 1. The pool -/

structure Dims where
  numLayers : Nat
  numBlocks : Nat
  blockSize : Nat
  blockSize_pos : 0 < blockSize

/-- `PagedLatentPool`. `R` is a row of `knope` with its row of `kpe`: both tensors are read and
    written at the same slots. `_bt_key` is kept with `_bt_cache`. -/
structure Pool (R : Type) where
  free : List Nat
  reqBlocks : String → Option (List Nat)
  btCache : Option ((List String × Nat) × List (List Nat))
  btDirty : Bool
  rows : Nat → Nat → R

/-- What a store gets: `rows j` for `positions j`. `order` lists the indices `j` in the order in
    which the device writes, which matters where a position is given twice. -/
structure Writes (R : Type) where
  order : List Nat
  positions : Nat → Nat
  rows : Nat → R

/-- `positions.max() + 1`, zero for no position. -/
def Writes.numPositions {R : Type} (w : Writes R) : Nat :=
  (w.order.map (w.positions · + 1)).foldr max 0

inductive Op (R : Type) where
  | reserve (r : String) (numPositions : Nat)
  | store (r : String) (layer : Nat) (w : Writes R)
  | freeRequest (r : String)
  | gather (r : String) (layer : Nat) (positions : List Nat)
  | gatherBatched (reqIds : List String) (layer : Nat) (reads : List (Nat × Nat))
  | decodeSlots (reads : List (String × Nat)) (maxBlocks : Nat)

namespace Pool

variable {R : Type} (D : Dims)

def init (zero : R) : Pool R := ⟨range D.numBlocks, fun _ => none, none, true, fun _ _ => zero⟩

variable (s : Pool R) (r : String) (layer : Nat)

/-- `_req_blocks.get(r, [])`. -/
def blocks : List Nat := (s.reqBlocks r).getD []

/-- The body of the loop of `reserve`. -/
def grab (b : Nat) : Pool R :=
  { s with
    free := s.free.dropLast
    reqBlocks := update s.reqBlocks r (some (s.blocks r ++ [b]))
    btDirty := true }

/-- The loop of `reserve`, for `n` blocks; `false` where it raises, with the blocks that it took. -/
def take (r : String) : Nat → Pool R → Pool R × Bool
  | 0, s => (s, true)
  | n + 1, s => match s.free.getLast? with
    | none => (s, false)
    | some b => take r n (s.grab r b)

def reserve (numPositions : Nat) : Pool R × Bool :=
  take r ((numPositions + D.blockSize - 1) / D.blockSize - (s.blocks r).length)
    { s with reqBlocks := update s.reqBlocks r (some (s.blocks r)) }

def freeRequest : Pool R :=
  { s with free := s.free ++ s.blocks r, reqBlocks := update s.reqBlocks r none, btDirty := true }

def tableRow (maxBlocks : Nat) : List Nat :=
  (s.blocks r ++ replicate (maxBlocks - (s.blocks r).length) 0).take maxBlocks

/-- `block_table_batched`. A row that is too long does not fit, except that one id is broadcast into
    an empty row. -/
def blockTableBatched (reqIds : List String) (maxBlocks : Nat) :
    Pool R × Option (List (List Nat)) :=
  if s.btDirty = false ∧ s.btCache.map Prod.fst = some (reqIds, maxBlocks) then
    (s, s.btCache.map Prod.snd)
  else if ∀ r ∈ reqIds, (s.blocks r).length ≤ max maxBlocks 1 then
    let bt := reqIds.map (s.tableRow · maxBlocks)
    ({ s with btCache := some ((reqIds, maxBlocks), bt), btDirty := false }, some bt)
  else
    (s, none)

/-- `block * block_size + position % block_size`. -/
def slot (position block : Nat) : Nat := block * D.blockSize + position % D.blockSize

def slotMapping (positions : List Nat) : Option (List Nat) :=
  (s.reqBlocks r).bind fun blocks =>
    positions.mapM fun p => (blocks[p / D.blockSize]?).map (slot D p)

def gather (positions : List Nat) : Option (List R) :=
  (s.slotMapping D r positions).bind fun slots =>
    if layer < D.numLayers then some (slots.map (s.rows layer)) else none

/-- `decode_slots`, one position for every request. -/
def decodeSlots (reads : List (String × Nat)) (maxBlocks : Nat) : Pool R × Option (List Nat) :=
  let (s, bt) := s.blockTableBatched (reads.map Prod.fst) maxBlocks
  (s, bt.bind fun bt => (bt.zip reads).mapM fun e => (e.1[e.2.2 / D.blockSize]?).map (slot D e.2.2))

/-- `gather_batched`; a read is an index into the batch and a position. -/
def gatherBatched (reqIds : List String) (reads : List (Nat × Nat)) : Pool R × Option (List R) :=
  if D.numLayers ≤ layer then (s, none)
  else if reads = [] then (s, some [])
  else
    let maxBlocks := max ((reqIds.map fun r => (s.blocks r).length).foldr max 0) 1
    let (s, bt) := s.blockTableBatched reqIds maxBlocks
    let slots := bt.bind fun bt => reads.mapM fun e =>
      ((bt[e.1]?).bind (·[e.2 / D.blockSize]?)).map (slot D e.2)
    (s, slots.map (·.map (s.rows layer)))

def copy (w : Writes R) : Pool R :=
  let slots := fun j => slot D (w.positions j) ((s.blocks r).getD (w.positions j / D.blockSize) 0)
  { s with rows := update s.rows layer (scatter w.order (s.rows layer) slots w.rows) }

/-- `store`; `false` where it raises. The reservation covers the positions, so that `slot_mapping`
    does not. -/
def store (w : Writes R) : Pool R × Bool :=
  let (s, ok) := s.reserve D r w.numPositions
  if ok = true ∧ layer < D.numLayers then (s.copy D r layer w, true) else (s, false)

def step : Op R → Pool R
  | .reserve r n => (s.reserve D r n).1
  | .store r layer w => (s.store D r layer w).1
  | .freeRequest r => s.freeRequest r
  | .gather _ _ _ => s
  | .gatherBatched reqIds layer reads => (s.gatherBatched D layer reqIds reads).1
  | .decodeSlots reads maxBlocks => (s.decodeSlots D reads maxBlocks).1

def run (ops : List (Op R)) : Pool R := ops.foldl (step D) s

/-! ## 2. What it stands for -/

def cell (p : Nat) : Option R :=
  if layer < D.numLayers then
    ((s.blocks r)[p / D.blockSize]?).map fun b => s.rows layer (slot D p b)
  else none

def place : Option String → List Nat
  | none => s.free
  | some r => s.blocks r

/-- Every block of the pool is there once: free, or with its owner. -/
def Partition (place : Option String → List Nat) : Prop :=
  ∃ owner : Nat → Option String,
    ∀ o b, (place o).count b = if b < D.numBlocks ∧ owner b = o then 1 else 0

/-- The blocks are in their places, and the cached table is up to date unless it is dirty. -/
structure Sound : Prop where
  blocks : Partition D s.place
  cache : s.btDirty = false → ∀ c, s.btCache = some c → c.2 = c.1.1.map (s.tableRow · c.1.2)

variable {D s r layer}

section Places

variable {p p' : Option String → List Nat} {o o' : Option String} {b : Nat}

theorem Partition.nodup (h : Partition D p) (o : Option String) : (p o).Nodup := by
  obtain ⟨ow, h⟩ := h
  refine nodup_iff_count_le_one.mpr fun b => ?_
  rw [h]
  split <;> omega

theorem Partition.eq_of_mem (h : Partition D p) (hb : b ∈ p o) (hb' : b ∈ p o') : o = o' := by
  obtain ⟨ow, h⟩ := h
  rw [← one_le_count_iff, h] at hb hb'
  split at hb <;> split at hb' <;> simp_all

end Places

theorem blocks_update {s' : Pool R} (l : Option (List Nat))
    (e : s'.reqBlocks = update s.reqBlocks r l) : s'.blocks = update s.blocks r (l.getD []) := by
  funext r'
  by_cases h : r' = r <;> simp [blocks, e, h]

theorem Sound.of_eq {s' : Pool R} (h : Sound D s) (hb : s'.blocks = s.blocks)
    (hf : s'.free = s.free)
    (hc : s'.btCache = s.btCache) (hd : s'.btDirty = s.btDirty) : Sound D s' := by
  have hp : s'.place = s.place := by
    funext o
    cases o with
    | none => exact hf
    | some r => exact congrFun hb r
  refine ⟨hp ▸ h.blocks, fun e c hs => ?_⟩
  have ht := h.cache (hd ▸ e) c (hc ▸ hs)
  simpa [tableRow, hb] using ht

theorem Sound.move {s' : Pool R} {l : List Nat} (h : Sound D s)
    (e : s'.blocks = update s.blocks r l) (hd : s'.btDirty = true)
    (hm : ∀ b, s'.free.count b + l.count b = s.free.count b + (s.blocks r).count b) :
    Sound D s' := by
  obtain ⟨ow, ho⟩ := h.blocks
  refine ⟨⟨fun b => if b ∈ l then some r else if b ∈ s'.free then none else ow b, fun o b => ?_⟩,
    fun hn => by simp [hd] at hn⟩
  have hf := ho none b
  have hr := ho (some r) b
  have hl : b ∈ l ↔ 1 ≤ l.count b := one_le_count_iff.symm
  have hs : b ∈ s'.free ↔ 1 ≤ s'.free.count b := one_le_count_iff.symm
  have hb := hm b
  simp only [place] at hf hr
  cases o with
  | none =>
    simp only [place]
    grind
  | some r' =>
    have hc := ho (some r') b
    simp only [place, e] at hc ⊢
    by_cases er : r' = r
    · subst er
      rw [update_self]
      grind
    · rw [update_of_ne er]
      grind

/-- What a reservation does: the blocks of the request get longer, all else stays. -/
structure Grown (s s' : Pool R) (r : String) (n : Nat) (ok : Bool) : Prop where
  rows : s'.rows = s.rows
  others : ∀ r', r' ≠ r → s'.blocks r' = s.blocks r'
  longer : ∃ l, s'.blocks r = s.blocks r ++ l ∧ (ok = true → l.length = n)

theorem Sound.take (h : Sound D s) (n : Nat) :
    Sound D (Pool.take r n s).1 ∧ Grown s (Pool.take r n s).1 r n (Pool.take r n s).2 := by
  induction n generalizing s with
  | zero => exact ⟨h, rfl, fun _ _ => rfl, [], by simp [Pool.take], fun _ => rfl⟩
  | succ n ih =>
    simp only [Pool.take]
    split
    · exact ⟨h, rfl, fun _ _ => rfl, [], by simp, fun e => by cases e⟩
    · rename_i b hb
      have e : (s.grab r b).blocks = update s.blocks r (s.blocks r ++ [b]) :=
        blocks_update (some _) rfl
      have hl : s.free = s.free.dropLast ++ [b] := (dropLast_append_getLast? b hb).symm
      have hg : Sound D (s.grab r b) := h.move e rfl fun b' => by
        rw [hl]
        simp [grab]
        omega
      obtain ⟨h', hr, ho, l, hl', hn⟩ := ih hg
      refine ⟨h', hr, fun r' hr' => ?_, b :: l, ?_, fun e => by simp [hn e]⟩
      · rw [ho r' hr', e, update_of_ne hr']
      · rw [hl', e, update_self, append_assoc, singleton_append]

theorem Sound.reserve (h : Sound D s) (n : Nat) : Sound D (s.reserve D r n).1 ∧
    Grown s (s.reserve D r n).1 r ((n + D.blockSize - 1) / D.blockSize - (s.blocks r).length)
      (s.reserve D r n).2 := by
  let s₀ : Pool R := { s with reqBlocks := update s.reqBlocks r (some (s.blocks r)) }
  have e : s₀.blocks = s.blocks := (blocks_update (some _) rfl).trans (update_eq_self r s.blocks)
  have h₀ : Sound D s₀ := h.of_eq e rfl rfl rfl
  obtain ⟨h', hr, ho, l, hl⟩ := h₀.take (r := r)
    ((n + D.blockSize - 1) / D.blockSize - (s.blocks r).length)
  exact ⟨h', hr, fun r' hr' => (ho r' hr').trans (congrFun e r'), l, hl.1.trans (by rw [e]), hl.2⟩

theorem Sound.free (h : Sound D s) : Sound D (s.freeRequest r) :=
  h.move (blocks_update none rfl) rfl fun b => by simp [freeRequest]

theorem Sound.blockTableBatched (h : Sound D s) (ri : List String) (n : Nat) :
    Sound D (s.blockTableBatched ri n).1 ∧ (s.blockTableBatched ri n).1.blocks = s.blocks ∧
      (s.blockTableBatched ri n).1.rows = s.rows ∧
      ((∀ r ∈ ri, (s.blocks r).length ≤ n) →
        (s.blockTableBatched ri n).2 = some (ri.map (s.tableRow · n))) ∧
      ∀ bt, (s.blockTableBatched ri n).2 = some bt → bt = ri.map (s.tableRow · n) := by
  unfold Pool.blockTableBatched
  split
  · rename_i hc
    obtain ⟨c, hs, hk⟩ := Option.map_eq_some_iff.mp hc.2
    have ht : s.btCache.map Prod.snd = some (ri.map (s.tableRow · n)) := by
      rw [hs, Option.map_some, h.cache hc.1 c hs, hk]
    exact ⟨h, rfl, rfl, fun _ => ht, fun bt hb => Option.some.inj (hb.symm.trans ht)⟩
  · split
    · exact ⟨⟨h.blocks, fun _ c hs => by cases hs; rfl⟩, rfl, rfl, fun _ => rfl,
        fun bt hb => (Option.some.inj hb).symm⟩
    · rename_i hw
      exact ⟨h, rfl, rfl,
        fun hn => absurd (fun r hr => (hn r hr).trans (le_max_left n 1)) hw, nofun⟩

section Store

variable {w : Writes R} {r' : String} {ly' p : Nat} {v : R}

theorem Grown.covers {s' : Pool R} {n : Nat}
    (g : Grown s s' r ((n + D.blockSize - 1) / D.blockSize - (s.blocks r).length) true)
    (hp : p < n) :
    p / D.blockSize < (s'.blocks r).length := by
  obtain ⟨l, hl, hn⟩ := g.longer
  have h : (p + D.blockSize) / D.blockSize ≤ (n + D.blockSize - 1) / D.blockSize :=
    Nat.div_le_div_right (by omega)
  rw [Nat.add_div_right p D.blockSize_pos] at h
  rw [hl, length_append, hn rfl]
  omega

theorem Sound.eq_of_slot_eq {q b b' : Nat} (h : Sound D s)
    (hb : (s.blocks r)[q / D.blockSize]? = some b)
    (hb' : (s.blocks r')[p / D.blockSize]? = some b') (e : slot D q b = slot D p b') :
    r = r' ∧ q = p := by
  have hlt := fun q => Nat.mod_lt q D.blockSize_pos
  obtain ⟨rfl, hm⟩ := (cell_eq_iff (hlt q) (hlt p)).mp e
  have er : some r = some r' := h.blocks.eq_of_mem (mem_of_getElem? hb) (mem_of_getElem? hb')
  cases er
  obtain ⟨hlt, -⟩ := List.getElem?_eq_some_iff.mp hb
  have ei := (List.getElem?_inj hlt (h.blocks.nodup (some r))).mp (hb.trans hb'.symm)
  refine ⟨rfl, ?_⟩
  rw [← Nat.div_add_mod q D.blockSize, ei, hm, Nat.div_add_mod]

theorem Grown.cell {n : Nat} {ok : Bool} {s' : Pool R} (g : Grown s s' r n ok)
    (hc : s.cell D r' layer p = some v) : s'.cell D r' layer p = some v := by
  unfold Pool.cell at hc ⊢
  split at hc
  · rename_i hl
    obtain ⟨b, hb, rfl⟩ := Option.map_eq_some_iff.mp hc
    obtain ⟨l, hl', -⟩ := g.longer
    have hb' : (s'.blocks r')[p / D.blockSize]? = some b := by
      by_cases e : r' = r
      · subst e
        obtain ⟨hlt, -⟩ := List.getElem?_eq_some_iff.mp hb
        rw [hl', getElem?_append_left hlt, hb]
      · rw [g.others r' e, hb]
    rw [if_pos hl, hb', Option.map_some, g.rows]
  · cases hc

section Copy

variable (h : Sound D s) (hc : ∀ j ∈ w.order, w.positions j / D.blockSize < (s.blocks r).length)
include h hc

theorem Sound.cell_copy_of_ne (hs : r' = r → ly' = layer → ∀ j ∈ w.order, w.positions j ≠ p) :
    (s.copy D r layer w).cell D r' ly' p = s.cell D r' ly' p := by
  simp only [Pool.cell]
  split
  · refine Option.map_congr fun b' hb' => ?_
    by_cases el : ly' = layer
    · subst el
      refine (congrFun (update_self ..) _).trans (scatter_of_ne fun j hj e => ?_)
      rw [getD_eq_getElem _ _ (hc j hj)] at e
      obtain ⟨er, ep⟩ := h.eq_of_slot_eq (getElem?_eq_getElem (hc j hj)) hb' e
      exact hs er.symm rfl j hj ep
    · exact congrFun (update_of_ne el ..) _
  · rfl

theorem Sound.cell_copy {j : Nat} (hl : layer < D.numLayers) (hj : j ∈ w.order)
    (hp : w.positions j = p) (hv : ∀ k ∈ w.order, w.positions k = p → w.rows k = v) :
    (s.copy D r layer w).cell D r layer p = some v := by
  have hb := fun {k} (hk : k ∈ w.order) => getElem?_eq_getElem (hc k hk)
  have hx : (s.copy D r layer w).blocks r = s.blocks r := rfl
  subst hp
  simp only [Pool.cell, if_pos hl, hx, hb hj, Option.map_some]
  refine congrArg some ((congrFun (update_self ..) _).trans
    (scatter_of_eq hj (by rw [getD_eq_getElem _ _ (hc j hj)]) fun k hk e => hv k hk ?_))
  rw [getD_eq_getElem _ _ (hc k hk)] at e
  exact (h.eq_of_slot_eq (hb hk) (hb hj) e).2

end Copy

theorem Sound.store_cases (h : Sound D s) (r : String) (ly : Nat) (w : Writes R) :
    ∃ s' n ok, Sound D s' ∧ Grown s s' r n ok ∧ (s.store D r ly w = (s', false) ∨
      ((∀ j ∈ w.order, w.positions j / D.blockSize < (s'.blocks r).length) ∧ ly < D.numLayers ∧
        s.store D r ly w = (s'.copy D r ly w, true))) := by
  obtain ⟨h', g⟩ := h.reserve (r := r) w.numPositions
  refine ⟨_, _, _, h', g, ?_⟩
  simp only [Pool.store]
  split
  · rename_i hc
    rw [hc.1] at g
    exact .inr ⟨fun j hj => g.covers
      (le_max_of_le (mem_map_of_mem (f := (w.positions · + 1)) hj) le_rfl), hc.2, rfl⟩
  · exact .inl rfl

end Store

/-! ## 3. Runs -/

/-- The call does not write to the cell, nor free the request. -/
def Spares (r : String) (layer p : Nat) : Op R → Prop
  | .store r' layer' w => r' = r → layer' = layer → ∀ j ∈ w.order, w.positions j ≠ p
  | .freeRequest r' => r' ≠ r
  | _ => True

theorem Sound.init (zero : R) : Sound D (init D zero) := by
  refine ⟨⟨fun _ => none, fun o b => ?_⟩, fun e => by cases e⟩
  cases o with
  | none => simp [place, Pool.init, nodup_range.count]
  | some r => simp [place, Pool.blocks, Pool.init]

theorem Sound.step (h : Sound D s) (op : Op R) : Sound D (s.step D op) ∧
    ∀ {r layer p v}, Spares r layer p op → s.cell D r layer p = some v →
      (s.step D op).cell D r layer p = some v := by
  cases op with
  | reserve r n =>
    obtain ⟨h', g⟩ := h.reserve (r := r) n
    exact ⟨h', fun _ hc => g.cell hc⟩
  | store r layer w =>
    obtain ⟨s', n, ok, h', g, e | ⟨hc, hl, e⟩⟩ :=
      h.store_cases r layer w <;> simp only [Pool.step, e]
    · exact ⟨h', fun _ hc => g.cell hc⟩
    · refine ⟨h'.of_eq rfl rfl rfl rfl, fun hs hv => ?_⟩
      rw [h'.cell_copy_of_ne hc fun er el => hs er.symm el.symm]
      exact g.cell hv
  | freeRequest r =>
    refine ⟨h.free, fun {r'} {layer} {p} {v} hr hc => ?_⟩
    have e : (s.freeRequest r).blocks r' = s.blocks r' :=
      (congrFun (blocks_update none rfl) r').trans (update_of_ne (Ne.symm hr) ..)
    simp only [Pool.cell, Pool.step, e]
    exact hc
  | gather r layer positions => exact ⟨h, fun _ hc => hc⟩
  | gatherBatched ri layer rs =>
    simp only [Pool.step, Pool.gatherBatched]
    split
    · exact ⟨h, fun _ hc => hc⟩
    split
    · exact ⟨h, fun _ hc => hc⟩
    · obtain ⟨h', hb, hr, -⟩ :=
        h.blockTableBatched ri (max ((ri.map fun r => (s.blocks r).length).foldr max 0) 1)
      exact ⟨h', fun _ hc => by simpa only [Pool.cell, hb, hr] using hc⟩
  | decodeSlots rs n =>
    obtain ⟨h', hb, hr, -⟩ := h.blockTableBatched (rs.map Prod.fst) n
    exact ⟨h', fun _ hc => by simpa only [Pool.cell, Pool.step, Pool.decodeSlots, hb, hr] using hc⟩

theorem Sound.run (h : Sound D s) (ops : List (Op R)) : Sound D (s.run D ops) ∧
    ∀ {r layer p v}, (∀ op ∈ ops, Spares r layer p op) → s.cell D r layer p = some v →
      (s.run D ops).cell D r layer p = some v := by
  induction ops generalizing s with
  | nil => exact ⟨h, fun _ hc => hc⟩
  | cons op ops ih =>
    obtain ⟨h', hs⟩ := h.step op
    refine ⟨(ih h').1, fun hsp hc => (ih h').2 (fun op ho => hsp op (mem_cons_of_mem _ ho)) ?_⟩
    exact hs (hsp op mem_cons_self) hc

/-! ## 4. Reads -/

theorem cell_eq_some {p : Nat} {v : R} (hc : s.cell D r layer p = some v) :
    layer < D.numLayers ∧ ∃ b, (s.blocks r)[p / D.blockSize]? = some b ∧
      s.rows layer (slot D p b) = v := by
  unfold cell at hc
  split at hc
  · exact ⟨‹_›, Option.map_eq_some_iff.mp hc⟩
  · cases hc

theorem slots_of_cells {α : Type} {f : α → Option Nat} {q : α → Nat} {l : List α} {vs : List R}
    (h : Forall₂ (fun a v => ∃ b, f a = some b ∧ s.rows layer (slot D (q a) b) = v) l vs) :
    ∃ ss, l.mapM (fun a => (f a).map (slot D (q a))) = some ss ∧ ss.map (s.rows layer) = vs := by
  induction h with
  | nil => exact ⟨[], rfl, rfl⟩
  | cons hb _ ih =>
    obtain ⟨b, hb, rfl⟩ := hb
    obtain ⟨ss, hm, rfl⟩ := ih
    exact ⟨slot D _ b :: ss, by simp [hb, hm], rfl⟩

theorem tableRow_getElem? {n k b : Nat} (hb : (s.blocks r)[k]? = some b)
    (hn : (s.blocks r).length ≤ n) : (s.tableRow r n)[k]? = some b := by
  obtain ⟨hk, -⟩ := List.getElem?_eq_some_iff.mp hb
  rw [tableRow, getElem?_take_of_lt (by omega), getElem?_append_left hk, hb]

theorem gather_eq {ps : List Nat} {vs : List R} (hne : ps ≠ [])
    (h : Forall₂ (fun p v => s.cell D r layer p = some v) ps vs) :
    s.gather D r layer ps = some vs := by
  obtain ⟨p, v, hp⟩ : ∃ p v, s.cell D r layer p = some v := by
    cases h with
    | nil => cases hne rfl
    | cons hp _ => exact ⟨_, _, hp⟩
  obtain ⟨hl, b, hb, -⟩ := cell_eq_some hp
  obtain ⟨ss, hm, rfl⟩ := slots_of_cells (h.imp fun p v hp => (cell_eq_some hp).2)
  cases e : s.reqBlocks r with
  | none => simp [blocks, e] at hb
  | some l =>
    have el : s.blocks r = l := by simp [blocks, e]
    rw [el] at hm
    simp [gather, slotMapping, e, hm, hl]

theorem Sound.gatherBatched_eq {ri : List String} {rs : List (Nat × Nat)} {vs : List R}
    (h : Sound D s) (hl : layer < D.numLayers)
    (hr : Forall₂ (fun e v => ∃ r, ri[e.1]? = some r ∧ s.cell D r layer e.2 = some v) rs vs) :
    (s.gatherBatched D layer ri rs).2 = some vs := by
  simp only [Pool.gatherBatched, if_neg (not_le.mpr hl)]
  split
  · subst rs
    cases hr
    rfl
  · obtain ⟨-, -, er, et, -⟩ :=
      h.blockTableBatched ri (max ((ri.map fun r => (s.blocks r).length).foldr max 0) 1)
    have hw : ∀ r ∈ ri, (s.blocks r).length ≤ _ := fun r hr =>
      (le_max_of_le (mem_map_of_mem (f := fun r => (s.blocks r).length) hr) le_rfl).trans
        (le_max_left _ 1)
    rw [et hw, er, Option.bind_some]
    refine Option.map_eq_some_iff.mpr (slots_of_cells (hr.imp fun e v he => ?_))
    obtain ⟨r, hi, hc⟩ := he
    obtain ⟨-, b, hb, hv⟩ := cell_eq_some hc
    refine ⟨b, ?_, hv⟩
    rw [getElem?_map, hi, Option.map_some, Option.bind_some]
    exact tableRow_getElem? hb (hw r (mem_of_getElem? hi))

theorem Sound.decodeSlots_eq {rs : List (String × Nat)} {n : Nat} {vs : List R} (h : Sound D s)
    (hn : ∀ e ∈ rs, (s.blocks e.1).length ≤ n)
    (hr : Forall₂ (fun e v => s.cell D e.1 layer e.2 = some v) rs vs) :
    ∃ ss, (s.decodeSlots D rs n).2 = some ss ∧ ss.map (s.rows layer) = vs := by
  have et := (h.blockTableBatched (rs.map Prod.fst) n).2.2.2.1 (by simpa using hn)
  simp only [Pool.decodeSlots, et, Option.bind_some, map_map]
  rw [← map_prod_right_eq_zip, mapM_map]
  refine slots_of_cells (f := fun e => (s.tableRow e.1 n)[e.2 / D.blockSize]?) (q := Prod.snd)
    (((forall₂_and_left rs vs).mpr ⟨hn, hr⟩).imp fun e v he => ?_)
  obtain ⟨-, b, hb, hv⟩ := cell_eq_some he.2
  exact ⟨b, tableRow_getElem? hb he.1, hv⟩

theorem tableRow_eq {n k b b' : Nat} (hb : (s.blocks r)[k]? = some b)
    (ht : (s.tableRow r n)[k]? = some b') : b' = b := by
  obtain ⟨hk, -⟩ := List.getElem?_eq_some_iff.mp hb
  rw [tableRow, getElem?_take] at ht
  split at ht
  · rw [getElem?_append_left hk, hb] at ht
    exact (Option.some.inj ht).symm
  · cases ht

/-- A batched read returns the cell of every entry that is covered, whatever the others read. -/
theorem Sound.gatherBatched_covered {ri : List String} {rs : List (Nat × Nat)} {vs : List R}
    (h : Sound D s) (hv : (s.gatherBatched D layer ri rs).2 = some vs) :
    Forall₂ (fun e v => ∀ r ∈ ri[e.1]?, ∀ u ∈ s.cell D r layer e.2, v = u) rs vs := by
  simp only [Pool.gatherBatched] at hv
  split at hv
  · cases hv
  split at hv
  · subst rs
    cases hv
    exact .nil
  · obtain ⟨-, -, er, -, et⟩ :=
      h.blockTableBatched ri (max ((ri.map fun r => (s.blocks r).length).foldr max 0) 1)
    obtain ⟨slots, hs, rfl⟩ := Option.map_eq_some_iff.1 hv
    obtain ⟨bt, hb, hs⟩ := Option.bind_eq_some_iff.1 hs
    rw [er, forall₂_map_right_iff]
    refine (mapM_eq_some.1 hs).imp fun e sl he r hi u hc => ?_
    obtain ⟨-, b, hb', rfl⟩ := cell_eq_some hc
    rw [et bt hb, getElem?_map, hi, Option.map_some, Option.bind_some] at he
    obtain ⟨b', ht, rfl⟩ := Option.map_eq_some_iff.1 he
    rw [tableRow_eq hb' ht]

theorem Sound.decodeSlots_covered {rs : List (String × Nat)} {n : Nat} {ss : List Nat}
    (h : Sound D s) (hv : (s.decodeSlots D rs n).2 = some ss) :
    Forall₂ (fun e sl => ∀ u ∈ s.cell D e.1 layer e.2, s.rows layer sl = u) rs ss := by
  obtain ⟨bt, hb, hs⟩ := Option.bind_eq_some_iff.1 hv
  rw [(h.blockTableBatched (rs.map Prod.fst) n).2.2.2.2 bt hb, map_map, ← map_prod_right_eq_zip,
    mapM_map] at hs
  refine (mapM_eq_some.1 hs).imp fun e sl he u hc => ?_
  obtain ⟨-, b, hb', rfl⟩ := cell_eq_some hc
  obtain ⟨b', ht, rfl⟩ := Option.map_eq_some_iff.1 he
  rw [tableRow_eq hb' ht]

/-- In the run a store of the cell returned, with no later store to the cell and no later free. -/
def Stored (D : Dims) (zero : R) (ops : List (Op R)) (r : String) (layer p : Nat) (v : R) : Prop :=
  ∃ before w after, ops = before ++ .store r layer w :: after ∧
    (((init D zero).run D before).store D r layer w).2 = true ∧
    (∃ j ∈ w.order, w.positions j = p) ∧ (∀ j ∈ w.order, w.positions j = p → w.rows j = v) ∧
    ∀ op ∈ after, Spares r layer p op

/-- **The pool is a memory of each request**, after every sequence of calls; of a batched read this
    holds entry by entry. -/
theorem pool_is_memory (D : Dims) (zero : R) (ops : List (Op R)) :
    let s := (init D zero).run D ops
    Partition D s.place ∧
    (∀ r layer p v, Stored D zero ops r layer p v → s.cell D r layer p = some v) ∧
    (∀ r layer w r' layer' p, r' ≠ r →
      (s.store D r layer w).1.cell D r' layer' p = s.cell D r' layer' p) ∧
    (∀ r layer ps vs, ps ≠ [] → Forall₂ (fun p v => s.cell D r layer p = some v) ps vs →
      s.gather D r layer ps = some vs) ∧
    (∀ ri layer rs vs, layer < D.numLayers →
      Forall₂ (fun e v => ∃ r, ri[e.1]? = some r ∧ s.cell D r layer e.2 = some v) rs vs →
      (s.gatherBatched D layer ri rs).2 = some vs) ∧
    (∀ layer rs n vs, (∀ e ∈ rs, (s.blocks e.1).length ≤ n) →
      Forall₂ (fun e v => s.cell D e.1 layer e.2 = some v) rs vs →
      ∃ ss, (s.decodeSlots D rs n).2 = some ss ∧ ss.map (s.rows layer) = vs) ∧
    (∀ ri layer rs vs, (s.gatherBatched D layer ri rs).2 = some vs →
      Forall₂ (fun e v => ∀ r ∈ ri[e.1]?, ∀ u ∈ s.cell D r layer e.2, v = u) rs vs) ∧
    ∀ layer rs n ss, (s.decodeSlots D rs n).2 = some ss →
      Forall₂ (fun e sl => ∀ u ∈ s.cell D e.1 layer e.2, s.rows layer sl = u) rs ss := by
  have h₀ := Sound.init (D := D) zero
  have h := (h₀.run ops).1
  refine ⟨h.blocks, ?_, ?_, fun _ _ _ _ => gather_eq, fun _ _ _ _ => h.gatherBatched_eq,
    fun _ _ _ _ => h.decodeSlots_eq, fun _ _ _ _ => h.gatherBatched_covered,
    fun _ _ _ _ => h.decodeSlots_covered⟩
  · rintro r layer p v ⟨bf, w, a, rfl, hok, ⟨j, hj, hp⟩, hv, hs⟩
    rw [run, foldl_append, foldl_cons]
    have hb : Sound D ((init D zero).run D bf) := (h₀.run bf).1
    refine ((hb.step (.store r layer w)).1.run a).2 hs ?_
    obtain ⟨s', n, ok, h', g, e | ⟨hc, hl, e⟩⟩ := hb.store_cases r layer w
    · rw [e] at hok
      cases hok
    · simp only [Pool.step, e]
      exact h'.cell_copy hc hl hj hp hv
  · intro r layer w r' layer' p hr
    obtain ⟨s', n, ok, h', g, e | ⟨hc, hl, e⟩⟩ := h.store_cases r layer w <;>
      rw [e]
    · simp only [Pool.cell, g.others r' hr, g.rows]
    · rw [h'.cell_copy_of_ne hc fun er => absurd er hr]
      simp only [Pool.cell, g.others r' hr, g.rows]

/-- Three blocks of one row. Request `b` has two of them, `c` the first one; a read of `a`, which
    has none, in a batch with `b` finds what `c` stores. -/
theorem padding_reads_foreign_rows :
    let D : Dims := ⟨1, 3, 1, Nat.one_pos⟩
    let s := (init D 0).run D [.reserve "b" 2, .store "c" 0 ⟨[0], fun _ => 0, fun _ => 7⟩]
    (s.gatherBatched D 0 ["a", "b"] [(0, 0)]).2 = some [7] ∧
      ((s.store D "c" 0 ⟨[0], fun _ => 0, fun _ => 8⟩).1.gatherBatched D 0 ["a", "b"] [(0, 0)]).2
        = some [8] := by
  decide

end Pool

end VllmDual.Sparse
