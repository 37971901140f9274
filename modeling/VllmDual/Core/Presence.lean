/-
  Subject:   A LOOKUP DEPENDS ON WHICH KEYS OF ITS REQUEST ARE CACHED, and on nothing else of the
  pools.

  * `getComputedBlocks_agree` -- two lookups over the same keys raise the same error, or both hit
    the same length.
-/
import VllmDual.Core.HybridHits

namespace VllmDual.Core

open Outcome Ceil List Option HitQuery

/-- The key is of hashes in the list: that of a block at some block size. -/
def KeyOf (hashes : List BlockHash) (hash : List BlockHash) : Prop :=
  ∃ factor i, 0 < factor ∧ blockHashAt hashes factor i = some hash

variable {c : Config} {req : Request}

theorem Config.factor_pos (hc : c.enableCaching = true) {m : Manager} (hm : m ∈ c.managers) :
    0 < m.blockSize / c.hashBlockSize :=
  Nat.div_pos (Nat.le_of_dvd m.blockSize_pos (c.hash_dvd hc m hm)) c.hashBlockSize_pos

theorem Config.getComputedBlocks_found {s : State} {hits : HitQuery.Hits} {n : Nat}
    (h : c.getComputedBlocks s req = .ok (hits, n)) (g : Nat) :
    ∀ b ∈ hits g, b ≠ 0 → ∃ hash, KeyOf req.blockHashes hash ∧
      s.pools.getOneBlock ⟨hash, g⟩ = some b := by
  refine Config.getComputedBlocks_forall (P := fun g blocks => ∀ b ∈ blocks, b ≠ 0 →
    ∃ hash, KeyOf req.blockHashes hash ∧ s.pools.getOneBlock ⟨hash, g⟩ = some b)
    (fun _ b hb => by cases hb) (fun g blocks n ha b hb => ha b (mem_of_mem_take hb)) ?_ h g
  intro hc a _ _ rows hs hr g hg b hb hb0
  have hca := (managerHit_ok hr).cachedBlocks hg
  have hat := getElem?_of_mem hb
  obtain ⟨i, hi⟩ := hat
  obtain ⟨hash, hh, hget⟩ := hca i b hi hb0
  exact ⟨hash, ⟨_, i, Config.factor_pos hc hs.1, hh⟩, hget⟩

namespace HitQuery

/-- Both queries are of one request, and find its keys in the same places. -/
structure Alike (q q' : HitQuery) : Prop where
  hashes : q'.hashes = q.hashes
  hashBlockSize : q'.hashBlockSize = q.hashBlockSize
  useEagle : q'.useEagle = q.useEagle
  present : ∀ hash g, KeyOf q.hashes hash →
    (q'.pools.getOneBlock ⟨hash, g⟩).isSome = (q.pools.getOneBlock ⟨hash, g⟩).isSome

theorem isSome_getCachedBlock (po : Pools) (hash : List BlockHash) {gr : List Nat}
    (hne : gr ≠ []) :
    (po.getCachedBlock hash gr).isSome = gr.all fun g => (po.getOneBlock ⟨hash, g⟩).isSome := by
  have hp : ∀ (p : BlockPool) (gs : List Nat), (p.getCachedBlock hash gs).isSome =
      gs.all fun g => (p.getOneBlock ⟨hash, g⟩).isSome := by
    intro p gs
    unfold BlockPool.getCachedBlock
    induction gs with
    | nil => rfl
    | cons g gs ih =>
      rw [mapM_cons, all_cons, ← ih]
      cases p.getOneBlock ⟨hash, g⟩ with
      | none => rfl
      | some b => cases gs.mapM fun g => p.getOneBlock ⟨hash, g⟩ <;> rfl
  cases po with
  | one p => exact hp p gr
  | perGroup ps => exact hp (ps 0) gr
  | shared ow order s =>
    cases gr with
    | nil => exact absurd rfl hne
    | cons g gs => rfl

section Agree

variable {q q' : HitQuery} {m : Manager} {gr : List Nat} {al : Nat}
  {att : List AttentionGroup} {hits hits' : Nat → Option (List BlockId)}

/-! ## 1. One index -/

section Index

variable (h : Alike q q') (hfactor : 0 < m.blockSize / q.hashBlockSize) (hne : gr ≠ [])

include h hfactor hne

theorem cachedAt_agree (i : Nat) :
    Option.Rel (fun _ _ => True) (q.cachedAt m gr i) (q'.cachedAt m gr i) := by
  unfold cachedAt
  rw [h.hashes, h.hashBlockSize]
  cases hat : blockHashAt q.hashes (m.blockSize / q.hashBlockSize) i with
  | none => exact .none
  | some hash =>
    have hs : (q'.pools.getCachedBlock hash gr).isSome
        = (q.pools.getCachedBlock hash gr).isSome := by
      rw [isSome_getCachedBlock _ _ hne, isSome_getCachedBlock _ _ hne]
      exact congrArg gr.all (funext fun g => h.present hash g ⟨_, i, hfactor, hat⟩)
    rw [bind_some, bind_some]
    cases hq : q.pools.getCachedBlock hash gr <;> cases hq' : q'.pools.getCachedBlock hash gr
      <;> rw [hq, hq'] at hs
    · exact .none
    · cases hs
    · cases hs
    · exact .some trivial

theorem subscriptAt_agree (i : Nat) : Agree (Option.Rel fun _ _ => True)
    (q.subscriptAt m gr i) (q'.subscriptAt m gr i) := by
  have hc := cachedAt_agree h hfactor hne i
  unfold cachedAt at hc
  unfold subscriptAt
  rw [h.hashes, h.hashBlockSize] at hc ⊢
  cases hat : blockHashAt q.hashes (m.blockSize / q.hashBlockSize) i with
  | none => exact .error _
  | some hash =>
    rw [hat, bind_some, bind_some] at hc
    exact .ok hc

/-! ## 2. The classes -/

theorem leading_agree (n i : Nat) : (q'.leading m gr n i).length = (q.leading m gr n i).length := by
  induction n generalizing i with
  | zero => rfl
  | succ n ih =>
    have hat := cachedAt_agree h hfactor hne i
    unfold leading
    generalize q.cachedAt m gr i = found, q'.cachedAt m gr i = found' at hat ⊢
    cases hat with
    | none => rfl
    | some _ => exact congrArg Nat.succ (ih (i + 1))

theorem length_fullHit_agree (ml : Nat) :
    (q'.fullHit m gr al ml).length = (q.fullHit m gr al ml).length := by
  have hl := leading_agree h hfactor hne (ml / m.blockSize) 0
  unfold fullHit
  dsimp only
  rw [h.useEagle]
  split
  · rw [length_take, length_take, length_dropLast, length_dropLast, hl]
  · rw [length_take, length_take, hl]

structure Scan.Same (scan scan' : Scan) : Prop where
  length : scan'.computed.length = scan.computed.length
  contiguous : scan'.numContiguousBlocks = scan.numContiguousBlocks
  found : scan'.matchFound = scan.matchFound

theorem slidingScan_agree (cb : Int) (i : Nat) {cp cp' : List Row} (nc : Nat)
    (hl : cp'.length = cp.length) :
    Agree Scan.Same (q.slidingScan m gr cb al i cp nc) (q'.slidingScan m gr cb al i cp' nc) := by
  induction i generalizing cp cp' nc with
  | zero => exact .ok ⟨hl, rfl, rfl⟩
  | succ i ih =>
    unfold slidingScan
    refine (subscriptAt_agree h hfactor hne i).bind fun found found' hf => ?_
    cases hf with
    | none => exact ih 0 hl
    | @some row row' _ =>
      have hs : (cp'.set i row').length = (cp.set i row).length := by
        rw [length_set, length_set, hl]
      dsimp only
      split
      · exact ih nc hl
      · split
        · exact .ok ⟨by rw [length_take, length_take, hs], rfl, rfl⟩
        · exact ih (nc + 1) hs

theorem slidingHit_agree (sw ml : Nat) :
    Agree (fun rows rows' => rows'.length = rows.length) (q.slidingHit m gr sw al ml)
      (q'.slidingHit m gr sw al ml) := by
  unfold slidingHit
  dsimp only
  rw [h.useEagle]
  refine agree_ensure_bind fun _ => ?_
  refine (slidingScan_agree h hfactor hne _ _ 0 rfl).bind fun s s' hs => ?_
  have hr : (s'.rows m.specBlockSize al).length = (s.rows m.specBlockSize al).length := by
    unfold Scan.rows
    rw [hs.found, hs.contiguous]
    split
    · exact hs.length
    · rw [length_take, length_take, length_take, length_take, hs.length]
  have hn : s'.rows m.specBlockSize al ≠ [] ↔ s.rows m.specBlockSize al ≠ [] := by
    rw [← length_pos_iff, ← length_pos_iff, hr]
  simp only [hn]
  split
  · refine agree_ensure_bind fun _ => .ok ?_
    rw [length_dropLast, length_dropLast, hr]
  · exact .ok hr

theorem chunkedRows_agree (n i : Nat) : Agree (fun rows rows' => rows'.length = rows.length)
    (q.chunkedRows m gr n i) (q'.chunkedRows m gr n i) := by
  induction n generalizing i with
  | zero => exact .ok rfl
  | succ n ih =>
    unfold chunkedRows
    refine (subscriptAt_agree h hfactor hne i).bind fun found found' hf => ?_
    cases hf with
    | none => exact .ok rfl
    | some _ => exact (ih (i + 1)).bind fun rows rows' hr => .ok (congrArg Nat.succ hr)

theorem chunkedHit_agree (acs ml : Nat) :
    Agree (fun rows rows' => rows'.length = rows.length) (q.chunkedHit m gr acs al ml)
      (q'.chunkedHit m gr acs al ml) := by
  unfold chunkedHit
  rw [h.useEagle]
  refine agree_ensure_bind fun _ => agree_ensure_bind fun _ => agree_ensure_bind fun _ => ?_
  refine (chunkedRows_agree h hfactor hne _ _).bind fun rows rows' hr => .ok ?_
  rw [length_append, length_append, hr]

theorem mambaSearch_agree (n : Nat) : Agree (fun rows rows' => rows'.length = rows.length)
    (q.mambaSearch m gr al n) (q'.mambaSearch m gr al n) := by
  induction n with
  | zero => exact .ok rfl
  | succ i ih =>
    unfold mambaSearch
    refine (subscriptAt_agree h hfactor hne i).bind fun found found' hf => ?_
    cases hf with
    | none => exact ih
    | some _ =>
      dsimp only
      split
      · exact ih
      · exact .ok (by rw [length_append, length_append]; rfl)

theorem managerHit_agree (ml : Nat) :
    Agree (fun rows rows' => rows'.length = rows.length) (q.managerHit m gr al ml)
    (q'.managerHit m gr al ml) := by
  unfold managerHit
  split
  · exact .ok (length_fullHit_agree h hfactor hne ml)
  · exact .ok (length_fullHit_agree h hfactor hne ml)
  · exact slidingHit_agree h hfactor hne _ ml
  · exact chunkedHit_agree h hfactor hne _ ml
  · exact agree_ensure_bind fun _ => mambaSearch_agree h hfactor hne _
  · exact .error _

end Index

/-! ## 3. The coordinators -/

theorem groups_ne_nil {ma : List Manager} {a : AttentionGroup} (ha : a ∈ attentionGroups ma) :
    a.groups ≠ [] := by
  have hadd : ∀ (att : List AttentionGroup) (m : Manager), (∀ a ∈ att, a.groups ≠ []) →
      ∀ a ∈ addGroup att m, a.groups ≠ [] := by
    intro att m
    induction att with
    | nil => simp [addGroup]
    | cons b r ih =>
      intro hall x hx
      unfold addGroup at hx
      split at hx
      · rcases mem_cons.mp hx with rfl | hx
        · simp
        · exact hall x (mem_cons_of_mem _ hx)
      · rcases mem_cons.mp hx with rfl | hx
        · exact hall x mem_cons_self
        · exact ih (fun y hy => hall y (mem_cons_of_mem _ hy)) x hx
  have hf : ∀ (ms : List Manager) (att : List AttentionGroup), (∀ a ∈ att, a.groups ≠ []) →
      ∀ a ∈ ms.foldl addGroup att, a.groups ≠ [] := by
    intro ms
    induction ms with
    | nil => exact fun _ hall => hall
    | cons m ms ih => exact fun att hall => ih _ (hadd att m hall)
  have hm : a ∈ ma.foldl addGroup [] := by
    rcases mem_append.mp ha with ha | ha
    · exact mem_of_mem_filter ha
    · exact mem_of_mem_filter ha
  exact hf ma [] (forall_mem_nil _) a hm

def SameSearch (x x' : (Nat → Option (List BlockId)) × Nat) : Prop :=
  x'.2 = x.2 ∧ ∀ g, (x'.1 g).isSome = (x.1 g).isSome

theorem hybridPass_agree (h : Alike q q') {lcm : Nat}
    (he : ∀ a ∈ att, 0 < a.manager.blockSize / q.hashBlockSize ∧ a.groups ≠ [])
    (hh : ∀ g, (hits' g).isSome = (hits g).isSome) (cu : Nat) :
    Agree SameSearch (q.hybridPass lcm att hits cu) (q'.hybridPass lcm att hits' cu) := by
  induction att generalizing hits hits' cu with
  | nil => exact .ok ⟨rfl, hh⟩
  | cons a r ih =>
    have hr := fun x hx => he x (mem_cons_of_mem a hx)
    have ha := he a mem_cons_self
    unfold hybridPass
    rw [hh]
    split
    · exact ih hr hh _
    · refine (managerHit_agree h ha.1 ha.2 cu).bind fun rows rows' hro => ?_
      rw [hro]
      refine ih hr (fun g => ?_) _
      unfold setHits
      split
      · rfl
      · exact hh g

theorem hybridLoop_agree (h : Alike q q')
    (he : ∀ a ∈ att, 0 < a.manager.blockSize / q.hashBlockSize ∧ a.groups ≠ []) {s : Bool}
    (f : Nat) (hh : ∀ g, (hits' g).isSome = (hits g).isSome) (hi : Nat) :
    Agree SameSearch (q.hybridLoop att s f hits hi) (q'.hybridLoop att s f hits' hi) := by
  induction f generalizing hits hits' hi with
  | zero => exact .ok ⟨rfl, hh⟩
  | succ f ih =>
    unfold hybridLoop
    refine (hybridPass_agree h he hh hi).bind fun x x' hx => ?_
    dsimp only
    rw [hx.1]
    split
    · exact .ok ⟨rfl, hx.2⟩
    · split
      · exact .ok ⟨rfl, hx.2⟩
      · exact ih hx.2 _

end Agree

end HitQuery

theorem Config.getComputedBlocks_agree {s s' : State}
    (hp : ∀ hash g, KeyOf req.blockHashes hash →
      (s'.pools.getOneBlock ⟨hash, g⟩).isSome = (s.pools.getOneBlock ⟨hash, g⟩).isSome) :
    Agree (fun x x' => x'.2 = x.2) (c.getComputedBlocks s req) (c.getComputedBlocks s' req) := by
  have hal : HitQuery.Alike (c.query s req) (c.query s' req) := ⟨rfl, rfl, rfl, hp⟩
  unfold getComputedBlocks
  split
  · exact .ok rfl
  · rename_i hr
    have hca : c.enableCaching = true := by
      cases hc : c.enableCaching with
      | true => rfl
      | false => rw [hc] at hr; exact absurd rfl hr
    dsimp only
    split
    · rename_i m hm
      have hfactor := Config.factor_pos hca (hm ▸ mem_singleton_self m)
      refine (managerHit_agree hal hfactor (cons_ne_nil _ _) _).bind fun rows rows' hro => .ok ?_
      exact congrArg (· * m.blockSize) hro
    · have he : ∀ a ∈ attentionGroups c.managers,
          0 < a.manager.blockSize / (c.query s req).hashBlockSize ∧ a.groups ≠ [] := fun a ha =>
        ⟨Config.factor_pos hca (attentionGroups_oneSpec c.managers a ha).1, groups_ne_nil ha⟩
      exact (hybridLoop_agree hal he _ (fun _ => rfl) _).bind fun x x' hx => .ok hx.1

end VllmDual.Core
