/-
  Subject:   `prepare_store`: ALL OR NOTHING.

  A store needs room for the hashes that are not resident. The LRU manager counts first and evicts
  after that; the ARC manager evicts while it counts, and leaves the blocks seen once alone when
  there are fewer of them than its target:

  * `prepareStore_allOrNothing` -- the LRU manager stores all or nothing, the ARC manager exactly
    when what is needed is within reach, or nothing is.
-/
import VllmDual.Offload.Managers

namespace VllmDual.Offload

open Outcome List CPUBackend Nat

variable {H : Type} [DecidableEq H]

/-! ## 1. Room -/

namespace CPUBackend

variable {b : CPUBackend} {n : Nat}

omit [DecidableEq H]

theorem exists_allocateBlocks (h : n ≤ b.getNumFreeBlocks) :
    ∃ b' blocks, (b.allocateBlocks n : Except (OffloadError H) _) = .ok (b', blocks) := by
  unfold getNumFreeBlocks at h
  unfold allocateBlocks
  dsimp only
  rw [ensure_pos (by omega), ok_bind]
  exact ⟨_, _, rfl⟩

theorem getNumFreeBlocks_free (bc : BlockStatus) :
    (b.free bc).getNumFreeBlocks = b.getNumFreeBlocks + 1 := by
  simp only [getNumFreeBlocks, free, length_append, length_singleton]
  omega

theorem getNumFreeBlocks_foldl (l : List (H × BlockStatus)) :
    (l.foldl (fun b e => b.free e.2) b).getNumFreeBlocks = b.getNumFreeBlocks + l.length := by
  induction l generalizing b with
  | nil => rfl
  | cons e l ih =>
    rw [foldl_cons, ih, getNumFreeBlocks_free, length_cons]
    omega

end CPUBackend

/-- What a call of `prepare_store` must do, given the blocks that are needed beyond the free ones
    and the number of those that may be evicted. -/
def AllOrNothing {S : Type}
    (prepareStore : S → List H → Except (OffloadError H) (S × Option (PrepareStoreOutput H)))
    (s : S) (hashes : List H) (needed available : Nat) : Prop :=
  ∃ s' out, prepareStore s hashes = .ok (s', out) ∧ (out = none ↔ available < needed) ∧
    (out = none → s' = s)

/-! ## 2. The LRU manager -/

namespace LRU

variable {s : LRU H} {bh na : List H} {n : Nat}

theorem collect_eq {l : List (H × BlockStatus)} (hn : 0 < n) :
    collect na n l =
      if n ≤ (l.filter fun e => e.2.refCnt = 0 ∧ e.1 ∉ na).length then
        some ((l.filter fun e => e.2.refCnt = 0 ∧ e.1 ∉ na).take n)
      else none := by
  induction l generalizing n with
  | nil => rw [collect, filter_nil, length_nil, if_neg (by omega)]
  | cons e l ih =>
    unfold collect
    by_cases he : e.2.refCnt = 0 ∧ e.1 ∉ na
    · rw [if_pos he, filter_cons_of_pos (by simpa using he), length_cons]
      by_cases ho : n = 1
      · rw [if_pos ho, ho, if_pos (by omega), take_succ_cons, take_zero]
      · obtain ⟨k, rfl⟩ : ∃ k, n = k + 2 := ⟨n - 2, by omega⟩
        rw [if_neg ho, ih (by omega), take_succ_cons]
        by_cases hle : k + 1 ≤ (l.filter fun e => e.2.refCnt = 0 ∧ e.1 ∉ na).length
        · rw [if_pos (by omega), if_pos (by omega), Option.map_some]
          rfl
        · rw [if_neg (by omega), if_neg (by omega), Option.map_none]
    · rw [if_neg he, filter_cons_of_neg (by simpa using he), ih hn]

theorem exists_store {te : List (H × BlockStatus)}
    (h : (s.blockHashesToStore bh).length ≤ s.backend.getNumFreeBlocks + te.length) :
    ∃ s' out, s.store bh te = .ok (s', some out) := by
  rw [← getNumFreeBlocks_foldl] at h
  obtain ⟨b', blocks, hok⟩ := exists_allocateBlocks (H := H) h
  unfold store
  dsimp only
  rw [hok, ok_bind]
  exact ⟨_, _, rfl⟩

def needed (s : LRU H) (hashes : List H) : Nat :=
  (s.blockHashesToStore hashes).length - s.backend.getNumFreeBlocks

theorem allOrNothing (s : LRU H) (bh : List H) :
    AllOrNothing prepareStore s bh (s.needed bh) (evictable s.blocks bh).length := by
  unfold AllOrNothing prepareStore needed
  dsimp only
  generalize hn : (s.blockHashesToStore bh).length - s.backend.getNumFreeBlocks = n
  have hs : ∀ te : List (H × BlockStatus), n ≤ te.length →
      ∃ s' out, s.store bh te = .ok (s', some out) := fun te h => exists_store (by omega)
  by_cases hp : 0 < n
  · have hc : collect bh n s.blocks.entries =
        if n ≤ (evictable s.blocks bh).length then some ((evictable s.blocks bh).take n)
        else none :=
      collect_eq hp
    rw [if_pos hp, hc]
    by_cases hle : n ≤ (evictable s.blocks bh).length
    · rw [if_pos hle]
      obtain ⟨s', out, hok⟩ := hs ((evictable s.blocks bh).take n)
        (by rw [length_take, min_eq_left hle])
      exact ⟨s', some out, hok, ⟨nofun, fun h => absurd h (not_lt.mpr hle)⟩, nofun⟩
    · rw [if_neg hle]
      exact ⟨s, none, rfl, ⟨fun _ => Nat.lt_of_not_le hle, fun _ => rfl⟩, fun _ => rfl⟩
  · rw [if_neg hp]
    obtain ⟨s', out, hok⟩ := hs [] (Nat.le_of_not_lt hp)
    exact ⟨s', some out, hok, ⟨nofun, fun h => absurd (zero_lt_of_lt h) hp⟩, nofun⟩

end LRU

/-! ## 3. The ARC manager -/

section Evictable

variable {d : OrderedDict H BlockStatus} {n : List H} {h : H} {bl : BlockStatus}

theorem mem_evictable : (h, bl) ∈ evictable d n ↔ d.get h = some bl ∧ bl.refCnt = 0 ∧ h ∉ n := by
  rw [evictable, mem_filter, OrderedDict.get_eq_some_iff, decide_eq_true_eq]

theorem length_evictable_pop (hm : (h, bl) ∈ evictable d n) :
    (evictable d n).length = (evictable (d.pop h) n).length + 1 ∧
      d.entries.length = (d.pop h).entries.length + 1 := by
  obtain ⟨hg, hz, hn⟩ := mem_evictable.mp hm
  have hp := OrderedDict.perm_pop hg
  refine ⟨?_, hp.length_eq⟩
  have hf := (hp.filter fun e => e.2.refCnt = 0 ∧ e.1 ∉ n).length_eq
  rwa [filter_cons_of_pos (by simpa using ⟨hz, hn⟩)] at hf

end Evictable

namespace ARC

variable {s s' : ARC H} {bh nm : List H} {h : H}

/-- The blocks of T1 that the loop reaches: T1 is left alone when it is smaller than its target. -/
def quota (s : ARC H) (named : List H) : Nat :=
  min (evictable s.t1 named).length
    ((s.t1.entries.length : Int) + 1 - truncate s.targetT1Size).toNat

def reach (s : ARC H) (named : List H) : Nat := s.quota named + (evictable s.t2 named).length

theorem evictOne_cases (hok : s.evictOne nm = some (s', h)) :
    ∃ bc, (truncate s.targetT1Size ≤ s.t1.entries.length ∧ (h, bc) ∈ evictable s.t1 nm ∧
        s' = { s with t1 := s.t1.pop h, b1 := s.b1.set h (), backend := s.backend.free bc }) ∨
      (s.quota nm = 0 ∧ (h, bc) ∈ evictable s.t2 nm ∧
        s' = { s with t2 := s.t2.pop h, b2 := s.b2.set h (), backend := s.backend.free bc }) := by
  unfold evictOne at hok
  dsimp only at hok
  split at hok
  · rename_i h' bc hh
    obtain ⟨rfl, rfl⟩ := Prod.mk.inj (Option.some.inj hok)
    split_ifs at hh with hle
    exact ⟨bc, .inl ⟨hle, mem_of_head? hh, rfl⟩⟩
  · rename_i hn
    split at hok
    · rename_i h' bc hh
      obtain ⟨rfl, rfl⟩ := Prod.mk.inj (Option.some.inj hok)
      refine ⟨bc, .inr ⟨?_, mem_of_head? hh, rfl⟩⟩
      unfold quota
      split_ifs at hn with hle
      · rw [head?_eq_none_iff.mp hn, length_nil, zero_min]
      · omega
    · cases hok

theorem evictOne_eq_none : s.evictOne nm = none ↔ s.reach nm = 0 := by
  unfold evictOne reach quota
  dsimp only
  by_cases hle : truncate s.targetT1Size ≤ s.t1.entries.length
  · rw [if_pos hle]
    cases h1 : evictable s.t1 nm with
    | nil =>
      cases h2 : evictable s.t2 nm with
      | nil => simp
      | cons e r => simp
    | cons e r =>
      simp only [head?_cons, length_cons]
      constructor
      · nofun
      · intro hz
        omega
  · rw [if_neg hle]
    cases h2 : evictable s.t2 nm with
    | nil =>
      simp only [head?_nil, length_nil, true_iff]
      omega
    | cons e r => simp

theorem evictOne_reach (hok : s.evictOne nm = some (s', h)) :
    s.reach nm = s'.reach nm + 1 ∧
      s'.backend.getNumFreeBlocks = s.backend.getNumFreeBlocks + 1 := by
  obtain ⟨bc, ⟨hle, hm, rfl⟩ | ⟨hz, hm, rfl⟩⟩ := evictOne_cases hok
  · obtain ⟨hl, he⟩ := length_evictable_pop hm
    refine ⟨?_, getNumFreeBlocks_free bc⟩
    simp only [reach, quota]
    omega
  · obtain ⟨hl, -⟩ := length_evictable_pop hm
    refine ⟨?_, getNumFreeBlocks_free bc⟩
    have hs : quota { s with
        t2 := s.t2.pop h, b2 := s.b2.set h (), backend := s.backend.free bc } nm
        = s.quota nm := rfl
    rw [reach, reach, hs]
    dsimp only
    omega

theorem evictLoop_spec (nm : List H) (n : Nat) (s : ARC H) :
    ((evictLoop nm n s).2 = none ↔ s.reach nm < n) ∧
      (evictLoop nm n s).1.backend.getNumFreeBlocks = s.backend.getNumFreeBlocks
        + min n (s.reach nm) := by
  induction n generalizing s with
  | zero => simp [evictLoop]
  | succ n ih =>
    unfold evictLoop
    split
    · rename_i hn
      rw [evictOne_eq_none.mp hn]
      simp
    · rename_i s' h hok
      obtain ⟨hr, hf⟩ := evictOne_reach hok
      obtain ⟨hs, hm⟩ := ih s'
      dsimp only
      rw [Option.map_eq_none_iff, hs, hm, hf]
      omega

theorem exists_store {ts e : List H} (h : ts.length ≤ s.backend.getNumFreeBlocks) :
    ∃ s' out, s.store ts e = .ok (s', some out) := by
  obtain ⟨b', blocks, hok⟩ := exists_allocateBlocks (H := H) h
  unfold store
  rw [hok, ok_bind]
  exact ⟨_, _, rfl⟩

def needed (s : ARC H) (hashes : List H) : Nat :=
  (s.blockHashesToStore hashes).length - s.backend.getNumFreeBlocks

theorem prepareStore_spec (s : ARC H) (bh : List H) :
    ∃ s' out, s.prepareStore bh = .ok (s', out) ∧ (out = none ↔ s.reach bh < s.needed bh) ∧
      (out = none → s'.backend.getNumFreeBlocks = s.backend.getNumFreeBlocks + s.reach bh ∧
        (s.reach bh = 0 → s' = s)) := by
  unfold prepareStore needed
  dsimp only
  by_cases hnil : s.blockHashesToStore bh = []
  · rw [if_pos hnil, hnil, length_nil, Nat.zero_sub]
    exact ⟨_, _, rfl, ⟨nofun, fun h => absurd h (not_lt_zero _)⟩, nofun⟩
  · rw [if_neg hnil]
    generalize hn : (s.blockHashesToStore bh).length - s.backend.getNumFreeBlocks = n
    obtain ⟨hno, hf⟩ := evictLoop_spec bh n s
    split
    · rename_i s' hl
      rw [hl] at hno hf
      have hlt := hno.mp rfl
      refine ⟨s', none, rfl, ⟨fun _ => hlt, fun _ => rfl⟩, fun _ => ⟨?_, fun hz => ?_⟩⟩
      · rw [hf, min_eq_right hlt.le]
      · obtain ⟨k, rfl⟩ : ∃ k, n = k + 1 := ⟨n - 1, by omega⟩
        rw [evictLoop, evictOne_eq_none.mpr hz] at hl
        exact (Prod.mk.inj hl).1.symm
    · rename_i s' evicted hl
      rw [hl] at hno hf
      have hle : n ≤ s.reach bh := not_lt.mp fun h => by cases hno.mpr h
      obtain ⟨s'', out, hok⟩ : ∃ s'' out, s'.store (s.blockHashesToStore bh) evicted
          = .ok (s'', some out) := exists_store (by rw [hf, min_eq_left hle]; omega)
      exact ⟨s'', some out, hok, ⟨nofun, fun h => absurd h (not_lt.mpr hle)⟩, nofun⟩

/-- What is needed is within reach, or nothing is and there is less than is needed. -/
def Coverable (s : ARC H) (hashes : List H) : Prop :=
  s.needed hashes ≤ s.reach hashes ∨ s.reach hashes = 0 ∧
    (evictable s.t1 hashes).length < s.needed hashes

theorem allOrNothing_iff (s : ARC H) (bh : List H) :
    AllOrNothing prepareStore s bh (s.needed bh)
      ((evictable s.t1 bh).length + (evictable s.t2 bh).length) ↔ s.Coverable bh := by
  obtain ⟨s', out, hok, hn, ha⟩ := prepareStore_spec s bh
  have hq : s.reach bh ≤ (evictable s.t1 bh).length + (evictable s.t2 bh).length :=
    Nat.add_le_add_right (Nat.min_le_left _ _) _
  have ht2 : (evictable s.t2 bh).length ≤ s.reach bh := le_add_left _ _
  constructor
  · rintro ⟨s₁, out₁, hok₁, hi, hs⟩
    rw [hok] at hok₁
    obtain ⟨rfl, rfl⟩ := pair_inj hok₁
    by_cases hlt : s.reach bh < s.needed bh
    · have ho := hn.mpr hlt
      obtain ⟨hf, -⟩ := ha ho
      rw [hs ho] at hf
      have hm := hi.mp ho
      exact .inr ⟨by omega, by omega⟩
    · exact .inl (not_lt.mp hlt)
  · intro hc
    refine ⟨s', out, hok, ?_, fun ho => (ha ho).2 ?_⟩
    · rw [hn]
      rcases hc with hle | ⟨hz, hlt⟩ <;> omega
    · have hlt := hn.mp ho
      rcases hc with hle | ⟨hz, -⟩ <;> omega

end ARC

/-- **`prepare_store` is all or nothing** for the LRU manager in every state; for the ARC manager
    exactly if what is needed is within reach of its loop, or nothing is. -/
theorem prepareStore_allOrNothing :
    (∀ (s : LRU H) (hashes : List H),
      AllOrNothing LRU.prepareStore s hashes (s.needed hashes) (evictable s.blocks hashes).length) ∧
    ∀ (s : ARC H) (hashes : List H),
      AllOrNothing ARC.prepareStore s hashes (s.needed hashes)
        ((evictable s.t1 hashes).length + (evictable s.t2 hashes).length) ↔ s.Coverable hashes :=
  ⟨LRU.allOrNothing, ARC.allOrNothing_iff⟩

def halfStored : Except (OffloadError Nat) (ARC Nat) := do
  let (s, _) ← (ARC.init (.init 16 2) true).prepareStore [0]
  let (s, _) ← (s.completeStore [0] true).prepareStore [1]
  pure s

/-- Two more hashes do not fit, and the one block that could go is gone. -/
theorem evicted_for_nothing : ∃ s s' : ARC Nat, halfStored = .ok s ∧
    s.prepareStore [2, 3] = .ok (s', none) ∧ s.find 0 = some ⟨0, 0⟩ ∧ s'.find 0 = none ∧
    ¬ AllOrNothing ARC.prepareStore s [2, 3] (s.needed [2, 3])
      ((evictable s.t1 [2, 3]).length + (evictable s.t2 [2, 3]).length) := by
  refine ⟨_, _, rfl, rfl, rfl, rfl, ?_⟩
  rintro ⟨s', out, hok, -, hs⟩
  obtain ⟨rfl, rfl⟩ := pair_inj hok
  have hf := congrArg (fun s => s.find 0) (hs rfl)
  cases hf

end VllmDual.Offload
