/-
  Subject:   RESIDENT STATES OF REQUESTS (`ResidentRequestStateRegistry`,
             `ascend/sparse_offload/resident_sparse_cache.py`).

  Every request of a batch is bound to a row of device state. A row outlives the batch, and is taken
  from the least recently used request when none is free. What a row caches is trusted only under
  the generation it was cached under, and the registry raises the generation whenever the row
  changes hands or its request starts over:

  * `states_not_inherited` -- every run: `bind` returns, with distinct states, and `Sound` holds.
-/
import VllmDual.Lib.Outcome

namespace VllmDual.Resident

open Outcome Function List Prod

abbrev RequestId := String

/-! ## 1. The registry -/

/-- The registry with `n` states. A scratch signature may be `None`, as an unset one is. The
    generations are counters that only rise; the code keeps them in 64 bits. -/
structure Registry (n : Nat) (ς : Type) where
  requestToState : RequestId → Option (Fin n)
  stateToRequest : Fin n → Option RequestId
  signatures : Fin n → Option ς
  generations : Fin n → Nat
  lastUsed : Fin n → Nat
  clock : Nat

inductive RegistryError where
  | valueError (message : String)
  | runtimeError (message : String)
  | assertion
  | keyError

/-- What a run has done: a pair returned for a request under a signature, or a request gone cold. An
    eviction names the batch it was made for. -/
inductive Entry (n : Nat) (ς : Type) where
  | returned (r : RequestId) (signature : Option ς) (state : Fin n) (generation : Nat)
  | released (r : RequestId)
  | invalidated (r : RequestId)
  | evicted (r : RequestId) (batch : List RequestId)

namespace Registry

variable {n : Nat} {ς : Type}

def init (n : Nat) (ς : Type) : Registry n ς :=
  ⟨fun _ => none, fun _ => none, fun _ => none, fun _ => 0, fun _ => 0, 0⟩

variable (reg : Registry n ς) (r : RequestId)

/-- The body of the loop of `release`. -/
def releaseOne : Registry n ς :=
  match reg.requestToState r with
  | none => reg
  | some s =>
    { reg with
      requestToState := update reg.requestToState r none
      stateToRequest := update reg.stateToRequest s none
      signatures := update reg.signatures s none
      generations := update reg.generations s (reg.generations s + 1) }

def release (ids : List RequestId) : Registry n ς := ids.foldl releaseOne reg

/-- The body of the loop of `invalidate`. -/
def invalidateOne : Registry n ς :=
  match reg.requestToState r with
  | none => reg
  | some s => { reg with generations := update reg.generations s (reg.generations s + 1) }

def invalidate (ids : List RequestId) : Registry n ς :=
  ids.foldl invalidateOne reg

def freeState : Option (Fin n) :=
  (List.finRange n).find? fun s => (reg.stateToRequest s).isNone

def candidates (batch : List RequestId) : List (Fin n) :=
  (List.finRange n).filter fun s =>
    match reg.stateToRequest s with
    | none => true
    | some owner => owner ∉ batch

/-- The end of `_allocate`: the state goes to the request. -/
def assign (s : Fin n) : Registry n ς :=
  { reg with
    stateToRequest := update reg.stateToRequest s (some r)
    requestToState := update reg.requestToState r (some s)
    signatures := update reg.signatures s none
    generations := update reg.generations s (reg.generations s + 1) }

/-- `_allocate`: the state, and the owner it was taken from, if any. -/
def allocate (batch : List RequestId) :
    Except RegistryError (Fin n × Option RequestId × Registry n ς) :=
  match reg.freeState with
  | some s => .ok (s, none, reg.assign r s)
  | none =>
    match (reg.candidates batch).argmin reg.lastUsed with
    | none => .error (.runtimeError ("resident request-state capacity is smaller than the active "
        ++ "batch: max_states=" ++ toString n ++ ", active=" ++ toString batch.dedup.length))
    | some s =>
      match reg.stateToRequest s with
      | none => .error .assertion
      | some old =>
        if (reg.requestToState old).isNone then .error .keyError
        else
          let reg := { reg with requestToState := update reg.requestToState old none }
          .ok (s, some old, reg.assign r s)

variable [DecidableEq ς]

/-- The rest of the body of the loop of `bind`: another signature raises the generation. -/
def touch (reg : Registry n ς) (s : Fin n) (signature : Option ς) : Registry n ς :=
  let reg : Registry n ς := if reg.signatures s ≠ signature then
      { reg with
        signatures := update reg.signatures s signature
        generations := update reg.generations s (reg.generations s + 1) }
    else reg
  { reg with clock := reg.clock + 1, lastUsed := update reg.lastUsed s (reg.clock + 1) }

def stateOf (reg : Registry n ς) (r : RequestId) (batch : List RequestId) :
    Except RegistryError (Fin n × Option RequestId × Registry n ς) :=
  match reg.requestToState r with
  | some s => .ok (s, none, reg)
  | none => reg.allocate r batch

/-- The variables of the loop of `bind`, with the history, the latest entry first. -/
structure Binding (n : Nat) (ς : Type) where
  registry : Registry n ς
  rows : List (RequestId × Fin n × Nat)
  log : List (Entry n ς)

/-- The body of the loop of `bind`. -/
def bindRow (batch : List RequestId) (b : Binding n ς) (row : RequestId × Option ς) :
    Except RegistryError (Binding n ς) := do
  let (s, old, reg) ← b.registry.stateOf row.1 batch
  let evictions := (old.map fun owner => Entry.evicted owner batch).toList
  let reg := reg.touch s row.2
  return ⟨reg, b.rows ++ [(row.1, s, reg.generations s)],
    .returned row.1 row.2 s (reg.generations s) :: (evictions ++ b.log)⟩

/-- `bind`: a state and a generation for each request. -/
def bind (reg : Registry n ς) (log : List (Entry n ς)) (ids : List RequestId)
    (signatures : List (Option ς)) : Except RegistryError (Binding n ς) :=
  if ids.length ≠ signatures.length then
    .error (.valueError ("request ids and scratch signatures must have equal length: "
      ++ toString ids.length ++ " != " ++ toString signatures.length))
  else if n < ids.length then
    .error (.runtimeError ("resident request-state capacity is smaller than the active batch: "
      ++ "max_states=" ++ toString n ++ ", active=" ++ toString ids.length))
  else
    (ids.zip signatures).foldlM (bindRow ids) ⟨reg, [], log⟩

end Registry

/-! ## 2. Runs and their history -/

open Registry

inductive RegistryCall (ς : Type) where
  | bind (ids : List RequestId) (signatures : List (Option ς))
  | release (ids : List RequestId)
  | invalidate (ids : List RequestId)

/-- The calls the registry is made for: a batch of distinct requests, no larger than the
    registry. -/
def RegistryCall.Valid {ς : Type} (n : Nat) : RegistryCall ς → Prop
  | .bind ids signatures => ids.Nodup ∧ ids.length ≤ n ∧ ids.length = signatures.length
  | _ => True

section Runs

variable {n : Nat} {ς : Type} [DecidableEq ς]

def perform (l : Registry n ς × List (Entry n ς)) :
    RegistryCall ς → Except RegistryError (Registry n ς × List (Entry n ς))
  | .bind ids signatures => do
    let b ← l.1.bind l.2 ids signatures
    return (b.registry, b.log)
  | .release ids => .ok (l.1.release ids, ids.reverse.map .released ++ l.2)
  | .invalidate ids => .ok (l.1.invalidate ids, ids.reverse.map .invalidated ++ l.2)

def registryRun (n : Nat) (calls : List (RegistryCall ς)) :
    Except RegistryError (Registry n ς × List (Entry n ς)) :=
  calls.foldlM perform (Registry.init n ς, [])

end Runs

def Entry.cold {n : Nat} {ς : Type} : Entry n ς → Option RequestId
  | returned .. => none
  | released r => some r
  | invalidated r => some r
  | evicted r _ => some r

def Undisturbed {n : Nat} {ς : Type} (r : RequestId) (l : List (Entry n ς)) : Prop :=
  ∀ e ∈ l, e.cold ≠ some r

def Unbound {n : Nat} {ς : Type} (r : RequestId) (l : List (Entry n ς)) : Prop :=
  ∀ signature s g, Entry.returned r signature s g ∉ l

/-- What a history, the latest entry first, says about the pairs:
    * a pair is returned again only to the same request, under the same signature, and not after the
      request went cold;
    * a request that was last bound under the same signature and was not disturbed since gets the
      pair it had;
    * no request is evicted for a batch that it is in. -/
structure Sound {n : Nat} {ς : Type} (log : List (Entry n ς)) : Prop where
  fresh : ∀ {newer mid older r r' signature signature' s g},
    log = newer ++ .returned r' signature' s g :: (mid ++ .returned r signature s g :: older) →
      r' = r ∧ signature' = signature ∧ Undisturbed r mid
  stable : ∀ {newer mid older r signature s s' g g'},
    log = newer ++ .returned r signature s' g' :: (mid ++ .returned r signature s g :: older) →
      Undisturbed r mid → Unbound r mid → s' = s ∧ g' = g
  evicted : ∀ r batch, Entry.evicted r batch ∈ log → r ∉ batch

/-- What a call of `bind` has entered: the rows it returns, each under its signature, and just the
    requests that lost their states. -/
structure Entered {n : Nat} {ς : Type} (reg reg' : Registry n ς) (batch : List RequestId)
    (rows : List (RequestId × Fin n × Nat)) (signatures : List (Option ς))
    (new : List (Entry n ς)) : Prop where
  returned : new.filter (·.cold.isNone) =
    (zipWith (fun row sig => .returned row.1 sig row.2.1 row.2.2) rows signatures).reverse
  lost : ∀ e ∈ new, ∀ r, e.cold = some r →
    e = .evicted r batch ∧ reg.requestToState r ≠ none ∧ reg'.requestToState r = none
  kept : ∀ r s, reg.requestToState r = some s →
    reg'.requestToState r = some s ∨ .evicted r batch ∈ new

/-! ## 3. What the registry knows of its history -/

section Invariant

variable {n : Nat} {ς : Type} {reg reg' : Registry n ς} {log nw od co : List (Entry n ς)}
  {r : RequestId} {sig : Option ς} {s : Fin n} {g : Nat} {e : Entry n ς}

/-- Both maps agree; no pair of the history is ahead of its state's generation; one of the current
    generation belongs to the owner, undisturbed; and the latest pair of an undisturbed request is
    the one the registry holds. -/
structure Inv (reg : Registry n ς) (log : List (Entry n ς)) : Prop where
  inverse : ∀ r s, reg.requestToState r = some s ↔ reg.stateToRequest s = some r
  le : ∀ {r signature s g}, Entry.returned r signature s g ∈ log → g ≤ reg.generations s
  current : ∀ {newer older r signature s},
    log = newer ++ .returned r signature s (reg.generations s) :: older →
      reg.stateToRequest s = some r ∧ reg.signatures s = signature ∧ Undisturbed r newer
  latest : ∀ {newer older r signature s g}, log = newer ++ .returned r signature s g :: older →
    Undisturbed r newer → Unbound r newer →
      reg.stateToRequest s = some r ∧ reg.signatures s = signature ∧ reg.generations s = g
  sound : Sound log

theorem inv_init (n : Nat) (ς : Type) : Inv (init n ς) [] where
  inverse r s := by simp [init]
  le h := by cases h
  current h := by simp at h
  latest h := by simp at h
  sound := ⟨fun h => by simp at h, fun h => by simp at h, fun _ _ h => by cases h⟩

theorem Inv.owner_inj (h : Inv reg log) {s t : Fin n} (hs : reg.stateToRequest s = some r)
    (ht : reg.stateToRequest t = some r) : s = t :=
  Option.some.inj (((h.inverse r s).mpr hs).symm.trans ((h.inverse r t).mpr ht))

theorem Inv.le_of_split (h : Inv reg log) (hl : log = nw ++ .returned r sig s g :: od) :
    g ≤ reg.generations s := by
  have hm : Entry.returned r sig s g ∈ log := by
    rw [hl]
    simp
  exact h.le hm

theorem split_colds (hc : ∀ e ∈ co, e.cold ≠ none)
    (h : co ++ log = nw ++ .returned r sig s g :: od) :
    ∃ ne', nw = co ++ ne' ∧ log = ne' ++ .returned r sig s g :: od := by
  obtain ⟨ne', hn, hl⟩ | ⟨re, hr, hl⟩ := append_eq_append_iff.mp h
  · exact ⟨ne', hn, hl⟩
  · cases re with
    | nil => exact ⟨[], by simpa using hr.symm, by simpa using hl.symm⟩
    | cons e re =>
      rw [cons_append, List.cons.injEq] at hl
      have hm : Entry.returned r sig s g ∈ co := by
        rw [hr, hl.1]
        simp
      exact absurd rfl (hc _ hm)

theorem undisturbed_append : Undisturbed r (co ++ nw) ↔ Undisturbed r co ∧ Undisturbed r nw := by
  simp only [Undisturbed, mem_append, or_imp, forall_and]

theorem Unbound.of_append (h : Unbound r (co ++ nw)) : Unbound r nw :=
  fun sig s g hm => h sig s g (mem_append_right _ hm)

theorem Sound.append_colds (h : Sound log) (hc : ∀ e ∈ co, e.cold ≠ none)
    (he : ∀ r ba, Entry.evicted r ba ∈ co → r ∉ ba) : Sound (co ++ log) where
  fresh hl := by
    obtain ⟨nw', -, hl⟩ := split_colds hc hl
    exact h.fresh hl
  stable hl := by
    obtain ⟨nw', -, hl⟩ := split_colds hc hl
    exact h.stable hl
  evicted r ba hmem := (mem_append.mp hmem).elim (he r ba) (h.evicted r ba)

/-- **Requests go cold.** The states that are kept stay as they are, with owners that are not among
    them; the others move to a later generation, and their owners go cold. -/
theorem Inv.append_colds (h : Inv reg log) (k : Fin n → Prop) (co : List (Entry n ς))
    (hi : ∀ r t, reg'.requestToState r = some t ↔ reg'.stateToRequest t = some r)
    (hk : ∀ t, k t → reg'.stateToRequest t = reg.stateToRequest t ∧
      reg'.signatures t = reg.signatures t ∧ reg'.generations t = reg.generations t ∧
      ∀ r, reg.stateToRequest t = some r → Undisturbed r co)
    (hm : ∀ t, ¬ k t → reg.generations t < reg'.generations t ∧ ∀ r, reg.stateToRequest t = some r →
      ¬ Undisturbed r co)
    (hco : ∀ e ∈ co, e.cold ≠ none)
    (he : ∀ r ba, Entry.evicted r ba ∈ co → r ∉ ba) : Inv reg' (co ++ log) where
  inverse := hi
  le {r sig t g} hmem := by
    have hl := (mem_append.mp hmem).resolve_left fun hc => hco _ hc rfl
    refine (h.le hl).trans ?_
    by_cases ht : k t
    · exact (hk t ht).2.2.1.ge
    · exact (hm t ht).1.le
  current := by
    intro nw od r sig t hl
    obtain ⟨ne', rfl, hold⟩ := split_colds hco hl
    have ht : k t := by
      by_contra ht
      exact absurd (h.le_of_split hold) (not_le.mpr (hm t ht).1)
    obtain ⟨ho, hs, hg, hot⟩ := hk t ht
    rw [hg] at hold
    obtain ⟨hown, hsig, hu⟩ := h.current hold
    exact ⟨ho.trans hown, hs.trans hsig, undisturbed_append.mpr ⟨hot r hown, hu⟩⟩
  latest := by
    intro nw od r sig t g hl hu hun
    obtain ⟨ne', rfl, hold⟩ := split_colds hco hl
    rw [undisturbed_append] at hu
    obtain ⟨hown, hsig, hgen⟩ := h.latest hold hu.2 hun.of_append
    have ht : k t := by
      by_contra ht
      exact (hm t ht).2 r hown hu.1
    obtain ⟨ho, hs, hg, -⟩ := hk t ht
    exact ⟨ho.trans hown, hs.trans hsig, hg.trans hgen⟩
  sound := h.sound.append_colds hco he

theorem Inv.cold (h : Inv reg log) (hr : reg.requestToState r = none) (he : e.cold = some r)
    (hev : ∀ r ba, e ≠ .evicted r ba) : Inv reg (e :: log) := by
  refine h.append_colds (fun _ => True) [e] h.inverse (fun t _ => ⟨rfl, rfl, rfl, fun r' ht => ?_⟩)
    (fun _ ht => absurd trivial ht) (by simp [he])
    fun r' ba hm => absurd (mem_singleton.mp hm).symm (hev _ _)
  intro e' he' hc
  rw [mem_singleton.mp he', he] at hc
  have hs := (h.inverse r' t).mpr ht
  rw [← Option.some.inj hc, hr] at hs
  cases hs

theorem Inv.retire (h : Inv reg log) (hs : reg.stateToRequest s = some r) (he : e.cold = some r)
    (hi : ∀ r t, reg'.requestToState r = some t ↔ reg'.stateToRequest t = some r)
    (hg : reg'.generations = update reg.generations s (reg.generations s + 1))
    (ho : ∀ t, t ≠ s → reg'.stateToRequest t = reg.stateToRequest t)
    (hsi : ∀ t, t ≠ s → reg'.signatures t = reg.signatures t)
    (hev : ∀ r ba, e = .evicted r ba → r ∉ ba) : Inv reg' (e :: log) := by
  refine h.append_colds (· ≠ s) [e] hi (fun t ht => ⟨ho t ht, hsi t ht,
    by rw [hg, update_of_ne ht], fun r' hown e' he' hc => ?_⟩) (fun t ht => ?_)
    (by simp [he]) fun r' ba hm => hev r' ba (mem_singleton.mp hm).symm
  · rw [mem_singleton.mp he', he] at hc
    exact ht (h.owner_inj hown (hc ▸ hs))
  · obtain rfl := not_not.mp ht
    refine ⟨by rw [hg, update_self]; omega, fun r' hown hu => ?_⟩
    rw [hs] at hown
    exact hu e (mem_singleton_self e) (he.trans hown)

theorem Inv.releaseOne (h : Inv reg log) (r : RequestId) :
    Inv (reg.releaseOne r) (.released r :: log) := by
  unfold Registry.releaseOne
  split
  · rename_i hr
    exact h.cold hr rfl (by simp)
  · rename_i s hr
    have hs := (h.inverse r s).mp hr
    refine h.retire hs rfl ?_ rfl (fun t ht => update_of_ne ht _ _)
      (fun t ht => update_of_ne ht _ _) (by simp)
    intro r' t
    by_cases ht : t = s
    · subst ht
      by_cases hr' : r' = r
      · simp [hr']
      · have hne : reg.requestToState r' ≠ some t := by
          intro hst
          exact hr' (Option.some.inj (((h.inverse r' t).mp hst).symm.trans hs))
        simp [hr', hne]
    · by_cases hr' : r' = r
      · have hne : reg.stateToRequest t ≠ some r := fun ho => ht (h.owner_inj ho hs)
        simp [hr', ht, hne]
      · simp [hr', ht, h.inverse]

theorem Inv.invalidateOne (h : Inv reg log) (r : RequestId) :
    Inv (reg.invalidateOne r) (.invalidated r :: log) := by
  unfold Registry.invalidateOne
  split
  · rename_i hr
    exact h.cold hr rfl (by simp)
  · rename_i s hr
    exact h.retire ((h.inverse r s).mp hr) rfl h.inverse rfl (fun _ _ => rfl) (fun _ _ => rfl)
      (by simp)

theorem inverse_assign (hr : reg.requestToState r = none)
    (hs : ∀ r', reg.requestToState r' ≠ some s)
    (hi : ∀ r t, t ≠ s → (reg.requestToState r = some t ↔ reg.stateToRequest t = some r)) :
    ∀ r' t, (reg.assign r s).requestToState r' = some t ↔
      (reg.assign r s).stateToRequest t = some r' := by
  intro r' t
  simp only [assign, update_apply]
  by_cases ht : t = s
  · by_cases hr' : r' = r
    · simp [ht, hr']
    · simp [ht, hr', hs r', Ne.symm hr']
  · by_cases hr' : r' = r
    · have hne : reg.stateToRequest t ≠ some r := by
        intro ho
        rw [(hi r t ht).mpr ho] at hr
        cases hr
      simp [ht, hr', hne, Ne.symm ht]
    · simp [ht, hr', hi r' t ht]

theorem Inv.assign_free (h : Inv reg log) (hr : reg.requestToState r = none)
    (hs : reg.stateToRequest s = none) : Inv (reg.assign r s) log := by
  have hf : ∀ r', reg.requestToState r' ≠ some s := by
    intro r' hst
    rw [(h.inverse r' s).mp hst] at hs
    cases hs
  refine h.append_colds (· ≠ s) [] (inverse_assign hr hf fun r t _ => h.inverse r t)
    (fun t ht => ⟨update_of_ne ht .., update_of_ne ht .., update_of_ne ht ..,
      fun _ _ e he => absurd he not_mem_nil⟩) (fun t ht => ?_) (by simp) (by simp)
  obtain rfl := not_not.mp ht
  refine ⟨by simp [assign], fun r' ho => ?_⟩
  rw [hs] at ho
  cases ho

theorem Inv.assign_evict (h : Inv reg log) {old : RequestId} {ba : List RequestId}
    (hr : reg.requestToState r = none) (hs : reg.stateToRequest s = some old) (hold : old ∉ ba) :
    Inv (({ reg with requestToState := update reg.requestToState old none } :
      Registry n ς).assign r s) (.evicted old ba :: log) := by
  refine h.retire hs rfl (inverse_assign ?_ ?_ ?_) rfl (fun t ht => update_of_ne ht _ _)
    (fun t ht => update_of_ne ht _ _) ?_
  · simp only [update_apply]
    split
    · rfl
    · exact hr
  · intro r' hst
    simp only [update_apply] at hst
    split at hst
    · cases hst
    · rename_i hne
      exact hne (Option.some.inj (((h.inverse r' s).mp hst).symm.trans hs))
  · intro r' t ht
    simp only [update_apply]
    split
    · rename_i heq
      have hne : reg.stateToRequest t ≠ some r' := fun ho => ht (h.owner_inj ho (heq ▸ hs))
      simp [hne]
    · exact h.inverse r' t
  · intro r' bt' heq
    cases heq
    exact hold

end Invariant

/-! ## 4. A batch is bound -/

section Bind

variable {n : Nat} {ς : Type} [DecidableEq ς] {reg : Registry n ς} {log : List (Entry n ς)}
  {r : RequestId}
  {sig : Option ς} {ss : List (Option ς)} {s : Fin n} {ba : List RequestId}
  {b : Registry.Binding n ς}

@[simp] theorem touch_requestToState : (reg.touch s sig).requestToState = reg.requestToState := by
  unfold touch
  split <;> rfl

@[simp] theorem touch_stateToRequest : (reg.touch s sig).stateToRequest = reg.stateToRequest := by
  unfold touch
  split <;> rfl

@[simp] theorem touch_signatures : (reg.touch s sig).signatures = update reg.signatures s sig := by
  unfold touch
  split
  · rfl
  · rename_i heq
    rw [← not_not.mp heq, update_eq_self]

theorem touch_generations_of_eq (h : reg.signatures s = sig) :
    (reg.touch s sig).generations = reg.generations := by
  unfold touch
  rw [if_neg (not_not.mpr h)]

theorem touch_generations_of_ne (h : reg.signatures s ≠ sig) :
    (reg.touch s sig).generations = update reg.generations s (reg.generations s + 1) := by
  unfold touch
  rw [if_pos h]

theorem touch_generations_of_state_ne {t : Fin n} (h : t ≠ s) :
    (reg.touch s sig).generations t = reg.generations t := by
  by_cases hs : reg.signatures s = sig
  · rw [touch_generations_of_eq hs]
  · rw [touch_generations_of_ne hs, update_of_ne h]

theorem le_touch_generations (t : Fin n) : reg.generations t ≤ (reg.touch s sig).generations t := by
  by_cases ht : t = s
  · by_cases hs : reg.signatures s = sig
    · rw [touch_generations_of_eq hs]
    · rw [touch_generations_of_ne hs, ht, update_self]
      omega
  · rw [touch_generations_of_state_ne ht]

variable (h : Inv reg log)
include h

theorem Inv.lt_touch (hne : reg.signatures s ≠ sig) {r : RequestId} {si' : Option ς}
    {nw od : List (Entry n ς)} :
    log ≠ nw ++ .returned r si' s ((reg.touch s sig).generations s) :: od := by
  intro hl
  have hle := h.le_of_split hl
  rw [touch_generations_of_ne hne, update_self] at hle
  omega

theorem Inv.of_touch {r : RequestId} {si' : Option ς} {t : Fin n} {nw od : List (Entry n ς)}
    (hl : log = nw ++ .returned r si' t ((reg.touch s sig).generations t) :: od) :
    log = nw ++ .returned r si' t (reg.generations t) :: od ∧
      (reg.touch s sig).signatures t = reg.signatures t := by
  by_cases hsig : reg.signatures s = sig
  · rw [touch_generations_of_eq hsig] at hl
    exact ⟨hl, by rw [touch_signatures, ← hsig, update_eq_self]⟩
  · have ht : t ≠ s := by
      rintro rfl
      exact h.lt_touch hsig hl
    rw [touch_generations_of_ne hsig, update_of_ne ht] at hl
    exact ⟨hl, by rw [touch_signatures, update_of_ne ht]⟩

theorem Inv.touch (hr : reg.requestToState r = some s) (sig : Option ς) : Inv (reg.touch s sig)
      (.returned r sig s ((reg.touch s sig).generations s) :: log) := by
  have hs := (h.inverse r s).mp hr
  refine ⟨fun r' t => ?_, fun {r' si' t g} hm => ?_,
    fun {nw od r' si' t} hl => ?_,
    fun {nw od r' si' t g} hl hu hun => ?_,
    ⟨fun {nw mid od r₁ r₂ sig₁ sig₂ t g} hl => ?_,
      fun {nw mid od r₁ sig₁ t t' g g'} hl hu hun => ?_,
      fun r' ba hm => ?_⟩⟩
  · rw [touch_requestToState, touch_stateToRequest]
    exact h.inverse r' t
  · cases mem_cons.mp hm with
    | inl heq => cases heq; exact le_rfl
    | inr hm => exact (h.le hm).trans (le_touch_generations t)
  · rw [touch_stateToRequest]
    obtain ⟨rfl, heq⟩ | ⟨ne', rfl, hre⟩ := cons_eq_append_iff.mp hl
    · cases heq
      exact ⟨hs, by rw [touch_signatures, update_self], fun e he => absurd he not_mem_nil⟩
    · obtain ⟨hold, hsig⟩ := h.of_touch hre
      obtain ⟨ho, hsig', hu⟩ := h.current hold
      refine ⟨ho, hsig.trans hsig', ?_⟩
      exact forall_mem_cons.mpr ⟨by simp [Entry.cold], hu⟩
  · rw [touch_stateToRequest]
    obtain ⟨rfl, heq⟩ | ⟨ne', rfl, hre⟩ := cons_eq_append_iff.mp hl
    · cases heq
      exact ⟨hs, by rw [touch_signatures, update_self], rfl⟩
    · obtain ⟨ho, hsig, hg⟩ := h.latest hre (forall_mem_cons.mp hu).2
        fun _ _ _ hm => hun _ _ _ (mem_cons_of_mem _ hm)
      -- the latest pair of `r` is now the new one, so this is another request's state
      have ht : t ≠ s := by
        intro heq
        subst heq
        cases Option.some.inj (ho.symm.trans hs)
        exact hun _ _ _ mem_cons_self
      exact ⟨ho, by rw [touch_signatures, update_of_ne ht, hsig],
        by rw [touch_generations_of_state_ne ht, hg]⟩
  · obtain ⟨rfl, heq⟩ | ⟨ne', rfl, hre⟩ := cons_eq_append_iff.mp hl
    · cases heq
      obtain ⟨hold, hsig⟩ := h.of_touch rfl
      obtain ⟨ho, hsig', hu⟩ := h.current hold
      rw [touch_signatures, update_self] at hsig
      exact ⟨Option.some.inj (hs.symm.trans ho), hsig.trans hsig', hu⟩
    · exact h.sound.fresh hre
  · obtain ⟨rfl, heq⟩ | ⟨ne', rfl, hre⟩ := cons_eq_append_iff.mp hl
    · cases heq
      obtain ⟨ho, hsig, hg⟩ := h.latest rfl hu hun
      have ht := h.owner_inj hs ho
      subst ht
      exact ⟨rfl, by rw [touch_generations_of_eq hsig, hg]⟩
    · exact h.sound.stable hre hu hun
  · exact h.sound.evicted r' ba ((mem_cons.mp hm).resolve_left (by simp))

def evictions (old : Option RequestId) (batch : List RequestId) : List (Entry n ς) :=
  (old.map fun owner => Entry.evicted owner batch).toList

/-- A request has got a state, which was `old`'s. -/
structure Given (reg reg' : Registry n ς) (batch : List RequestId) (r : RequestId) (s : Fin n)
    (old : Option RequestId) : Prop where
  gets : reg'.requestToState r = some s
  keeps : ∀ r' t, reg.requestToState r' = some t → reg'.requestToState r' = some t ∨ old = some r'
  takes : ∀ r' t, reg'.requestToState r' = some t → r' = r ∨ reg.requestToState r' = some t
  evicts : ∀ o, old = some o →
    o ∉ batch ∧ reg.requestToState o ≠ none ∧ reg'.requestToState o = none

omit [DecidableEq ς] in
theorem Inv.candidates_ne_nil (hf : reg.freeState = none) (hr : reg.requestToState r = none)
    (hm : r ∈ ba) (hl : ba.length ≤ n) : reg.candidates ba ≠ [] := by
  intro hn
  have how : ∀ s, ∃ ow ∈ ba, reg.stateToRequest s = some ow := by
    intro s
    have hso : ¬ (reg.stateToRequest s).isNone = true :=
      find?_eq_none.mp hf s (mem_finRange s)
    have hb := filter_eq_nil_iff.mp hn s (mem_finRange s)
    cases hs : reg.stateToRequest s with
    | none => simp [hs] at hso
    | some ow => exact ⟨ow, by simpa [hs] using hb, rfl⟩
  choose ow hb ho using how
  have hi : Injective ow := fun s t heq => h.owner_inj (ho s) (heq ▸ ho t)
  have hnot : r ∉ Finset.univ.image ow := by
    intro hr'
    obtain ⟨s, -, hs⟩ := Finset.mem_image.mp hr'
    have hst := (h.inverse r s).mpr (hs ▸ ho s)
    rw [hr] at hst
    cases hst
  have hsub : insert r (Finset.univ.image ow) ⊆ ba.toFinset := by
    intro r' hr'
    rw [mem_toFinset]
    cases Finset.mem_insert.mp hr' with
    | inl heq => exact heq ▸ hm
    | inr hr' =>
      obtain ⟨s, -, hs⟩ := Finset.mem_image.mp hr'
      exact hs ▸ hb s
  have hc := Finset.card_le_card hsub
  rw [Finset.card_insert_of_notMem hnot, Finset.card_image_of_injective _ hi, Finset.card_univ,
    Fintype.card_fin] at hc
  have hd := ba.toFinset_card_le
  omega

omit [DecidableEq ς] in
theorem Inv.allocate (hr : reg.requestToState r = none) (hm : r ∈ ba) (hl : ba.length ≤ n) :
    ∃ s old reg', reg.allocate r ba = .ok (s, old, reg') ∧
      Inv reg' (evictions old ba ++ log) ∧ Given reg reg' ba r s old := by
  unfold Registry.allocate
  cases hf : reg.freeState with
  | some s =>
    have hs : reg.stateToRequest s = none := by
      simpa using find?_some hf
    refine ⟨s, none, _, rfl, h.assign_free hr hs, update_self .., fun r' t ht => ?_,
      fun r' t ht => ?_, nofun⟩
    · have hne : r' ≠ r := by
        rintro rfl
        simp [hr] at ht
      exact .inl ((update_of_ne hne ..).trans ht)
    · exact Classical.or_iff_not_imp_left.2 fun hne => (update_of_ne hne ..).symm.trans ht
  | none =>
    have hne := h.candidates_ne_nil hf hr hm hl
    obtain ⟨s, hs⟩ : ∃ s, (reg.candidates ba).argmin reg.lastUsed = some s := by
      rw [← Option.isSome_iff_exists, Option.isSome_iff_ne_none, ne_eq, argmin_eq_none]
      exact hne
    have hc := argmin_mem hs
    obtain ⟨old, hold⟩ : ∃ old, reg.stateToRequest s = some old := by
      have hso := find?_eq_none.mp hf s (mem_finRange s)
      exact Option.ne_none_iff_exists'.mp (by simpa using hso)
    have hb : old ∉ ba := by
      simpa [candidates, hold] using hc
    have hk : (reg.requestToState old).isNone = false := by
      rw [(h.inverse old s).mpr hold]
      rfl
    have hne : old ≠ r := fun heq => hb (heq ▸ hm)
    refine ⟨s, some old, _, ?_, h.assign_evict hr hold hb, update_self .., fun r' t ht => ?_,
      fun r' t ht => ?_, ?_⟩
    · simp only [hs, hold, hk]
      rfl
    · simp only [assign, update_apply]
      grind
    · simp only [assign, update_apply] at ht
      grind
    · rintro o ⟨⟩
      exact ⟨hb, by rw [(h.inverse old s).mpr hold]; exact nofun, by simp [assign, hne]⟩

omit [DecidableEq ς] in
theorem Inv.stateOf (hm : r ∈ ba) (hl : ba.length ≤ n) :
    ∃ s old reg', reg.stateOf r ba = .ok (s, old, reg') ∧
      Inv reg' (evictions old ba ++ log) ∧ Given reg reg' ba r s old := by
  unfold Registry.stateOf
  cases hr : reg.requestToState r with
  | some s => exact ⟨s, none, reg, rfl, h, hr, fun _ _ => .inl, fun _ _ => .inr, nofun⟩
  | none => exact h.allocate hr hm hl

omit h

/-- The loop of `bind` so far: the invariant, every row still holds its state, nobody outside the
    batch has got one, and what was entered. -/
structure BindInv (reg : Registry n ς) (log : List (Entry n ς)) (batch : List RequestId)
    (signatures : List (Option ς)) (b : Registry.Binding n ς) : Prop where
  inv : Inv b.registry b.log
  mem : ∀ row ∈ b.rows, row.1 ∈ batch
  rows : ∀ row ∈ b.rows, b.registry.requestToState row.1 = some row.2.1
  outside : ∀ r t, b.registry.requestToState r = some t → r ∈ batch ∨ reg.requestToState r = some t
  length : b.rows.length = signatures.length
  entered : ∃ new, b.log = new ++ log ∧ Entered reg b.registry batch b.rows signatures new

omit [DecidableEq ς] in
theorem BindInv.nodup_states (h : BindInv reg log ba ss b) (hn : (b.rows.map fst).Nodup) :
    (b.rows.map fun row => row.2.1).Nodup := by
  rw [nodup_map_iff_inj_on hn.of_map]
  intro row hr row' hr' heq
  refine inj_on_of_nodup_map hn hr hr' ?_
  have ho := (h.inv.inverse _ _).mp (h.rows row hr)
  have ho' := (h.inv.inverse _ _).mp (h.rows row' hr')
  rw [heq] at ho
  exact Option.some.inj (ho.symm.trans ho')

omit [DecidableEq ς] in
theorem Entered.row {rows : List (RequestId × Fin n × Nat)} {new : List (Entry n ς)}
    {reg₁ reg₂ : Registry n ς} {old : Option RequestId} (h : Entered reg reg₁ ba rows ss new)
    (hg : Given reg₁ reg₂ ba r s old) (hr : r ∈ ba) (hl : rows.length = ss.length)
    (hnew : ∀ r, Entry.evicted r ba ∈ new → r ∉ ba)
    (ho : ∀ r t, reg₁.requestToState r = some t → r ∈ ba ∨ reg.requestToState r = some t)
    (sig : Option ς) (g : Nat) : Entered reg reg₂ ba (rows ++ [(r, s, g)]) (ss ++ [sig])
      (.returned r sig s g :: (evictions old ba ++ new)) := by
  refine ⟨?_, fun e he r' hc => ?_, fun r' t ht => ?_⟩
  · have hcold : (evictions old ba : List (Entry n ς)).filter (·.cold.isNone) = [] := by
      cases old <;> simp [evictions, Entry.cold]
    rw [filter_cons_of_pos (by rfl), filter_append, hcold, nil_append, h.returned,
      zipWith_append hl, reverse_append]
    rfl
  · rcases mem_cons.1 he with rfl | he
    · cases hc
    rcases mem_append.1 he with he | hmem
    · -- the request that is evicted here had its state before the call
      obtain ⟨o, ho', rfl⟩ := Option.map_eq_some_iff.1 (Option.mem_toList.1 he)
      cases hc
      obtain ⟨hb, hs, hn⟩ := hg.evicts _ ho'
      obtain ⟨t, ht⟩ := Option.ne_none_iff_exists'.1 hs
      exact ⟨rfl, by rw [(ho _ t ht).resolve_left hb]; exact nofun, hn⟩
    · obtain ⟨rfl, hs, hn⟩ := h.lost e hmem r' hc
      refine ⟨rfl, hs, Option.eq_none_iff_forall_ne_some.2 fun t ht => ?_⟩
      rcases hg.takes r' t ht with rfl | ht
      · exact hnew _ hmem hr
      · simp [hn] at ht
  · rcases h.kept r' t ht with hk | he
    · refine (hg.keeps r' t hk).imp_right fun heq => ?_
      simp [evictions, heq]
    · exact .inr (by simp [he])

theorem BindInv.bindRow (h : BindInv reg log ba ss b) (hm : r ∈ ba) (hl : ba.length ≤ n)
    (sig : Option ς) : ∃ b', Registry.bindRow ba b (r, sig) = .ok b' ∧
      BindInv reg log ba (ss ++ [sig]) b' ∧ b'.rows.map fst = b.rows.map fst ++ [r] := by
  obtain ⟨s, old, reg', hs, hi, hg⟩ := h.inv.stateOf hm hl
  obtain ⟨new, hlog, he⟩ := h.entered
  have hnew : ∀ r, Entry.evicted r ba ∈ new → r ∉ ba := fun r hr =>
    h.inv.sound.evicted r ba (hlog ▸ mem_append_left _ hr)
  refine ⟨_, by rw [Registry.bindRow, hs, ok_bind]; rfl, ⟨hi.touch hg.gets sig, ?_, ?_, ?_,
    by simp [h.length], .returned r sig s ((reg'.touch s sig).generations s) ::
      (evictions old ba ++ new), by simp [hlog, evictions], ?_⟩, by simp⟩
  · intro row hrow
    cases mem_append.mp hrow with
    | inl hrow => exact h.mem row hrow
    | inr hrow =>
      rw [mem_singleton.mp hrow]
      exact hm
  · intro row hrow
    rw [touch_requestToState]
    cases mem_append.mp hrow with
    | inl hrow =>
      refine (hg.keeps _ _ (h.rows row hrow)).resolve_right fun ho => ?_
      exact (hg.evicts _ ho).1 (h.mem row hrow)
    | inr hrow =>
      rw [mem_singleton.mp hrow]
      exact hg.gets
  · intro r' t ht
    rw [touch_requestToState] at ht
    exact (hg.takes r' t ht).elim (fun heq => .inl (heq ▸ hm)) (h.outside r' t)
  · have hrow := he.row hg hm h.length hnew h.outside sig ((reg'.touch s sig).generations s)
    exact ⟨hrow.returned, by simpa using hrow.lost, by simpa using hrow.kept⟩

theorem BindInv.foldlM (h : BindInv reg log ba ss b) (hl : ba.length ≤ n)
    (rs : List (RequestId × Option ς)) (hm : ∀ row ∈ rs, row.1 ∈ ba) :
    ∃ b', rs.foldlM (Registry.bindRow ba) b = .ok b' ∧
      BindInv reg log ba (ss ++ rs.map snd) b' ∧
      b'.rows.map fst = b.rows.map fst ++ rs.map fst := by
  induction rs generalizing b ss with
  | nil => exact ⟨b, rfl, by simpa using h, by simp⟩
  | cons row rs ih =>
    obtain ⟨b₁, hb₁, hinv₁, hs₁⟩ := h.bindRow (hm row mem_cons_self) hl row.2
    obtain ⟨b', hb', hi', hr'⟩ := ih hinv₁ fun row' hrow' => hm row' (mem_cons_of_mem _ hrow')
    refine ⟨b', ?_, by simpa using hi', ?_⟩
    · rw [foldlM_cons, hb₁]
      exact hb'
    · rw [hr', hs₁, append_assoc]
      rfl

/-- **A valid batch is bound**: a row for each request, in distinct states. -/
theorem Inv.bind (h : Inv reg log) {ids : List RequestId} {ss : List (Option ς)}
    (hv : (RegistryCall.bind ids ss).Valid n) :
    ∃ b new, reg.bind log ids ss = .ok b ∧ Inv b.registry b.log ∧
      b.rows.map fst = ids ∧ (b.rows.map fun row => row.2.1).Nodup ∧
      b.log = new ++ log ∧ Entered reg b.registry ids b.rows ss new := by
  obtain ⟨hn, hl, hs⟩ := hv
  have hf : (ids.zip ss).map fst = ids := map_fst_zip hs.le
  have hf' : (ids.zip ss).map snd = ss := map_snd_zip hs.ge
  have hst : BindInv reg log ids [] (⟨reg, [], log⟩ : Registry.Binding n ς) :=
    ⟨h, by simp, by simp, fun _ _ => .inr, rfl, [], rfl, rfl, by simp, fun _ _ => .inl⟩
  obtain ⟨b, hb, hi, hr⟩ := hst.foldlM hl (ids.zip ss) fun row hrow => (of_mem_zip hrow).1
  have hids : b.rows.map fst = ids := by simpa [hf] using hr
  obtain ⟨new, hlog, he⟩ := hi.entered
  rw [nil_append, hf'] at he
  refine ⟨b, new, ?_, hi.inv, hids, hi.nodup_states (hids ▸ hn), hlog, he⟩
  rw [Registry.bind, if_neg (not_not.mpr hs), if_neg (not_lt.mpr hl)]
  exact hb

end Bind

/-! ## 5. Runs -/

section Runs

variable {n : Nat} {ς : Type} [DecidableEq ς] {reg : Registry n ς} {log : List (Entry n ς)}

omit [DecidableEq ς] in
theorem Inv.foldl {f : Registry n ς → RequestId → Registry n ς} {en : RequestId → Entry n ς}
    (hf : ∀ {reg log} r, Inv reg log → Inv (f reg r) (en r :: log)) (h : Inv reg log)
    (ids : List RequestId) : Inv (ids.foldl f reg) (ids.reverse.map en ++ log) := by
  induction ids generalizing reg log with
  | nil => exact h
  | cons r ids ih =>
    rw [reverse_cons, map_append, append_assoc]
    exact ih (hf r h)

theorem Inv.perform (h : Inv reg log) {c : RegistryCall ς} (hv : c.Valid n) :
    ∃ l, perform (reg, log) c = .ok l ∧ Inv l.1 l.2 := by
  cases c with
  | bind ids ss =>
    obtain ⟨b, -, hb, hi, -⟩ := h.bind hv
    refine ⟨(b.registry, b.log), ?_, hi⟩
    rw [Resident.perform, hb]
    rfl
  | release ids => exact ⟨_, rfl, h.foldl (fun r h => h.releaseOne r) ids⟩
  | invalidate ids => exact ⟨_, rfl, h.foldl (fun r h => h.invalidateOne r) ids⟩

theorem Inv.run (h : Inv reg log) {cs : List (RegistryCall ς)} (hv : ∀ call ∈ cs, call.Valid n) :
    ∃ l, cs.foldlM Resident.perform (reg, log) = .ok l ∧ Inv l.1 l.2 := by
  induction cs generalizing reg log with
  | nil => exact ⟨_, rfl, h⟩
  | cons call cs ih =>
    obtain ⟨l, hl, hi⟩ := h.perform (hv call mem_cons_self)
    obtain ⟨l', hl', hi'⟩ := ih hi fun call' hc => hv call' (mem_cons_of_mem _ hc)
    refine ⟨l', ?_, hi'⟩
    rw [foldlM_cons, hl]
    exact hl'

/-- **Resident states are never inherited.** After any valid calls, binding a batch of distinct
    requests, no more than there are states, returns a row for each, in distinct states, and enters
    the rows and the evictions into a history that stays sound. -/
theorem states_not_inherited (n : Nat) (calls : List (RegistryCall ς)) (ids : List RequestId)
    (signatures : List (Option ς)) (hcalls : ∀ call ∈ calls, call.Valid n)
    (hbatch : (RegistryCall.bind ids signatures).Valid n) :
    ∃ reg log b new, registryRun n calls = .ok (reg, log) ∧ reg.bind log ids signatures = .ok b ∧
      b.rows.map fst = ids ∧ (b.rows.map fun row => row.2.1).Nodup ∧ Sound b.log ∧
      b.log = new ++ log ∧ Entered reg b.registry ids b.rows signatures new := by
  obtain ⟨l, hl, hi⟩ := (inv_init n ς).run hcalls
  obtain ⟨b, new, hb, hi', hids, hs, hnew⟩ := hi.bind hbatch
  exact ⟨l.1, l.2, b, new, hl, hb, hids, hs, hi'.sound, hnew⟩

/-- Two states and three requests: the third batch evicts a request of the first. -/
theorem states_not_inherited_three :
    ∃ reg log b new, registryRun 2 [.bind ["a"] [some 7], .bind ["b"] [some 8],
        .invalidate ["b"]] = .ok (reg, log) ∧ reg.bind log ["b", "c"] [some 8, some 7] = .ok b ∧
      b.rows.map fst = ["b", "c"] ∧ (b.rows.map fun row => row.2.1).Nodup ∧ Sound b.log ∧
      b.log = new ++ log ∧
      Entered reg b.registry ["b", "c"] b.rows [some 8, some 7] new := by
  refine states_not_inherited 2 _ ["b", "c"] [some 8, some 7] ?_ ?_
  · intro call hc
    fin_cases hc <;> simp [RegistryCall.Valid]
  · simp [RegistryCall.Valid]

end Runs

end VllmDual.Resident
