/-
  Subject:   CHAINED DIGESTS: every digest is made from the one before it and one item.

  * `chain H p items` -- the digests of a list of items, from the parent `p` on;
  * `chain_append` -- a chain goes on from its last digest;
  * `chain_injective` -- with an injective digest, a chain determines its items;
  * `chain_meet` -- two chains from one root that share a digest share their first item, whatever
    the places of the digest in them.
-/
import Mathlib

namespace VllmDual.Chain

open List

variable {α β : Type*}

def chain (H : α → β → α) : α → List β → List α
  | _, [] => []
  | p, b :: items => H p b :: chain H (H p b) items

section

variable {H : α → β → α} (p : α)

@[simp] theorem chain_nil : chain H p [] = [] := rfl

@[simp] theorem chain_cons (b : β) (it : List β) :
    chain H p (b :: it) = H p b :: chain H (H p b) it := rfl

@[simp] theorem length_chain (it : List β) : (chain H p it).length = it.length := by
  induction it generalizing p with
  | nil => rfl
  | cons b it ih => rw [chain_cons, length_cons, length_cons, ih]

theorem chain_append (it m : List β) :
    chain H p (it ++ m) = chain H p it ++ chain H ((chain H p it).getLastD p) m := by
  induction it generalizing p with
  | nil => rfl
  | cons b it ih => rw [cons_append, chain_cons, chain_cons, ih, cons_append, getLastD_cons]

theorem take_chain (it : List β) (n : Nat) : (chain H p it).take n = chain H p (it.take n) := by
  induction it generalizing p n with
  | nil => rw [take_nil, chain_nil, take_nil]
  | cons b it ih =>
    cases n with
    | zero => rfl
    | succ n => rw [chain_cons, take_succ_cons, take_succ_cons, chain_cons, ih]

/-- The parent of the digest at index `i`. -/
def parentAt (digests : List α) (i : Nat) : α := (p :: digests).getD i p

variable {p x : α} {i : Nat} {it : List β}

theorem parentAt_cons {ds : List α} (hi : i ≤ ds.length) :
    parentAt p (x :: ds) (i + 1) = parentAt x ds i := by
  have hlt : i < (x :: ds).length := Nat.lt_succ_of_le hi
  rw [parentAt, parentAt, getD_cons_succ, getD_eq_getElem _ _ hlt, getD_eq_getElem _ _ hlt]

theorem getElem?_chain (p : α) (it : List β) (i : Nat) :
    (chain H p it)[i]? = it[i]?.map (H (parentAt p (chain H p it) i)) := by
  induction it generalizing p i with
  | nil => rfl
  | cons b it ih =>
    cases i with
    | zero => rfl
    | succ i =>
      rw [chain_cons, getElem?_cons_succ, getElem?_cons_succ, ih]
      cases him : it[i]? with
      | none => rfl
      | some b' =>
        have hi : i < it.length := (List.getElem?_eq_some_iff.mp him).1
        rw [parentAt_cons (by rw [length_chain]; exact hi.le)]

theorem eq_chain_iff (p : α) (ds : List α) (it : List β) :
    ds = chain H p it ↔ ds.length = it.length ∧ ∀ i, ds[i]? = it[i]?.map (H (parentAt p ds i)) := by
  constructor
  · rintro rfl
    exact ⟨length_chain p it, getElem?_chain p it⟩
  · rintro ⟨hl, he⟩
    induction it generalizing p ds with
    | nil => exact length_eq_zero_iff.mp hl
    | cons b it ih =>
      cases ds with
      | nil => cases hl
      | cons x ds =>
        have hx : x = H p b := Option.some.inj (he 0)
        subst hx
        rw [chain_cons, ← ih (H p b) ds (Nat.succ.inj hl) fun i => ?_]
        have hi := he (i + 1)
        rw [getElem?_cons_succ, getElem?_cons_succ] at hi
        rw [hi]
        cases him : it[i]? with
        | none => rfl
        | some b' =>
          have hlt : i < it.length := (List.getElem?_eq_some_iff.mp him).1
          rw [parentAt_cons ((Nat.succ.inj hl).symm ▸ hlt.le)]

theorem getElem?_chain_succ (h : (chain H p it)[i + 1]? = some x) :
    ∃ q b, (chain H p it)[i]? = some q ∧ x = H q b := by
  have hlt : i < (chain H p it).length := Nat.lt_of_succ_lt (List.getElem?_eq_some_iff.mp h).1
  rw [getElem?_chain, Option.map_eq_some_iff] at h
  obtain ⟨b, -, rfl⟩ := h
  refine ⟨_, b, getElem?_eq_getElem hlt, ?_⟩
  rw [parentAt, getD_cons_succ, getD_eq_getElem _ _ hlt]

theorem getElem?_chain_zero (h : (chain H p it)[0]? = some x) :
    ∃ b, it[0]? = some b ∧ x = H p b := by
  rw [getElem?_chain, Option.map_eq_some_iff] at h
  exact h.imp fun b hb => ⟨hb.1, hb.2.symm⟩

end

/-! ## Injective digests -/

section Injective

variable {H : α → β → α} (hinj : ∀ p b p' b', H p b = H p' b' → p = p' ∧ b = b')

include hinj

theorem chain_injective (p : α) : Function.Injective (chain H p) := by
  intro it im' heq
  induction it generalizing p im' with
  | nil =>
    cases im' with
    | nil => rfl
    | cons b' im' => cases heq
  | cons b it ih =>
    cases im' with
    | nil => cases heq
    | cons b' im' =>
      rw [chain_cons, chain_cons] at heq
      have hh := head_eq_of_cons_eq heq
      obtain rfl := (hinj _ _ _ _ hh).2
      rw [ih (H p b) (tail_eq_of_cons_eq heq)]

theorem chain_meet {p : α} (hr : ∀ q b, H q b ≠ p) {it im' : List β} {i j : Nat} {x : α}
    (hi : (chain H p it)[i]? = some x) (hj : (chain H p im')[j]? = some x) :
    i = j ∧ it[0]? = im'[0]? := by
  -- every digest of a chain is one
  have hd : ∀ (l : List β) (n : Nat), (chain H p l)[n]? ≠ some p := by
    intro l n h
    rw [getElem?_chain, Option.map_eq_some_iff] at h
    obtain ⟨b, -, heq⟩ := h
    exact hr _ _ heq
  induction i generalizing j x with
  | zero =>
    obtain ⟨b, hb, rfl⟩ := getElem?_chain_zero hi
    cases j with
    | zero =>
      obtain ⟨b', hb', heq⟩ := getElem?_chain_zero hj
      exact ⟨rfl, by rw [hb, hb', (hinj _ _ _ _ heq).2]⟩
    | succ j =>
      obtain ⟨q, b', hq, heq⟩ := getElem?_chain_succ hj
      rw [← (hinj _ _ _ _ heq).1] at hq
      exact absurd hq (hd im' j)
  | succ i ih =>
    obtain ⟨q, b, hq, rfl⟩ := getElem?_chain_succ hi
    cases j with
    | zero =>
      obtain ⟨b', -, heq⟩ := getElem?_chain_zero hj
      rw [(hinj _ _ _ _ heq).1] at hq
      exact absurd hq (hd it i)
    | succ j =>
      obtain ⟨q', b', hq', heq⟩ := getElem?_chain_succ hj
      rw [← (hinj _ _ _ _ heq).1] at hq'
      exact (ih hq hq').imp_left (congrArg Nat.succ)

theorem take_of_chain_meet {p : α} (hr : ∀ q b, H q b ≠ p) {it im' : List β} {i : Nat} {x : α}
    (hi : (chain H p it)[i]? = some x) (hj : (chain H p im')[i]? = some x) :
    it.take (i + 1) = im'.take (i + 1) := by
  induction i generalizing x with
  | zero => rw [take_one, take_one, head?_eq_getElem?, head?_eq_getElem?,
    (chain_meet hinj hr hi hj).2]
  | succ i ih =>
    obtain ⟨q, b, hq, rfl⟩ := getElem?_chain_succ hi
    obtain ⟨q', b', hq', heq⟩ := getElem?_chain_succ hj
    obtain rfl := (hinj _ _ _ _ heq).1
    rw [getElem?_chain, Option.map_eq_some_iff] at hi hj
    obtain ⟨a, ha, hx⟩ := hi
    obtain ⟨a', ha', hx'⟩ := hj
    rw [take_add_one, take_add_one (l := im'), ih hq hq', ha, ha',
      (hinj _ _ _ _ (hx.trans hx'.symm)).2]

end Injective

end VllmDual.Chain
