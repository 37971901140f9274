/-
  Subject:   COUNTERS THAT FIRE ONCE.

  A machine is ticked by some of the events of a list and fires at some ticks. If its states can be
  numbered so that only the `n`-th tick fires, then however the ticks are spread over the events:

  * `Fires` -- the numbering; `Fires.feed` -- the events fire exactly when they hold the `n`-th
    tick;
  * `tick`, `fires_tick` -- a counter that the first tick creates and the last one removes;
  * `finished`, `finished_eq_iff` -- several machines whose firing ticks another one.
-/
import Mathlib

namespace Countdown

open Finset Countdown

variable {σ : Type}

def feed (step : σ → σ × Bool) : σ → List Bool → σ × Bool
  | s, [] => (s, false)
  | s, false :: events => feed step s events
  | s, true :: events =>
    let (s', fired) := step s
    let (s'', firedLater) := feed step s' events
    (s'', fired || firedLater)

/-- `rep d` is the state after `d` ticks, and of the first `n` ticks only the last fires. -/
def Fires (step : σ → σ × Bool) (n : Nat) (rep : Nat → σ) : Prop :=
  ∀ d < n, step (rep d) = (rep (d + 1), decide (d + 1 = n))

variable {step : σ → σ × Bool} {n d : Nat} {rep : Nat → σ} {s : σ} {es es' : List Bool}

theorem Fires.feed (h : Fires step n rep) (hd : d + es.count true ≤ n) :
    feed step (rep d) es = (rep (d + es.count true), decide (d < n ∧ d + es.count true = n)) := by
  induction es generalizing d with
  | nil =>
    have hno : ¬(d < n ∧ d = n) := by omega
    simp [feed, hno]
  | cons b es ih =>
    cases b with
    | false => simpa [feed] using ih (by simpa using hd)
    | true =>
      rw [List.count_cons_self] at hd ⊢
      simp only [feed, h d (by omega), ih (d := d + 1) (by omega)]
      refine Prod.ext (congrArg rep (by omega)) ?_
      rw [← Bool.decide_or, decide_eq_decide]
      omega

theorem feed_append : feed step s (es ++ es')
    = ((feed step (feed step s es).1 es').1,
      (feed step s es).2 || (feed step (feed step s es).1 es').2) := by
  induction es generalizing s with
  | nil => simp [feed]
  | cons b es ih =>
    cases b with
    | false => simpa [feed] using ih
    | true => simp [feed, ih, Bool.or_assoc]

/-- A tick of a counter that starts at `start`, exists from its first tick on, and is removed by the
    tick that brings it to zero. -/
def tick (start : Int) (c : Option Int) : Option Int × Bool :=
  if c.getD start - 1 = 0 then (none, true) else (some (c.getD start - 1), false)

/-- The counter after `d` of `n` ticks. -/
def remaining (n d : Nat) : Option Int := if d = 0 ∨ n ≤ d then none else some (n - d)

theorem fires_tick : Fires (tick n) n (remaining n) := by
  intro d hd
  have hg : (remaining n d).getD n = (n : Int) - d := by
    unfold remaining
    by_cases h0 : d = 0
    · simp [h0]
    · rw [if_neg (by omega)]
      rfl
  by_cases hl : d + 1 = n
  · have ho : (n : Int) - d - 1 = 0 := by omega
    rw [tick, hg, if_pos ho, remaining, if_pos (by omega), decide_eq_true hl]
  · have hm : ¬((n : Int) - d - 1 = 0) := by omega
    rw [tick, hg, if_neg hm, remaining, if_neg (by omega), decide_eq_false hl, Nat.cast_add,
      Nat.cast_one, sub_sub]

/-! ## Countdowns behind a countdown -/

section Nested

variable {W : Nat} {ns ns' : Fin W → Nat}

/-- How many of the machines have had all of their `n` ticks. -/
def finished (n : Nat) (counts : Fin W → Nat) : Nat :=
  (Finset.univ.filter fun w => 0 < n ∧ n ≤ counts w).card

theorem count_ofFn (b : Fin W → Bool) : (List.ofFn b).count true = ∑ w, (b w).toNat := by
  induction W with
  | zero => rfl
  | succ W ih =>
    rw [List.ofFn_succ, Fin.sum_univ_succ, ← ih]
    cases b 0
    · simp
    · simp [add_comm]

theorem finished_add_count (hm : ∀ w, ns w ≤ ns' w) (hle : ∀ w, ns' w ≤ n) :
    finished n ns + (List.ofFn fun w => decide (ns w < n ∧ ns' w = n)).count true
      = finished n ns' := by
  rw [count_ofFn, finished, finished, card_filter, card_filter, ← sum_add_distrib]
  refine sum_congr rfl fun w _ => ?_
  have hw := hm w
  have hw' := hle w
  by_cases hold : 0 < n ∧ n ≤ ns w
  · have hn : 0 < n ∧ n ≤ ns' w := ⟨hold.1, hold.2.trans hw⟩
    have hno : ¬(ns w < n ∧ ns' w = n) := fun h => absurd hold.2 (by omega)
    simp [hold, hn, hno]
  · by_cases hn : 0 < n ∧ n ≤ ns' w
    · have hy : ns w < n ∧ ns' w = n := by omega
      simp [hn, hy]
    · have hno : ¬(ns w < n ∧ ns' w = n) := by omega
      simp [hold, hn, hno]

theorem finished_le (ns : Fin W → Nat) : finished n ns ≤ W := by
  simpa [finished] using card_filter_le Finset.univ fun w => 0 < n ∧ n ≤ ns w

theorem finished_eq_iff (hn : 0 < n) (hle : ∀ w, ns w ≤ n) :
    finished n ns = W ↔ ∑ w, ns w = n * W := by
  have ha : finished n ns = W ↔ ∀ w, ns w = n := by
    have hc := card_filter_eq_iff (s := (Finset.univ : Finset (Fin W)))
      (p := fun w => 0 < n ∧ n ≤ ns w)
    rw [card_univ, Fintype.card_fin] at hc
    rw [finished, hc]
    constructor
    · intro h w
      exact le_antisymm (hle w) (h w (mem_univ w)).2
    · intro h w _
      exact ⟨hn, (h w).ge⟩
  have hs : ∑ _w : Fin W, n = n * W := by simp [mul_comm]
  rw [ha, ← hs, sum_eq_sum_iff_of_le fun w _ => hle w]
  simp

theorem sum_le_mul (hle : ∀ w, ns w ≤ n) : ∑ w, ns w ≤ n * W := by
  have h := sum_le_sum fun w (_ : w ∈ Finset.univ) => hle w
  simpa [mul_comm] using h

end Nested

theorem existsUnique_reaches {c : Nat → Nat} (hm : Monotone c) {len : Nat} (h0 : c 0 < n)
    (hl : c len = n) : ∃! k, k < len ∧ c k < n ∧ c (k + 1) = n := by
  have hex : ∃ j, c j = n := ⟨len, hl⟩
  obtain ⟨j, hj, hmin⟩ : ∃ j, c j = n ∧ ∀ i < j, c i ≠ n :=
    ⟨Nat.find hex, Nat.find_spec hex, fun i hi => Nat.find_min hex hi⟩
  have hp : j ≠ 0 := fun h => absurd (h ▸ hj) h0.ne
  obtain ⟨k, rfl⟩ := Nat.exists_eq_succ_of_ne_zero hp
  have hk : c k < n :=
    lt_of_le_of_ne (hj ▸ hm k.le_succ) (hmin k k.lt_succ_self)
  refine ⟨k, ⟨?_, hk, hj⟩, fun k' ⟨_, hk', hr⟩ => ?_⟩
  · by_contra hge
    exact absurd (hm (not_lt.mp hge)) (by omega)
  · -- a later step starts at `n`, and an earlier one does not reach it
    have hle : ¬k + 1 ≤ k' := fun h => absurd (hm h) (by rw [Nat.succ_eq_add_one] at hj; omega)
    have hge : ¬k' + 1 < k + 1 := fun h => hmin (k' + 1) h hr
    omega

end Countdown
