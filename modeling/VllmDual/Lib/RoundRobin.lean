/-
  Subject:   ITEMS DEALT TO HANDS IN TURN.

  Item `j` goes to hand `j % k`, where it is number `j / k`. A window of the items gives every hand
  a window of its own:

  * `share`, `lt_share_iff` -- how many of the first items a hand gets;
  * `hand`, `hand_eq_map` -- the items of a window that a hand gets, and their numbers there;
  * `perm_flatMap_hand` -- dealing to `q * k` hands refines dealing to `k` hands;
  * `givers`, `length_givers_eq_iff` -- the hands behind one of the `k` hands that get anything.
-/
import Mathlib

namespace RoundRobin

open List Nat

variable {k lo hi n r i j x q mid : Nat}

/-- How many of the first `n` items go to hand `r`. -/
def share (k n r : Nat) : Nat := n / k + if r < n % k then 1 else 0

/-- **The shares count**: number `i` of hand `r` is one of the first `n` items exactly when it is
    within the share. -/
theorem lt_share_iff (hr : r < k) : i < share k n r ↔ r + i * k < n := by
  have hd := div_add_mod n k
  have hmod := mod_lt n (by omega : 0 < k)
  rw [mul_comm] at hd
  unfold share
  rcases Nat.lt_trichotomy i (n / k) with hlt | rfl | hgt
  · have hm : (i + 1) * k ≤ n / k * k := Nat.mul_le_mul_right k hlt
    rw [add_mul] at hm
    exact ⟨fun _ => by omega, fun _ => by omega⟩
  · split <;> omega
  · have hm : (n / k + 1) * k ≤ i * k := Nat.mul_le_mul_right k hgt
    rw [add_mul] at hm
    refine ⟨fun h => ?_, fun h => ?_⟩
    · split at h <;> omega
    · omega

theorem share_mono (hr : r < k) (h : lo ≤ hi) : share k lo r ≤ share k hi r := by
  by_contra hlt
  have hlo := (lt_share_iff hr).mp (not_le.mp hlt)
  exact lt_irrefl _ ((lt_share_iff hr).mpr (hlo.trans_le h))

theorem share_zero (k r : Nat) : share k 0 r = 0 := by simp [share]

theorem share_mul (hk : 0 < k) (q r : Nat) : share k (q * k) r = q := by
  simp [share, Nat.mul_div_cancel q hk]

@[simp] theorem add_mul_mod (hr : r < k) (i : Nat) : (r + i * k) % k = r := by
  rw [add_mul_mod_self_right, mod_eq_of_lt hr]

@[simp] theorem add_mul_div (hr : r < k) (i : Nat) : (r + i * k) / k = i := by
  rw [add_mul_div_right _ _ (by omega : 0 < k), div_eq_of_lt hr, zero_add]

theorem place_lt (hx : x < k) (hi : i < q) : x + i * k < q * k := by
  have hm : (i + 1) * k ≤ q * k := Nat.mul_le_mul_right _ hi
  rw [add_mul] at hm
  omega

/-! ## The hands of a window -/

theorem eq_of_increasing {l l' : List Nat} (h : l.Pairwise (· < ·)) (h' : l'.Pairwise (· < ·))
    (hm : ∀ j, j ∈ l ↔ j ∈ l') : l = l' :=
  Perm.eq_of_pairwise (fun _ _ _ _ hab hba => absurd hab hba.asymm) h h'
    ((perm_ext_iff_of_nodup (h.imp Nat.ne_of_lt) (h'.imp Nat.ne_of_lt)).mpr hm)

theorem range'_append_window (h₁ : lo ≤ mid) (h₂ : mid ≤ hi) :
    range' lo (mid - lo) ++ range' mid (hi - mid) = range' lo (hi - lo) := by
  have ha := @range'_append_1 lo (mid - lo) (hi - mid)
  rwa [Nat.add_sub_cancel' h₁, show mid - lo + (hi - mid) = hi - lo by omega] at ha

/-- The items from `lo` up to `hi` that go to hand `r`, in order. -/
def hand (k lo hi r : Nat) : List Nat := (range' lo (hi - lo)).filter (· % k = r)

theorem mem_hand : j ∈ hand k lo hi r ↔ lo ≤ j ∧ j < hi ∧ j % k = r := by
  rw [hand, mem_filter, mem_range'_1, decide_eq_true_eq]
  omega

theorem hand_sorted (k lo hi r : Nat) : (hand k lo hi r).Pairwise (· < ·) :=
  Pairwise.filter _ (pairwise_lt_range' ..)

theorem nodup_hand (k lo hi r : Nat) : (hand k lo hi r).Nodup :=
  (hand_sorted k lo hi r).imp Nat.ne_of_lt

theorem hand_eq_map (hr : r < k) :
    hand k lo hi r = (range (share k hi r - share k lo r)).map
      fun x => r + (share k lo r + x) * k := by
  have hs : ((range (share k hi r - share k lo r)).map
      fun x => r + (share k lo r + x) * k).Pairwise (· < ·) := by
    refine pairwise_map.mpr (pairwise_lt_range.imp fun {x y} hxy => ?_)
    have hmul : (share k lo r + x) * k < (share k lo r + y) * k :=
      Nat.mul_lt_mul_of_pos_right (by omega) (by omega)
    omega
  refine eq_of_increasing (hand_sorted k lo hi r) hs fun j => ?_
  rw [mem_hand, mem_map]
  constructor
  · intro ⟨hlo, hhi, hm⟩
    have hj : r + j / k * k = j := by rw [← hm, mod_add_div']
    have hge : share k lo r ≤ j / k := by
      by_contra hlt
      have := (lt_share_iff hr).mp (not_le.mp hlt)
      omega
    have hlt : j / k < share k hi r := (lt_share_iff hr).mpr (by omega)
    refine ⟨j / k - share k lo r, mem_range.mpr (by omega), ?_⟩
    rw [Nat.add_sub_cancel' hge, hj]
  · intro ⟨x, hx, hj⟩
    have hx := mem_range.mp hx
    subst hj
    refine ⟨?_, (lt_share_iff hr).mp (by omega), add_mul_mod hr _⟩
    by_contra hlt
    have := (lt_share_iff hr).mpr (not_le.mp hlt)
    omega

theorem length_hand (hr : r < k) : (hand k lo hi r).length = share k hi r - share k lo r := by
  rw [hand_eq_map hr, length_map, length_range]

theorem filter_range (hr : r < k) :
    (range n).filter (· % k = r) = (range (share k n r)).map fun x => r + x * k := by
  have h : hand k 0 n r = _ := hand_eq_map hr
  simpa [hand, share_zero, ← range_eq_range'] using h

theorem lt_length_hand_iff (hr : r < k) :
    x < (hand k lo hi r).length ↔ r + (share k lo r + x) * k < hi := by
  rw [length_hand hr, ← lt_share_iff hr]
  omega

theorem first_bounds (hr : r < k) : lo ≤ r + share k lo r * k ∧ r + share k lo r * k < lo + k := by
  refine ⟨not_lt.mp fun h => lt_irrefl _ ((lt_share_iff hr).mpr h), ?_⟩
  cases hs : share k lo r with
  | zero => omega
  | succ s =>
    have h := (lt_share_iff hr).mp (show s < share k lo r by omega)
    rw [add_mul]
    omega

theorem lt_ceilDiv_iff (hk : 0 < k) : i < n ⌈/⌉ k ↔ i * k < n := by
  rw [← not_le, ceilDiv_le_iff_le_mul hk, not_le, mul_comm]

theorem le_ceilDiv_mul (hk : 0 < k) : n ≤ n ⌈/⌉ k * k := by
  rw [mul_comm]
  exact (ceilDiv_le_iff_le_mul hk).mp le_rfl

theorem div_le_ceilDiv (hk : 0 < k) (h : i ≤ n) : i / k ≤ n ⌈/⌉ k :=
  Nat.le_of_mul_le_mul_right ((div_mul_le_self i k).trans (h.trans (le_ceilDiv_mul hk))) hk

theorem ceilDiv_sub_mul {c : Nat} (hk : 0 < k) : (n - c * k) ⌈/⌉ k = n ⌈/⌉ k - c := by
  refine eq_of_forall_lt_iff fun i => ?_
  rw [lt_ceilDiv_iff hk, Nat.lt_sub_iff_add_lt, Nat.lt_sub_iff_add_lt, lt_ceilDiv_iff hk, add_mul]

theorem ceilDiv_ceilDiv (hk : 0 < k) (hq : 0 < q) : n ⌈/⌉ k ⌈/⌉ q = n ⌈/⌉ (k * q) := by
  refine eq_of_forall_lt_iff fun i => ?_
  rw [lt_ceilDiv_iff hq, lt_ceilDiv_iff hk, lt_ceilDiv_iff (Nat.mul_pos hk hq), mul_assoc,
    mul_comm q]

theorem length_hand_le (hr : r < k) : (hand k lo hi r).length ≤ (hi - lo) ⌈/⌉ k := by
  by_contra hlt
  have h := (lt_length_hand_iff hr).mp (not_le.mp hlt)
  have hf : lo ≤ r + share k lo r * k := (first_bounds hr).1
  have hc := mt (lt_ceilDiv_iff (n := hi - lo) (by omega : 0 < k)).mpr (lt_irrefl _)
  rw [add_mul] at h
  omega

theorem length_hand_last (hk : 0 < k) (h : lo < hi) :
    (hand k lo hi ((hi - 1) % k)).length = (hi - lo) ⌈/⌉ k := by
  have hr := mod_lt (hi - 1) hk
  refine le_antisymm (length_hand_le hr) (not_lt.mp fun hlt => ?_)
  have hin := (lt_ceilDiv_iff hk).mp hlt
  have ho : ¬(hi - 1) % k + (share k lo ((hi - 1) % k) + (hand k lo hi ((hi - 1) % k)).length)
      * k < hi :=
    mt (lt_length_hand_iff hr).mpr (lt_irrefl _)
  have hf : (hi - 1) % k + share k lo ((hi - 1) % k) * k < lo + k := (first_bounds hr).2
  -- the number after the hand's last one is behind the last item, but less than a round behind
  have hl := mod_add_div' (hi - 1) k
  generalize (hand k lo hi ((hi - 1) % k)).length = x at hin ho
  generalize share k lo ((hi - 1) % k) = s at ho hf
  rcases Nat.lt_or_ge ((hi - 1) / k) (s + x) with hgt | hle
  · have hm := Nat.mul_le_mul_right k (show (hi - 1) / k + 1 ≤ s + x from hgt)
    rw [add_mul, one_mul] at hm
    rw [add_mul] at hm ho
    omega
  · have hm := Nat.mul_le_mul_right k hle
    omega

theorem getLast?_hand (h : lo < hi) : (hand k lo hi ((hi - 1) % k)).getLast? = some (hi - 1) := by
  have hs : range' lo (hi - lo) = range' lo (hi - 1 - lo) ++ [hi - 1] := by
    rw [show hi - lo = hi - 1 - lo + 1 by omega, range'_1_concat]
    congr 2
    omega
  rw [hand, hs, filter_append, filter_cons_of_pos (by simp), filter_nil, getLast?_concat]

theorem perm_flatMap_hand {d : Nat} (hq : 0 < q) (hd : d < k) :
    ((range q).flatMap fun s => hand (q * k) lo hi (d + s * k)).Perm (hand k lo hi d) := by
  have hk : 0 < k := by omega
  refine (perm_ext_iff_of_nodup ?_ (nodup_hand ..)).mpr fun j => ?_
  · refine nodup_flatMap.mpr ⟨fun s _ => nodup_hand .., ?_⟩
    refine pairwise_lt_range.imp fun {s t} hst j hs ht => ?_
    have hm : s * k < t * k := Nat.mul_lt_mul_of_pos_right hst hk
    have := (mem_hand.mp hs).2.2.symm.trans (mem_hand.mp ht).2.2
    omega
  · rw [mem_flatMap, mem_hand]
    constructor
    · intro ⟨s, _, hj⟩
      obtain ⟨hlo, hhi, hj⟩ := mem_hand.mp hj
      refine ⟨hlo, hhi, ?_⟩
      rw [← mod_mul_left_mod j q k, hj, add_mul_mod hd]
    · intro ⟨hlo, hhi, hj⟩
      have hlt : j % (q * k) / k < q :=
        (Nat.div_lt_iff_lt_mul hk).mpr (mod_lt _ (Nat.mul_pos hq hk))
      refine ⟨j % (q * k) / k, mem_range.mpr hlt, mem_hand.mpr ⟨hlo, hhi, ?_⟩⟩
      rw [← hj, ← mod_mul_left_mod j q k]
      exact (mod_add_div' _ k).symm

theorem perm_flatMap_hand_all (hk : 0 < k) (lo hi : Nat) :
    ((range k).flatMap (hand k lo hi)).Perm (range' lo (hi - lo)) := by
  have h : ((range k).flatMap fun s => hand (k * 1) lo hi (0 + s * 1)).Perm (hand 1 lo hi 0) :=
    perm_flatMap_hand hk one_pos
  have ha : hand 1 lo hi 0 = range' lo (hi - lo) := by simp [hand, mod_one]
  simpa only [mul_one, zero_add, ha] using h

/-! ## The hands that get anything -/

theorem hand_ne_nil_iff : hand k lo hi r ≠ [] ↔ ∃ j, lo ≤ j ∧ j < hi ∧ j % k = r := by
  simp only [← mem_hand]
  exact ⟨exists_mem_of_ne_nil _, fun ⟨_, hj⟩ => ne_nil_of_mem hj⟩

theorem hand_ne_nil_of_le (hr : r < k) (h : k + lo ≤ hi) : hand k lo hi r ≠ [] := by
  have hf : lo ≤ r + share k lo r * k ∧ r + share k lo r * k < lo + k := first_bounds hr
  exact hand_ne_nil_iff.mpr ⟨_, hf.1, by omega, add_mul_mod hr _⟩

theorem add_le_of_mod_eq (h : i % k = j % k) (hlt : i < j) : i + k ≤ j := by
  have hd : k ∣ j - i := dvd_of_mod_eq_zero (sub_mod_eq_zero_of_mod_eq h.symm)
  have := le_of_dvd (by omega) hd
  omega

theorem hand_append (h₁ : lo ≤ mid) (h₂ : mid ≤ hi) :
    hand k lo mid r ++ hand k mid hi r = hand k lo hi r := by
  rw [hand, hand, ← filter_append, range'_append_window h₁ h₂, hand]

/-- The hands of a dealing to `R` behind hand `d` of a dealing to `k` that get an item of the
    window. -/
def givers (R k lo hi d : Nat) : List Nat := (range R).filter fun x => x % k = d ∧
    hand R lo hi x ≠ []

section

variable {R d : Nat}

theorem mem_givers {x : Nat} :
    x ∈ givers R k lo hi d ↔ x < R ∧ x % k = d ∧ hand R lo hi x ≠ [] := by
  rw [givers, mem_filter, mem_range, decide_eq_true_eq]

theorem givers_ne_nil (hR : 0 < R) (hd : k ∣ R) (h : hand k lo hi d ≠ []) :
    givers R k lo hi d ≠ [] := by
  obtain ⟨j, hlo, hhi, hm⟩ := hand_ne_nil_iff.mp h
  have hx : j % R ∈ givers R k lo hi d :=
    mem_givers.mpr ⟨mod_lt _ hR, by rw [mod_mod_of_dvd _ hd, hm],
      hand_ne_nil_iff.mpr ⟨j, hlo, hhi, rfl⟩⟩
  exact ne_nil_of_mem hx

theorem length_filter_mod (hd : d < k) (hdvd : k ∣ R) :
    ((range R).filter (· % k = d)).length = R / k := by
  have hm : R % k = 0 := mod_eq_zero_of_dvd hdvd
  rw [filter_range hd, length_map, length_range, share, hm, if_neg (Nat.not_lt_zero d), add_zero]

theorem length_givers_eq_div_iff (hd : d < k) (hdvd : k ∣ R) :
    (givers R k lo hi d).length = R / k ↔ ∀ x < R, x % k = d → hand R lo hi x ≠ [] := by
  have hs : givers R k lo hi d = ((range R).filter (· % k = d)).filter (hand R lo hi · ≠ []) := by
    rw [filter_filter, givers]
    exact filter_congr fun x _ => by rw [Bool.and_comm, Bool.decide_and]
  rw [← length_filter_mod hd hdvd, hs, length_filter_eq_length_iff]
  simp only [mem_filter, mem_range, decide_eq_true_eq, and_imp]

theorem givers_eq_hand (h : hi ≤ R) : givers R k lo hi d = hand k lo hi d := by
  refine eq_of_increasing (Pairwise.filter _ pairwise_lt_range) (hand_sorted ..) fun x => ?_
  rw [mem_givers, mem_hand, hand_ne_nil_iff]
  constructor
  · rintro ⟨-, hm, j, hlo, hhi, rfl⟩
    rw [mod_eq_of_lt (hhi.trans_le h)] at hm ⊢
    exact ⟨hlo, hhi, hm⟩
  · rintro ⟨hlo, hhi, hm⟩
    exact ⟨hhi.trans_le h, hm, x, hlo, hhi, mod_eq_of_lt (hhi.trans_le h)⟩

theorem length_givers_eq_share_iff (hd : d < k) (hR : hi ≤ R) (h : lo ≤ hi) :
    (givers R k lo hi d).length = share k (lo + hi) d - share k lo d ↔
      hand k hi (lo + hi) d = [] := by
  rw [givers_eq_hand hR, ← length_hand hd, ← hand_append h (Nat.le_add_left hi lo), length_append,
    ← length_eq_zero_iff]
  omega

theorem length_givers_eq_iff (hk : 0 < k) (hR : 0 < R) (hdvd : k ∣ R) (h : lo < hi) :
    (∀ d < k, hand k lo hi d ≠ [] →
      (givers R k lo hi d).length = if R ≤ hi then R / k else share k (lo + hi) d - share k lo d) ↔
    lo = 0 ∨ R = k ∨ R + lo ≤ hi ∨ hi ≤ k := by
  have hkR : k ≤ R := le_of_dvd hR hdvd
  constructor
  · intro ha
    by_contra hno
    -- an item whose successor in its hand is behind the window, but not a round of `R` behind
    have hj : lo ≤ max lo (hi - k) ∧ max lo (hi - k) < hi ∧ hi ≤ max lo (hi - k) + k ∧
        max lo (hi - k) + k < R + lo ∧ max lo (hi - k) + k < lo + hi := by omega
    generalize max lo (hi - k) = j at hj
    have hd := ha (j % k) (mod_lt _ hk) (hand_ne_nil_iff.mpr ⟨j, hj.1, hj.2.1, rfl⟩)
    split at hd
    · have hx := (length_givers_eq_div_iff (mod_lt _ hk) hdvd).mp hd ((j + k) % R) (mod_lt _ hR)
        (by rw [mod_mod_of_dvd _ hdvd, add_mod_right])
      obtain ⟨i, hlo, hhi, hm⟩ := hand_ne_nil_iff.mp hx
      have := add_le_of_mod_eq hm (by omega)
      omega
    · have hn := (length_givers_eq_share_iff (mod_lt _ hk) (by omega) h.le).mp hd
      exact hand_ne_nil_iff.mpr ⟨j + k, hj.2.2.1, hj.2.2.2.2, add_mod_right ..⟩ hn
  · intro hc d hd hr
    split
    · refine (length_givers_eq_div_iff hd hdvd).mpr fun x hx hm => ?_
      by_cases heq : R = k
      · subst heq
        rw [mod_eq_of_lt hx] at hm
        exact hm ▸ hr
      · exact hand_ne_nil_of_le hx (by omega)
    · rw [length_givers_eq_share_iff hd (by omega) h.le]
      by_contra hne
      obtain ⟨i, hilo, hihi, him⟩ := hand_ne_nil_iff.mp hne
      obtain ⟨j, hlo, hhi, hm⟩ := hand_ne_nil_iff.mp hr
      have := add_le_of_mod_eq (hm.trans him.symm) (by omega)
      omega

end

end RoundRobin
